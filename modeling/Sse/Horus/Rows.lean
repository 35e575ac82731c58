import Sse.Horus.Rounds

/-!
# What Horus holds about one keyword

The row of a keyword is what the state holds about it: its counters, the entries of its pairs
and slots, and its boxes.  A call changes the row of its own keyword only (`step_row_other`).
For its own keyword, each part of a call is an update of the row:

    insert     pair := "slot#acc", slot := "ind#acc", box (slot, S, acc) := ind        (row_fillSlot)
    remove     the same for the last ind at the freed slot                             (row_fillHole)
    search     the tops of the ladders of S as boxes of S + 1                          (search_spec)
-/

namespace Sse.Horus

open Orion (Op live Valid)

/-- What a state holds about one keyword. -/
@[ext]
structure Row where
  updtCnt : Option Int32
  srchCnt : Option Int32
  access : Option Int32
  lastIND : Option Int32
  latestUpdatedCounter : Option Int32
  pair : Int32 → Option Str
  slot : Int32 → Option Str
  box : Int32 → Int32 → Int32 → Option Str

/-- The row of a keyword. -/
def State.row (st : State) (w : Str) : Row where
  updtCnt := st.updtCnt w
  srchCnt := st.srchCnt w
  access := st.access w
  lastIND := st.lastIND w
  latestUpdatedCounter := st.latestUpdatedCounter w
  pair := fun ind => st.updt (createMapBid 0 w ind)
  slot := fun i => st.updt (createMapBid 1 w i)
  box := fun u s a => st.srch (createBid w u s a)

/-- One box of a row. -/
def setBox (box : Int32 → Int32 → Int32 → Option Str) (u s a : Int32) (value : Str) :
    Int32 → Int32 → Int32 → Option Str :=
  fun u' s' a' => if u' = u ∧ s' = s ∧ a' = a then some value else box u' s' a'

section

variable {st : State} {w w' : Str}

/-! ## Other keywords -/

theorem row_insertNode_other (hw : Valid w) (hw' : Valid w') (hne : w ≠ w') (t : UInt8) (x : Int32) (v : Str) :
    (st.insertNode (createMapBid t w' x) v).row w = st.row w := by
  have hkey : ∀ t' a, createMapBid t' w a ≠ createMapBid t w' x := fun t' a h =>
    padTo_ne hw hw' hne (by decide) (createMapBid_eq_iff.1 h).2.1
  ext1 <;> first | rfl | exact funext fun a => Function.update_of_ne (hkey _ a) _ _

theorem row_writeBox_other (hw : Valid w) (hw' : Valid w') (hne : w ≠ w') (u s a : Int32) (v : Str) :
    (st.writeBox (createBid w' u s a) v).row w = st.row w := by
  have hkey : ∀ u' s' a', createBid w u' s' a' ≠ createBid w' u s a := fun u' s' a' h =>
    padTo_ne hw hw' hne (by decide) (createBid_eq_iff.1 h).1
  ext1 <;> first | rfl | exact funext fun u' => funext fun s' => funext fun a' => Function.update_of_ne (hkey u' s' a') _ _

theorem row_updtCnt_other (hne : w ≠ w') (v : Option Int32) :
    State.row { st with updtCnt := Function.update st.updtCnt w' v } w = st.row w := by
  ext1 <;> first | rfl | exact Function.update_of_ne hne _ _

theorem row_lastIND_other (hne : w ≠ w') (v : Option Int32) :
    State.row { st with lastIND := Function.update st.lastIND w' v } w = st.row w := by
  ext1 <;> first | rfl | exact Function.update_of_ne hne _ _

theorem row_latest_other (hne : w ≠ w') (v : Option Int32) :
    State.row { st with latestUpdatedCounter := Function.update st.latestUpdatedCounter w' v } w = st.row w := by
  ext1 <;> first | rfl | exact Function.update_of_ne hne _ _

theorem row_raiseAccess_other (hne : w ≠ w') (a : Int32) : (st.raiseAccess w' a).row w = st.row w := by
  ext1 <;> first | rfl | exact Function.update_of_ne hne _ _

theorem row_createCounters_other (hne : w ≠ w') : (st.createCounters w').row w = st.row w := by
  unfold State.createCounters
  cases hc : st.updtCnt w' with
  | some c =>
    cases ha : st.access w' with
    | some a => simp only [ha]
    | none => simp only [ha]; ext1 <;> first | rfl | exact Function.update_of_ne hne _ _
  | none =>
    cases ha : st.access w' with
    | some a => simp only [ha]; ext1 <;> first | rfl | exact Function.update_of_ne hne _ _
    | none => simp only [ha]; ext1 <;> first | rfl | exact Function.update_of_ne hne _ _

theorem row_fillSlot_other (hw : Valid w) (hw' : Valid w') (hne : w ≠ w') (ind cnt acc : Int32) :
    (fillSlot st w' ind cnt acc).row w = st.row w := by
  unfold fillSlot
  simp only
  rw [row_lastIND_other hne]
  split
  · split
    · rw [row_writeBox_other hw hw' hne, row_latest_other hne, row_writeBox_other hw hw' hne,
        row_insertNode_other hw hw' hne, row_insertNode_other hw hw' hne]
    · rw [row_latest_other hne, row_writeBox_other hw hw' hne, row_insertNode_other hw hw' hne,
        row_insertNode_other hw hw' hne]
  · rw [row_writeBox_other hw hw' hne, row_insertNode_other hw hw' hne, row_insertNode_other hw hw' hne]

theorem row_nextAccess_other (hne : w ≠ w') {cnt acc_cnt : Int32} {st' : State}
    (h : nextAccess st w' cnt = some (st', acc_cnt)) : st'.row w = st.row w := by
  unfold nextAccess at h
  simp only at h
  split at h
  · obtain ⟨rfl, -⟩ := Prod.mk.inj (Option.some.inj h)
    rfl
  · obtain ⟨acc, -, he⟩ := Option.map_eq_some_iff.1 h
    obtain ⟨rfl, -⟩ := Prod.mk.inj he
    exact row_raiseAccess_other hne _

theorem row_insert_other (hw : Valid w) (hw' : Valid w') (hne : w ≠ w') (ind : Int32) :
    (insert st w' ind).1.row w = st.row w := by
  unfold insert
  simp only
  split
  · set st1 := st.createCounters w'
    have h1 : st1.row w = st.row w := row_createCounters_other hne
    split
    · rw [row_updtCnt_other hne, h1]
    · next st3 acc_cnt h =>
      rw [row_fillSlot_other hw hw' hne, row_nextAccess_other hne h, row_updtCnt_other hne, h1]
  · rfl

theorem row_fillHole_other (hw : Valid w) (hw' : Valid w') (hne : w ≠ w') (u a : Int32) :
    (fillHole st w' u a).row w = st.row w := by
  unfold fillHole
  simp only
  rw [row_lastIND_other hne, row_insertNode_other hw hw' hne, row_insertNode_other hw hw' hne,
    row_writeBox_other hw hw' hne, row_raiseAccess_other hne]

theorem row_remove_other (hw : Valid w) (hw' : Valid w') (hne : w ≠ w') (ind : Int32) :
    (remove st w' ind).1.row w = st.row w := by
  unfold remove
  simp only
  split
  · rfl
  · split
    · split
      · rfl
      · next updt_cnt _ _ _ acc_cnt _ =>
        set cnt := (st.updtCnt w').getD 0 - 1
        set st1 : State := { st.insertNode (createMapBid 0 w' ind) (entry (-1) (acc_cnt + 1)) with
          updtCnt := Function.update st.updtCnt w' (some cnt) }
        have h1 : st1.row w = st.row w :=
          (row_updtCnt_other hne _).trans (row_insertNode_other hw hw' hne _ _ _)
        split
        · set st2 := if cnt + 1 ≠ updt_cnt then fillHole st1 w' updt_cnt (acc_cnt + 1) else st1 with hst2
          have h2 : st2.row w = st.row w := by
            rw [hst2]
            split
            · rw [row_fillHole_other hw hw' hne, h1]
            · exact h1
          split
          · exact h2
          · rw [row_lastIND_other hne, h2]
        · have h2 : State.row { st1 with lastIND := Function.update st1.lastIND w' none } w = st1.row w :=
            row_lastIND_other hne _
          exact h2.trans h1
    · rfl

/-- Every identifier gathered by a search is one of the keyword. -/
theorem row_batchWrite_other {q : List (Bid 24 × Str)}
    (h : ∀ e ∈ q, ∀ u s a, createBid w u s a ≠ e.1) : (st.batchWrite q).row w = st.row w := by
  induction q generalizing st with
  | nil => rfl
  | cons e q ih =>
    show State.row (State.batchWrite (st.writeBox e.1 e.2) q) w = st.row w
    rw [ih fun e' he' => h e' (List.mem_cons_of_mem _ he')]
    ext1 <;> first | rfl | exact funext fun u => funext fun s => funext fun a =>
      Function.update_of_ne (h e List.mem_cons_self u s a) _ _

/-! ## The keyword itself -/

theorem row_insertNode_pair (x : Int32) (v : Str) :
    (st.insertNode (createMapBid 0 w x) v).row w =
      { st.row w with pair := Function.update (st.row w).pair x (some v) } := by
  refine Row.ext rfl rfl rfl rfl rfl ?_ ?_ rfl
  · funext a
    show Function.update st.updt (createMapBid 0 w x) (some v) (createMapBid 0 w a) = _
    simp only [Function.update_apply, createMapBid_eq_iff, true_and]
    rfl
  · funext a
    show Function.update st.updt (createMapBid 0 w x) (some v) (createMapBid 1 w a) = _
    rw [Function.update_of_ne fun e => absurd (createMapBid_eq_iff.1 e).1 (by decide)]
    rfl

theorem row_insertNode_slot (i : Int32) (v : Str) :
    (st.insertNode (createMapBid 1 w i) v).row w =
      { st.row w with slot := Function.update (st.row w).slot i (some v) } := by
  refine Row.ext rfl rfl rfl rfl rfl ?_ ?_ rfl
  · funext a
    show Function.update st.updt (createMapBid 1 w i) (some v) (createMapBid 0 w a) = _
    rw [Function.update_of_ne fun e => absurd (createMapBid_eq_iff.1 e).1 (by decide)]
    rfl
  · funext a
    show Function.update st.updt (createMapBid 1 w i) (some v) (createMapBid 1 w a) = _
    simp only [Function.update_apply, createMapBid_eq_iff, true_and]
    rfl

theorem row_writeBox (u s a : Int32) (v : Str) :
    (st.writeBox (createBid w u s a) v).row w = { st.row w with box := setBox (st.row w).box u s a v } := by
  refine Row.ext rfl rfl rfl rfl rfl rfl rfl ?_
  funext u' s' a'
  show Function.update st.srch (createBid w u s a) (some v) (createBid w u' s' a') = _
  simp only [Function.update_apply, createBid_eq_iff, true_and]
  rfl

theorem row_updtCnt (v : Option Int32) :
    State.row { st with updtCnt := Function.update st.updtCnt w v } w = { st.row w with updtCnt := v } := by
  ext1 <;> first | rfl | exact Function.update_self _ _ _

theorem row_lastIND (v : Option Int32) :
    State.row { st with lastIND := Function.update st.lastIND w v } w = { st.row w with lastIND := v } := by
  ext1 <;> first | rfl | exact Function.update_self _ _ _

theorem row_latest (v : Option Int32) :
    State.row { st with latestUpdatedCounter := Function.update st.latestUpdatedCounter w v } w =
      { st.row w with latestUpdatedCounter := v } := by
  ext1 <;> first | rfl | exact Function.update_self _ _ _

/-- `Access[keyword]` raised to an access count. -/
def raised (access : Option Int32) (acc : Int32) : Int32 := if access.getD 0 < acc then acc else access.getD 0

theorem row_raiseAccess (a : Int32) :
    (st.raiseAccess w a).row w = { st.row w with access := some (raised (st.row w).access a) } := by
  ext1 <;> first | rfl | exact Function.update_self _ _ _

/-- The row with the counters an insert creates. -/
def Row.created (r : Row) : Row :=
  { r with
    updtCnt := some (r.updtCnt.getD 0)
    srchCnt := if r.updtCnt = none then some 0 else r.srchCnt
    latestUpdatedCounter := if r.updtCnt = none then some 0 else r.latestUpdatedCounter
    access := some (r.access.getD 1) }

theorem row_createCounters : (st.createCounters w).row w = (st.row w).created := by
  unfold State.createCounters Row.created
  have hcnt : (st.row w).updtCnt = st.updtCnt w := rfl
  have hacc : (st.row w).access = st.access w := rfl
  cases hc : st.updtCnt w with
  | some c =>
    cases ha : st.access w with
    | some a => simp only [ha]; ext1 <;> simp [State.row, hc, ha]
    | none => simp only [ha]; ext1 <;> simp [State.row, hc, ha]
  | none =>
    cases ha : st.access w with
    | some a => simp only [ha]; ext1 <;> simp [State.row, hc, ha]
    | none => simp only [ha]; ext1 <;> simp [State.row, hc, ha]

/-- The row after the writes of an insert. -/
def Row.fillSlot (r : Row) (ind cnt acc : Int32) : Row :=
  let s := r.srchCnt.getD 0
  let latest := r.latestUpdatedCounter.getD 0
  let box := setBox r.box cnt s acc (toStr ind.toInt)
  { r with
    lastIND := some ind
    latestUpdatedCounter := if latest < cnt then some (latest + 1) else r.latestUpdatedCounter
    pair := Function.update r.pair ind (some (entry cnt acc))
    slot := Function.update r.slot cnt (some (entry ind acc))
    box := if latest < cnt ∧ 1 < acc then setBox box cnt s 1 (pointer acc) else box }

theorem row_fillSlot (ind cnt acc : Int32) : (fillSlot st w ind cnt acc).row w = (st.row w).fillSlot ind cnt acc := by
  unfold fillSlot
  simp only
  rw [row_lastIND]
  have hlatest : ∀ s : State, (s.latestUpdatedCounter w).getD 0 = (s.row w).latestUpdatedCounter.getD 0 := fun _ => rfl
  have hsrch : (st.srchCnt w).getD 0 = (st.row w).srchCnt.getD 0 := rfl
  rw [hlatest, hsrch, row_writeBox, row_insertNode_slot, row_insertNode_pair]
  unfold Row.fillSlot
  simp only
  by_cases hlt : (st.row w).latestUpdatedCounter.getD 0 < cnt
  · rw [if_pos hlt, if_pos hlt]
    by_cases hacc : 1 < acc
    · rw [if_pos hacc, if_pos ⟨hlt, hacc⟩, row_writeBox, row_latest, row_writeBox, row_insertNode_slot,
        row_insertNode_pair]
    · rw [if_neg hacc, if_neg fun e => hacc e.2, row_latest, row_writeBox, row_insertNode_slot, row_insertNode_pair]
  · rw [if_neg hlt, if_neg hlt, if_neg fun e => hlt e.1, row_writeBox, row_insertNode_slot, row_insertNode_pair]

/-- The row after the swap of a removal. -/
def Row.fillHole (r : Row) (updt_cnt acc : Int32) : Row :=
  let last := r.lastIND.getD 0
  { r with
    access := some (raised r.access acc)
    lastIND := some last
    pair := Function.update r.pair last (some (entry updt_cnt acc))
    slot := Function.update r.slot updt_cnt (some (entry last acc))
    box := setBox r.box updt_cnt (r.srchCnt.getD 0) acc (toStr last.toInt) }

theorem row_fillHole (u acc : Int32) : (fillHole st w u acc).row w = (st.row w).fillHole u acc := by
  unfold fillHole
  simp only
  rw [row_lastIND, row_insertNode_slot, row_insertNode_pair, row_writeBox, row_raiseAccess]
  rfl

/-! ## Space -/

@[simp] theorem taken_writeBox (bid : Bid 24) (v : Str) :
    (st.writeBox bid v).taken = ⟨st.taken.nodes, st.taken.boxes + 1⟩ := rfl

@[simp] theorem taken_insertNode (key : Bid 24) (v : Str) :
    (st.insertNode key v).taken = ⟨st.taken.nodes + (if (st.updt key).isNone then 1 else 0), st.taken.boxes⟩ := rfl

@[simp] theorem taken_batchWrite (q : List (Bid 24 × Str)) :
    (st.batchWrite q).taken = ⟨st.taken.nodes, st.taken.boxes + q.length⟩ := by
  induction q generalizing st with
  | nil => rfl
  | cons e q ih =>
    show State.taken (State.batchWrite (st.writeBox e.1 e.2) q) = _
    rw [ih, taken_writeBox, List.length_cons]
    congr 1
    show st.taken.boxes + 1 + q.length = st.taken.boxes + (q.length + 1)
    omega

/-- What the writes of an insert take. -/
theorem taken_fillSlot (ind cnt acc : Int32) :
    (fillSlot st w ind cnt acc).taken =
      ⟨st.taken.nodes + ((if ((st.row w).pair ind).isNone then 1 else 0) +
          (if ((st.row w).slot cnt).isNone then 1 else 0)),
        st.taken.boxes + (1 + if (st.row w).latestUpdatedCounter.getD 0 < cnt ∧ 1 < acc then 1 else 0)⟩ := by
  have hslot : (st.insertNode (createMapBid 0 w ind) (entry cnt acc)).updt (createMapBid 1 w cnt) = (st.row w).slot cnt := by
    show Function.update st.updt (createMapBid 0 w ind) (some (entry cnt acc)) (createMapBid 1 w cnt) = _
    rw [Function.update_of_ne fun e => absurd (createMapBid_eq_iff.1 e).1 (by decide)]
    rfl
  have hpair : st.updt (createMapBid 0 w ind) = (st.row w).pair ind := rfl
  have hlatest : ∀ s : State, (s.latestUpdatedCounter w).getD 0 = (s.row w).latestUpdatedCounter.getD 0 := fun _ => rfl
  unfold fillSlot
  simp only
  rw [hlatest, row_writeBox, row_insertNode_slot, row_insertNode_pair]
  simp only
  by_cases hlt : (st.row w).latestUpdatedCounter.getD 0 < cnt
  · by_cases hacc : 1 < acc
    · simp only [hlt, hacc, if_true, and_self, taken_writeBox, taken_insertNode, hslot, hpair, Nat.add_assoc]
    · simp only [hlt, hacc, if_true, if_false, and_false, taken_writeBox, taken_insertNode, hslot, hpair, Nat.add_assoc]
  · simp only [hlt, if_false, false_and, taken_writeBox, taken_insertNode, hslot, hpair, Nat.add_assoc]

/-- What the swap of a removal takes. -/
theorem taken_fillHole (u acc : Int32) :
    (fillHole st w u acc).taken =
      ⟨st.taken.nodes + ((if ((st.row w).pair ((st.row w).lastIND.getD 0)).isNone then 1 else 0) +
          (if ((st.row w).slot u).isNone then 1 else 0)), st.taken.boxes + 1⟩ := by
  have hslot : ∀ (s : State) x v, (s.insertNode (createMapBid 0 w x) v).updt (createMapBid 1 w u) = (s.row w).slot u := by
    intro s x v
    show Function.update s.updt (createMapBid 0 w x) (some v) (createMapBid 1 w u) = _
    rw [Function.update_of_ne fun e => absurd (createMapBid_eq_iff.1 e).1 (by decide)]
    rfl
  unfold fillHole
  simp only [taken_insertNode, taken_writeBox, hslot, Nat.add_assoc]
  rw [row_writeBox, row_raiseAccess]
  rfl

/-! ## Search -/

theorem srch_batchWrite_of_notMem {q : List (Bid 24 × Str)} {key : Bid 24} (h : key ∉ q.map Prod.fst) :
    (st.batchWrite q).srch key = st.srch key := by
  induction q generalizing st with
  | nil => rfl
  | cons e q ih =>
    rw [List.map_cons, List.mem_cons, not_or] at h
    show (State.batchWrite (st.writeBox e.1 e.2) q).srch key = st.srch key
    rw [ih h.2]
    exact Function.update_of_ne h.1 _ _

theorem srch_batchWrite_of_mem {q : List (Bid 24 × Str)} (hn : (q.map Prod.fst).Nodup) {e : Bid 24 × Str} (he : e ∈ q) :
    (st.batchWrite q).srch e.1 = some e.2 := by
  induction q generalizing st with
  | nil => cases he
  | cons d q ih =>
    rw [List.map_cons, List.nodup_cons] at hn
    show (State.batchWrite (st.writeBox d.1 d.2) q).srch e.1 = some e.2
    rcases List.mem_cons.1 he with rfl | he
    · rw [srch_batchWrite_of_notMem hn.1]
      exact Function.update_self _ _ _
    · exact ih hn.2 he

/-- A search leaves everything but its counters and the boxes alone. -/
theorem batchWrite_frame (st : State) (q : List (Bid 24 × Str)) :
    (st.batchWrite q).updt = st.updt ∧ (st.batchWrite q).updtCnt = st.updtCnt ∧
      (st.batchWrite q).access = st.access ∧ (st.batchWrite q).lastIND = st.lastIND := by
  induction q generalizing st with
  | nil => exact ⟨rfl, rfl, rfl, rfl⟩
  | cons e q ih => exact ih (st.writeBox e.1 e.2)

section

variable {n A S : Nat} {lo hi : Nat → Nat} {val : Nat → Int32} {m : OMap} {s : Int32}

theorem mem_newBoxes_fst {i : Nat} {bid : Bid 24} :
    bid ∈ (newBoxes w s hi val i).map Prod.fst ↔
      bid = createBid w (Int32.ofNat (i + 1)) (s + 1) (Int32.ofNat (hi i)) ∨
        (1 < hi i ∧ bid = createBid w (Int32.ofNat (i + 1)) (s + 1) 1) := by
  unfold newBoxes
  by_cases h : 1 < hi i <;> simp [h]

/-- No identifier is gathered twice. -/
theorem nodup_scanOf (H : Ladders w s m n A lo hi val) {order : List Nat} (hp : order.Perm (List.range n)) :
    ((scanOf w s hi val order).batchWriteQueryID.map Prod.fst).Nodup := by
  have hlt : ∀ i ∈ order, i < n := fun i hi => List.mem_range.1 (hp.mem_iff.1 hi)
  have hnlt := H.n_lt
  unfold scanOf
  rw [List.map_flatMap, List.nodup_flatMap]
  constructor
  · intro i hi'
    have hin := hlt i hi'
    have hA := H.A_lt hin
    have hle := H.hi_le i hin
    unfold newBoxes
    by_cases h : 1 < hi i
    · rw [if_pos h, List.map_cons, List.map_singleton, List.nodup_cons]
      refine ⟨fun hm => ?_, List.nodup_singleton _⟩
      obtain ⟨-, -, -, he⟩ := createBid_eq_iff.1 (List.mem_singleton.1 hm)
      have := ofNat_inj_small (k := 1) (by omega) (by omega) he
      omega
    · rw [if_neg h]
      exact List.nodup_singleton _
  · refine (hp.nodup_iff.2 List.nodup_range).imp_of_mem fun {i j} hi' hj' hne => ?_
    intro bid hb1 hb2
    have h1 := hlt i hi'
    have h2 := hlt j hj'
    have hslot : Int32.ofNat (i + 1) = Int32.ofNat (j + 1) := by
      rcases mem_newBoxes_fst.1 hb1 with rfl | ⟨-, rfl⟩ <;>
        rcases mem_newBoxes_fst.1 hb2 with e | ⟨-, e⟩ <;> exact (createBid_eq_iff.1 e).2.1
    have := ofNat_inj_small (by omega) (by omega) hslot
    omega

/-- What the boxes of a search hold once they are written. -/
theorem srch_scanOf (st : State) (H : Ladders w s m n A lo hi val) {order : List Nat} (hp : order.Perm (List.range n)) :
    (∀ i < n, ∀ e ∈ newBoxes w s hi val i,
        (st.batchWrite (scanOf w s hi val order).batchWriteQueryID).srch e.1 = some e.2) ∧
      ∀ bid, (∀ i < n, bid ≠ createBid w (Int32.ofNat (i + 1)) (s + 1) (Int32.ofNat (hi i)) ∧
          (1 < hi i → bid ≠ createBid w (Int32.ofNat (i + 1)) (s + 1) 1)) →
        (st.batchWrite (scanOf w s hi val order).batchWriteQueryID).srch bid = st.srch bid := by
  constructor
  · intro i hin e he
    exact srch_batchWrite_of_mem (nodup_scanOf H hp)
      (List.mem_flatMap.2 ⟨i, hp.mem_iff.2 (List.mem_range.2 hin), he⟩)
  · intro bid hno
    apply srch_batchWrite_of_notMem
    intro hm
    rw [scanOf, List.map_flatMap, List.mem_flatMap] at hm
    obtain ⟨i, hio, hb⟩ := hm
    have hin := List.mem_range.1 (hp.mem_iff.1 hio)
    rcases mem_newBoxes_fst.1 hb with e | ⟨h1, e⟩
    · exact (hno i hin).1 e
    · exact (hno i hin).2 h1 e

/-- The boxes of a row after a search that found the tops `val` of the ladders. -/
structure Rewritten (w : Str) (n S : Nat) (hi : Nat → Nat) (val : Nat → Int32)
    (box box' : Int32 → Int32 → Int32 → Option Str) : Prop where
  tops : ∀ i < n, box' (Int32.ofNat (i + 1)) (Int32.ofNat (S + 1)) (Int32.ofNat (hi i)) = some (toStr (val i).toInt)
  foot : ∀ i < n, 1 < hi i →
    box' (Int32.ofNat (i + 1)) (Int32.ofNat (S + 1)) 1 = some (pointer (Int32.ofNat (hi i)))
  rest : ∀ u s a, (∀ i < n, u = Int32.ofNat (i + 1) → s = Int32.ofNat (S + 1) →
    a ≠ Int32.ofNat (hi i) ∧ (1 < hi i → a ≠ 1)) → box' u s a = box u s a

/-- The state in which `search` writes its boxes: what it has read of the counters is there now. -/
def State.probed (st : State) (w : Str) : State :=
  { st with
    updtCnt := bracket st.updtCnt w
    access := if 0 < (st.updtCnt w).getD 0 then bracket st.access w else st.access }

/-- **Search** on ladders: their tops in some order, and what is gathered in that order written. -/
theorem search_eq {fuel : Nat} (hf : 2 ^ 32 ≤ fuel) (hc : (st.updtCnt w).getD 0 = Int32.ofNat n)
    (hs : (st.srchCnt w).getD 0 = s) (hacc : n ≠ 0 → st.access w = some (Int32.ofNat A))
    (H : Ladders w s st.srch n A lo hi val) :
    ∃ order : List Nat, order.Perm (List.range n) ∧ search fuel st w =
      ({ (st.probed w).batchWrite (scanOf w s hi val order).batchWriteQueryID with
          srchCnt := Function.update st.srchCnt w (some (s + 1))
          latestUpdatedCounter :=
            Function.update st.latestUpdatedCounter w (some (Int32.ofNat n)) }, some (order.map val)) := by
  have hnlt := H.n_lt
  obtain ⟨order, hp, hrounds⟩ := rounds_spec H hf
  refine ⟨order, hp, ?_⟩
  have hrep : List.replicate n (⟨1, (st.access w).getD 0, 1, 0, [], false⟩ : Probe) =
      List.replicate n ⟨1, Int32.ofNat A, 1, 0, [], false⟩ := by
    by_cases h0 : n = 0
    · rw [h0]
      rfl
    · rw [hacc h0]
      rfl
  have hlen : (scanOf w s hi val order).result.length = n := by
    show (order.map val).length = n
    rw [List.length_map, hp.length_eq, List.length_range]
  unfold search
  simp only
  rw [hs, hc, toInt_ofNat_small (by omega), Int.toNat_natCast, hrep, hrounds]
  simp only
  rw [hlen, State.probed, hc]
  rfl

/-- **Search** on the row of its keyword, and on the others. -/
theorem search_spec {fuel : Nat} (hf : 2 ^ 32 ≤ fuel) (hcnt : (st.row w).updtCnt.getD 0 = Int32.ofNat n)
    (hsrch : (st.row w).srchCnt.getD 0 = Int32.ofNat S) (hacc : n ≠ 0 → (st.row w).access = some (Int32.ofNat A))
    (H : Ladders w (Int32.ofNat S) st.srch n A lo hi val) :
    ∃ (order : List Nat) (box' : Int32 → Int32 → Int32 → Option Str), order.Perm (List.range n) ∧
      (search fuel st w).2 = some (order.map val) ∧
      (search fuel st w).1.row w = { st.row w with
        updtCnt := some (Int32.ofNat n)
        srchCnt := some (Int32.ofNat (S + 1))
        latestUpdatedCounter := some (Int32.ofNat n)
        box := box' } ∧
      Rewritten w n S hi val (st.row w).box box' ∧
      (search fuel st w).1.taken = ⟨st.taken.nodes,
        st.taken.boxes + ((List.range n).map fun i => 1 + if 1 < hi i then 1 else 0).sum⟩ ∧
      ∀ w', Valid w → Valid w' → w' ≠ w → (search fuel st w).1.row w' = st.row w' := by
  have hnlt := H.n_lt
  have hc : (st.updtCnt w).getD 0 = Int32.ofNat n := hcnt
  obtain ⟨order, hp, hsearch⟩ := search_eq hf hc hsrch hacc H
  rw [ofNat_add_one] at hsearch
  set sc := scanOf w (Int32.ofNat S) hi val order with hsc
  set st1 := st.probed w with hst1
  obtain ⟨hupdt, hupdtCnt, haccess, hlast⟩ := batchWrite_frame st1 sc.batchWriteQueryID
  obtain ⟨hwritten, hkept⟩ := srch_scanOf st1 H hp
  rw [← hsc] at hwritten hkept
  refine ⟨order, fun u s a => (st1.batchWrite sc.batchWriteQueryID).srch (createBid w u s a), hp, ?_, ?_,
    ⟨?_, ?_, ?_⟩, ?_, ?_⟩
  · rw [hsearch]
  · rw [hsearch]
    refine Row.ext ?_ (Function.update_self _ _ _) ?_ ?_ (Function.update_self _ _ _) ?_ ?_ rfl
    · show (st1.batchWrite sc.batchWriteQueryID).updtCnt w = some (Int32.ofNat n)
      rw [hupdtCnt, hst1, ← hc]
      exact Function.update_self _ _ _
    · show (st1.batchWrite sc.batchWriteQueryID).access w = st.access w
      rw [haccess, hst1]
      show (if 0 < (st.updtCnt w).getD 0 then bracket st.access w else st.access) w = st.access w
      split
      · next h =>
        rw [hc, ofNat_pos (by omega)] at h
        have ha : st.access w = some (Int32.ofNat A) := hacc (by omega)
        rw [bracket, Function.update_self, ha]
        rfl
      · rfl
    · exact congrFun hlast w
    · exact funext fun x => congrFun hupdt _
    · exact funext fun i => congrFun hupdt _
  · intro i hin
    rw [← ofNat_add_one S]
    exact hwritten i hin _ List.mem_cons_self
  · intro i hin h1
    rw [← ofNat_add_one S]
    refine hwritten i hin (_, _) (List.mem_cons_of_mem _ ?_)
    rw [if_pos h1]
    exact List.mem_cons_self
  · intro u s a hno
    apply hkept
    intro i hin
    rw [ofNat_add_one]
    constructor
    · intro e
      obtain ⟨-, hu, hs', ha⟩ := createBid_eq_iff.1 e
      exact (hno i hin hu hs').1 ha
    · intro h1 e
      obtain ⟨-, hu, hs', ha⟩ := createBid_eq_iff.1 e
      exact (hno i hin hu hs').2 h1 ha
  · rw [hsearch]
    show (st1.batchWrite sc.batchWriteQueryID).taken = _
    rw [taken_batchWrite]
    congr 2
    rw [hsc, scanOf, List.length_flatMap]
    have hlen : ∀ i, (newBoxes w (Int32.ofNat S) hi val i).length = 1 + if 1 < hi i then 1 else 0 := by
      intro i
      unfold newBoxes
      split <;> rfl
    rw [List.map_congr_left fun i _ => hlen i]
    exact (hp.map _).sum_eq
  · intro w' hw hw' hne
    rw [hsearch]
    have hbox : (st1.batchWrite sc.batchWriteQueryID).row w' = st1.row w' := by
      apply row_batchWrite_other
      intro e he u s a heq
      obtain ⟨i, -, hei⟩ := List.mem_flatMap.1 he
      obtain ⟨acc, hacc'⟩ := slot_of_mem_newBoxes hei
      exact padTo_ne hw' hw hne (by decide) (createBid_eq_iff.1 (heq.trans hacc')).1
    have hst1' : st1.row w' = st.row w' := by
      refine Row.ext (Function.update_of_ne hne _ _) rfl ?_ rfl rfl rfl rfl rfl
      show (if 0 < (st.updtCnt w).getD 0 then bracket st.access w else st.access) w' = st.access w'
      split
      · exact Function.update_of_ne hne _ _
      · rfl
    refine Eq.trans ?_ (hbox.trans hst1')
    exact Row.ext rfl ((Function.update_of_ne hne _ _).trans (congrArg Row.srchCnt (hbox.trans hst1')).symm) rfl rfl
      ((Function.update_of_ne hne _ _).trans (congrArg Row.latestUpdatedCounter (hbox.trans hst1')).symm) rfl rfl rfl

end

end

end Sse.Horus
