import Sse.Horus.Stack

/-!
# Room for every call

Both stores of Horus are made for `maxSize * INC_FACTOR` blocks.  Each counts its empty nodes
down, one for a new node of the `OMAP` and one for every box that is written, and never up,
and throws when none is left.  Searches write boxes too, so no number of live pairs keeps a
run from that (`searches_fill_prfOram`).  What does is room for what each call can write:

    insert     two nodes, and one box or two
    remove     three nodes and one box, or one node for the last pair of a keyword
    search     two boxes for each slot
    before every call room for its writes → no call throws for lack of space       (horus_never_full)
-/

namespace Sse.Horus.Stack

open Wp
open Omap (Oram Err)
open Orion (Op live)

/-! ## Room -/

/-- What a call can write at most, by the counters before it: for `insert` two entries, the box of the slot, and a
pointer to it where the slot is not yet written under the search count; for `remove` the entry of the pair, and
where a slot is left the two entries and the box of a swap; for `search` two boxes for each slot. -/
def State.writesOf (st : State) : Op → Nat × Nat
  | .insert w _ =>
    let st := st.createCounters w
    (2, if (st.latestUpdatedCounter w).getD 0 < (st.updtCnt w).getD 0 + 1 then 2 else 1)
  | .remove w _ => if 0 < (st.updtCnt w).getD 0 - 1 then (3, 1) else (1, 0)
  | .search w => (0, 2 * ((st.updtCnt w).getD 0).toInt.toNat)

/-- Both stores have that many empty nodes. -/
def State.Roomy (st : State) (op : Op) : Prop :=
  (st.writesOf op).1 ≤ st.updt.2.emptyNodes ∧ (st.writesOf op).2 ≤ st.srch.emptyNodes

instance (st : State) (op : Op) : Decidable (st.Roomy op) := inferInstanceAs (Decidable (_ ∧ _))

/-- Every call of the run finds room. -/
def AlwaysRoomy (S : Setting) : State → List Op → Prop
  | _, [] => True
  | st, op :: ops => st.Roomy op ∧ ∀ r ∈ (call S op st).toOption, AlwaysRoomy S r.2 ops

instance decidableAlwaysRoomy (S : Setting) : (st : State) → (ops : List Op) → Decidable (AlwaysRoomy S st ops)
  | _, [] => isTrue trivial
  | _, _ :: ops =>
    have : DecidablePred fun r : Option (List Int32) × State => AlwaysRoomy S r.2 ops :=
      fun r => decidableAlwaysRoomy S r.2 ops
    inferInstanceAs (Decidable (_ ∧ _))

/-! ## What the stores take -/

section

variable (depth : Nat) {s : PrfOram}

theorem writeData_room (hroom : 0 < s.emptyNodes) (bid : Bid 24) (box : Box) :
    ∃ s', s.writeData bid box = some s' ∧ s'.emptyNodes + 1 = s.emptyNodes :=
  ⟨_, if_pos hroom, Nat.sub_add_cancel hroom⟩

theorem writeBox_room (hroom : 0 < s.emptyNodes) {bid : Bid 24} (hz : bid.isZero = false) (value : Str) (pos : Nat)
    (stale : Nat → Nat) : ∃ s', s.writeBox depth bid value pos stale = some s' ∧ s'.emptyNodes + 1 = s.emptyNodes := by
  obtain ⟨s1, heq, hempty⟩ := writeData_room (s := PrfOram.fetchPath depth s pos false) hroom bid ⟨bid, padTo 16 value, pos⟩
  refine ⟨PrfOram.writeBoxPath depth s1 bid stale, ?_, hempty⟩
  unfold PrfOram.writeBox
  rw [hz, heq]
  rfl

theorem emptyNodes_batchRead (query : List (Bid 24 × Nat)) : (s.batchRead depth query).1.emptyNodes = s.emptyNodes := by
  have hturns : ∀ (q : List (Bid 24 × Nat)) (r : PrfOram × SortedMap Nat Unit × List Str),
      (q.foldl (PrfOram.batchReadTurn depth) r).1.emptyNodes = r.1.emptyNodes := by
    intro q
    induction q with
    | nil => exact fun r => rfl
    | cons item q ih =>
      rintro ⟨s, leafs, result⟩
      rw [List.foldl_cons, ih]
      unfold PrfOram.batchReadTurn
      cases hs : s.store.stash.get? (Bid.ofInt (Int32.ofNat item.2)) with
      | none => simp only [hs, PrfOram.fetchPath, if_true]
      | some box => simp only [hs]
  exact hturns query ({ s with viewmap := [] }, SortedMap.empty, [])

theorem batchWriteTurn_room {r : PrfOram × SortedMap Nat Unit} (hroom : 0 < r.1.emptyNodes) (bid : Bid 24) (value : Str)
    (pos : Nat) : ∃ r', PrfOram.batchWriteTurn depth r bid value pos = some r' ∧
      r'.1.emptyNodes + 1 = r.1.emptyNodes := by
  unfold PrfOram.batchWriteTurn
  cases hs : r.1.store.stash.get? (Bid.ofInt (Int32.ofNat pos)) with
  | none =>
    obtain ⟨s1, heq, hempty⟩ := writeData_room (s := PrfOram.fetchPath depth r.1 pos true) hroom bid
      ⟨bid, padTo 16 value, pos⟩
    refine ⟨(s1, r.2.insert pos ()), ?_, hempty⟩
    simp only [hs, heq]
    rfl
  | some box =>
    obtain ⟨s1, heq, hempty⟩ := writeData_room hroom bid ⟨bid, padTo 16 value, pos⟩
    refine ⟨(s1, r.2), ?_, hempty⟩
    simp only [hs, heq]
    rfl

/-- `batchWrite` takes a place for each of its values. -/
theorem batchWrite_room {values : SortedMap (Bid 24) Str} (hroom : values.entries.length ≤ s.emptyNodes)
    (poses : SortedMap (Bid 24) Nat) : ∃ s', s.batchWrite depth values poses = some s' := by
  have hturns : ∀ (l : List ((Bid 24 × Str) × Bid 24 × Nat)) (r : PrfOram × SortedMap Nat Unit),
      l.length ≤ r.1.emptyNodes →
      ∃ r', l.foldlM (fun r p => PrfOram.batchWriteTurn depth r p.1.1 p.1.2 p.2.2) r = some r' := by
    intro l
    induction l with
    | nil => exact fun r _ => ⟨r, rfl⟩
    | cons p l ih =>
      intro r hr
      rw [List.length_cons] at hr
      obtain ⟨r1, heq, hempty⟩ := batchWriteTurn_room depth (r := r) (by omega) p.1.1 p.1.2 p.2.2
      rw [List.foldlM_cons, heq]
      exact ih r1 (by omega)
  obtain ⟨r, hr⟩ := hturns (values.entries.zip poses.entries) ({ s with viewmap := [] }, SortedMap.empty) (by
    rw [List.length_zip]
    exact (Nat.min_le_left _ _).trans hroom)
  refine ⟨PrfOram.writePaths depth r.1 (r.2.keysWhere fun _ => true), ?_⟩
  unfold PrfOram.batchWrite
  rw [hr]
  rfl

end

/-- What is left in the two stores, and the counters that say how much a call needs. -/
structure Left (nodes boxes : Nat) (updtCnt latest : Str → Option Int32) (st : State) : Prop where
  filed : st.updt.2.Filed
  nodes : nodes ≤ st.updt.2.emptyNodes
  boxes : boxes ≤ st.srch.emptyNodes
  updtCnt : st.updtCnt = updtCnt
  latest : st.latestUpdatedCounter = latest

section

variable {S : Setting} {st st' : State} {a b : Nat} {c l : Str → Option Int32} {w : Str}

/-- Steps of the client that leave the stores alone. -/
theorem Left.congr (h : Left a b c l st) (hu : st'.updt = st.updt) (hs : st'.srch = st.srch) :
    Left a b st'.updtCnt st'.latestUpdatedCounter st' :=
  ⟨by rw [hu]; exact h.filed, by rw [hu]; exact h.nodes, by rw [hs]; exact h.boxes, rfl, rfl⟩

theorem Left.weaken (h : Left a b c l st) {a' b' : Nat} (ha : a' ≤ a) (hb : b' ≤ b) : Left a' b' c l st :=
  ⟨h.filed, ha.trans h.nodes, hb.trans h.boxes, h.updtCnt, h.latest⟩

theorem Left.omapFind (h : Left a b c l st) (tag : UInt8) (w : Str) (x : Int32) :
    Run (fun e => e.isFull = false) (omapFind S tag w x) st fun _ st' => Left a b c l st' := by
  by_cases hw : 23 < w.length
  · exact Run.of_error (e := .overrun) (by rw [Stack.omapFind, if_pos hw]) rfl
  have hfind := @Oram.Filed.find 24 S.depth _ h.filed st.updt.1 S.fuel (createMapBid tag w x)
  rcases hfind.cases with ⟨r, s, heq, hs, hempty⟩ | ⟨e, heq, he⟩
  · refine Run.of_ok (a := r.2) (t := { st with updt := (r.1, s) }) ?_
      ⟨hs, h.nodes.trans_eq hempty.symm, h.boxes, h.updtCnt, h.latest⟩
    simp only [Stack.omapFind, if_neg hw, heq]
  · refine Run.of_error (e := .omap e) ?_ ?_
    · simp only [Stack.omapFind, if_neg hw, heq]
    · cases e <;> first | rfl | exact absurd rfl he

theorem Left.omapInsert (h : Left (a + 1) b c l st) (tag : UInt8) (w : Str) (x : Int32) (value : Str) :
    Run (fun e => e.isFull = false) (omapInsert S tag w x value) st fun _ st' => Left a b c l st' := by
  by_cases hw : 23 < w.length ∨ 16 < value.length
  · exact Run.of_error (e := .overrun) (by rw [Stack.omapInsert, if_pos hw]) rfl
  have hroom : 0 < st.updt.2.emptyNodes := (Nat.succ_pos a).trans_le h.nodes
  rcases (@Oram.Filed.insert 24 S.depth _ h.filed hroom st.updt.1 S.fuel (createMapBid tag w x) value).cases with
    ⟨o, s, heq, hs, hempty⟩ | ⟨e, heq, he⟩
  · refine Run.of_ok (a := ()) (t := { st with updt := (o, s) }) ?_
      ⟨hs, Nat.succ_le_succ_iff.1 (h.nodes.trans hempty), h.boxes, h.updtCnt, h.latest⟩
    simp only [Stack.omapInsert, if_neg hw, heq]
  · refine Run.of_error (e := .omap e) ?_ ?_
    · simp only [Stack.omapInsert, if_neg hw, heq]
    · cases e <;> first | rfl | exact absurd rfl he

theorem Left.writeBox (h : Left a (b + 1) c l st) (p : PosArgs) (value : Str) :
    Run (fun e => e.isFull = false) (writeBox S p value) st fun _ st' => Left a b c l st' := by
  by_cases hw : 12 < p.keyword.length
  · exact Run.of_error (e := .overrun) (by rw [Stack.writeBox, if_pos hw]) rfl
  cases hz : p.bid.isZero with
  | true =>
    refine Run.of_error (e := .idNotSet) ?_ rfl
    simp only [Stack.writeBox, if_neg hw, hz, if_true]
  | false =>
    obtain ⟨s, heq, hempty⟩ := writeBox_room S.depth ((Nat.succ_pos b).trans_le h.boxes) hz value (S.position p)
      (S.stale st.writes)
    refine Run.of_ok (a := ()) (t := { st with srch := s, writes := st.writes + 1 }) ?_
      ⟨h.filed, h.nodes, Nat.succ_le_succ_iff.1 (h.boxes.trans_eq hempty.symm), h.updtCnt, h.latest⟩
    simp only [Stack.writeBox, if_neg hw, hz, Bool.false_eq_true, if_false, heq]

theorem Left.batchRead (h : Left a b c l st) (query : List PosArgs) :
    Run (fun e => e.isFull = false) (batchRead S query) st fun _ st' => Left a b c l st' := by
  by_cases hw : (query.any fun p => 12 < p.keyword.length) = true
  · exact Run.of_error (e := .overrun) (by rw [Stack.batchRead, if_pos hw]) rfl
  · refine Run.of_ok (a := (st.srch.batchRead S.depth (query.map fun p => (p.bid, S.position p))).2)
      (t := { st with srch := (st.srch.batchRead S.depth (query.map fun p => (p.bid, S.position p))).1 })
      (by rw [Stack.batchRead, if_neg hw])
      ⟨h.filed, h.nodes, h.boxes.trans_eq (emptyNodes_batchRead S.depth _).symm, h.updtCnt, h.latest⟩

theorem Left.batchWrite (h : Left a b c l st) {values : List (Bid 24 × Str)} (hb : values.length ≤ b)
    (poses : List (Bid 24 × PosArgs)) :
    Run (fun e => e.isFull = false) (batchWrite S values poses) st fun _ st' => st'.updt = st.updt := by
  obtain ⟨s, heq⟩ := batchWrite_room S.depth (s := st.srch)
    ((SortedMap.length_ofList_le values).trans (hb.trans h.boxes))
    (SortedMap.ofList (poses.map fun e => (e.1, S.position e.2)))
  refine Run.of_ok (a := ()) (t := { st with srch := s }) ?_ rfl
  simp only [Stack.batchWrite, heq]

/-! ## What the calls take -/

theorem Left.writePointer (h : Left a b c l st) {cnt : Int32} (hb : (l w).getD 0 < cnt → 1 ≤ b) (srch_cnt acc_cnt : Int32) :
    Run (fun e => e.isFull = false) (writePointer S w cnt srch_cnt acc_cnt) st fun _ st' => st'.updt.2.Filed := by
  unfold Stack.writePointer
  refine Run.bind (Run.get (Q := fun x st' => x = st ∧ st' = st) ⟨rfl, rfl⟩) ?_
  rintro x st1 ⟨rfl, rfl⟩
  rw [h.latest]
  dsimp only
  by_cases hlt : (l w).getD 0 < cnt
  · rw [if_pos hlt]
    refine Run.bind (Run.modify (Q := fun _ (st' : State) => st'.updt = st1.updt ∧ st'.srch = st1.srch) ⟨rfl, rfl⟩) ?_
    rintro - st2 ⟨hu, hs⟩
    have h2 := h.congr hu hs
    split_ifs
    · exact ((h2.weaken le_rfl (hb hlt)).writeBox (b := 0) _ _).mono fun _ st3 h3 => h3.filed
    · exact Run.pure h2.filed
  · rw [if_neg hlt]
    exact Run.pure h.filed

theorem Left.fillSlot (h : Left 2 b c l st) {cnt : Int32} (hb : (if (l w).getD 0 < cnt then 2 else 1) ≤ b)
    (ind acc_cnt : Int32) :
    Run (fun e => e.isFull = false) (fillSlot S w ind cnt acc_cnt) st fun _ st' => st'.updt.2.Filed := by
  unfold Stack.fillSlot
  refine Run.bind (h.omapInsert _ _ _ _) ?_
  rintro - st1 h1
  refine Run.bind (h1.omapInsert _ _ _ _) ?_
  rintro - st2 h2
  refine Run.bind (Run.get (Q := fun x st' => x = st2 ∧ st' = st2) ⟨rfl, rfl⟩) ?_
  rintro x st3 ⟨rfl, rfl⟩
  have hsplit : (if (l w).getD 0 < cnt then 1 else 0) + 1 ≤ b := le_trans (by split_ifs <;> rfl) hb
  refine Run.bind ((h2.weaken le_rfl hsplit).writeBox _ _) ?_
  rintro - st4 h4
  refine Run.bind (h4.writePointer (fun hlt => by rw [if_pos hlt]) _ _) ?_
  rintro - st5 h5
  exact Run.modify h5

theorem Left.nextAccess (h : Left a b c l st) (cnt : Int32) :
    Run (fun e => e.isFull = false) (nextAccess S w cnt) st fun _ st' => Left a b c l st' := by
  unfold Stack.nextAccess
  refine Run.bind (h.omapFind _ _ _) ?_
  rintro resStr st1 h1
  split_ifs
  · exact Run.pure h1
  cases stoi (token resStr 1) with
  | none => exact Run.pure h1
  | some acc =>
    refine Run.bind (Run.modify (Q := fun _ st' => Left a b c l st') ?_) fun _ st2 h2 => Run.pure h2
    exact ⟨h1.filed, h1.nodes, h1.boxes, h1.updtCnt, h1.latest⟩

theorem createCounters_stores (st : State) (w : Str) :
    (st.createCounters w).updt = st.updt ∧ (st.createCounters w).srch = st.srch := by
  unfold State.createCounters
  cases st.updtCnt w <;> dsimp only <;> split <;> exact ⟨rfl, rfl⟩

/-- The counters that are created depend on the counters that are there. -/
theorem createCounters_congr (hc : st'.updtCnt = st.updtCnt) (hl : st'.latestUpdatedCounter = st.latestUpdatedCounter)
    (w : Str) : (st'.createCounters w).updtCnt = (st.createCounters w).updtCnt ∧
      (st'.createCounters w).latestUpdatedCounter = (st.createCounters w).latestUpdatedCounter := by
  unfold State.createCounters
  rw [hc]
  cases st.updtCnt w <;> dsimp only <;> split <;> split <;> simp [hc, hl]

theorem insert_room (h : st.updt.2.Filed) {x : Int32} (hroom : st.Roomy (.insert w x)) :
    Run (fun e => e.isFull = false) (insert S w x) st fun _ st' => st'.updt.2.Filed := by
  obtain ⟨hnodes, hboxes⟩ := hroom
  have h0 : Left _ _ st.updtCnt st.latestUpdatedCounter st := ⟨h, hnodes, hboxes, rfl, rfl⟩
  unfold Stack.insert
  refine Run.bind (h0.omapFind _ _ _) ?_
  rintro resStr st1 h1
  split_ifs
  · obtain ⟨hu, hs⟩ := createCounters_stores st1 w
    obtain ⟨hc, hl⟩ := createCounters_congr h1.updtCnt h1.latest w
    have h2 := h1.congr hu hs
    rw [hc, hl] at h2
    refine Run.bind (Run.modify (Q := fun _ st' => st' = st1.createCounters w) rfl) ?_
    rintro - st2 rfl
    refine Run.bind (Run.get (Q := fun x st' => x = st1.createCounters w ∧ st' = x) ⟨rfl, rfl⟩) ?_
    rintro st2 st2' ⟨rfl, rfl⟩
    refine Run.bind (Run.modify (Q := fun _ st' => st'.updt = (st1.createCounters w).updt ∧
      st'.srch = (st1.createCounters w).srch ∧ st'.latestUpdatedCounter = (st1.createCounters w).latestUpdatedCounter)
      ⟨rfl, rfl, rfl⟩) ?_
    rintro - st3 ⟨hu3, hs3, hl3⟩
    have h3 := h2.congr hu3 hs3
    rw [hl3, hl] at h3
    refine Run.bind (h3.nextAccess _) ?_
    rintro acc st4 h4
    cases acc with
    | none => exact Run.pure h4.filed
    | some acc_cnt =>
      refine Run.bind (h4.fillSlot ?_ _ _) fun _ st5 h5 => Run.pure h5
      rw [hc]
      exact le_rfl
  · exact Run.pure h1.filed

theorem Left.fillHole (h : Left 2 1 c l st) (u acc_cnt : Int32) :
    Run (fun e => e.isFull = false) (fillHole S w u acc_cnt) st fun _ st' =>
      Left 0 0 st'.updtCnt st'.latestUpdatedCounter st' := by
  unfold Stack.fillHole
  refine Run.bind (Run.modify (Q := fun _ st' => st'.updt = st.updt ∧ st'.srch = st.srch) ⟨rfl, rfl⟩) ?_
  rintro - st1 ⟨hu, hs⟩
  have h1 := h.congr hu hs
  refine Run.bind (Run.get (Q := fun x st' => x = st1 ∧ st' = st1) ⟨rfl, rfl⟩) ?_
  rintro x st2 ⟨rfl, rfl⟩
  refine Run.bind (h1.writeBox _ _) ?_
  rintro - st3 h3
  refine Run.bind (h3.omapInsert _ _ _ _) ?_
  rintro - st4 h4
  refine Run.bind (h4.omapInsert _ _ _ _) ?_
  rintro - st5 h5
  exact Run.modify (h5.congr rfl rfl)

theorem Left.readLast (h : Left a b c l st) (cnt : Int32) :
    Run (fun e => e.isFull = false) (readLast S w cnt) st fun _ st' => st'.updt.2.Filed := by
  unfold Stack.readLast
  refine Run.bind (h.omapFind _ _ _) ?_
  rintro resStr st1 h1
  cases stoi (token resStr 0) with
  | none => exact Run.pure h1.filed
  | some last => exact Run.bind (Run.modify (Q := fun _ st' => st'.updt.2.Filed) h1.filed) fun _ st2 h2 => Run.pure h2

theorem Left.removePair (h : Left a b c l st) (ha : (if 0 < (c w).getD 0 - 1 then 3 else 1) ≤ a)
    (hb : (if 0 < (c w).getD 0 - 1 then 1 else 0) ≤ b) (x u acc_cnt : Int32) :
    Run (fun e => e.isFull = false) (removePair S w x u acc_cnt) st fun _ st' => st'.updt.2.Filed := by
  unfold Stack.removePair
  have hsplit : (if 0 < (c w).getD 0 - 1 then 2 else 0) + 1 ≤ a := le_trans (by split_ifs <;> rfl) ha
  refine Run.bind ((h.weaken hsplit hb).omapInsert _ _ _ _) ?_
  rintro - st1 h1
  refine Run.bind (Run.get (Q := fun x st' => x = st1 ∧ st' = st1) ⟨rfl, rfl⟩) ?_
  rintro x st2 ⟨rfl, rfl⟩
  rw [h1.updtCnt]
  refine Run.bind (Run.modify (Q := fun _ st' => st'.updt = st2.updt ∧ st'.srch = st2.srch) ⟨rfl, rfl⟩) ?_
  rintro - st3 ⟨hu, hs⟩
  have h3 := h1.congr hu hs
  split_ifs with hpos hmove
  · rw [if_pos hpos, if_pos hpos] at h3
    refine Run.bind (h3.fillHole _ _) ?_
    rintro - st4 h4
    exact h4.readLast _
  · exact h3.readLast _
  · exact Run.bind (Run.modify (Q := fun _ st' => st'.updt.2.Filed) h3.filed) fun _ st4 h4 => Run.pure h4

theorem remove_room (h : st.updt.2.Filed) {x : Int32} (hroom : st.Roomy (.remove w x)) :
    Run (fun e => e.isFull = false) (remove S w x) st fun _ st' => st'.updt.2.Filed := by
  obtain ⟨hnodes, hboxes⟩ := hroom
  have h0 : Left _ _ st.updtCnt st.latestUpdatedCounter st := ⟨h, hnodes, hboxes, rfl, rfl⟩
  unfold Stack.remove
  refine Run.bind (h0.omapFind _ _ _) ?_
  rintro resStr st1 h1
  cases stoi (token resStr 0) with
  | none => exact Run.pure h1.filed
  | some u =>
    dsimp only
    split_ifs
    · cases stoi (token resStr 1) with
      | none => exact Run.pure h1.filed
      | some acc =>
        refine h1.removePair ?_ ?_ _ _ _
        · simp only [State.writesOf]
          split_ifs <;> rfl
        · simp only [State.writesOf]
          split_ifs <;> rfl
    · exact Run.pure h1.filed

end

/-! ## Searches -/

/-- The slots that are not found yet. -/
def unfound (ps : List Probe) : Nat := ps.countP fun p => !p.foundItem

theorem length_emplace_le {α : Type} (q : List (Bid 24 × α)) (bid : Bid 24) (value : α) :
    (emplace q bid value).length ≤ q.length + 1 := by
  unfold emplace
  split_ifs
  · omega
  · rw [List.length_append, List.length_singleton]

section

variable {w : Str} {srch_cnt : Int32}

/-- A slot that is found adds two boxes at most. -/
theorem report_length {i : Nat} {p : Probe} {sc sc' : Scan} (h : report w srch_cnt i p sc = some sc') :
    sc'.batchWriteQueryID.length ≤ sc.batchWriteQueryID.length + 2 := by
  obtain ⟨ind, -, rfl⟩ := Option.map_eq_some_iff.1 h
  have h1 := length_emplace_le sc.batchWriteQueryID (PosArgs.bid ⟨w, Int32.ofNat (i + 1), srch_cnt + 1, p.lastAcc⟩) p.lastID
  dsimp only
  split_ifs
  · exact (length_emplace_le _ _ _).trans (Nat.succ_le_succ h1)
  · exact h1.trans (Nat.le_succ _)

theorem turn_length {firstRun : Bool} {i : Nat} {p p' : Probe} {id : Str} {sc sc' : Scan} 
    (h : turn w srch_cnt firstRun i p id sc = some (p', sc')) :
    sc'.batchWriteQueryID.length + 2 * unfound [p'] ≤ sc.batchWriteQueryID.length + 2 := by
  have hone : unfound [p'] ≤ 1 := List.countP_le_length
  unfold turn at h
  split_ifs at h with hfirst hfound
  · obtain ⟨q, -, he⟩ := Option.map_eq_some_iff.1 h
    obtain ⟨rfl, rfl⟩ := Prod.mk.inj he
    omega
  · obtain ⟨q, hq, he⟩ := Option.map_eq_some_iff.1 h
    obtain ⟨rfl, rfl⟩ := Prod.mk.inj he
    have hzero : unfound [p.next id] = 0 := by simp [unfound, hfound]
    rw [hzero]
    exact report_length hq
  · obtain ⟨rfl, rfl⟩ := Prod.mk.inj (Option.some.inj h)
    omega

/-- **One round** adds two boxes at most for each slot it finds. -/
theorem turns_length {firstRun : Bool} {i : Nat} {ps ps' : List Probe} {ids : List Str} {sc sc' : Scan}
    (h : turns w srch_cnt firstRun i ps ids sc = some (ps', sc')) :
    sc'.batchWriteQueryID.length + 2 * unfound ps' ≤ sc.batchWriteQueryID.length + 2 * unfound ps := by
  have hcons : ∀ (p : Probe) (ps : List Probe), unfound (p :: ps) = unfound [p] + unfound ps := by
    intro p ps
    unfold unfound
    rw [← List.countP_append, List.singleton_append]
  induction ps generalizing i ids sc ps' with
  | nil =>
    obtain ⟨rfl, rfl⟩ := Prod.mk.inj (Option.some.inj h)
    exact le_rfl
  | cons p ps ih =>
    unfold turns at h
    split_ifs at h with hp
    · obtain ⟨r, hr, he⟩ := Option.map_eq_some_iff.1 h
      obtain ⟨rfl, rfl⟩ := Prod.mk.inj he
      rw [hcons p ps, hcons p r.1]
      have := ih hr
      omega
    · rw [Bool.not_eq_true] at hp
      obtain ⟨⟨p', sc1⟩, h1, h⟩ := Option.bind_eq_some_iff.1 h
      obtain ⟨⟨ps1, sc2⟩, h2, h⟩ := Option.bind_eq_some_iff.1 h
      obtain ⟨rfl, rfl⟩ := Prod.mk.inj (Option.some.inj h)
      have hself : unfound [p] = 1 := by simp [unfound, hp]
      have := turn_length h1
      have := ih h2
      rw [hcons p ps, hcons p' ps1, hself]
      omega

end

section

variable {S : Setting} {st : State} {a b : Nat} {c l : Str → Option Int32} {w : Str}

theorem Left.rounds (h : Left a b c l st) (srch_cnt : Int32) (fuel : Nat) (firstRun : Bool) (ps : List Probe) (sc : Scan) :
    Run (fun e => e.isFull = false) (rounds S w srch_cnt fuel firstRun ps sc) st fun r st' => Left a b c l st' ∧
      ∀ sc', r = some sc' → sc'.batchWriteQueryID.length ≤ sc.batchWriteQueryID.length + 2 * unfound ps := by
  induction fuel generalizing st firstRun ps sc with
  | zero => exact Run.throw rfl
  | succ fuel ih =>
    unfold Stack.rounds
    split_ifs
    · refine Run.pure ⟨h, fun sc' he => ?_⟩
      obtain rfl := Option.some.inj he
      omega
    refine Run.bind (h.batchRead _) ?_
    rintro ids st1 h1
    cases ht : turns w srch_cnt firstRun 0 ps ids sc with
    | none => exact Run.pure ⟨h1, fun sc' he => nomatch he⟩
    | some r =>
      refine (ih h1 false r.1 r.2).mono ?_
      rintro r' st2 ⟨h2, hlen⟩
      exact ⟨h2, fun sc' he => (hlen sc' he).trans (turns_length ht)⟩

theorem search_room (h : st.updt.2.Filed) (hroom : st.Roomy (.search w)) :
    Run (fun e => e.isFull = false) (search S w) st fun _ st' => st'.updt.2.Filed := by
  have h0 : Left 0 _ st.updtCnt st.latestUpdatedCounter st := ⟨h, Nat.zero_le _, hroom.2, rfl, rfl⟩
  unfold Stack.search
  refine Run.bind (Run.get (Q := fun x st' => x = st ∧ st' = st) ⟨rfl, rfl⟩) ?_
  rintro x st1 ⟨rfl, rfl⟩
  refine Run.bind (Run.set (Q := fun _ st' => st'.updt = st1.updt ∧ st'.srch = st1.srch) ⟨rfl, rfl⟩) ?_
  rintro - st2 ⟨hu, hs⟩
  have h2 := h0.congr hu hs
  split_ifs
  · exact Run.pure h2.filed
  refine Run.bind (h2.rounds _ _ _ _ _) ?_
  rintro r st3 ⟨h3, hlen⟩
  cases r with
  | none => exact Run.pure h3.filed
  | some sc =>
    have hboxes : sc.batchWriteQueryID.length ≤ 2 * ((st1.updtCnt w).getD 0).toInt.toNat := by
      refine (hlen sc rfl).trans ?_
      rw [unfound, List.countP_replicate]
      simp
    unfold writeBack
    refine Run.bind (P := fun _ st' => st'.updt.2.Filed) ?_ fun _ st4 h4 => Run.pure h4
    refine Run.bind (Run.modify (Q := fun _ st' => st'.updt = st3.updt ∧ st'.srch = st3.srch) ⟨rfl, rfl⟩) ?_
    rintro - st4 ⟨hu4, hs4⟩
    have h4 := h3.congr hu4 hs4
    refine Run.bind (h4.batchWrite hboxes _) ?_
    rintro - st5 hu5
    refine Run.bind (Run.modify (Q := fun _ st' => st'.updt = st5.updt) rfl) ?_
    rintro - st6 hu6
    refine Run.pure ?_
    rw [hu6, hu5]
    exact h4.filed

/-! ## Runs -/

theorem call_room (h : st.updt.2.Filed) {op : Op} (hroom : st.Roomy op) :
    Run (fun e => e.isFull = false) (call S op) st fun _ st' => st'.updt.2.Filed := by
  cases op with
  | insert w x => exact Run.bind (insert_room h hroom) fun _ _ h1 => Run.pure h1
  | remove w x => exact Run.bind (remove_room h hroom) fun _ _ h1 => Run.pure h1
  | search w => exact search_room h hroom

theorem calls_room (h : st.updt.2.Filed) {ops : List Op} (hroom : AlwaysRoomy S st ops) :
    Run (fun e => e.isFull = false) (ops.mapM (call S)) st fun _ _ => True := by
  induction ops generalizing st with
  | nil => exact Run.pure trivial
  | cons op ops ih =>
    rw [List.mapM_cons]
    obtain ⟨hop, hops⟩ := hroom
    rcases (call_room h hop).cases with ⟨out, st1, heq, h1⟩ | ⟨e, heq, he⟩
    · refine Run.bind (Run.of_ok (Q := fun _ st' => st' = st1) heq rfl) ?_
      rintro out' st2 rfl
      refine Run.bind (ih h1 (hops (out, st2) ?_)) fun _ _ _ => Run.pure trivial
      rw [heq]
      rfl
    · exact Run.bind (Run.of_error (Q := fun _ _ => False) heq he) fun _ _ hf => hf.elim

end

/-- **Space.**  No call of a run throws for lack of space, if before every call the stores have as many empty nodes as
the call can write. -/
theorem horus_never_full (S : Setting) (ops : List Op) (hroom : AlwaysRoomy S S.new ops) : outOfSpace S ops = false := by
  unfold outOfSpace run
  rcases (calls_room (S := S) (Oram.filed_new S.depth S.rnd) hroom).cases with ⟨outs, st, heq, -⟩ | ⟨e, heq, he⟩
  · rw [heq]
  · rw [heq]
    exact he

/-- A Horus made for two pairs, all whose paths are those of leaf 0. -/
def two : Setting := ⟨2, fun _ => 0, fun _ => 0, fun _ _ => 0, 64⟩

/-- Two inserts, a removal and two searches. -/
theorem horus_never_full_five :
    outOfSpace two [.insert [97] 1, .search [97], .insert [97] 2, .remove [97] 1, .search [97]] = false :=
  horus_never_full two _ (by decide +kernel)

/-- The live pairs of all keywords, each once. -/
def livePairs (ops : List Op) : List (Str × Int32) :=
  (ops.filterMap fun op => match op with
    | .insert w ind => if live ops w ind then some (w, ind) else none
    | _ => none).dedup

/-- One pair, searched twelve times. -/
def searchedPair : List Op := .insert [97] 1 :: List.replicate 12 (.search [97])

/-- **Searches alone** fill the box store: one live pair in a Horus made for two. -/
theorem searches_fill_prfOram :
    (∀ k ≤ 13, (livePairs (searchedPair.take k)).length ≤ two.maxSize) ∧ outOfSpace two searchedPair = true := by
  constructor
  · decide +kernel
  · decide +kernel

end Sse.Horus.Stack
