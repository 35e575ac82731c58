import Sse.Orion.Slots

/-!
# Orion over maps of a fixed capacity

An oblivious map has room for so many keys, and the insert of a new key into a full one throws.
Every insert of a new pair needs a key in `updt` and at most one in `srch`, so `updt` is full
first: what throws is `updt->insert`, after `UpdtCnt` was advanced.  The keyword then counts a
slot it does not have.

Nothing reads that slot as long as `srch` holds no slot of the keyword at all
(`failed_insert_harmless_iff`).  Otherwise the next search reads a stale slot, or the next
removal of the last ind takes it for another one and keeps it.
-/

namespace Sse.Orion.Capacity

open Orion (OMap createBid find slotBids batchSearch Op)

/-! ## The functions -/

/-- A finite map with room for `free` more keys. -/
structure Bounded where
  map : OMap
  free : Nat

/-- `OMAP::insert`; `none` where it throws. -/
def Bounded.insert (m : Bounded) (key : Bid 16) (value : Str) : Option Bounded :=
  match m.map key with
  | some _ => some ⟨Orion.put m.map key value, m.free⟩
  | none => if m.free = 0 then none else some ⟨Orion.put m.map key value, m.free - 1⟩

structure State where
  srch : Bounded
  updt : Bounded
  updtCnt : Str → Option Int32
  lastIND : Str → Option Int32

def init (maxSize : Nat) : State := ⟨⟨fun _ => none, maxSize⟩, ⟨fun _ => none, maxSize⟩, fun _ => none, fun _ => none⟩

/-- `Orion::insert`; the second component is `none` where a map throws. -/
def insert (st : State) (keyword : Str) (ind : Int32) : State × Option Unit :=
  let mapKey := createBid keyword ind
  if find st.updt.map mapKey = [] then
    let cnt := (st.updtCnt keyword).getD 0 + 1
    let st1 : State := { st with updtCnt := Function.update st.updtCnt keyword (some cnt) }
    match st1.updt.insert mapKey (toStr cnt.toInt) with
    | none => (st1, none)
    | some updt =>
      let st2 : State := { st1 with updt := updt }
      match st2.srch.insert (createBid keyword cnt) (toStr ind.toInt) with
      | none => (st2, none)
      | some srch =>
        ({ st2 with srch := srch, lastIND := Function.update st2.lastIND keyword (some ind) }, some ())
  else (st, some ())

/-- The swap in `Orion::remove`. -/
def fillHole (st : State) (keyword : Str) (slot : Int32) (updt_cnt : Str) : State × Option Unit :=
  let last := (st.lastIND keyword).getD 0
  let st1 : State := { st with lastIND := Function.update st.lastIND keyword (some last) }
  match st1.updt.insert (createBid keyword last) updt_cnt with
  | none => (st1, none)
  | some updt =>
    let st2 : State := { st1 with updt := updt }
    match st2.srch.insert (createBid keyword slot) (toStr last.toInt) with
    | none => (st2, none)
    | some srch => ({ st2 with srch := srch }, some ())

/-- The end of `Orion::remove`: the last ind is read from the last slot. -/
def readLast (st : State) (keyword : Str) (cnt : Int32) : State × Option Unit :=
  match stoi (find st.srch.map (createBid keyword cnt)) with
  | none => (st, none)
  | some lastID => ({ st with lastIND := Function.update st.lastIND keyword (some lastID) }, some ())

/-- `Orion::remove`; the second component is `none` where `stoi` or a map throws. -/
def remove (st : State) (keyword : Str) (ind : Int32) : State × Option Unit :=
  let mapKey := createBid keyword ind
  let updt_cnt := find st.updt.map mapKey
  match stoi updt_cnt with
  | none => (st, none)
  | some slot =>
    if 0 < slot then
      match st.updt.insert mapKey (toStr (-1)) with
      | none => (st, none)
      | some updt =>
        let cnt := (st.updtCnt keyword).getD 0 - 1
        let st1 : State := { st with
          updt := updt
          updtCnt := Function.update st.updtCnt keyword (some cnt) }
        if 0 < cnt then
          if cnt + 1 ≠ slot then
            match fillHole st1 keyword slot updt_cnt with
            | (st2, none) => (st2, none)
            | (st2, some ()) => readLast st2 keyword cnt
          else readLast st1 keyword cnt
        else ({ st1 with lastIND := Function.update st1.lastIND keyword none }, some ())
    else (st, some ())

/-- `Orion::search`; `none` where `stoi` throws. -/
def search (st : State) (keyword : Str) : Option (List Int32) :=
  let bids := match st.updtCnt keyword with
    | none => []
    | some n => slotBids keyword n
  (batchSearch st.srch.map bids).mapM stoi

/-- One call; the output is `none` for an exception. -/
def step (st : State) : Op → State × Option (List Int32)
  | .insert w ind => ((insert st w ind).1, (insert st w ind).2.map fun _ => [])
  | .remove w ind => ((remove st w ind).1, (remove st w ind).2.map fun _ => [])
  | .search w => (st, search st w)

/-- The state after a sequence of calls on a fresh Orion. -/
def after (maxSize : Nat) (ops : List Op) : State := ops.foldl (fun st op => (step st op).1) (init maxSize)

/-- What the calls answer. -/
def answers (st : State) : List Op → List (Option (List Int32))
  | [] => []
  | op :: ops => (step st op).2 :: answers (step st op).1 ops

@[simp] theorem after_nil (maxSize : Nat) : after maxSize [] = init maxSize := rfl

@[simp] theorem after_concat (maxSize : Nat) (ops : List Op) (op : Op) :
    after maxSize (ops ++ [op]) = (step (after maxSize ops) op).1 := by
  simp [after]

/-- Every run that follows answers as if the failed insert had not been called; inds are compared
up to order. -/
def Harmless (st' st : State) : Prop :=
  ∀ ops, List.Forall₂ (Option.Rel List.Perm) (answers st' ops) (answers st ops)

/-! ## One map -/

namespace Bounded

variable {m m' : Bounded} {key : Bid 16} {value : Str}

theorem insert_eq_none : m.insert key value = none ↔ m.map key = none ∧ m.free = 0 := by
  unfold insert
  cases h : m.map key with
  | some v => simp
  | none => simp

theorem insert_map (h : m.insert key value = some m') : m'.map = Orion.put m.map key value := by
  unfold insert at h
  split at h
  · rw [← Option.some.inj h]
  · split at h
    · cases h
    · rw [← Option.some.inj h]

/-- A key that is there takes no room, a new one takes one place. -/
theorem insert_free (h : m.insert key value = some m') :
    m'.free = if m.map key = none then m.free - 1 else m.free := by
  unfold insert at h
  cases hk : m.map key with
  | some v =>
    rw [hk] at h
    rw [← Option.some.inj h]
    simp
  | none =>
    rw [hk] at h
    simp only at h
    split at h
    · cases h
    · rw [← Option.some.inj h]
      simp

theorem insert_present (h : m.map key ≠ none) : m.insert key value = some ⟨Orion.put m.map key value, m.free⟩ := by
  unfold insert
  cases hk : m.map key with
  | some v => rfl
  | none => exact absurd hk h

/-- Keys stay. -/
theorem insert_keeps (h : m.insert key value = some m') {key' : Bid 16} (hk : m.map key' ≠ none) :
    m'.map key' ≠ none := by
  rw [insert_map h, Orion.put_apply]
  split
  · simp
  · exact hk

end Bounded

/-! ## What every run keeps -/

theorem find_ne_nil_of_stoi {m : OMap} {key : Bid 16} {v : Int32} (h : stoi (find m key) = some v) :
    ∃ s, m key = some s ∧ find m key = s := by
  cases hk : m key with
  | some s => exact ⟨s, rfl, by rw [find, hk, Option.getD_some]⟩
  | none =>
    have hempty : stoi [] = none := by decide
    rw [find, hk, Option.getD_none, hempty] at h
    cases h

/-- `srch` has no less room than `updt`, no entry is empty, and a slot that `updt` names is a key
of `srch`. -/
structure Room (st : State) : Prop where
  free : st.updt.free ≤ st.srch.free
  full : ∀ key, st.updt.map key ≠ some []
  stored : ∀ w x v slot, st.updt.map (createBid w x) = some v → stoi v = some slot → 0 < slot →
    st.srch.map (createBid w slot) ≠ none

theorem room_init (maxSize : Nat) : Room (init maxSize) where
  free := le_rfl
  full _ := by simp [init]
  stored _ _ _ _ h := by simp [init] at h

section

variable {st : State}

/-- Only the maps count. -/
theorem Room.congr (h : Room st) {st' : State} (h1 : st'.srch = st.srch) (h2 : st'.updt = st.updt) : Room st' where
  free := by rw [h1, h2]; exact h.free
  full := by rw [h2]; exact h.full
  stored := by rw [h1, h2]; exact h.stored

/-- `updt` gets an entry that names a key of `srch`, or none. -/
theorem Room.updt (h : Room st) {w : Str} {x : Int32} {v : Str} {updt : Bounded}
    (hu : st.updt.insert (createBid w x) v = some updt) (hv : v ≠ [])
    (hslot : ∀ slot, stoi v = some slot → 0 < slot → st.srch.map (createBid w slot) ≠ none) :
    Room { st with updt := updt } where
  free := by
    have hfree := Bounded.insert_free hu
    have := h.free
    show updt.free ≤ st.srch.free
    split at hfree <;> omega
  full := by
    intro key
    show updt.map key ≠ some []
    rw [Bounded.insert_map hu, Orion.put_apply]
    split
    · simpa using hv
    · exact h.full key
  stored := by
    intro w' x' v' slot hv' hs hpos
    have hv' : updt.map (createBid w' x') = some v' := hv'
    rw [Bounded.insert_map hu, Orion.put_apply] at hv'
    split at hv'
    · next e =>
      obtain ⟨hw, -⟩ := Orion.createBid_eq_iff.1 e
      rw [Option.some.inj hv'] at hslot
      have hkey : createBid w' slot = createBid w slot := Orion.createBid_eq_iff.2 ⟨hw, rfl⟩
      show st.srch.map (createBid w' slot) ≠ none
      rw [hkey]
      exact hslot slot hs hpos
    · exact h.stored w' x' v' slot hv' hs hpos

/-- `srch` gets an entry for which it has room. -/
theorem Room.srch (h : Room st) {key : Bid 16} {v : Str} {srch : Bounded}
    (hs : st.srch.insert key v = some srch) (hfree : st.updt.free ≤ srch.free) : Room { st with srch := srch } where
  free := hfree
  full := h.full
  stored w x v' slot hv' hslot hpos := Bounded.insert_keeps hs (h.stored w x v' slot hv' hslot hpos)

theorem Room.readLast (h : Room st) (w : Str) (cnt : Int32) : Room (readLast st w cnt).1 := by
  unfold Capacity.readLast
  split
  · exact h
  · exact h.congr rfl rfl

/-- The swap of a slot that is a key of `srch`. -/
theorem Room.fillHole (h : Room st) {w : Str} {slot : Int32} {v : Str} (hs : stoi v = some slot)
    (hkey : st.srch.map (createBid w slot) ≠ none) : Room (fillHole st w slot v).1 := by
  have hv : v ≠ [] := by
    rintro rfl
    have hempty : stoi [] = none := by decide
    rw [hempty] at hs
    cases hs
  unfold Capacity.fillHole
  simp only
  split
  · exact h.congr rfl rfl
  · next updt hu =>
    have h1 : Room { st with updt := updt } := h.updt hu hv fun slot' hs' _ => by
      rw [hs] at hs'
      obtain rfl := Option.some.inj hs'
      exact hkey
    have hsrch : ({ st with updt := updt } : State).srch.insert (createBid w slot) (toStr ((st.lastIND w).getD 0).toInt) =
        some ⟨_, st.srch.free⟩ := Bounded.insert_present hkey
    rw [Bounded.insert_present hkey]
    exact (h1.srch hsrch h1.free).congr rfl rfl

theorem Room.remove (h : Room st) (w : Str) (ind : Int32) : Room (remove st w ind).1 := by
  unfold Capacity.remove
  simp only
  split
  · exact h
  · next slot hslot =>
    obtain ⟨v, hv, hfind⟩ := find_ne_nil_of_stoi hslot
    rw [hfind] at hslot ⊢
    split
    · next hpos =>
      have hkey := h.stored w ind v slot hv hslot hpos
      split
      · exact h
      · next updt hu =>
        have h1 : Room { st with updt := updt } := h.updt hu (by decide) fun slot' hs' hpos' => by
          have hone : stoi (toStr (-1)) = some (-1) := by decide
          rw [hone] at hs'
          obtain rfl := Option.some.inj hs'
          exact absurd hpos' (by decide)
        set cnt := (st.updtCnt w).getD 0 - 1
        set st1 : State := { st with updt := updt, updtCnt := Function.update st.updtCnt w (some cnt) } with hst1
        have h2 : Room st1 := h1.congr rfl rfl
        split
        · split
          · have hfill := h2.fillHole hslot hkey
            split
            · next st2 he =>
              rw [he] at hfill
              exact hfill
            · next st2 he =>
              rw [he] at hfill
              exact hfill.readLast w cnt
          · exact h2.readLast w cnt
        · exact h2.congr rfl rfl
    · exact h

theorem Room.absent (h : Room st) {key : Bid 16} (hf : find st.updt.map key = []) : st.updt.map key = none := by
  cases hk : st.updt.map key with
  | none => rfl
  | some v =>
    rw [find, hk, Option.getD_some] at hf
    exact absurd (hf ▸ hk) (h.full _)

/-- **The insert that throws** is that of a new pair into a full `updt`; only `UpdtCnt` has changed. -/
theorem Room.insert_throws (h : Room st) {w : Str} {ind : Int32} (ht : (insert st w ind).2 = none) :
    st.updt.free = 0 ∧ st.updt.map (createBid w ind) = none ∧
      (insert st w ind).1 = { st with
        updtCnt := Function.update st.updtCnt w (some ((st.updtCnt w).getD 0 + 1)) } := by
  unfold Capacity.insert at ht ⊢
  simp only at ht ⊢
  by_cases hf : find st.updt.map (createBid w ind) = []
  · rw [if_pos hf] at ht ⊢
    have hnew := h.absent hf
    cases hu : st.updt.insert (createBid w ind) (toStr ((st.updtCnt w).getD 0 + 1).toInt) with
    | none => exact ⟨(Bounded.insert_eq_none.1 hu).2, hnew, by simp⟩
    | some updt =>
      -- then `srch` has room as well
      exfalso
      rw [hu] at ht
      simp only at ht
      split at ht
      · next hs =>
        have hzero := (Bounded.insert_eq_none.1 hs).2
        have hfree := h.free
        have hnone : st.updt.insert (createBid w ind) (toStr ((st.updtCnt w).getD 0 + 1).toInt) = none :=
          Bounded.insert_eq_none.2 ⟨hnew, by omega⟩
        rw [hnone] at hu
        cases hu
      · cases ht
  · rw [if_neg hf] at ht
    cases ht

/-- An insert of a new pair takes one place of `updt` and at most one of `srch`. -/
theorem Room.pair (h : Room st) {w : Str} {ind cnt : Int32} {v : Str} {updt srch : Bounded}
    (hnew : st.updt.map (createBid w ind) = none)
    (hu : st.updt.insert (createBid w ind) (toStr cnt.toInt) = some updt)
    (hs : st.srch.insert (createBid w cnt) v = some srch) : Room { st with updt := updt, srch := srch } where
  free := by
    have hfree := h.free
    have hufree := Bounded.insert_free hu
    have hsfree := Bounded.insert_free hs
    rw [if_pos hnew] at hufree
    have hpos : st.updt.free ≠ 0 := by
      intro hz
      rw [Bounded.insert_eq_none.2 ⟨hnew, hz⟩] at hu
      cases hu
    show updt.free ≤ srch.free
    split at hsfree <;> omega
  full := by
    intro key
    show updt.map key ≠ some []
    rw [Bounded.insert_map hu, Orion.put_apply]
    split
    · simpa using toStr_ne_nil cnt.toInt
    · exact h.full key
  stored := by
    intro w' x v' slot hv' hslot hpos
    have hv' : updt.map (createBid w' x) = some v' := hv'
    rw [Bounded.insert_map hu, Orion.put_apply] at hv'
    show srch.map (createBid w' slot) ≠ none
    split at hv'
    · next e =>
      obtain ⟨hw, -⟩ := Orion.createBid_eq_iff.1 e
      rw [← Option.some.inj hv', stoi_toStr] at hslot
      obtain rfl := Option.some.inj hslot
      have hkey : createBid w' cnt = createBid w cnt := Orion.createBid_eq_iff.2 ⟨hw, rfl⟩
      rw [hkey, Bounded.insert_map hs, Orion.put_apply, if_pos rfl]
      simp
    · exact Bounded.insert_keeps hs (h.stored w' x v' slot hv' hslot hpos)

/-- An insert that returns: it does nothing, or it stores the pair and its slot. -/
theorem insert_cases {w : Str} {ind : Int32} (ht : (insert st w ind).2 = some ()) :
    find st.updt.map (createBid w ind) ≠ [] ∧ (insert st w ind).1 = st ∨
    find st.updt.map (createBid w ind) = [] ∧ ∃ updt srch,
      st.updt.insert (createBid w ind) (toStr ((st.updtCnt w).getD 0 + 1).toInt) = some updt ∧
      st.srch.insert (createBid w ((st.updtCnt w).getD 0 + 1)) (toStr ind.toInt) = some srch ∧
      (insert st w ind).1 = ⟨srch, updt, Function.update st.updtCnt w (some ((st.updtCnt w).getD 0 + 1)),
        Function.update st.lastIND w (some ind)⟩ := by
  unfold Capacity.insert at ht ⊢
  simp only at ht ⊢
  by_cases hf : find st.updt.map (createBid w ind) = []
  · rw [if_pos hf] at ht ⊢
    refine Or.inr ⟨hf, ?_⟩
    cases hu : st.updt.insert (createBid w ind) (toStr ((st.updtCnt w).getD 0 + 1).toInt) with
    | none =>
      rw [hu] at ht
      cases ht
    | some updt =>
      rw [hu] at ht
      simp only at ht ⊢
      cases hs : st.srch.insert (createBid w ((st.updtCnt w).getD 0 + 1)) (toStr ind.toInt) with
      | none =>
        rw [hs] at ht
        cases ht
      | some srch => exact ⟨updt, srch, rfl, rfl, rfl⟩
  · rw [if_neg hf]
    exact Or.inl ⟨hf, rfl⟩

theorem Room.insert (h : Room st) (w : Str) (ind : Int32) : Room (insert st w ind).1 := by
  cases ht : (Capacity.insert st w ind).2 with
  | none =>
    rw [(h.insert_throws ht).2.2]
    exact h.congr rfl rfl
  | some u =>
    obtain ⟨-, he⟩ | ⟨hf, updt, srch, hu, hs, he⟩ := insert_cases ht
    · rw [he]
      exact h
    · rw [he]
      exact (h.pair (h.absent hf) hu hs).congr rfl rfl

theorem Room.step (h : Room st) (op : Op) : Room (step st op).1 := by
  cases op with
  | insert w ind => exact h.insert w ind
  | remove w ind => exact h.remove w ind
  | search w => exact h

end

theorem room_after (maxSize : Nat) (ops : List Op) : Room (after maxSize ops) := by
  induction ops using List.reverseRecOn with
  | nil => exact room_init maxSize
  | append_singleton ops op ih =>
    rw [after_concat]
    exact ih.step op

/-! ## What a removal touches -/

/-- `r` is `t` after writes under the keys of `w`. -/
structure Within (w : Str) (t r : State) : Prop where
  free : r.updt.free ≤ t.updt.free
  srch : ∀ key, (∀ k, key ≠ createBid w k) → r.srch.map key = t.srch.map key
  updt : ∀ key, (∀ k, key ≠ createBid w k) → r.updt.map key = t.updt.map key
  updtCnt : ∀ w', w' ≠ w → r.updtCnt w' = t.updtCnt w'
  lastIND : ∀ w', w' ≠ w → r.lastIND w' = t.lastIND w'

theorem Within.refl (w : Str) (t : State) : Within w t t :=
  ⟨le_rfl, fun _ _ => rfl, fun _ _ => rfl, fun _ _ => rfl, fun _ _ => rfl⟩

theorem Within.trans {w : Str} {t r q : State} (h : Within w t r) (h' : Within w r q) : Within w t q :=
  ⟨le_trans h'.free h.free, fun key hk => (h'.srch key hk).trans (h.srch key hk),
    fun key hk => (h'.updt key hk).trans (h.updt key hk), fun w' hw => (h'.updtCnt w' hw).trans (h.updtCnt w' hw),
    fun w' hw => (h'.lastIND w' hw).trans (h.lastIND w' hw)⟩

theorem Within.setUpdtCnt (w : Str) (t : State) (c : Option Int32) :
    Within w t { t with updtCnt := Function.update t.updtCnt w c } :=
  ⟨le_rfl, fun _ _ => rfl, fun _ _ => rfl, fun _ hw => Function.update_of_ne hw _ _, fun _ _ => rfl⟩

theorem Within.setLastIND (w : Str) (t : State) (x : Option Int32) :
    Within w t { t with lastIND := Function.update t.lastIND w x } :=
  ⟨le_rfl, fun _ _ => rfl, fun _ _ => rfl, fun _ _ => rfl, fun _ hw => Function.update_of_ne hw _ _⟩

theorem Within.putUpdt {w : Str} {t : State} {k : Int32} {v : Str} {updt : Bounded}
    (h : t.updt.insert (createBid w k) v = some updt) : Within w t { t with updt := updt } where
  free := by
    have := Bounded.insert_free h
    show updt.free ≤ t.updt.free
    split at this <;> omega
  srch := fun _ _ => rfl
  updt := fun key hk => by
    show updt.map key = t.updt.map key
    rw [Bounded.insert_map h, Orion.put_apply, if_neg (hk k)]
  updtCnt := fun _ _ => rfl
  lastIND := fun _ _ => rfl

theorem Within.putSrch {w : Str} {t : State} {k : Int32} {v : Str} {srch : Bounded}
    (h : t.srch.insert (createBid w k) v = some srch) : Within w t { t with srch := srch } where
  free := le_rfl
  srch := fun key hk => by
    show srch.map key = t.srch.map key
    rw [Bounded.insert_map h, Orion.put_apply, if_neg (hk k)]
  updt := fun _ _ => rfl
  updtCnt := fun _ _ => rfl
  lastIND := fun _ _ => rfl

theorem readLast_within (t : State) (w : Str) (cnt : Int32) : Within w t (readLast t w cnt).1 := by
  unfold readLast
  split
  · exact Within.refl w t
  · exact Within.setLastIND w t _

theorem fillHole_within (t : State) (w : Str) (slot : Int32) (v : Str) : Within w t (fillHole t w slot v).1 := by
  unfold fillHole
  simp only
  set t1 : State := { t with lastIND := Function.update t.lastIND w (some ((t.lastIND w).getD 0)) } with ht1
  have h1 : Within w t t1 := Within.setLastIND w t _
  split
  · exact h1
  · next updt hu =>
    have h2 : Within w t { t1 with updt := updt } := h1.trans (Within.putUpdt hu)
    split
    · exact h2
    · next srch hs =>
      have hs' : ({ t1 with updt := updt } : State).srch.insert (createBid w slot) (toStr ((t.lastIND w).getD 0).toInt) =
        some srch := hs
      exact h2.trans (Within.putSrch hs')

theorem remove_within (t : State) (w : Str) (ind : Int32) : Within w t (remove t w ind).1 := by
  unfold remove
  simp only
  split
  · exact Within.refl w t
  · next slot hslot =>
    split
    · split
      · exact Within.refl w t
      · next updt hu =>
        set cnt := (t.updtCnt w).getD 0 - 1
        set st1 : State := { t with updt := updt, updtCnt := Function.update t.updtCnt w (some cnt) } with hst1
        have h1 : Within w t st1 := (Within.putUpdt hu).trans (Within.setUpdtCnt w _ _)
        split
        · split
          · have hfill := h1.trans (fillHole_within st1 w slot (find t.updt.map (createBid w ind)))
            split
            · next st2 he =>
              rw [he] at hfill
              exact hfill
            · next st2 he =>
              rw [he] at hfill
              exact hfill.trans (readLast_within _ _ _)
          · exact h1.trans (readLast_within _ _ _)
        · exact h1.trans (Within.setLastIND w st1 _)
    · exact Within.refl w t

theorem insert_within (t : State) (w : Str) (ind : Int32) : Within w t (insert t w ind).1 := by
  unfold insert
  simp only
  split
  · have h1 := Within.setUpdtCnt w t (some ((t.updtCnt w).getD 0 + 1))
    split
    · exact h1
    · next updt hu =>
      have h2 := h1.trans (Within.putUpdt hu)
      split
      · exact h2
      · next srch hs => exact (h2.trans (Within.putSrch hs)).trans (Within.setLastIND w _ _)
  · exact Within.refl w t

theorem step_within (t : State) (op : Op) : Within op.keyword t (step t op).1 := by
  cases op with
  | insert w ind => exact insert_within t w ind
  | remove w ind => exact remove_within t w ind
  | search w => exact Within.refl w t

/-- A removal reads and writes the count of its keyword only. -/
theorem readLast_withCnt (t : State) (f : Str → Option Int32) (w : Str) (cnt : Int32) :
    readLast { t with updtCnt := f } w cnt = ({ (readLast t w cnt).1 with updtCnt := f }, (readLast t w cnt).2) := by
  unfold readLast
  simp only
  split <;> rfl

theorem fillHole_withCnt (t : State) (f : Str → Option Int32) (w : Str) (slot : Int32) (v : Str) :
    fillHole { t with updtCnt := f } w slot v =
      ({ (fillHole t w slot v).1 with updtCnt := f }, (fillHole t w slot v).2) := by
  unfold fillHole
  simp only
  split
  · rfl
  · split <;> rfl

theorem readLast_updtCnt (t : State) (w : Str) (cnt : Int32) : (readLast t w cnt).1.updtCnt = t.updtCnt := by
  unfold readLast
  split <;> rfl

theorem fillHole_updtCnt (t : State) (w : Str) (slot : Int32) (v : Str) :
    (fillHole t w slot v).1.updtCnt = t.updtCnt := by
  unfold fillHole
  simp only
  split
  · rfl
  · split <;> rfl

theorem remove_withCnt (t : State) {f : Str → Option Int32} {w : Str} (hf : f w = t.updtCnt w) (ind : Int32) :
    ∃ g, remove { t with updtCnt := f } w ind = ({ (remove t w ind).1 with updtCnt := g }, (remove t w ind).2) ∧
      ∀ w', f w' = t.updtCnt w' → g w' = (remove t w ind).1.updtCnt w' := by
  unfold remove
  simp only [hf]
  split
  · exact ⟨f, rfl, fun w' h => h⟩
  · next slot hslot =>
    split
    · split
      · exact ⟨f, rfl, fun w' h => h⟩
      · next updt hu =>
        set cnt := (t.updtCnt w).getD 0 - 1
        have hupd : ∀ w', f w' = t.updtCnt w' →
            Function.update f w (some cnt) w' = Function.update t.updtCnt w (some cnt) w' := by
          intro w' h
          simp only [Function.update_apply, h]
        set st1 : State := { t with updt := updt, updtCnt := Function.update t.updtCnt w (some cnt) } with hst1
        have hst1' : ({ t with updt := updt, updtCnt := Function.update f w (some cnt) } : State) =
            { st1 with updtCnt := Function.update f w (some cnt) } := rfl
        refine ⟨Function.update f w (some cnt), ?_, ?_⟩
        · split
          · split
            · rw [hst1', fillHole_withCnt]
              cases hfill : fillHole st1 w slot (find t.updt.map (createBid w ind)) with
              | mk st2 o =>
                cases o with
                | none => rfl
                | some u => exact readLast_withCnt st2 _ w cnt
            · rw [hst1']
              exact readLast_withCnt st1 _ w cnt
          · rfl
        · intro w' h
          rw [hupd w' h]
          split
          · split
            · have hc := fillHole_updtCnt st1 w slot (find t.updt.map (createBid w ind))
              cases hfill : fillHole st1 w slot (find t.updt.map (createBid w ind)) with
              | mk st2 o =>
                rw [hfill] at hc
                cases o with
                | none => rw [hc]
                | some u =>
                  simp only [readLast_updtCnt]
                  rw [hc]
            · rw [readLast_updtCnt]
          · rfl
    · exact ⟨f, rfl, fun w' h => h⟩

/-! ## A counter that nothing reads -/

/-- The states agree except for the count of `w`, `updt` is full, and `srch` has no slot of `w`. -/
structure Hidden (w : Str) (s t : State) : Prop where
  srch : s.srch = t.srch
  updt : s.updt = t.updt
  lastIND : s.lastIND = t.lastIND
  updtCnt : ∀ w', w' ≠ w → s.updtCnt w' = t.updtCnt w'
  full : t.updt.free = 0
  slotless : ∀ k, t.srch.map (createBid w k) = none
  room : Room t

/-- Without slots a search finds nothing, whatever the count. -/
theorem search_slotless {st : State} {w : Str} (h : ∀ k, st.srch.map (createBid w k) = none) : search st w = some [] := by
  have hread : ∀ n, batchSearch st.srch.map (slotBids w n) = [] := by
    intro n
    apply List.filterMap_eq_nil_iff.2
    intro key hkey
    obtain ⟨i, -, rfl⟩ := List.mem_map.1 hkey
    exact h _
  unfold search
  cases st.updtCnt w with
  | none => rfl
  | some n =>
    simp only [hread]
    rfl

theorem Hidden.search {w : Str} {s t : State} (h : Hidden w s t) (w' : Str) : search s w' = search t w' := by
  by_cases hw : w' = w
  · rw [hw, search_slotless h.slotless, search_slotless]
    rw [h.srch]
    exact h.slotless
  · unfold Capacity.search
    rw [h.srch, h.updtCnt w' hw]

theorem Hidden.insert {w : Str} {s t : State} (h : Hidden w s t) (w' : Str) (ind : Int32) :
    Hidden w (insert s w' ind).1 (insert t w' ind).1 ∧ (insert s w' ind).2 = (insert t w' ind).2 := by
  unfold Capacity.insert
  simp only [h.updt]
  by_cases hf : find t.updt.map (createBid w' ind) = []
  · -- both throw, and both count
    have hthrow : ∀ v, t.updt.insert (createBid w' ind) v = none := fun v =>
      Bounded.insert_eq_none.2 ⟨h.room.absent hf, h.full⟩
    simp only [if_pos hf, hthrow]
    refine ⟨⟨h.srch, rfl, h.lastIND, fun w'' hw'' => ?_, h.full, h.slotless, h.room.congr rfl rfl⟩, trivial⟩
    simp only [Function.update_apply]
    split
    · next e =>
      rw [h.updtCnt w' (e ▸ hw'')]
    · exact h.updtCnt w'' hw''
  · simp only [if_neg hf]
    exact ⟨h, trivial⟩

/-- A removal that does something is of a keyword with slots, so not of `w`. -/
theorem Hidden.remove {w : Str} {s t : State} (h : Hidden w s t) (w' : Str) (ind : Int32) :
    Hidden w (remove s w' ind).1 (remove t w' ind).1 ∧ (remove s w' ind).2 = (remove t w' ind).2 := by
  have hs : s = { t with updtCnt := s.updtCnt } := by
    cases s
    cases t
    obtain ⟨h1, h2, h3, -, -, -, -⟩ := h
    simp only at h1 h2 h3
    rw [h1, h2, h3]
  by_cases hclass : padTo 12 w' = padTo 12 w
  · -- an entry with a slot would have its slot in `srch`
    have hkey : ∀ k, createBid w' k = createBid w k := fun k => Orion.createBid_eq_iff.2 ⟨hclass, rfl⟩
    have hidle : ∀ r : State, r.updt = t.updt → ∃ o, Capacity.remove r w' ind = (r, o) ∧
        ∀ r' : State, r'.updt = t.updt → Capacity.remove r' w' ind = (r', o) := by
      intro r hr
      have hno : ∀ slot, stoi (find t.updt.map (createBid w' ind)) = some slot → ¬ 0 < slot := by
        intro slot hslot hpos
        obtain ⟨v, hv, hfind⟩ := find_ne_nil_of_stoi hslot
        rw [hfind] at hslot
        have := h.room.stored w' ind v slot hv hslot hpos
        rw [hkey] at this
        exact this (h.slotless slot)
      unfold Capacity.remove
      simp only [hr]
      cases hslot : stoi (find t.updt.map (createBid w' ind)) with
      | none => exact ⟨none, rfl, fun r' hr' => by simp only [hr', hslot]⟩
      | some slot =>
        refine ⟨some (), if_neg (hno slot hslot), fun r' hr' => ?_⟩
        simp only [hr', hslot]
        exact if_neg (hno slot hslot)
    obtain ⟨o, h1, h2⟩ := hidle s h.updt
    rw [h1, h2 t rfl]
    exact ⟨h, rfl⟩
  · have hne : w' ≠ w := fun e => hclass (by rw [e])
    have hcnt := h.updtCnt w' hne
    obtain ⟨g, he, hg⟩ := remove_withCnt t hcnt ind
    have hwithin := remove_within t w' ind
    rw [hs, he]
    refine ⟨⟨rfl, rfl, rfl, fun w'' hw'' => hg w'' (h.updtCnt w'' hw''), ?_, fun k => ?_, h.room.remove w' ind⟩, rfl⟩
    · have := hwithin.free
      have := h.full
      omega
    · rw [hwithin.srch]
      · exact h.slotless k
      · intro k' e
        exact hclass (Orion.createBid_eq_iff.1 e).1.symm

theorem Hidden.step {w : Str} {s t : State} (h : Hidden w s t) (op : Op) :
    Hidden w (step s op).1 (step t op).1 ∧ (step s op).2 = (step t op).2 := by
  cases op with
  | insert w' ind =>
    obtain ⟨h1, h2⟩ := h.insert w' ind
    exact ⟨h1, by simp only [Capacity.step, h2]⟩
  | remove w' ind =>
    obtain ⟨h1, h2⟩ := h.remove w' ind
    exact ⟨h1, by simp only [Capacity.step, h2]⟩
  | search w' => exact ⟨h, h.search w'⟩

theorem Hidden.answers {w : Str} {s t : State} (h : Hidden w s t) (ops : List Op) : answers s ops = answers t ops := by
  induction ops generalizing s t with
  | nil => rfl
  | cons op ops ih =>
    obtain ⟨h1, h2⟩ := h.step op
    simp only [Capacity.answers, h2, ih h1]

/-- A failed insert of a keyword without slots leaves a counter that nothing reads. -/
theorem Room.hidden {st : State} (h : Room st) {w : Str} {ind : Int32} (ht : (Capacity.insert st w ind).2 = none)
    (hs : ∀ k, st.srch.map (createBid w k) = none) : Hidden w (Capacity.insert st w ind).1 st := by
  obtain ⟨hfull, -, he⟩ := h.insert_throws ht
  rw [he]
  exact ⟨rfl, rfl, rfl, fun w' hw' => Function.update_of_ne hw' _ _, hfull, hs, h⟩

theorem forall₂_answers_refl (as : List (Option (List Int32))) : List.Forall₂ (Option.Rel List.Perm) as as := by
  induction as with
  | nil => exact List.Forall₂.nil
  | cons a as ih =>
    refine List.Forall₂.cons ?_ ih
    cases a with
    | none => exact Option.Rel.none
    | some l => exact Option.Rel.some (List.Perm.refl l)

/-! ## A keyword whose inserts did not fail -/

/-- The state without its capacities. -/
def forget (st : State) : Orion.State := ⟨st.srch.map, st.updt.map, st.updtCnt, st.lastIND⟩

theorem search_forget (st : State) (w : Str) : search st w = Orion.search (forget st) w := rfl

theorem Within.agree {w w' : Str} {t r : State} (h : Within w' t r) (hne : padTo 12 w ≠ padTo 12 w') :
    Orion.AgreeAt (forget t) (forget r) w where
  srch a := h.srch _ fun k e => hne (Orion.createBid_eq_iff.1 e).1
  updt a := h.updt _ fun k e => hne (Orion.createBid_eq_iff.1 e).1
  updtCnt := h.updtCnt w fun e => hne (by rw [e])
  lastIND := h.lastIND w fun e => hne (by rw [e])

theorem fillHole_forget {st : State} {w : Str} {slot : Int32} {v : Str}
    (hlast : st.updt.map (createBid w ((st.lastIND w).getD 0)) ≠ none) (hslot : st.srch.map (createBid w slot) ≠ none) :
    ∃ st', fillHole st w slot v = (st', some ()) ∧ forget st' = Orion.fillHole (forget st) w slot v := by
  unfold fillHole
  simp only
  rw [Bounded.insert_present hlast]
  simp only
  rw [Bounded.insert_present hslot]
  exact ⟨_, rfl, rfl⟩

theorem readLast_forget (st : State) (w : Str) (cnt : Int32) :
    (forget (readLast st w cnt).1, (readLast st w cnt).2) =
      match stoi (find (forget st).srch (createBid w cnt)) with
      | none => (forget st, none)
      | some lastID => ({ forget st with lastIND := Function.update (forget st).lastIND w (some lastID) }, some ()) := by
  unfold readLast
  show _ = match stoi (find st.srch.map (createBid w cnt)) with
    | none => (forget st, none)
    | some lastID => ({ forget st with lastIND := Function.update (forget st).lastIND w (some lastID) }, some ())
  cases stoi (find st.srch.map (createBid w cnt)) <;> rfl

/-- A removal needs no room as long as the last ind is a key of `updt`. -/
theorem Room.remove_forget {st : State} (h : Room st) {w : Str} {ind : Int32}
    (hlast : ∀ slot, stoi (find st.updt.map (createBid w ind)) = some slot → 0 < slot →
      st.updt.map (createBid w ((st.lastIND w).getD 0)) ≠ none) :
    (forget (Capacity.remove st w ind).1, (Capacity.remove st w ind).2) = Orion.remove (forget st) w ind := by
  unfold Capacity.remove Orion.remove
  simp only
  show _ = match stoi (find st.updt.map (createBid w ind)) with
    | none => (forget st, none)
    | some slot => _
  cases hs : stoi (find st.updt.map (createBid w ind)) with
  | none => rfl
  | some slot =>
    simp only
    by_cases hpos : 0 < slot
    · obtain ⟨v, hv, hfind⟩ := find_ne_nil_of_stoi hs
      have hkey : st.updt.map (createBid w ind) ≠ none := by
        rw [hv]
        simp
      have hslot := h.stored w ind v slot hv (hfind ▸ hs) hpos
      simp only [if_pos hpos, Bounded.insert_present hkey]
      show _ = if 0 < (st.updtCnt w).getD 0 - 1 then _ else _
      set cnt := (st.updtCnt w).getD 0 - 1
      by_cases hmore : 0 < cnt
      · simp only [if_pos hmore]
        set st1 : State := { st with
          updt := ⟨Orion.put st.updt.map (createBid w ind) (toStr (-1)), st.updt.free⟩
          updtCnt := Function.update st.updtCnt w (some cnt) } with hst1
        by_cases hswap : cnt + 1 ≠ slot
        · have hswap' : ((forget st).updtCnt w).getD 0 - 1 + 1 ≠ slot := hswap
          simp only [if_pos hswap, if_pos hswap']
          have hl1 : st1.updt.map (createBid w ((st1.lastIND w).getD 0)) ≠ none := by
            show Orion.put st.updt.map (createBid w ind) (toStr (-1)) (createBid w ((st.lastIND w).getD 0)) ≠ none
            rw [Orion.put_apply]
            split
            · simp
            · exact hlast slot hs hpos
          obtain ⟨st2, hfill, hforget⟩ := fillHole_forget (v := find st.updt.map (createBid w ind)) hl1 hslot
          rw [hfill]
          simp only
          rw [readLast_forget, hforget]
          rfl
        · have hswap' : ¬ ((forget st).updtCnt w).getD 0 - 1 + 1 ≠ slot := hswap
          simp only [if_neg hswap, if_neg hswap']
          exact readLast_forget st1 w cnt
      · simp only [if_neg hmore]
        rfl
    · simp only [if_neg hpos]

/-- The keyword's list, and the slots `1 .. n` that were ever used. -/
structure Clean (st : State) (w : Str) (l : List Int32) (dead : Int32 → Prop) (n : Nat) : Prop where
  rep : Orion.RepAt (forget st) w l dead
  le : l.length ≤ n
  slots : ∀ k, st.srch.map (createBid w k) ≠ none → 1 ≤ k.toInt ∧ k.toInt ≤ n ∧
    ∃ x : Int32, st.srch.map (createBid w k) = some (toStr x.toInt)
  used : ∀ i < n, st.srch.map (createBid w (Int32.ofNat (i + 1))) ≠ none

theorem clean_init (maxSize : Nat) (w : Str) : Clean (init maxSize) w [] (fun _ => False) 0 where
  rep := Orion.repAt_init w
  le := le_rfl
  slots _ h := absurd rfl h
  used i hi := absurd hi (Nat.not_lt_zero i)

section

variable {st : State} {w : Str} {l : List Int32} {dead : Int32 → Prop} {n : Nat}

theorem Clean.of_agree (h : Clean st w l dead n) {st' : State} (ha : Orion.AgreeAt (forget st) (forget st') w) :
    Clean st' w l dead n where
  rep := h.rep.of_agree ha
  le := h.le
  slots k hk := by
    have hs : st'.srch.map (createBid w k) = st.srch.map (createBid w k) := ha.srch k
    rw [hs] at hk ⊢
    exact h.slots k hk
  used i hi := by
    have hs : st'.srch.map (createBid w (Int32.ofNat (i + 1))) = st.srch.map (createBid w (Int32.ofNat (i + 1))) :=
      ha.srch _
    rw [hs]
    exact h.used i hi

theorem Clean.insert (h : Clean st w l dead n) {ind : Int32} (ht : (insert st w ind).2 = some ())
    (hb : n + 1 < 2 ^ 31 - 1) : ∃ l' n', Clean (insert st w ind).1 w l' dead n' ∧ n' ≤ n + 1 := by
  have hle := h.le
  obtain ⟨-, he⟩ | ⟨hf, updt, srch, hu, hs, he⟩ := insert_cases ht
  · rw [he]
    exact ⟨l, n, h, Nat.le_succ n⟩
  · have hcnt : (st.updtCnt w).getD 0 + 1 = Int32.ofNat (l.length + 1) := by
      have hc : (st.updtCnt w).getD 0 = Int32.ofNat l.length := h.rep.cnt
      rw [hc, ofNat_add_one]
    have hmap : srch.map = Orion.put st.srch.map (createBid w (Int32.ofNat (l.length + 1))) (toStr ind.toInt) := by
      rw [Bounded.insert_map hs, hcnt]
    have hforget : forget (Capacity.insert st w ind).1 = Orion.insert (forget st) w ind := by
      rw [he]
      unfold Orion.insert
      have hf' : find (forget st).updt (createBid w ind) = [] := hf
      simp only [if_pos hf']
      unfold forget
      rw [Bounded.insert_map hs, Bounded.insert_map hu]
    obtain ⟨hnew, hdead⟩ := (h.rep.find_eq_nil ind).1 hf
    refine ⟨l ++ [ind], max n (l.length + 1), ⟨?_, by simp, fun k hk => ?_, fun i hi => ?_⟩, by omega⟩
    · rw [hforget]
      exact h.rep.insert hnew hdead (by omega)
    · have hsrch : (Capacity.insert st w ind).1.srch.map = srch.map := by rw [he]
      rw [hsrch, hmap, Orion.put_apply] at hk ⊢
      by_cases hkey : createBid w k = createBid w (Int32.ofNat (l.length + 1))
      · obtain ⟨-, rfl⟩ := Orion.createBid_eq_iff.1 hkey
        rw [toInt_ofNat_small (by omega), if_pos rfl]
        exact ⟨by omega, by omega, ind, rfl⟩
      · rw [if_neg hkey] at hk ⊢
        obtain ⟨h1, h2, h3⟩ := h.slots k hk
        exact ⟨h1, by omega, h3⟩
    · have hsrch : (Capacity.insert st w ind).1.srch.map = srch.map := by rw [he]
      rw [hsrch, hmap, Orion.put_apply]
      split
      · simp
      · next hne =>
        refine h.used i ?_
        by_contra hge
        have : i = l.length := by omega
        rw [this] at hne
        exact hne rfl

/-- A removal overwrites one slot at most. -/
theorem remove_srch (st : Orion.State) (w : Str) (ind : Int32) :
    (Orion.remove st w ind).1.srch = st.srch ∨ ∃ slot last : Int32,
      stoi (find st.updt (createBid w ind)) = some slot ∧
        (Orion.remove st w ind).1.srch = Orion.put st.srch (createBid w slot) (toStr last.toInt) := by
  unfold Orion.remove
  simp only
  cases hs : stoi (find st.updt (createBid w ind)) with
  | none => exact Or.inl rfl
  | some slot =>
    simp only
    by_cases hpos : 0 < slot
    · simp only [if_pos hpos]
      by_cases hmore : 0 < (st.updtCnt w).getD 0 - 1
      · simp only [if_pos hmore]
        by_cases hswap : (st.updtCnt w).getD 0 - 1 + 1 ≠ slot
        · simp only [if_pos hswap]
          refine Or.inr ⟨slot, (st.lastIND w).getD 0, rfl, ?_⟩
          split <;> rfl
        · simp only [if_neg hswap]
          refine Or.inl ?_
          split <;> rfl
      · simp only [if_neg hmore]
        exact Or.inl trivial
    · simp only [if_neg hpos]
      exact Or.inl trivial

/-- The entry of a live ind names its slot, that of any other ind none. -/
theorem Clean.slot_iff (h : Clean st w l dead n) {ind slot : Int32}
    (hs : stoi (find st.updt.map (createBid w ind)) = some slot) (hpos : 0 < slot) :
    ∃ i : Nat, l[i]? = some ind ∧ slot = Int32.ofNat (i + 1) := by
  by_cases hl : ind ∈ l
  · obtain ⟨i, hi⟩ := List.mem_iff_getElem?.1 hl
    have hlt := lt_of_getElem?_eq_some hi
    have hb := h.rep.bound
    have hfind : find st.updt.map (createBid w ind) = toStr ((i + 1 : Nat) : Int) := h.rep.find_live hi
    rw [hfind, stoi_slot (by omega)] at hs
    exact ⟨i, hi, (Option.some.inj hs).symm⟩
  · exfalso
    by_cases hd : dead ind
    · have hgone := h.rep.gone ind hl hd
      have hfind : find st.updt.map (createBid w ind) = toStr (-1) := by
        rw [find, show st.updt.map (createBid w ind) = some (toStr (-1)) from hgone, Option.getD_some]
      have hone : stoi (toStr (-1)) = some (-1) := by decide
      rw [hfind, hone] at hs
      rw [← Option.some.inj hs] at hpos
      exact absurd hpos (by decide)
    · have hfind : find st.updt.map (createBid w ind) = [] := (h.rep.find_eq_nil ind).2 ⟨hl, hd⟩
      have hempty : stoi [] = none := by decide
      rw [hfind, hempty] at hs
      cases hs

/-- The last ind is a key of `updt`. -/
theorem Clean.last_present (h : Clean st w l dead n) (hne : l ≠ []) :
    st.updt.map (createBid w ((st.lastIND w).getD 0)) ≠ none := by
  have hlast : st.lastIND w = l.getLast? := h.rep.last
  have hmem : l.getLast hne ∈ l := List.getLast_mem hne
  obtain ⟨i, hi⟩ := List.mem_iff_getElem?.1 hmem
  have hslot : st.updt.map (createBid w (l.getLast hne)) = some _ := h.rep.slot i _ hi
  rw [hlast, List.getLast?_eq_some_getLast hne, Option.getD_some, hslot]
  simp

theorem Clean.forget_remove (h : Clean st w l dead n) (hroom : Room st) (ind : Int32) :
    (forget (remove st w ind).1, (remove st w ind).2) = Orion.remove (forget st) w ind := by
  refine hroom.remove_forget fun slot hs hpos => h.last_present ?_
  obtain ⟨i, hi, -⟩ := h.slot_iff hs hpos
  rintro rfl
  simp at hi

theorem Clean.remove (h : Clean st w l dead n) (hroom : Room st) (ind : Int32) :
    ∃ l' dead', Clean (remove st w ind).1 w l' dead' n := by
  have hf := h.forget_remove hroom ind
  have hforget : forget (Capacity.remove st w ind).1 = (Orion.remove (forget st) w ind).1 := congrArg Prod.fst hf
  have hle := h.le
  by_cases hl : ind ∈ l
  · obtain ⟨i, hi⟩ := List.mem_iff_getElem?.1 hl
    have hlt := lt_of_getElem?_eq_some hi
    have hb := h.rep.bound
    obtain ⟨-, hrep⟩ := h.rep.remove hi
    have hsrch : (Capacity.remove st w ind).1.srch.map = (Orion.remove (forget st) w ind).1.srch := by
      rw [← hforget]
      rfl
    refine ⟨fill l i, _, ⟨hforget ▸ hrep, by rw [Orion.length_fill]; omega, ?_, ?_⟩⟩
    · intro k hk
      rw [hsrch] at hk ⊢
      obtain he | ⟨slot, last, hs, he⟩ := remove_srch (forget st) w ind
      · rw [he] at hk ⊢
        exact h.slots k hk
      · rw [he, Orion.put_apply] at hk ⊢
        by_cases hkey : createBid w k = createBid w slot
        · -- the overwritten slot is that of the removed ind
          obtain ⟨-, rfl⟩ := Orion.createBid_eq_iff.1 hkey
          have hfind : find (forget st).updt (createBid w ind) = toStr ((i + 1 : Nat) : Int) := h.rep.find_live hi
          rw [hfind, stoi_slot (by omega)] at hs
          rw [← Option.some.inj hs, toInt_ofNat_small (by omega), if_pos rfl]
          exact ⟨by omega, by omega, last, rfl⟩
        · rw [if_neg hkey] at hk ⊢
          exact h.slots k hk
    · intro j hj
      rw [hsrch]
      obtain he | ⟨slot, last, hs, he⟩ := remove_srch (forget st) w ind
      · rw [he]
        exact h.used j hj
      · rw [he, Orion.put_apply]
        split
        · simp
        · exact h.used j hj
  · have hsame : forget (Capacity.remove st w ind).1 = forget st := by
      rw [hforget]
      by_cases hd : dead ind
      · rw [h.rep.remove_dead hl hd]
      · rw [h.rep.remove_absent hl hd]
    refine ⟨l, dead, h.of_agree ?_⟩
    rw [hsame]
    exact Orion.AgreeAt.refl _ _

end

/-- The keyword's inserts do not throw. -/
def Succeeds (maxSize : Nat) (w : Str) (pre : List Op) (op : Op) : Prop :=
  ∀ ind, op = .insert w ind → (insert (after maxSize pre) w ind).2 = some ()

theorem clean_after (maxSize : Nat) (ops : List Op) (hv : ∀ op ∈ ops, Orion.Valid op.keyword) {w : Str}
    (hw : Orion.Valid w) (hok : Runs.Each (Succeeds maxSize w) [] ops) (hb : ops.length < 2 ^ 31 - 1) :
    ∃ l dead n, Clean (after maxSize ops) w l dead n ∧ n ≤ ops.length := by
  induction ops using List.reverseRecOn with
  | nil => exact ⟨[], _, 0, clean_init maxSize w, le_rfl⟩
  | append_singleton ops op ih =>
    rw [Runs.each_concat, List.nil_append] at hok
    rw [List.length_append, List.length_singleton] at hb ⊢
    obtain ⟨l, dead, n, h, hn⟩ := ih (fun op hop => hv op (List.mem_append_left _ hop)) hok.1 (by omega)
    rw [after_concat]
    by_cases hk : op.keyword = w
    · cases op with
      | insert w' ind =>
        obtain rfl : w' = w := hk
        obtain ⟨l', n', h', hn'⟩ := h.insert (hok.2 ind rfl) (by omega)
        exact ⟨l', dead, n', h', by omega⟩
      | remove w' ind =>
        obtain rfl : w' = w := hk
        obtain ⟨l', dead', h'⟩ := h.remove (room_after maxSize ops) ind
        exact ⟨l', dead', n, h', by omega⟩
      | search w' => exact ⟨l, dead, n, h, by omega⟩
    · have hop := hv op (List.mem_append_right _ (List.mem_singleton_self op))
      have hne : padTo 12 w ≠ padTo 12 op.keyword := fun e =>
        hk (padTo_injective hw.nulFree hop.nulFree hw.fits hop.fits e).symm
      exact ⟨l, dead, n, h.of_agree ((step_within _ op).agree hne), by omega⟩

/-! ## The damage -/

theorem rel_length {a b : Option (List Int32)} {l l' : List Int32} (h : Option.Rel List.Perm a b) (ha : a = some l)
    (hb : b = some l') : l.length = l'.length := by
  subst ha hb
  cases h with
  | some hp => exact hp.length_eq

/-- The last ind is removed while one slot too many is counted: it is taken for an ind in another
slot, and moved into its own. -/
theorem remove_last_counted {st : Orion.State} {w : Str} {l : List Int32} {x : Int32} (hb : l.length + 1 < 2 ^ 31 - 1)
    (hlast : l[l.length - 1]? = some x) (hcnt : st.updtCnt w = some (Int32.ofNat (l.length + 1)))
    (hsrch : ∀ i y, l[i]? = some y → st.srch (createBid w (Int32.ofNat (i + 1))) = some (toStr y.toInt))
    (hptr : st.updt (createBid w x) = some (toStr ((l.length : Nat) : Int))) (hind : st.lastIND w = some x) :
    (Orion.remove st w x).2 = some () ∧ Orion.search (Orion.remove st w x).1 w = some l := by
  have hpos : 0 < l.length := by
    have := lt_of_getElem?_eq_some hlast
    omega
  have hfind : find st.updt (createBid w x) = toStr ((l.length : Nat) : Int) := by
    simp only [find, hptr, Option.getD_some]
  have hsub : Int32.ofNat (l.length + 1) - 1 = Int32.ofNat l.length := by
    rw [ofNat_sub_one (by omega), Nat.add_sub_cancel]
  have hne : Int32.ofNat l.length + 1 ≠ Int32.ofNat l.length := by
    rw [ofNat_add_one]
    intro e
    have := ofNat_inj_small (by omega) (by omega) e
    omega
  have hkey : Int32.ofNat (l.length - 1 + 1) = Int32.ofNat l.length := by rw [Nat.sub_add_cancel hpos]
  unfold Orion.remove
  simp only [hfind, stoi_slot (show l.length < 2 ^ 31 by omega), hcnt, Option.getD_some, hsub,
    if_pos ((ofNat_pos (show l.length < 2 ^ 31 by omega)).2 hpos), if_pos hne, Orion.fillHole, hind]
  -- the slot it is read back from is the one just written
  have hread : find (Orion.put st.srch (createBid w (Int32.ofNat l.length)) (toStr x.toInt))
      (createBid w (Int32.ofNat l.length)) = toStr x.toInt := by
    rw [Orion.find_put, if_pos rfl]
  simp only [hread, stoi_toStr]
  refine ⟨trivial, Orion.search_slots (by omega) ?_ ?_⟩
  · simp
  · intro i y hi
    simp only [Orion.put_apply, Orion.createBid_inj_right]
    split
    · next e =>
      have hlt := lt_of_getElem?_eq_some hi
      have hie : i = l.length - 1 := by
        have := ofNat_inj_small (by omega) (by omega) e
        omega
      rw [hie, hlast] at hi
      rw [Option.some.inj hi]
    · exact hsrch i y hi

/-- **A failed insert of a keyword with slots is seen**: by the next search, or by the removal of
the last ind. -/
theorem Clean.slotless {st : State} {w : Str} {l : List Int32} {dead : Int32 → Prop} {n : Nat}
    (h : Clean st w l dead n) (hroom : Room st) (hb : n + 1 < 2 ^ 31 - 1) {ind : Int32}
    (ht : (Capacity.insert st w ind).2 = none) (hh : Harmless (Capacity.insert st w ind).1 st) (k : Int32) :
    st.srch.map (createBid w k) = none := by
  obtain ⟨-, -, he⟩ := hroom.insert_throws ht
  rw [he] at hh
  set s : State := { st with updtCnt := Function.update st.updtCnt w (some ((st.updtCnt w).getD 0 + 1)) } with hs
  have hle := h.le
  have hcnt : (forget s).updtCnt w = some (Int32.ofNat (l.length + 1)) := by
    have hc : (st.updtCnt w).getD 0 = Int32.ofNat l.length := h.rep.cnt
    show Function.update st.updtCnt w (some ((st.updtCnt w).getD 0 + 1)) w = _
    rw [Function.update_self, hc, ofNat_add_one]
  have hsearch : search st w = some l := h.rep.search
  by_contra hk
  obtain ⟨hk1, hkn, -⟩ := h.slots k hk
  by_cases hnext : st.srch.map (createBid w (Int32.ofNat (l.length + 1))) = none
  · -- the next slot was never used: all used slots are taken
    have hn : n = l.length := by
      by_contra hne
      exact h.used l.length (by omega) hnext
    have hpos : 0 < l.length := by omega
    obtain ⟨x, hx⟩ : ∃ x, l[l.length - 1]? = some x := ⟨_, List.getElem?_eq_getElem (by omega)⟩
    have hlastx : l.getLast? = some x := by rw [List.getLast?_eq_getElem?, hx]
    have hptr : st.updt.map (createBid w x) = some (toStr ((l.length - 1 + 1 : Nat) : Int)) := h.rep.slot _ x hx
    rw [Nat.sub_add_cancel hpos] at hptr
    have hind : st.lastIND w = some x := h.rep.last.trans hlastx
    -- without the failed insert the last slot is dropped
    have hwithout : forget (Capacity.remove st w x).1 = (Orion.remove (forget st) w x).1 :=
      congrArg Prod.fst (h.forget_remove hroom x)
    obtain ⟨-, hrep⟩ := h.rep.remove hx
    -- with it the slot stays
    have hroom' : Room s := hroom.congr rfl rfl
    have hsrch : ∀ i y, l[i]? = some y →
        (forget s).srch (createBid w (Int32.ofNat (i + 1))) = some (toStr y.toInt) := h.rep.srch
    obtain ⟨-, hsearch'⟩ := remove_last_counted (by omega) hx hcnt hsrch hptr hind
    have hne : l ≠ [] := List.length_pos_iff.1 hpos
    have hwith : forget (Capacity.remove s w x).1 = (Orion.remove (forget s) w x).1 :=
      congrArg Prod.fst (hroom'.remove_forget fun _ _ _ => h.last_present hne)
    have hseen := hh [.remove w x, .search w]
    simp only [answers, List.forall₂_cons] at hseen
    have hleft : search (Capacity.remove s w x).1 w = some l := by
      rw [search_forget, hwith]
      exact hsearch'
    have hright : search (Capacity.remove st w x).1 w = some (fill l (l.length - 1)) := by
      rw [search_forget, hwithout]
      exact hrep.search
    have hlen := rel_length hseen.2.1 hleft hright
    rw [Orion.length_fill] at hlen
    omega
  · -- the next slot holds a stale ind
    obtain ⟨-, -, x, hx⟩ := h.slots _ hnext
    have hstale : search s w = some (l ++ [x]) := by
      rw [search_forget]
      refine Orion.search_slots ?_ ?_ ?_
      · rw [List.length_append, List.length_singleton]
        omega
      · rw [hcnt, Option.getD_some, List.length_append, List.length_singleton]
      · intro i y hi
        rcases getElem?_concat_cases hi with hi | ⟨rfl, rfl⟩
        · exact h.rep.srch i y hi
        · exact hx
    have hseen := hh [.search w]
    simp only [answers, List.forall₂_cons] at hseen
    have hlen := rel_length hseen.1 hstale hsearch
    rw [List.length_append, List.length_singleton] at hlen
    omega

/-- **A failed insert** leaves no trace if `srch` holds no slot of the keyword.  For a short keyword
whose earlier inserts did not fail it leaves one otherwise. -/
theorem failed_insert_harmless_iff (maxSize : Nat) (ops : List Op) (w : Str) (ind : Int32)
    (ht : (insert (after maxSize ops) w ind).2 = none) :
    ((∀ k, (after maxSize ops).srch.map (createBid w k) = none) →
      Harmless (insert (after maxSize ops) w ind).1 (after maxSize ops)) ∧
    ((∀ op ∈ ops, Orion.Valid op.keyword) → Orion.Valid w → Runs.Each (Succeeds maxSize w) [] ops →
      ops.length < 2 ^ 31 - 2 → Harmless (insert (after maxSize ops) w ind).1 (after maxSize ops) →
      ∀ k, (after maxSize ops).srch.map (createBid w k) = none) := by
  have hroom := room_after maxSize ops
  constructor
  · intro hs later
    rw [(hroom.hidden ht hs).answers later]
    exact forall₂_answers_refl _
  · intro hv hw hok hb hh
    obtain ⟨l, dead, n, h, hn⟩ := clean_after maxSize ops hv hw hok (by omega)
    exact fun k => h.slotless hroom (by omega) ht hh k

/-- One place, which another keyword has taken. -/
theorem failed_insert_harmless_iff_b :
    ((∀ k, (after 1 [.insert [98] 1]).srch.map (createBid [97] k) = none) →
      Harmless (insert (after 1 [.insert [98] 1]) [97] 2).1 (after 1 [.insert [98] 1])) ∧
    ((∀ op ∈ [Op.insert [98] 1], Orion.Valid op.keyword) → Orion.Valid [97] →
      Runs.Each (Succeeds 1 [97]) [] [.insert [98] 1] → [Op.insert [98] 1].length < 2 ^ 31 - 2 →
      Harmless (insert (after 1 [.insert [98] 1]) [97] 2).1 (after 1 [.insert [98] 1]) →
      ∀ k, (after 1 [.insert [98] 1]).srch.map (createBid [97] k) = none) :=
  failed_insert_harmless_iff 1 [.insert [98] 1] [97] 2 (by decide +kernel)

/-- One place: after a failed second insert the removal of the first ind does not remove it. -/
theorem failed_insert_leaves_trace :
    (insert (after 1 [.insert [97] 1]) [97] 2).2 = none ∧
      answers (insert (after 1 [.insert [97] 1]) [97] 2).1 [.remove [97] 1, .search [97]] = [some [], some [1]] ∧
      answers (after 1 [.insert [97] 1]) [.remove [97] 1, .search [97]] = [some [], some []] := by
  decide +kernel

end Sse.Orion.Capacity
