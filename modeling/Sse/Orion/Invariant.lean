import Sse.Orion.Slots

/-!
# The slot invariant of Orion

In every state that calls can reach, whatever they insert, remove or search for: the slots
`1 .. n` of a keyword hold distinct inds, `updt` is the inverse of `srch` on these slots, any
other entry of `updt` is absent or `-1`, and `lastIND` is the ind of slot `n`.

    Reachable st  →  SlotInvariant st w                          (slot_invariant)

The list behind it is the `l` of `RepAt`; what is new here is that no call is left out, neither
the removes that throw nor the inserts that `insert` ignores.
-/

namespace Sse.Orion

/-- The increment of `insert` has a value: it does not go past the top of an `int`. -/
def Defined (st : State) : Op → Prop
  | .insert w ind => find st.updt (createBid w ind) = [] → (st.updtCnt w).getD 0 ≠ Int32.maxValue
  | _ => True

instance (st : State) : ∀ op, Decidable (Defined st op)
  | .insert w ind => inferInstanceAs (Decidable (find st.updt (createBid w ind) = [] → _ ≠ _))
  | .remove _ _ => isTrue trivial
  | .search _ => isTrue trivial

/-- The states that calls on keywords of at most twelve bytes can reach. -/
inductive Reachable : State → Prop
  | init : Reachable init
  | call {st : State} (h : Reachable st) (op : Op) (hw : Valid op.keyword) (hd : Defined st op) :
      Reachable (step st op).1

/-- What the four structures say about the slots of a keyword. -/
structure SlotInvariant (st : State) (w : Str) : Prop where
  count : 0 ≤ (st.updtCnt w).getD 0
  filled : ∀ i, 1 ≤ i → i ≤ (st.updtCnt w).getD 0 → ∃ ind : Int32, st.srch (createBid w i) = some (toStr ind.toInt)
  distinct : ∀ i j (ind : Int32), 1 ≤ i → i ≤ (st.updtCnt w).getD 0 → 1 ≤ j → j ≤ (st.updtCnt w).getD 0 →
    st.srch (createBid w i) = some (toStr ind.toInt) → st.srch (createBid w j) = some (toStr ind.toInt) → i = j
  inverse : ∀ ind i, 1 ≤ i → i ≤ (st.updtCnt w).getD 0 →
    (st.updt (createBid w ind) = some (toStr i.toInt) ↔ st.srch (createBid w i) = some (toStr ind.toInt))
  others : ∀ ind, (¬ ∃ i : Int32, 1 ≤ i ∧ i ≤ (st.updtCnt w).getD 0 ∧ st.updt (createBid w ind) = some (toStr i.toInt)) →
    st.updt (createBid w ind) = none ∨ st.updt (createBid w ind) = some (toStr (-1))
  last_none : (st.updtCnt w).getD 0 = 0 → st.lastIND w = none
  last : 0 < (st.updtCnt w).getD 0 →
    ∃ ind : Int32, st.lastIND w = some ind ∧ st.srch (createBid w ((st.updtCnt w).getD 0)) = some (toStr ind.toInt)

/-! ## The list behind it -/

/-- The slots `1 .. n` as an `int` counts them. -/
theorem slot_iff {n : Nat} (hn : n < 2 ^ 31) (i : Int32) :
    (1 ≤ i ∧ i ≤ Int32.ofNat n) ↔ ∃ k < n, i = Int32.ofNat (k + 1) := by
  rw [Int32.le_iff_toInt_le, Int32.le_iff_toInt_le, toInt_ofNat_small hn]
  have hone : (1 : Int32).toInt = 1 := rfl
  rw [hone]
  constructor
  · rintro ⟨h1, h2⟩
    refine ⟨i.toInt.toNat - 1, by omega, ?_⟩
    apply Int32.toInt_inj.1
    rw [toInt_ofNat_small (by omega)]
    omega
  · rintro ⟨k, hk, rfl⟩
    rw [toInt_ofNat_small (by omega)]
    omega

section

variable {st : State} {w : Str} {l : List Int32} {dead : Int32 → Prop}

theorem RepAt.slotInvariant (h : RepAt st w l dead) : SlotInvariant st w := by
  have hb := h.bound
  have hslot := slot_iff hb
  have hread : ∀ k < l.length, ∃ x, l[k]? = some x := fun k hk => ⟨_, List.getElem?_eq_getElem hk⟩
  -- what a slot holds is the list's element there
  have hsrch : ∀ {k x} {ind : Int32}, l[k]? = some x →
      (st.srch (createBid w (Int32.ofNat (k + 1))) = some (toStr ind.toInt) ↔ x = ind) := by
    intro k x ind hx
    rw [h.srch k x hx, Option.some.injEq]
    exact ⟨toStr_injective, fun e => by rw [e]⟩
  have hupdt : ∀ {k x}, l[k]? = some x → st.updt (createBid w x) = some (toStr (Int32.ofNat (k + 1)).toInt) := by
    intro k x hx
    have hk := lt_of_getElem?_eq_some hx
    rw [h.slot k x hx, toInt_ofNat_small (by omega)]
  constructor
  · rw [h.cnt, Int32.le_iff_toInt_le, toInt_ofNat_small hb]
    exact Int.natCast_nonneg _
  · intro i h1 h2
    rw [h.cnt] at h2
    obtain ⟨k, hk, rfl⟩ := (hslot i).1 ⟨h1, h2⟩
    obtain ⟨x, hx⟩ := hread k hk
    exact ⟨x, h.srch k x hx⟩
  · intro i j ind hi1 hi2 hj1 hj2 hsi hsj
    rw [h.cnt] at hi2 hj2
    obtain ⟨k, hk, rfl⟩ := (hslot i).1 ⟨hi1, hi2⟩
    obtain ⟨m, hm, rfl⟩ := (hslot j).1 ⟨hj1, hj2⟩
    obtain ⟨x, hx⟩ := hread k hk
    obtain ⟨y, hy⟩ := hread m hm
    obtain rfl := (hsrch hx).1 hsi
    obtain rfl := (hsrch hy).1 hsj
    rw [index_unique h.nodup hx hy]
  · intro ind i h1 h2
    rw [h.cnt] at h2
    obtain ⟨k, hk, rfl⟩ := (hslot i).1 ⟨h1, h2⟩
    obtain ⟨x, hx⟩ := hread k hk
    rw [hsrch hx]
    constructor
    · intro hu
      by_cases hl : ind ∈ l
      · obtain ⟨m, hm⟩ := List.mem_iff_getElem?.1 hl
        have hml := lt_of_getElem?_eq_some hm
        rw [hupdt hm, Option.some.injEq] at hu
        have hmk := ofNat_inj_small (by omega) (by omega) (toStr_injective hu)
        obtain rfl : m = k := by omega
        exact Option.some.inj (hx.symm.trans hm)
      · by_cases hd : dead ind
        · rw [h.gone ind hl hd, Option.some.injEq] at hu
          have hneg := toStr_injective (a := -1) hu
          have := congrArg Int32.toInt hneg
          rw [toInt_ofNat_small (by omega)] at this
          have hm1 : (-1 : Int32).toInt = -1 := rfl
          omega
        · rw [h.absent ind hl hd] at hu
          cases hu
    · rintro rfl
      exact hupdt hx
  · intro ind hno
    have hl : ind ∉ l := by
      intro hl
      obtain ⟨k, hk⟩ := List.mem_iff_getElem?.1 hl
      obtain ⟨h1, h2⟩ := (hslot _).2 ⟨k, lt_of_getElem?_eq_some hk, rfl⟩
      exact hno ⟨_, h1, by rw [h.cnt]; exact h2, hupdt hk⟩
    by_cases hd : dead ind
    · exact Or.inr (h.gone ind hl hd)
    · exact Or.inl (h.absent ind hl hd)
  · intro hz
    rw [h.cnt] at hz
    have hlen := ofNat_inj_small hb (by omega) (show Int32.ofNat l.length = Int32.ofNat 0 from hz)
    rw [h.last, List.eq_nil_of_length_eq_zero hlen]
    rfl
  · intro hpos
    rw [h.cnt, ofNat_pos hb] at hpos
    have hlast := getElem?_last hpos
    refine ⟨l.getLastD 0, ?_, ?_⟩
    · rw [h.last, List.getLast?_eq_getElem?, hlast]
    · have := h.srch _ _ hlast
      rw [Nat.sub_add_cancel hpos] at this
      rw [h.cnt, this]

/-! ## Calls -/

/-- Every call keeps some list for the keyword. -/
theorem RepAt.step (h : RepAt st w l dead) (hw : Valid w) {op : Op} (hop : Valid op.keyword) (hd : Defined st op) :
    ∃ l' dead', RepAt (step st op).1 w l' dead' := by
  by_cases hk : op.keyword = w
  · cases op with
    | search w' => exact ⟨l, dead, h⟩
    | insert w' ind =>
      obtain rfl : w' = w := hk
      by_cases hp : ind ∈ l ∨ dead ind
      · refine ⟨l, dead, ?_⟩
        show RepAt (Orion.insert st w' ind) w' l dead
        rw [h.insert_skip hp]
        exact h
      · obtain ⟨hl, hdead⟩ := not_or.1 hp
        have hmax := hd ((h.find_eq_nil ind).2 ⟨hl, hdead⟩)
        rw [h.cnt] at hmax
        have hb := h.bound
        have hroom : l.length + 1 < 2 ^ 31 := by
          by_contra hge
          obtain hlen : l.length = 2 ^ 31 - 1 := by omega
          rw [hlen] at hmax
          exact hmax rfl
        exact ⟨l ++ [ind], dead, h.insert hl hdead hroom⟩
    | remove w' ind =>
      obtain rfl : w' = w := hk
      by_cases hl : ind ∈ l
      · obtain ⟨i, hi⟩ := List.mem_iff_getElem?.1 hl
        exact ⟨_, _, (h.remove hi).2⟩
      · by_cases hdead : dead ind
        · refine ⟨l, dead, ?_⟩
          show RepAt (Orion.remove st w' ind).1 w' l dead
          rw [h.remove_dead hl hdead]
          exact h
        · -- `stoi` throws on the empty answer
          refine ⟨l, dead, ?_⟩
          show RepAt (Orion.remove st w' ind).1 w' l dead
          rw [h.remove_absent hl hdead]
          exact h
  · refine ⟨l, dead, h.of_agree (step_other fun e => hk ?_)⟩
    exact (padTo_injective hw.nulFree hop.nulFree hw.fits hop.fits e).symm

theorem Reachable.repAt (hr : Reachable st) (hw : Valid w) : ∃ l dead, RepAt st w l dead := by
  induction hr with
  | init => exact ⟨[], _, repAt_init w⟩
  | call h op hop hd ih =>
    obtain ⟨l, dead, hrep⟩ := ih
    exact hrep.step hw hop hd

end

/-- **The slot invariant holds in every reachable state**, for every keyword. -/
theorem slot_invariant {st : State} (hr : Reachable st) {w : Str} (hw : Valid w) : SlotInvariant st w := by
  obtain ⟨l, dead, h⟩ := hr.repAt hw
  exact h.slotInvariant

/-- Two inserts, a remove that throws, the removal of the first and its insertion again. -/
theorem slot_invariant_five :
    SlotInvariant (after [.insert [97] 1, .insert [97] 2, .remove [97] 7, .remove [97] 1, .insert [97] 1]) [97] :=
  slot_invariant (.call (.call (.call (.call (.call .init (.insert [97] 1) (by decide) (by decide))
    (.insert [97] 2) (by decide) (by decide)) (.remove [97] 7) (by decide) trivial) (.remove [97] 1) (by decide) trivial)
    (.insert [97] 1) (by decide) (by decide)) (by decide)

end Sse.Orion
