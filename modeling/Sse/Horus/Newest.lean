import Sse.Horus.Exact

/-!
# Search on any boxes of the slots

`search` does not need the boxes to come from a run.  Let slot `i` have an ind at every access
count from `a i` to `t i`, the pointer to `a i` in box 1 if `a i` is not 1, and nothing else, and
let `Access` be any `R` with `t i ≤ R`.  Then

    no sum of the bisection leaves the `int`s  →  search ends with the inds at `t i`, and writes
                                                  them under the next search count  (search_finds_newest)

The condition is `Clear`; it is met whenever `t i + R < 2 ^ 31`.  With `R = 2 ^ 31 - 1` the first
sum is `2 ^ 31` and the search throws on a single box.
-/

namespace Sse.Horus

/-! ## The boxes -/

/-- The boxes of a slot under one search count. -/
structure Rungs where
  low : Nat
  top : Nat
  ind : Nat → Int32
  one_le : 1 ≤ low
  le : low ≤ top

/-- The box at an access count. -/
def Rungs.box (s : Rungs) (acc : Int32) : Option Str :=
  if s.low ≤ acc.toInt ∧ acc.toInt ≤ s.top then some (toStr (s.ind acc.toInt.toNat).toInt)
  else if acc = 1 ∧ 1 < s.low then some (pointer (Int32.ofNat s.low))
  else none

theorem Rungs.box_ofNat (s : Rungs) {k : Nat} (h1 : s.low ≤ k) (h2 : k ≤ s.top) (htop : s.top < 2 ^ 31) :
    s.box (Int32.ofNat k) = some (toStr (s.ind k).toInt) := by
  unfold Rungs.box
  rw [toInt_ofNat_small (by omega), if_pos (by omega), Int.toNat_natCast]

/-- They are a ladder. -/
theorem Rungs.ladder (s : Rungs) (htop : s.top < 2 ^ 31) : Ladder s.box s.low s.top where
  one_le := s.one_le
  le := s.le
  rung k h1 h2 := ⟨s.ind k, s.box_ofNat h1 h2 htop⟩
  foot h1 := by
    have hno : ¬ ((s.low : Int) ≤ (1 : Int32).toInt ∧ (1 : Int32).toInt ≤ s.top) := by
      have hone : (1 : Int32).toInt = 1 := by decide
      omega
    unfold Rungs.box
    rw [if_neg hno, if_pos ⟨rfl, h1⟩]
  top acc hacc := by
    have hone := s.one_le
    have hle := s.le
    unfold Rungs.box
    rw [if_neg, if_neg]
    · rintro ⟨rfl, -⟩
      exact hacc 1 (by omega) rfl
    · rintro ⟨h1, h2⟩
      obtain ⟨k, hk⟩ := Int.eq_ofNat_of_zero_le (show 0 ≤ acc.toInt by omega)
      apply hacc k (by omega)
      rw [← Int32.ofInt_toInt acc, hk, Int32.ofInt_eq_ofNat]

/-- A keyword whose slots have these boxes, and nothing else, under the current search count. -/
structure Stacks (st : State) (w : Str) (slots : List Rungs) (R : Nat) : Prop where
  length_lt : slots.length < 2 ^ 31 - 1
  updtCnt : st.updtCnt w = some (Int32.ofNat slots.length)
  access : st.access w = some (Int32.ofNat R)
  le : ∀ s ∈ slots, s.top ≤ R
  box : ∀ i s, slots[i]? = some s → ∀ acc,
    st.srch (createBid w (Int32.ofNat (i + 1)) ((st.srchCnt w).getD 0) acc) = s.box acc

/-- The boxes after a search that wrote the tops of the slots under the search count `s`, and nothing else. -/
structure Renewed (w : Str) (s : Int32) (slots : List Rungs) (old new : OMap) : Prop where
  top : ∀ i b, slots[i]? = some b →
    new (createBid w (Int32.ofNat (i + 1)) s (Int32.ofNat b.top)) = some (toStr (b.ind b.top).toInt)
  foot : ∀ i b, slots[i]? = some b → 1 < b.top →
    new (createBid w (Int32.ofNat (i + 1)) s 1) = some (pointer (Int32.ofNat b.top))
  rest : ∀ bid, (∀ i b, slots[i]? = some b →
      bid ≠ createBid w (Int32.ofNat (i + 1)) s (Int32.ofNat b.top) ∧
        (1 < b.top → bid ≠ createBid w (Int32.ofNat (i + 1)) s 1)) → new bid = old bid

/-! ## Search -/

section

variable {st : State} {w : Str} {slots : List Rungs} {R : Nat}

/-- What the search of such a keyword works on. -/
theorem Stacks.ladders (h : Stacks st w slots R) (hclear : ∀ s ∈ slots, Clear s.low s.top R) :
    Ladders w ((st.srchCnt w).getD 0) st.srch slots.length R (fun i => ((slots[i]?).map Rungs.low).getD 0)
      (fun i => ((slots[i]?).map Rungs.top).getD 0) (fun i => ((slots[i]?).map fun s => s.ind s.top).getD 0) := by
  have hslot : ∀ i < slots.length, ∃ s, slots[i]? = some s ∧ s ∈ slots ∧ s.top < 2 ^ 31 := by
    intro i hi
    have hmem := List.getElem_mem hi
    have hsum := (hclear _ hmem).sum ((slots[i]).le.trans (h.le _ hmem)) (slots[i]).le
    have := h.le _ hmem
    exact ⟨slots[i], List.getElem?_eq_getElem hi, hmem, by omega⟩
  constructor
  · exact h.length_lt
  · intro i hi
    obtain ⟨s, hs, hmem, -⟩ := hslot i hi
    simp only [hs, Option.map_some, Option.getD_some]
    exact hclear s hmem
  · intro i hi
    obtain ⟨s, hs, -, htop⟩ := hslot i hi
    simp only [hs, Option.map_some, Option.getD_some]
    have hshaft : shaft w ((st.srchCnt w).getD 0) st.srch i = s.box := funext (h.box i s hs)
    rw [hshaft]
    exact s.ladder htop
  · intro i hi
    obtain ⟨s, hs, hmem, -⟩ := hslot i hi
    simp only [hs, Option.map_some, Option.getD_some]
    exact h.le s hmem
  · intro i hi
    obtain ⟨s, hs, -, htop⟩ := hslot i hi
    simp only [hs, Option.map_some, Option.getD_some]
    exact (h.box i s hs _).trans (s.box_ofNat s.le le_rfl htop)

/-- **Search finds the newest box of every slot**, and writes it under the next search count. -/
theorem search_finds_newest {fuel : Nat} (hf : 2 ^ 32 ≤ fuel) (h : Stacks st w slots R)
    (hclear : ∀ s ∈ slots, Clear s.low s.top R) :
    ∃ l, (search fuel st w).2 = some l ∧ l.Perm (slots.map fun s => s.ind s.top) ∧
      Renewed w ((st.srchCnt w).getD 0 + 1) slots st.srch (search fuel st w).1.srch := by
  have H := h.ladders hclear
  obtain ⟨order, hp, hsearch⟩ := search_eq hf (by rw [h.updtCnt]; rfl) rfl (fun _ => h.access) H
  obtain ⟨hwritten, hkept⟩ := srch_scanOf (st.probed w) H hp
  have hlt : ∀ i s, slots[i]? = some s → i < slots.length := fun i s hs => lt_of_getElem?_eq_some hs
  rw [hsearch]
  refine ⟨_, rfl, ?_, ?_, ?_, ?_⟩
  · have hall : (List.range slots.length).map (fun i => ((slots[i]?).map fun s => s.ind s.top).getD 0) =
        slots.map fun s => s.ind s.top := by
      apply List.ext_getElem?
      intro i
      by_cases hi : i < slots.length
      · rw [List.getElem?_map, List.getElem?_map, List.getElem?_range hi]
        simp only [Option.map_some, List.getElem?_eq_getElem hi, Option.getD_some]
      · rw [List.getElem?_eq_none (by simpa using hi), List.getElem?_eq_none (by simpa using hi)]
    rw [← hall]
    exact hp.map _
  · intro i b hb
    have := hwritten i (hlt i b hb) _ List.mem_cons_self
    simp only [hb, Option.map_some, Option.getD_some] at this
    exact this
  · intro i b hb h1
    have hmem : (createBid w (Int32.ofNat (i + 1)) ((st.srchCnt w).getD 0 + 1) 1, pointer (Int32.ofNat b.top)) ∈
        newBoxes w ((st.srchCnt w).getD 0) (fun i => ((slots[i]?).map Rungs.top).getD 0)
          (fun i => ((slots[i]?).map fun s => s.ind s.top).getD 0) i := by
      unfold newBoxes
      simp only [hb, Option.map_some, Option.getD_some]
      rw [if_pos h1]
      exact List.mem_cons_of_mem _ (List.mem_singleton_self _)
    exact hwritten i (hlt i b hb) _ hmem
  · intro bid hno
    refine (hkept bid fun i hi => ?_).trans rfl
    simp only [List.getElem?_eq_getElem hi, Option.map_some, Option.getD_some]
    exact hno i _ (List.getElem?_eq_getElem hi)

end

/-! ## Every list of slots -/

/-- The state with the boxes of these slots. -/
def stacked (w : Str) (slots : List Rungs) (R : Nat) : State :=
  { init with
    srch := fun bid =>
      let slot := readInt bid.id
      let acc := readInt (bid.id.drop 8)
      if bid = createBid w slot 0 acc then (slots[(slot.toInt - 1).toNat]?).bind fun s => s.box acc else none
    updtCnt := Function.update (fun _ => none) w (some (Int32.ofNat slots.length))
    access := Function.update (fun _ => none) w (some (Int32.ofNat R)) }

/-- The box is looked up by the numbers in its identifier. -/
theorem srch_stacked (w : Str) (slots : List Rungs) (R : Nat) (slot acc : Int32) :
    (stacked w slots R).srch (createBid w slot 0 acc) =
      (slots[(slot.toInt - 1).toNat]?).bind fun s => s.box acc := by
  have hslot : readInt (createBid w slot 0 acc).id = slot := readInt_toBytes _ _
  have hacc : readInt ((createBid w slot 0 acc).id.drop 8) = acc := readInt_toBytes _ _
  unfold stacked
  simp only [hslot, hacc, if_true]

theorem stacks_stacked (w : Str) (slots : List Rungs) {R : Nat} (hlen : slots.length < 2 ^ 31 - 1)
    (hle : ∀ s ∈ slots, s.top ≤ R) : Stacks (stacked w slots R) w slots R where
  length_lt := hlen
  updtCnt := by simp [stacked]
  access := by simp [stacked]
  le := hle
  box i s hs acc := by
    have hi := lt_of_getElem?_eq_some hs
    have hcount : ((stacked w slots R).srchCnt w).getD 0 = 0 := rfl
    have hidx : ((Int32.ofNat (i + 1)).toInt - 1).toNat = i := by
      rw [toInt_ofNat_small (by omega)]
      omega
    rw [hcount, srch_stacked, hidx, hs]
    rfl

/-- A slot with one box, and one with two and a pointer to them. -/
theorem search_finds_newest_two :
    ∃ l, (search (2 ^ 32) (stacked [97] [⟨1, 1, fun _ => 7, le_rfl, le_rfl⟩,
        ⟨2, 3, fun k => Int32.ofNat k, by decide, by decide⟩] 4) [97]).2 = some l ∧ l.Perm [7, 3] := by
  obtain ⟨l, hl, hp, -⟩ := search_finds_newest (le_refl (2 ^ 32))
    (stacks_stacked [97] [⟨1, 1, fun _ => 7, le_rfl, le_rfl⟩, ⟨2, 3, fun k => Int32.ofNat k, by decide, by decide⟩]
      (R := 4) (by decide) (by decide))
    (by
      intro s hs
      simp only [List.mem_cons, List.not_mem_nil, or_false] at hs
      rcases hs with rfl | rfl <;> exact clear_of_sum _ (by decide))
  exact ⟨l, hl, hp⟩

/-- The probe starts at box 1 with `right` at the largest `int`, and moves to two access counts below 0. -/
theorem rounds_right_max {w : Str} {s : Int32} {m : OMap} (h1 : m (createBid w 1 s 1) = some (toStr 1))
    (h2 : m (createBid w 1 s (-1073741824)) = none) (h3 : m (createBid w 1 s (-536870911)) = none) (fuel : Nat) :
    rounds w s m fuel true [⟨1, 2147483647, 1, 0, [], false⟩] ⟨[], [], []⟩ = none := by
  cases fuel with
  | zero => rfl
  | succ fuel =>
    have r1 : turn w s true 0 ⟨1, 2147483647, 1, 0, [], false⟩ ((m (createBid w 1 s 1)).getD []) ⟨[], [], []⟩ =
        some (⟨1, 2147483647, -1073741824, 0, [], false⟩, ⟨[], [], []⟩) := by
      rw [h1]
      rfl
    rw [rounds, if_neg (by simp), turns_one rfl, r1]
    simp only [Option.bind_eq_bind, Option.bind_some, Option.map_some]
    cases fuel with
    | zero => rfl
    | succ fuel =>
      have r2 : turn w s false 0 ⟨1, 2147483647, -1073741824, 0, [], false⟩
          ((m (createBid w 1 s (-1073741824))).getD []) ⟨[], [], []⟩ =
          some (⟨1, -1073741824, -536870911, 0, [], false⟩, ⟨[], [], []⟩) := by
        rw [h2]
        rfl
      rw [rounds, if_neg (by simp), turns_one rfl, r2]
      simp only [Option.bind_eq_bind, Option.bind_some, Option.map_some]
      cases fuel with
      | zero => rfl
      | succ fuel =>
        -- the bounds have crossed, and nothing was read so far
        have r3 : turn w s false 0 ⟨1, -1073741824, -536870911, 0, [], false⟩
            ((m (createBid w 1 s (-536870911))).getD []) ⟨[], [], []⟩ = none := by
          rw [h3]
          rfl
        rw [rounds, if_neg (by simp), turns_one rfl, r3]
        rfl

/-- **`Access` at the largest `int`.**  The first sum overflows, and the search throws on a slot with one box. -/
theorem search_throws_at_right_max :
    Stacks (stacked [97] [⟨1, 1, fun _ => 1, le_rfl, le_rfl⟩] (2 ^ 31 - 1)) [97]
        [⟨1, 1, fun _ => 1, le_rfl, le_rfl⟩] (2 ^ 31 - 1) ∧
      ∀ fuel, (search fuel (stacked [97] [⟨1, 1, fun _ => 1, le_rfl, le_rfl⟩] (2 ^ 31 - 1)) [97]).2 = none := by
  have h := stacks_stacked [97] [⟨1, 1, fun _ => 1, le_rfl, le_rfl⟩] (R := 2 ^ 31 - 1) (by decide) (by decide)
  have hsrch : ((stacked [97] [⟨1, 1, fun _ => 1, le_rfl, le_rfl⟩] (2 ^ 31 - 1)).srchCnt [97]).getD 0 = 0 := rfl
  refine ⟨h, fun fuel => ?_⟩
  set st := stacked [97] [⟨1, 1, fun _ => 1, le_rfl, le_rfl⟩] (2 ^ 31 - 1)
  have hcnt : (st.updtCnt [97]).getD 0 = 1 := by
    rw [h.updtCnt]
    rfl
  have hacc : (st.access [97]).getD 0 = 2147483647 := by
    rw [h.access]
    rfl
  have hrounds := rounds_right_max (w := [97]) (s := 0) (m := st.srch) (h.box 0 _ rfl 1) (h.box 0 _ rfl _) (h.box 0 _ rfl _) fuel
  have hone : (1 : Int32).toInt.toNat = 1 := by decide
  unfold search
  simp only
  rw [hcnt, hsrch, hacc, hone, List.replicate_one, hrounds]

end Sse.Horus
