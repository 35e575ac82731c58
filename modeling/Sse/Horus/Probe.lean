import Sse.Horus.Horus

/-!
# The bisection of one slot

The boxes of a slot under one search count form a ladder: an ind at every access count from
`lo` to `hi`, nothing above `hi`, and the pointer to `lo` in box 1 if `lo` is not 1.  The
probe of the slot keeps `l ≤ hi ≤ r` and reads at `c`, with `l ≤ c ≤ r`:

    read an ind    → l := c
    read nothing   → r := c,  where `c` is `r` only if `r = l + 1`
    l = r          → the slot is found, with the ind of box `hi`     (Seeking.next)

Every round makes `2 * (r - l) + [c = l]` smaller.  It is the rounding up after a read at `l`,
and down after any other, that does it: `c` would stay where it is otherwise.

The sum `l + r` is an `int`, so this is about ladders and `r` for which no such sum that is
met is `2 ^ 31` or more (`Clear`).
-/

namespace Sse.Horus

/-! ## Counters -/

theorem ofNat_add_ofNat (a b : Nat) : Int32.ofNat a + Int32.ofNat b = Int32.ofNat (a + b) :=
  (Int32.ofNat_add a b).symm

theorem ofNat_le {a b : Nat} (ha : a < 2 ^ 31) (hb : b < 2 ^ 31) : Int32.ofNat a ≤ Int32.ofNat b ↔ a ≤ b := by
  rw [Int32.le_iff_toInt_le, toInt_ofNat_small ha, toInt_ofNat_small hb]
  omega

theorem ofNat_lt {a b : Nat} (ha : a < 2 ^ 31) (hb : b < 2 ^ 31) : Int32.ofNat a < Int32.ofNat b ↔ a < b := by
  rw [Int32.lt_iff_toInt_lt, toInt_ofNat_small ha, toInt_ofNat_small hb]
  omega

theorem ofNat_eq {a b : Nat} (ha : a < 2 ^ 31) (hb : b < 2 ^ 31) : Int32.ofNat a = Int32.ofNat b ↔ a = b :=
  ⟨ofNat_inj_small ha hb, fun h => by rw [h]⟩

theorem half_ofNat {n : Nat} (h : n < 2 ^ 31) : Int32.ofNat n / 2 = Int32.ofNat (n / 2) := by
  apply Int32.toInt_inj.1
  rw [Int32.toInt_div_of_ne_right _ _ (by decide), toInt_ofNat_small h, toInt_ofNat_small (by omega)]
  show Int.tdiv (n : Int) 2 = ((n / 2 : Nat) : Int)
  rw [Int.tdiv_eq_ediv_of_nonneg (by omega)]
  omega

theorem floorHalf_ofNat {n : Nat} (h : n < 2 ^ 31) : floorHalf (Int32.ofNat n) = Int32.ofNat (n / 2) := by
  rw [floorHalf, toInt_ofNat_small h, ← Int32.ofInt_eq_ofNat]
  congr 1

theorem ceilHalf_ofNat {n : Nat} (h : n < 2 ^ 31) : ceilHalf (Int32.ofNat n) = Int32.ofNat ((n + 1) / 2) := by
  rw [ceilHalf, toInt_ofNat_small h, ← Int32.ofInt_eq_ofNat]
  congr 1

/-! ## Ladders -/

/-- The boxes of a slot under one search count. -/
structure Ladder (f : Int32 → Option Str) (lo hi : Nat) : Prop where
  one_le : 1 ≤ lo
  le : lo ≤ hi
  rung : ∀ k, lo ≤ k → k ≤ hi → ∃ x : Int32, f (Int32.ofNat k) = some (toStr x.toInt)
  foot : 1 < lo → f 1 = some (pointer (Int32.ofNat lo))
  top : ∀ acc, (∀ k ≤ hi, acc ≠ Int32.ofNat k) → f acc = none

/-- The digits and the sign of a number are no `'@'`. -/
theorem head?_toStr_ne (x : Int) : (toStr x).head? ≠ some 64 := by
  unfold toStr
  split
  · simp
  · intro h
    have hd := isDigit_of_mem_natStr (List.mem_of_mem_head? (Option.mem_def.2 h))
    exact absurd hd (by decide)

section

variable {f : Int32 → Option Str} {lo hi l r c : Nat} {p : Probe}

/-- What is read at an access count of the ladder. -/
theorem Ladder.read_rung (h : Ladder f lo hi) {k : Nat} (h1 : lo ≤ k) (h2 : k ≤ hi) :
    (f (Int32.ofNat k)).getD [] ≠ [] ∧ f (Int32.ofNat k) = some ((f (Int32.ofNat k)).getD []) := by
  obtain ⟨x, hx⟩ := h.rung k h1 h2
  rw [hx]
  exact ⟨toStr_ne_nil _, rfl⟩

theorem Ladder.read_top (h : Ladder f lo hi) {k : Nat} (h1 : hi < k) (h2 : k < 2 ^ 31) :
    (f (Int32.ofNat k)).getD [] = [] := by
  rw [h.top]
  · rfl
  · intro j hj e
    have := ofNat_inj_small h2 (by omega) e
    omega

/-! ## The sums of the bisection -/

/-- The values of `left`, from `l` on, while `right` stays `r`: its distance to `r` is halved, rounding up. -/
def LeftEnd (l r m : Nat) : Prop := m = r ∨ ∃ k, m = r - (r - l + 2 ^ k - 1) / 2 ^ k

/-- No sum of `right` and a value of `left` up to `t` leaves the `int`s. -/
def Clear (l t r : Nat) : Prop := ∀ m, LeftEnd l r m → m ≤ t → m + r < 2 ^ 31

theorem clear_of_sum {t : Nat} (l : Nat) (h : t + r < 2 ^ 31) : Clear l t r := fun m _ hm => by omega

theorem Clear.sum {t : Nat} (h : Clear l t r) (hr : l ≤ r) (ht : l ≤ t) : l + r < 2 ^ 31 := by
  apply h l (Or.inr ⟨0, ?_⟩) ht
  rw [Nat.pow_zero, Nat.div_one]
  omega

/-- The next value of `left`. -/
theorem Clear.half {t : Nat} (h : Clear l t r) (hr : l ≤ r) : Clear ((l + r) / 2) t r := by
  rintro m (rfl | ⟨k, rfl⟩)
  · exact h m (Or.inl rfl)
  · apply h _ (Or.inr ⟨k + 1, ?_⟩)
    have hpos := Nat.two_pow_pos k
    have hnum : r - (l + r) / 2 + 2 ^ k - 1 = (r - l + 2 ^ (k + 1) - 1) / 2 := by
      rw [Nat.pow_succ]
      omega
    rw [hnum, Nat.div_div_eq_div_mul, Nat.pow_succ, Nat.mul_comm 2]

/-- The last value of `left`. -/
theorem Clear.last {t : Nat} (h : Clear l t r) : Clear r t r := by
  rintro m (rfl | ⟨k, rfl⟩)
  · exact h m (Or.inl rfl)
  · apply h _ (Or.inl ?_)
    have hpos := Nat.two_pow_pos k
    rw [Nat.div_eq_of_lt (by omega), Nat.sub_zero]

/-! ## The invariant of the bisection -/

/-- A slot that is not found yet. -/
structure Seeking (f : Int32 → Option Str) (lo hi : Nat) (p : Probe) (l r c : Nat) : Prop where
  left : p.left = Int32.ofNat l
  right : p.right = Int32.ofNat r
  curValue : p.curValue = Int32.ofNat c
  foundItem : p.foundItem = false
  lo_le : lo ≤ l
  l_le : l ≤ hi
  le_r : hi ≤ r
  l_le_c : l ≤ c
  c_le_r : c ≤ r
  sum : l + r < 2 ^ 31
  clear : Clear c hi r
  last : p.lastID = [] ∨ (f (Int32.ofNat l) = some p.lastID ∧ p.lastAcc = Int32.ofNat l)
  edge : c = r ∨ c = l → r ≤ l + 1
  half : c ≠ r → 2 * c ≤ l + r + 1

/-- A bound on the rounds that are left. -/
def steps (l r c : Nat) : Nat := 1 + 2 * (r - l) + if c = l then 1 else 0

/-- **The first round** finds the lower end of the ladder. -/
theorem Ladder.first (h : Ladder f lo hi) {A : Nat} (hA : hi ≤ A) (hclear : Clear lo hi A) :
    ∃ p, Probe.first ⟨1, Int32.ofNat A, 1, 0, [], false⟩ ((f 1).getD []) = some p ∧
      Seeking f lo hi p lo A ((lo + A) / 2) := by
  have hone := h.one_le
  have hle := h.le
  have hint := hclear.sum (hle.trans hA) hle
  have hmid := hclear.half (hle.trans hA)
  have hsum : (Int32.ofNat lo + Int32.ofNat A) / 2 = Int32.ofNat ((lo + A) / 2) := by
    rw [ofNat_add_ofNat, half_ofNat (by omega)]
  by_cases hlo : 1 < lo
  · refine ⟨⟨Int32.ofNat lo, Int32.ofNat A, Int32.ofNat ((lo + A) / 2), Int32.ofNat ((lo + A) / 2), [], false⟩, ?_, ?_⟩
    · have hstoi := stoi_slot (show lo < 2 ^ 31 by omega)
      rw [h.foot hlo, Option.getD_some, Probe.first, if_pos ⟨rfl, rfl⟩, pointer, List.tail_cons,
        toInt_ofNat_small (by omega), hstoi, Option.map_some, hsum]
    · exact ⟨rfl, rfl, rfl, rfl, le_rfl, hle, hA, by omega, by omega, hint, hmid, Or.inl rfl, by omega, by omega⟩
  · obtain rfl : lo = 1 := by omega
    obtain ⟨x, hx⟩ := h.rung 1 le_rfl hle
    refine ⟨⟨1, Int32.ofNat A, Int32.ofNat ((1 + A) / 2), 0, [], false⟩, ?_, ?_⟩
    · have hread : f 1 = some (toStr x.toInt) := hx
      rw [hread, Option.getD_some, Probe.first, if_neg fun e => head?_toStr_ne _ e.1, ← hsum]
      rfl
    · exact ⟨rfl, rfl, rfl, rfl, le_rfl, hle, hA, by omega, by omega, hint, hmid, Or.inl rfl, by omega, by omega⟩

/-- The slot is found: the ind of the highest box, and its access count. -/
structure Found (f : Int32 → Option Str) (hi : Nat) (p : Probe) : Prop where
  foundItem : p.foundItem = true
  lastID : f (Int32.ofNat hi) = some p.lastID
  lastAcc : p.lastAcc = Int32.ofNat hi

/-- **A later round** finds the slot or comes closer to it. -/
theorem Seeking.next (h : Ladder f lo hi) (hs : Seeking f lo hi p l r c) :
    Found f hi (p.next ((f p.curValue).getD [])) ∨
      ∃ l' r' c', Seeking f lo hi (p.next ((f p.curValue).getD [])) l' r' c' ∧ steps l' r' c' < steps l r c := by
  obtain ⟨hl, hr, hc, hfound, h1, h2, h3, h4, h5, h6, hclear, hlast, hedge, hhalf⟩ := hs
  have hadd : ∀ a b : Nat, p.left = Int32.ofNat a → p.right = Int32.ofNat b →
      p.left + p.right = Int32.ofNat (a + b) := fun a b ha hb => by rw [ha, hb, ofNat_add_ofNat]
  have hclosed : p.right ≤ p.left ↔ r ≤ l := by rw [hl, hr, ofNat_le (by omega) (by omega)]
  rw [hc]
  unfold Probe.next steps
  by_cases hrl : r ≤ l
  · -- `l`, `hi`, `c` and `r` are one
    obtain rfl : hi = l := by omega
    obtain rfl : c = hi := by omega
    left
    rw [if_pos (Or.inr (hclosed.2 hrl)), if_pos (hclosed.2 hrl)]
    split
    · exact ⟨rfl, (h.read_rung h1 le_rfl).2, hc⟩
    · next hne =>
      obtain ⟨hid, hacc⟩ := hlast.resolve_left hne
      exact ⟨rfl, hid, hacc⟩
  · right
    have hopen : ¬ p.right ≤ p.left := fun e => hrl (hclosed.1 e)
    by_cases hch : c ≤ hi
    · -- an ind is read
      have hread := h.read_rung (h1.trans h4) hch
      have hcl : p.curValue = p.left ↔ c = l := by rw [hc, hl, ofNat_eq (by omega) (by omega)]
      rw [if_neg (by rw [not_or]; exact ⟨hread.1, hopen⟩)]
      have hsum : p.curValue + p.right = Int32.ofNat (c + r) := by rw [hc, hr, ofNat_add_ofNat]
      have hint : c + r < 2 ^ 31 := hclear.sum h5 hch
      by_cases hceq : c = l
      · -- then `r` is `l + 1`, and the ceil is `r`
        have hre := hedge (Or.inr hceq)
        have hceil : (c + r + 1) / 2 = r := by omega
        refine ⟨c, r, (c + r + 1) / 2, ⟨hc, hr, ?_, hfound, by omega, hch, h3, by omega, by omega, hint, ?_,
          Or.inr ⟨hread.2, hc⟩, by omega, by omega⟩, ?_⟩
        · simp only [if_pos (hcl.2 hceq), hsum, ceilHalf_ofNat hint]
        · rw [hceil]
          exact hclear.last
        · rw [if_pos hceq, if_neg (by omega)]
          omega
      · refine ⟨c, r, (c + r) / 2, ⟨hc, hr, ?_, hfound, by omega, hch, h3, by omega, by omega, hint, hclear.half h5,
          Or.inr ⟨hread.2, hc⟩, by omega, by omega⟩, ?_⟩
        · simp only [if_neg fun e => hceq (hcl.1 e), hsum, floorHalf_ofNat hint]
        · rw [if_neg hceq]
          split <;> omega
    · -- nothing is read
      have hread := h.read_top (show hi < c by omega) (by omega)
      have hcr : p.curValue = p.right ↔ c = r := by rw [hc, hr, ofNat_eq (by omega) (by omega)]
      rw [if_pos (Or.inl hread), if_neg hopen]
      by_cases hceq : c = r
      · -- then `r` is `l + 1`, and the floor is `l`
        have hre := hedge (Or.inl hceq)
        have hfloor : (l + r) / 2 = l := by omega
        rw [if_pos (hcr.2 hceq), hadd l r hl hr, floorHalf_ofNat h6, hfloor]
        refine ⟨l, l, l, ⟨hl, rfl, rfl, hfound, h1, h2, by omega, le_rfl, le_rfl, by omega, clear_of_sum l (by omega),
          hlast, by omega, by omega⟩, ?_⟩
        rw [if_pos rfl]
        omega
      · have hsum : p.left + p.curValue = Int32.ofNat (l + c) := by rw [hl, hc, ofNat_add_ofNat]
        have hlow := hhalf hceq
        rw [if_neg fun e => hceq (hcr.1 e), hsum, ceilHalf_ofNat (by omega)]
        refine ⟨l, c, (l + c + 1) / 2, ⟨hl, hc, rfl, hfound, h1, h2, by omega, by omega, by omega, by omega,
          clear_of_sum _ (by omega), hlast, by omega, by omega⟩, ?_⟩
        split <;> omega

end

end Sse.Horus
