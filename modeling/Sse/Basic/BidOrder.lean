import Sse.Basic.Bid

/-!
# Comparing block identifiers

`Bid` has eight comparisons, each a loop of its own.  The four orders and `==` go over all
`ID_SIZE` bytes, `!=` and the comparisons with an `int` over the first four.

    a < b    ↔  a comes before b in a `map<Bid, _>`                     (opLt_iff)
    a != b   ↔  the first four bytes of a and b differ                  (opNe_iff)
    a == 0   ↔  the first four bytes of a are zero                      (opEqInt_zero)

So the operators agree about `a` and `b` if and only if four bytes are enough to tell `a`
from `b` and from `Bid()` (`coherent_iff`).
-/

namespace Sse.Bid

/-! ## The operators -/

/-- The loop of an order: the first byte on which the two differ decides. -/
def orderLoop (before : UInt8 → UInt8 → Bool) (atEnd : Bool) : List UInt8 → List UInt8 → Bool
  | x :: xs, y :: ys => if before x y then true else if before y x then false else orderLoop before atEnd xs ys
  | _, _ => atEnd

section

variable {n : Nat}

/-- `operator<`. -/
def opLt (a b : Bid n) : Bool := orderLoop (fun x y => x < y) false a.id b.id

/-- `operator<=`. -/
def opLe (a b : Bid n) : Bool := orderLoop (fun x y => x < y) true a.id b.id

/-- `operator>`. -/
def opGt (a b : Bid n) : Bool := orderLoop (fun x y => x > y) false a.id b.id

/-- `operator>=`. -/
def opGe (a b : Bid n) : Bool := orderLoop (fun x y => x > y) true a.id b.id

/-- Whether one of the first `k` bytes differs. -/
def differLoop : Nat → List UInt8 → List UInt8 → Bool
  | k + 1, x :: xs, y :: ys => if x ≠ y then true else differLoop k xs ys
  | _, _, _ => false

/-- `operator==(const Bid)`. -/
def opEq (a b : Bid n) : Bool := !differLoop n a.id b.id

/-- `operator!=(const Bid)`: its loop ends after four bytes. -/
def opNe (a b : Bid n) : Bool := differLoop 4 a.id b.id

/-- `id[3 - i] != (rhs >> (i * 8))`: a byte against the whole shifted number. -/
def differsInt (a : Bid n) (rhs : Int32) (i : Nat) : Bool := ((a.id.getD (3 - i) 0).toNat : Int) ≠ rhs.toInt >>> (i * 8)

/-- `operator==(const int)`. -/
def opEqInt (a : Bid n) (rhs : Int32) : Bool := (List.range 4).all fun i => !a.differsInt rhs i

/-- `operator!=(const int)`. -/
def opNeInt (a : Bid n) (rhs : Int32) : Bool := (List.range 4).any fun i => a.differsInt rhs i

end

/-! ## The orders -/

theorem orderLoop_lt (atEnd : Bool) {xs ys : List UInt8} (h : xs.length = ys.length) :
    orderLoop (fun x y => x < y) atEnd xs ys = true ↔ xs < ys ∨ (xs = ys ∧ atEnd = true) := by
  induction xs generalizing ys with
  | nil =>
    obtain rfl : ys = [] := List.eq_nil_of_length_eq_zero h.symm
    simp [orderLoop]
  | cons x xs ih =>
    cases ys with
    | nil => cases h
    | cons y ys =>
      have hlen : xs.length = ys.length := Nat.succ.inj h
      rw [orderLoop, List.cons_lt_cons_iff, List.cons.injEq]
      by_cases hlt : x < y
      · simp [hlt]
      · by_cases hxy : x = y
        · subst hxy
          simpa using ih hlen
        · have hgt : y < x := UInt8.lt_of_le_of_ne (UInt8.not_lt.1 hlt) (Ne.symm hxy)
          simp [hlt, hgt, hxy]

/-- The loops of `>` and `>=` are those of `<` and `<=` with the arguments exchanged. -/
theorem orderLoop_swap (atEnd : Bool) (xs ys : List UInt8) :
    orderLoop (fun x y => x > y) atEnd xs ys = orderLoop (fun x y => x < y) atEnd ys xs := by
  induction xs generalizing ys with
  | nil => cases ys <;> rfl
  | cons x xs ih =>
    cases ys with
    | nil => rfl
    | cons y ys =>
      rw [orderLoop, orderLoop, ih]

section

variable {n : Nat} {a b : Bid n}

theorem id_inj : a.id = b.id ↔ a = b := ⟨ext_id, fun h => h ▸ rfl⟩

theorem length_id_eq (a b : Bid n) : a.id.length = b.id.length := a.size.trans b.size.symm

/-- `operator<` is the order of the maps. -/
theorem opLt_iff : a.opLt b = true ↔ a < b := by
  unfold opLt
  rw [orderLoop_lt false (length_id_eq a b)]
  exact ⟨fun h => h.resolve_right fun e => Bool.false_ne_true e.2, Or.inl⟩

theorem opLe_iff : a.opLe b = true ↔ a < b ∨ a = b := by
  unfold opLe
  rw [orderLoop_lt true (length_id_eq a b), id_inj, and_iff_left rfl]
  rfl

theorem opGt_iff : a.opGt b = true ↔ b < a := by
  unfold opGt
  rw [orderLoop_swap]
  exact opLt_iff

theorem opGe_iff : a.opGe b = true ↔ b < a ∨ b = a := by
  unfold opGe
  rw [orderLoop_swap]
  exact opLe_iff

/-! ## The tests -/

theorem differLoop_iff (k : Nat) {xs ys : List UInt8} (h : xs.length = ys.length) :
    differLoop k xs ys = true ↔ xs.take k ≠ ys.take k := by
  induction k generalizing xs ys with
  | zero => simp [differLoop]
  | succ k ih =>
    cases xs with
    | nil =>
      obtain rfl : ys = [] := List.eq_nil_of_length_eq_zero h.symm
      simp [differLoop]
    | cons x xs =>
      cases ys with
      | nil => cases h
      | cons y ys =>
        have hlen : xs.length = ys.length := Nat.succ.inj h
        rw [differLoop, List.take_succ_cons, List.take_succ_cons, ne_eq (x :: _), List.cons.injEq]
        by_cases hxy : x = y
        · simpa [hxy] using ih hlen
        · simp [hxy]

theorem opEq_iff : a.opEq b = true ↔ a = b := by
  have ha : a.id.take n = a.id := List.take_of_length_le (by rw [a.size])
  have hb : b.id.take n = b.id := List.take_of_length_le (by rw [b.size])
  unfold opEq
  rw [Bool.not_eq_true', Bool.eq_false_iff, ne_eq, differLoop_iff n (length_id_eq a b), not_ne_iff, ha, hb, id_inj]

theorem opNe_iff : a.opNe b = true ↔ a.id.take 4 ≠ b.id.take 4 := differLoop_iff 4 (length_id_eq a b)

theorem differsInt_zero (a : Bid n) (i : Nat) : a.differsInt 0 i = true ↔ a.id.getD (3 - i) 0 ≠ 0 := by
  have hshift : (0 : Int32).toInt >>> (i * 8) = 0 := by
    rw [show (0 : Int32).toInt = 0 from rfl, Int.zero_shiftRight]
  unfold differsInt
  rw [hshift, decide_eq_true_eq, ne_eq, ne_eq, Int.natCast_eq_zero, ← UInt8.toNat_inj]
  rfl

/-- The two comparisons with an `int` are each other's negation. -/
theorem opNeInt_iff (a : Bid n) (rhs : Int32) : a.opNeInt rhs = true ↔ ¬ a.opEqInt rhs = true := by
  unfold opNeInt opEqInt
  simp

/-- `operator==(const int)` with 0 is the test for dummies and for empty children. -/
theorem opEqInt_zero (a : Bid n) : a.opEqInt 0 = a.isZero := by
  have hrange : List.range 4 = [0, 1, 2, 3] := rfl
  rw [Bool.eq_iff_iff]
  unfold opEqInt isZero
  rw [hrange]
  simp only [List.all_cons, List.all_nil, Bool.and_true, Bool.and_eq_true, Bool.not_eq_true', Bool.eq_false_iff, ne_eq,
    differsInt_zero, not_not]
  rcases a.id with _ | ⟨x0, _ | ⟨x1, _ | ⟨x2, _ | ⟨x3, rest⟩⟩⟩⟩ <;> simp <;> tauto

theorem isZero_iff (hn : 4 ≤ n) (a : Bid n) : a.isZero = true ↔ a.id.take 4 = List.replicate 4 0 := by
  unfold isZero
  rw [List.all_eq_true, List.eq_replicate_iff, List.length_take, a.size, Nat.min_eq_left hn]
  simp

/-! ## Coherence -/

/-- What the comparisons should agree on. -/
structure Coherent (a b c : Bid n) : Prop where
  trichotomy : (a.opLt b ∧ ¬ a.opEq b ∧ ¬ b.opLt a) ∨ (¬ a.opLt b ∧ a.opEq b ∧ ¬ b.opLt a) ∨
    (¬ a.opLt b ∧ ¬ a.opEq b ∧ b.opLt a)
  trans : a.opLt b → b.opLt c → a.opLt c
  le : a.opLe b ↔ a.opLt b ∨ a.opEq b
  gt : a.opGt b ↔ b.opLt a
  ge : a.opGe b ↔ b.opLe a
  ne : a.opNe b ↔ ¬ a.opEq b
  eq_zero : a.opEqInt 0 ↔ a.opEq zero
  ne_zero : a.opEq zero ↔ ¬ a.opNeInt 0

/-- **The comparisons are coherent** on identifiers that four bytes tell apart, and on no others. -/
theorem coherent_iff (hn : 4 ≤ n) (a b c : Bid n) :
    Coherent a b c ↔ (a.id.take 4 = b.id.take 4 → a = b) ∧ (a.id.take 4 = List.replicate 4 0 → a = zero) := by
  have hzero : a.opEqInt 0 = true ↔ a.id.take 4 = List.replicate 4 0 := by rw [opEqInt_zero, isZero_iff hn]
  have htest : a.opEq zero → a.opEqInt 0 = true := by
    intro h
    rw [hzero, opEq_iff.1 h, zero, List.take_replicate, Nat.min_eq_left hn]
  constructor
  · intro h
    refine ⟨fun e => ?_, fun e => opEq_iff.1 (h.eq_zero.1 (hzero.2 e))⟩
    by_contra hab
    exact opNe_iff.1 (h.ne.2 fun he => hab (opEq_iff.1 he)) e
  · rintro ⟨hpair, hsingle⟩
    have heq : a.opEqInt 0 = true ↔ a.opEq zero = true := ⟨fun h => opEq_iff.2 (hsingle (hzero.1 h)), htest⟩
    refine ⟨?_, ?_, ?_, ?_, ?_, ?_, heq, ?_⟩
    · simp only [opLt_iff, opEq_iff]
      by_cases hlt : a < b
      · exact Or.inl ⟨hlt, Std.ne_of_lt hlt, Std.not_gt_of_lt hlt⟩
      · by_cases hab : a = b
        · exact Or.inr (Or.inl ⟨hlt, hab, fun h => Std.ne_of_lt h hab.symm⟩)
        · exact Or.inr (Or.inr ⟨hlt, hab, Std.lt_of_le_of_ne (Std.not_lt.1 hlt) fun e => hab e.symm⟩)
    · simp only [opLt_iff]
      exact Std.lt_trans
    · rw [opLe_iff, opLt_iff, opEq_iff]
    · rw [opGt_iff, opLt_iff]
    · rw [opGe_iff, opLe_iff]
    · rw [opNe_iff, opEq_iff]
      exact not_congr ⟨hpair, fun h => h ▸ rfl⟩
    · rw [opNeInt_iff, not_not, heq]

end

/-- Identifiers made of numbers are told apart by their first four bytes. -/
theorem coherent_one_two_three : Coherent (ofInt 1 : Bid 16) (ofInt 2) (ofInt 3) :=
  (coherent_iff (by decide) _ _ _).2 (by decide)

/-- The key of slot `i` of the keyword "key1". -/
def slotOfKey1 (i : Int32) : Bid 16 := (ofStr [107, 101, 121, 49]).setEnd (toBytes i) (by rw [length_toBytes]; decide)

/-- The keys of two slots are neither equal nor different, and `Bid("\0\0\0\0a")` is 0 and is not `Bid()`. -/
theorem slots_neither_equal_nor_different :
    ((slotOfKey1 1).opEq (slotOfKey1 2) = false ∧ (slotOfKey1 1).opNe (slotOfKey1 2) = false ∧
        ¬ Coherent (slotOfKey1 1) (slotOfKey1 2) zero) ∧
      (ofStr [0, 0, 0, 0, 97] : Bid 16).opEqInt 0 = true ∧ (ofStr [0, 0, 0, 0, 97] : Bid 16).opEq zero = false := by
  refine ⟨⟨by decide, by decide, fun h => ?_⟩, by decide, by decide⟩
  have hne := h.ne
  revert hne
  decide

end Sse.Bid
