import Mathlib

/-!
# A trapdoor permutation from two primes

The numbers below `n = p * q` under `x ↦ x ^ e % n`, and the way back with the private
exponent.  The way back takes `k` steps at once: it raises to `d ^ k` modulo each prime,
with the exponent reduced first, and puts the two residues together.

    eval ∘ invert = id = invert ∘ eval                 (Key.perm)
    k steps back at once = k times one step back         (Key.invertMult_eq)
    the exponent e ^ j   = j steps forward               (Key.evalPow_eq)
-/

namespace Rsa

/-! ## Powers modulo a prime -/

/-- Modulo `p` a positive exponent only counts modulo `p - 1`; the base may be a multiple of `p`. -/
theorem pow_modEq_pow {p a b : ℕ} (hp : p.Prime) (ha : 0 < a) (hb : 0 < b) (hab : a ≡ b [MOD p - 1]) (x : ℕ) :
    x ^ a ≡ x ^ b [MOD p] := by
  have : Fact p.Prime := ⟨hp⟩
  apply (ZMod.natCast_eq_natCast_iff _ _ _).1
  rw [Nat.cast_pow, Nat.cast_pow]
  by_cases hx : (x : ZMod p) = 0
  · rw [hx, zero_pow (by omega), zero_pow (by omega)]
  · have hunit : Units.mk0 (x : ZMod p) hx ^ a = Units.mk0 (x : ZMod p) hx ^ b :=
      pow_eq_pow_iff_modEq.2 (hab.of_dvd (ZMod.orderOf_units_dvd_card_sub_one _))
    simpa using congrArg Units.val hunit

/-- The number below `p * q` with the residues `yp` and `yq`, where `iqmp` is the inverse of `q` modulo `p`. -/
def crt (p q iqmp yp yq : ℕ) : ℕ :=
  let h := (((yp : ℤ) - yq) % p).toNat
  h * iqmp % p * q + yq

section

variable {p q iqmp yp yq : ℕ}

theorem crt_lt (hp : 0 < p) (hq : yq < q) : crt p q iqmp yp yq < p * q := by
  have hh : (((yp : ℤ) - yq) % p).toNat * iqmp % p + 1 ≤ p := Nat.mod_lt _ hp
  calc crt p q iqmp yp yq < ((((yp : ℤ) - yq) % p).toNat * iqmp % p) * q + q := Nat.add_lt_add_left hq _
    _ = ((((yp : ℤ) - yq) % p).toNat * iqmp % p + 1) * q := by ring
    _ ≤ p * q := Nat.mul_le_mul_right q hh

theorem crt_modEq_right : crt p q iqmp yp yq ≡ yq [MOD q] := by
  unfold crt
  exact (Nat.modEq_zero_iff_dvd.2 (Dvd.intro_left _ rfl)).add_right yq |>.trans (by rw [Nat.zero_add])

theorem crt_modEq_left (hp : 0 < p) (hi : iqmp * q ≡ 1 [MOD p]) : crt p q iqmp yp yq ≡ yp [MOD p] := by
  have hcast : (((((yp : ℤ) - yq) % p).toNat : ℕ) : ZMod p) = yp - yq := by
    have hnonneg : 0 ≤ ((yp : ℤ) - yq) % p := Int.emod_nonneg _ (by omega)
    have hint : (((((yp : ℤ) - yq) % p).toNat : ℤ) : ZMod p) = ((yp : ℤ) - yq : ℤ) := by
      rw [Int.toNat_of_nonneg hnonneg, ZMod.intCast_mod]
    rw [Int.cast_natCast] at hint
    rw [hint]
    push_cast
    rfl
  have hone : (iqmp : ZMod p) * q = 1 := by
    simpa using (ZMod.natCast_eq_natCast_iff _ _ _).2 hi
  apply (ZMod.natCast_eq_natCast_iff _ _ _).1
  unfold crt
  push_cast [ZMod.natCast_mod]
  rw [hcast, mul_assoc, hone]
  ring

end

/-! ## Keys -/

/-- The numbers of a private key. -/
structure Key where
  p : ℕ
  q : ℕ
  e : ℕ
  d : ℕ
  iqmp : ℕ
  prime_p : p.Prime
  prime_q : q.Prime
  ne : p ≠ q
  two_lt_p : 2 < p
  two_lt_q : 2 < q
  ed_p : e * d ≡ 1 [MOD p - 1]
  ed_q : e * d ≡ 1 [MOD q - 1]
  iqmp_q : iqmp * q ≡ 1 [MOD p]

namespace Key

variable (K : Key)

def n : ℕ := K.p * K.q

theorem n_pos : 0 < K.n := Nat.mul_pos K.prime_p.pos K.prime_q.pos

/-- One step forward. -/
def eval (x : ℕ) : ℕ := x ^ K.e % K.n

/-- One step forward with the exponent of `j` steps. -/
def evalPow (j x : ℕ) : ℕ := x ^ K.e ^ j % K.n

/-- `k` steps back. -/
def invertMult (k x : ℕ) : ℕ :=
  let d_p := K.d ^ k % (K.p - 1)
  let d_q := K.d ^ k % (K.q - 1)
  crt K.p K.q K.iqmp (x ^ d_p % K.p) (x ^ d_q % K.q)

theorem eval_lt (x : ℕ) : K.eval x < K.n := Nat.mod_lt _ K.n_pos

theorem invertMult_lt (k x : ℕ) : K.invertMult k x < K.n :=
  crt_lt K.prime_p.pos (Nat.mod_lt _ K.prime_q.pos)

/-- Neither exponent is zero modulo `p - 1` or `q - 1`. -/
theorem not_modEq_zero {m a b : ℕ} (hm : 2 < m) (hab : a * b ≡ 1 [MOD m - 1]) : ¬ b ≡ 0 [MOD m - 1] := by
  intro h
  have h0 : (0 : ℕ) ≡ 1 [MOD m - 1] := by
    have := (h.mul_left a).symm.trans hab
    rwa [Nat.mul_zero] at this
  have hdvd : m - 1 ∣ 1 := (Nat.modEq_zero_iff_dvd).1 h0.symm
  have := Nat.le_of_dvd Nat.one_pos hdvd
  omega

theorem d_pos : 0 < K.d := by
  rcases Nat.eq_zero_or_pos K.d with h | h
  · exact absurd (by rw [h]) (not_modEq_zero K.two_lt_p K.ed_p)
  · exact h

theorem e_pos : 0 < K.e := by
  rcases Nat.eq_zero_or_pos K.e with h | h
  · have hed := K.ed_p
    rw [Nat.mul_comm] at hed
    exact absurd (by rw [h]) (not_modEq_zero K.two_lt_p hed)
  · exact h

/-- The powers of the two exponents undo each other. -/
theorem ed_pow {m : ℕ} (hed : K.e * K.d ≡ 1 [MOD m]) (k : ℕ) : K.e ^ k * K.d ^ k ≡ 1 [MOD m] := by
  rw [← Nat.mul_pow]
  simpa using hed.pow k

theorem d_pow_mod_pos {m : ℕ} (hm : 2 < m) (hed : K.e * K.d ≡ 1 [MOD m - 1]) (k : ℕ) : 0 < K.d ^ k % (m - 1) := by
  rcases Nat.eq_zero_or_pos (K.d ^ k % (m - 1)) with h | h
  · refine absurd ?_ (not_modEq_zero hm (K.ed_pow hed k))
    unfold Nat.ModEq
    rw [h, Nat.zero_mod]
  · exact h

/-- Two positive exponents that agree modulo `p - 1` and `q - 1` give the same power modulo `n`. -/
theorem pow_modEq {a b : ℕ} (ha : 0 < a) (hb : 0 < b) (hp : a ≡ b [MOD K.p - 1]) (hq : a ≡ b [MOD K.q - 1]) (x : ℕ) :
    x ^ a ≡ x ^ b [MOD K.n] :=
  (Nat.modEq_and_modEq_iff_modEq_mul ((Nat.coprime_primes K.prime_p K.prime_q).2 K.ne)).1
    ⟨pow_modEq_pow K.prime_p ha hb hp x, pow_modEq_pow K.prime_q ha hb hq x⟩

/-- **The way back** raises to `d ^ k`. -/
theorem invertMult_modEq (k x : ℕ) : K.invertMult k x ≡ x ^ K.d ^ k [MOD K.n] := by
  have hd : 0 < K.d ^ k := Nat.pow_pos K.d_pos
  have hp : K.invertMult k x ≡ x ^ K.d ^ k [MOD K.p] := by
    refine (crt_modEq_left K.prime_p.pos K.iqmp_q).trans ((Nat.mod_modEq _ _).trans ?_)
    exact pow_modEq_pow K.prime_p (K.d_pow_mod_pos K.two_lt_p K.ed_p k) hd (Nat.mod_modEq _ _) x
  have hq : K.invertMult k x ≡ x ^ K.d ^ k [MOD K.q] := by
    refine crt_modEq_right.trans ((Nat.mod_modEq _ _).trans ?_)
    exact pow_modEq_pow K.prime_q (K.d_pow_mod_pos K.two_lt_q K.ed_q k) hd (Nat.mod_modEq _ _) x
  exact (Nat.modEq_and_modEq_iff_modEq_mul ((Nat.coprime_primes K.prime_p K.prime_q).2 K.ne)).1 ⟨hp, hq⟩

/-- `j` steps forward undo `j` of the `k` steps back. -/
theorem evalPow_invertMult {j k : ℕ} (hjk : j ≤ k) (x : ℕ) :
    K.evalPow j (K.invertMult k x) = K.invertMult (k - j) x % K.n := by
  have hexp : K.d ^ k * K.e ^ j = K.d ^ (k - j) * (K.e ^ j * K.d ^ j) := by
    calc K.d ^ k * K.e ^ j = K.d ^ (k - j + j) * K.e ^ j := by rw [Nat.sub_add_cancel hjk]
      _ = K.d ^ (k - j) * (K.e ^ j * K.d ^ j) := by rw [pow_add]; ring
  have hred : ∀ {m : ℕ}, K.e * K.d ≡ 1 [MOD m] → K.d ^ k * K.e ^ j ≡ K.d ^ (k - j) [MOD m] := by
    intro m hed
    rw [hexp]
    simpa using (K.ed_pow hed j).mul_left (K.d ^ (k - j))
  have hpos : 0 < K.d ^ k * K.e ^ j := Nat.mul_pos (Nat.pow_pos K.d_pos) (Nat.pow_pos K.e_pos)
  unfold evalPow
  show K.invertMult k x ^ K.e ^ j ≡ K.invertMult (k - j) x [MOD K.n]
  calc K.invertMult k x ^ K.e ^ j ≡ (x ^ K.d ^ k) ^ K.e ^ j [MOD K.n] := (K.invertMult_modEq k x).pow _
    _ = x ^ (K.d ^ k * K.e ^ j) := (pow_mul _ _ _).symm
    _ ≡ x ^ K.d ^ (k - j) [MOD K.n] :=
        K.pow_modEq hpos (Nat.pow_pos K.d_pos) (hred K.ed_p) (hred K.ed_q) x
    _ ≡ K.invertMult (k - j) x [MOD K.n] := (K.invertMult_modEq (k - j) x).symm

theorem invertMult_zero {x : ℕ} (hx : x < K.n) : K.invertMult 0 x = x := by
  have h := K.invertMult_modEq 0 x
  rw [pow_zero, pow_one] at h
  exact Nat.ModEq.eq_of_lt_of_lt h (K.invertMult_lt 0 x) hx

theorem evalPow_one (x : ℕ) : K.evalPow 1 x = K.eval x := by
  rw [evalPow, pow_one, eval]

theorem evalPow_succ (j x : ℕ) : K.evalPow (j + 1) x = K.eval (K.evalPow j x) := by
  show x ^ K.e ^ (j + 1) % K.n = (x ^ K.e ^ j % K.n) ^ K.e % K.n
  rw [← Nat.pow_mod, ← pow_mul, pow_succ]

/-! ## The permutation -/

/-- **A permutation** of the numbers below `n`. -/
def perm : Equiv.Perm (Fin K.n) where
  toFun x := ⟨K.eval x, K.eval_lt x⟩
  invFun x := ⟨K.invertMult 1 x, K.invertMult_lt 1 x⟩
  left_inv x := by
    apply Fin.ext
    -- one step back from `x ^ e` is `x ^ (e * d)`
    have hpos : 0 < K.e * K.d := Nat.mul_pos K.e_pos K.d_pos
    refine Nat.ModEq.eq_of_lt_of_lt ?_ (K.invertMult_lt 1 _) x.isLt
    calc K.invertMult 1 (K.eval x) ≡ K.eval x ^ K.d ^ 1 [MOD K.n] := K.invertMult_modEq 1 _
      _ ≡ (x ^ K.e) ^ K.d [MOD K.n] := by rw [pow_one]; exact (Nat.mod_modEq _ _).pow _
      _ = x ^ (K.e * K.d) := (pow_mul _ _ _).symm
      _ ≡ x ^ 1 [MOD K.n] := K.pow_modEq hpos Nat.one_pos K.ed_p K.ed_q x
      _ = x := pow_one _
  right_inv x := by
    apply Fin.ext
    have h := K.evalPow_invertMult (Nat.le_refl 1) x
    rw [Nat.sub_self, K.invertMult_zero x.isLt, Nat.mod_eq_of_lt x.isLt, evalPow_one] at h
    exact h

@[simp] theorem perm_val (x : Fin K.n) : (K.perm x : ℕ) = K.eval x := rfl

/-- **The exponent of `j` steps** is `j` steps. -/
theorem evalPow_eq (j : ℕ) (x : Fin K.n) : K.evalPow j x = ((K.perm ^ j) x : ℕ) := by
  induction j with
  | zero =>
    rw [evalPow, pow_zero, pow_one, Nat.mod_eq_of_lt x.isLt]
    rfl
  | succ j ih => rw [evalPow_succ, ih, pow_succ', Equiv.Perm.mul_apply, perm_val]

/-- **`k` steps back at once** are `k` steps back. -/
theorem invertMult_eq (k : ℕ) (x : Fin K.n) : K.invertMult k x = ((K.perm⁻¹ ^ k) x : ℕ) := by
  have h := K.evalPow_invertMult (Nat.le_refl k) x
  rw [Nat.sub_self, K.invertMult_zero x.isLt, Nat.mod_eq_of_lt x.isLt] at h
  set y : Fin K.n := ⟨K.invertMult k x, K.invertMult_lt k x⟩ with hy
  have hperm : (K.perm ^ k) y = x := Fin.ext ((K.evalPow_eq k y).symm.trans h)
  have hback : (K.perm⁻¹ ^ k) x = y := by
    rw [inv_pow]
    exact Equiv.Perm.inv_eq_iff_eq.2 hperm.symm
  rw [hback]

/-- The private exponent takes one step back. -/
theorem pow_d_mod (x : ℕ) : x ^ K.d % K.n = K.invertMult 1 x := by
  have h := K.invertMult_modEq 1 x
  rw [pow_one] at h
  calc x ^ K.d % K.n = K.invertMult 1 x % K.n := h.symm
    _ = K.invertMult 1 x := Nat.mod_eq_of_lt (K.invertMult_lt 1 x)

/-- **How far back the steps do not meet**: as far as the powers of `e` differ modulo the order of the number. -/
theorem inv_pow_injOn (x : Fin K.n) (hx : ((x : ℕ) : ZMod K.p) ≠ 0) {i j : ℕ}
    (hi : i < orderOf (K.e : ZMod (orderOf ((x : ℕ) : ZMod K.p))))
    (hj : j < orderOf (K.e : ZMod (orderOf ((x : ℕ) : ZMod K.p)))) (h : (K.perm⁻¹ ^ i) x = (K.perm⁻¹ ^ j) x) : i = j := by
  wlog hij : i ≤ j generalizing i j
  · exact (this hj hi h.symm (by omega)).symm
  have : Fact K.p.Prime := ⟨K.prime_p⟩
  set r := orderOf ((x : ℕ) : ZMod K.p) with hr
  set X : ZMod K.p := ((x : ℕ) : ZMod K.p) with hX
  -- `j - i` steps forward lead back to `x`
  have hloop : (K.perm ^ (j - i)) x = x := by
    have hsplit : K.perm ^ j * K.perm⁻¹ ^ i = K.perm ^ (j - i) := by
      rw [inv_pow, ← pow_sub _ hij]
    rw [← hsplit, Equiv.Perm.mul_apply, h, ← Equiv.Perm.mul_apply, inv_pow, mul_inv_cancel, Equiv.Perm.one_apply]
  have hval := (K.evalPow_eq (j - i) x).trans (congrArg Fin.val hloop)
  have hmod : (x : ℕ) ^ K.e ^ (j - i) ≡ x [MOD K.p] := by
    have hn : (x : ℕ) ^ K.e ^ (j - i) ≡ x [MOD K.n] := by
      show (x : ℕ) ^ K.e ^ (j - i) % K.n = x % K.n
      rw [Nat.mod_eq_of_lt x.isLt]
      exact hval
    exact hn.of_mul_right K.q
  have hpow : X ^ K.e ^ (j - i) = X := by
    have := (ZMod.natCast_eq_natCast_iff _ _ _).2 hmod
    rwa [Nat.cast_pow] at this
  have hpos : 1 ≤ K.e ^ (j - i) := Nat.pow_pos K.e_pos
  have hone : X ^ (K.e ^ (j - i) - 1) = 1 := by
    apply mul_left_cancel₀ hx
    rw [← pow_succ', Nat.sub_add_cancel hpos, hpow, mul_one]
  have hdvd : r ∣ K.e ^ (j - i) - 1 := orderOf_dvd_of_pow_eq_one hone
  have he : (K.e : ZMod r) ^ (j - i) = 1 := by
    have hzero := (ZMod.natCast_eq_zero_iff (K.e ^ (j - i) - 1) r).2 hdvd
    rw [Nat.cast_sub hpos, Nat.cast_pow, Nat.cast_one] at hzero
    exact sub_eq_zero.1 hzero
  have hlen : orderOf (K.e : ZMod r) ∣ j - i := orderOf_dvd_of_pow_eq_one he
  by_contra hne
  have := Nat.le_of_dvd (by omega) hlen
  omega

end Key

end Rsa
