import Mathlib.Algebra.Field.Basic
import Mathlib.Algebra.BigOperators.Group.List.Basic
import Mathlib.Data.List.Range
import Mathlib.Tactic.FieldSimp
import Mathlib.Tactic.LinearCombination
import Mathlib.Tactic.Ring

/-!
# Puncturable encryption: `Gmppke` in the exponents

The groups have prime order and fixed generators, so an element is its exponent in the
field `F` (`ZR`): `group.exp` and `group.pair` multiply exponents, `group.mul` adds them.
A key is one share for `sk0Gen` and one for each puncture by `skShareGen`; each share
contributes `s · β` times its part of a sum, in which the values `l_i` are to cancel.

    one share: it recovers its part wherever its tag differs            (recoverShare_eq)
    punctures 1, .., d with share 0 for d: the parts add up to α        (recoverBlind_epochKey)
    hence every ciphertext under another tag decrypts                   (decrypt_epochKey)
-/

namespace Sse.Janus

/-- What is fixed by the key of an encryption: `GmppkeSecretParameters`, and the values of the `Prf` at
`"param_rho_" + d`, `"param_l_" + d` and `"param_r1_%d" + d`. -/
structure Params (F : Type*) where
  alpha : F
  beta : F
  ry : F
  rho : Nat → F
  l : Nat → F
  r1 : Nat → F

/-- `GmppkePrivateKeyShare`. -/
structure KeyShare (F B : Type*) where
  sk1 : F
  sk2 : F
  sk3 : F
  sk4 : B

/-- `GmmppkeCT<uint64_t>`. -/
structure Ciphertext (F B : Type*) where
  ct1 : UInt64
  ct2 : F
  ct3 : F
  tag : B

/-- What the scheme takes from outside: `hashListToZR`, the mask that `HMac` under a tag derives from an element
of GT, and the reserved tag. -/
structure Scheme (F B : Type*) where
  hashListToZR : B → F
  hmac : B → F → UInt64
  NULLTAG : B

section

variable {F B : Type*} [Field F] (S : Scheme F B)

/-- `Gmppke::sk0Gen`. -/
def sk0Gen (sp : Params F) (d : Nat) : KeyShare F B :=
  let h := S.hashListToZR S.NULLTAG
  if d = 0 then
    let r := sp.rho 0
    ⟨sp.beta * (r + sp.alpha), r * (sp.beta + h * sp.ry), r, S.NULLTAG⟩
  else
    let rho_d := sp.rho d
    let l_d := sp.l d
    ⟨sp.beta * (rho_d - l_d), rho_d * (sp.beta + h * sp.ry), rho_d, S.NULLTAG⟩

/-- `Gmppke::skShareGen`, for `d > 0`. -/
def skShareGen (sp : Params F) (d : Nat) (tag : B) : KeyShare F B :=
  let h := S.hashListToZR tag
  let r1 := sp.r1 d
  let l_d := sp.l d
  let l_d_1 := if d > 1 then sp.l (d - 1) else -sp.alpha
  ⟨sp.beta * (l_d - l_d_1 + r1), r1 * (sp.beta + h * sp.ry), r1, tag⟩

variable [DecidableEq F] [DecidableEq B]

/-- `Gmppke::encrypt` with the secret parameters and the random `s`; `none` where `blind` throws. -/
def encrypt (sp : Params F) (s : F) (M : UInt64) (tag : B) : Option (Ciphertext F B) :=
  if tag = S.NULLTAG then none
  else
    let ct2 := s
    some ⟨S.hmac tag (sp.alpha * sp.beta * s) ^^^ M, ct2, ct2 * (sp.beta + S.hashListToZR tag * sp.ry), tag⟩

omit [DecidableEq B] in
/-- `LagrangeBasisCoefficients` on two coordinates: `xj` is the chosen one, `xm` the other; `none` where it throws. -/
def lagrangeBasisCoefficient (x xj xm : F) : Option F := if xj - xm = 0 then none else some ((x - xm) / (xj - xm))

/-- What one share contributes to `recoverBlind`. -/
def recoverShare (ct : Ciphertext F B) (s0 : KeyShare F B) : Option F := do
  let ctTag := S.hashListToZR ct.tag
  let currentTag := S.hashListToZR s0.sk4
  let w0 ← lagrangeBasisCoefficient 0 ctTag currentTag
  let wstar ← lagrangeBasisCoefficient 0 currentTag ctTag
  let ct3prod_j := ct.ct3 * w0
  let denominator := ct3prod_j * s0.sk3 + (ct.ct2 * wstar) * s0.sk2
  let nominator := ct.ct2 * s0.sk1
  some (nominator - denominator)

/-- `Gmppke::recoverBlind`. -/
def recoverBlind (shares : List (KeyShare F B)) (ct : Ciphertext F B) : Option F :=
  (shares.mapM (recoverShare S ct)).map List.sum

/-- `GmppkePrivateKey::isPuncturedOnTag`. -/
def isPuncturedOnTag (shares : List (KeyShare F B)) (tag : B) : Bool := shares.any fun share => share.sk4 = tag

/-- `Gmppke::decrypt`; `none` where it returns false or throws. -/
def decrypt (shares : List (KeyShare F B)) (ct : Ciphertext F B) : Option UInt64 :=
  if isPuncturedOnTag shares ct.tag then none
  else (recoverBlind S shares ct).map fun gt => S.hmac ct.tag gt ^^^ ct.ct1

end

/-! ## One share -/

section

variable {F B : Type*} [Field F] {S : Scheme F B}

/-- `l_d`, and `-alpha` for `l_0`. -/
def lOrAlpha (sp : Params F) (d : Nat) : F := if d = 0 then -sp.alpha else sp.l d

/-- A share with the right `sk2` whose `sk1` carries `part` beside its own randomness. -/
structure KeyShare.Carries (S : Scheme F B) (sp : Params F) (part : F) (sh : KeyShare F B) : Prop where
  sk1 : sh.sk1 = sp.beta * (part + sh.sk3)
  sk2 : sh.sk2 = sh.sk3 * (sp.beta + S.hashListToZR sh.sk4 * sp.ry)

theorem sk0Gen_carries (sp : Params F) (d : Nat) : (sk0Gen S sp d).Carries S sp (-lOrAlpha sp d) := by
  unfold sk0Gen lOrAlpha
  split_ifs
  · constructor <;> ring
  · constructor <;> ring

theorem skShareGen_carries (sp : Params F) (d : Nat) (tag : B) :
    (skShareGen S sp d tag).Carries S sp (sp.l d - lOrAlpha sp (d - 1)) := by
  constructor
  · unfold skShareGen lOrAlpha
    by_cases h : d > 1
    · simp only [if_pos h, if_neg (show d - 1 ≠ 0 by omega)]
    · simp only [if_neg h, if_pos (show d - 1 = 0 by omega)]
  · rfl

theorem sk0Gen_tag (sp : Params F) (d : Nat) : (sk0Gen S sp d).sk4 = S.NULLTAG := by
  unfold sk0Gen
  split_ifs <;> rfl

variable [DecidableEq F]

/-- **One share** recovers `s · β` times what it carries. -/
theorem recoverShare_eq {sp : Params F} {part : F} {sh : KeyShare F B} (h : sh.Carries S sp part)
    {ct : Ciphertext F B} (hct : ct.ct3 = ct.ct2 * (sp.beta + S.hashListToZR ct.tag * sp.ry))
    (hne : S.hashListToZR ct.tag ≠ S.hashListToZR sh.sk4) :
    recoverShare S ct sh = some (ct.ct2 * sp.beta * part) := by
  have h1 : S.hashListToZR ct.tag - S.hashListToZR sh.sk4 ≠ 0 := sub_ne_zero.2 hne
  have h2 : S.hashListToZR sh.sk4 - S.hashListToZR ct.tag ≠ 0 := sub_ne_zero.2 hne.symm
  unfold recoverShare lagrangeBasisCoefficient
  simp only [if_neg h1, if_neg h2, Option.bind_eq_bind, Option.bind_some, Option.some.injEq]
  rw [hct, h.sk1, h.sk2]
  -- the basis polynomials at 0 add up to 1, and interpolate the identity
  have hsum : (0 - S.hashListToZR sh.sk4) / (S.hashListToZR ct.tag - S.hashListToZR sh.sk4) +
      (0 - S.hashListToZR ct.tag) / (S.hashListToZR sh.sk4 - S.hashListToZR ct.tag) = 1 := by
    rw [← neg_sub (S.hashListToZR ct.tag) (S.hashListToZR sh.sk4)]
    field_simp
    ring
  have hid : S.hashListToZR ct.tag * ((0 - S.hashListToZR sh.sk4) / (S.hashListToZR ct.tag - S.hashListToZR sh.sk4)) +
      S.hashListToZR sh.sk4 * ((0 - S.hashListToZR ct.tag) / (S.hashListToZR sh.sk4 - S.hashListToZR ct.tag)) = 0 := by
    rw [← neg_sub (S.hashListToZR ct.tag) (S.hashListToZR sh.sk4)]
    field_simp
    ring
  linear_combination (-(ct.ct2 * sh.sk3 * sp.beta)) * hsum - (ct.ct2 * sh.sk3 * sp.ry) * hid

/-- Shares that carry the parts of a list recover `s · β` times its sum. -/
theorem recoverBlind_eq {sp : Params F} {shares : List (KeyShare F B)} {parts : List F}
    (h : List.Forall₂ (fun part sh => KeyShare.Carries S sp part sh) parts shares)
    {ct : Ciphertext F B} (hct : ct.ct3 = ct.ct2 * (sp.beta + S.hashListToZR ct.tag * sp.ry))
    (hne : ∀ sh ∈ shares, S.hashListToZR ct.tag ≠ S.hashListToZR sh.sk4) :
    recoverBlind S shares ct = some (ct.ct2 * sp.beta * parts.sum) := by
  unfold recoverBlind
  induction h with
  | nil => simp
  | @cons part sh parts shares hc h ih =>
    have hrest := ih fun sh' hsh => hne sh' (List.mem_cons_of_mem _ hsh)
    obtain ⟨zs, hzs, hsum⟩ := Option.map_eq_some_iff.1 hrest
    rw [List.mapM_cons, recoverShare_eq hc hct (hne sh List.mem_cons_self)]
    simp only [Option.bind_eq_bind, Option.bind_some, hzs, Option.pure_def, Option.map_some, List.sum_cons, hsum,
      Option.some.injEq]
    ring

end

/-! ## Keys -/

section

variable {F B : Type*} [Field F] {S : Scheme F B}

/-- The shares for the punctures of a list, each under the index that was passed for it, after share 0. -/
def epochKey (S : Scheme F B) (sp : Params F) (d : Nat) (punctures : List (Nat × B)) : List (KeyShare F B) :=
  sk0Gen S sp d :: punctures.map fun p => skShareGen S sp p.1 p.2

/-- What the shares carry. -/
theorem epochKey_carries (sp : Params F) (d : Nat) (punctures : List (Nat × B)) :
    List.Forall₂ (fun part sh => KeyShare.Carries S sp part sh)
      (-lOrAlpha sp d :: punctures.map fun p => sp.l p.1 - lOrAlpha sp (p.1 - 1)) (epochKey S sp d punctures) := by
  refine .cons (sk0Gen_carries sp d) ?_
  rw [List.forall₂_map_left_iff, List.forall₂_map_right_iff]
  induction punctures with
  | nil => exact .nil
  | cons p punctures ih => exact .cons (skShareGen_carries sp p.1 p.2) ih

theorem mem_epochKey_tag {sp : Params F} {d : Nat} {punctures : List (Nat × B)} {sh : KeyShare F B}
    (h : sh ∈ epochKey S sp d punctures) : sh.sk4 = S.NULLTAG ∨ sh.sk4 ∈ punctures.map Prod.snd := by
  rcases List.mem_cons.1 h with rfl | h
  · exact .inl (sk0Gen_tag sp d)
  · obtain ⟨p, hp, rfl⟩ := List.mem_map.1 h
    exact .inr (List.mem_map_of_mem hp)

/-- **The sum telescopes** for the indices `1, .., d`. -/
theorem sum_parts (sp : Params F) (d : Nat) :
    ((List.range d).map fun i => sp.l (i + 1) - lOrAlpha sp i).sum = lOrAlpha sp d + sp.alpha := by
  induction d with
  | zero => simp [lOrAlpha]
  | succ d ih =>
    have hnew : lOrAlpha sp (d + 1) = sp.l (d + 1) := rfl
    rw [List.range_succ, List.map_append, List.sum_append, ih, List.map_singleton, List.sum_singleton, hnew]
    ring

variable [DecidableEq F] {sp : Params F} {d : Nat} {punctures : List (Nat × B)} {ct : Ciphertext F B}

/-- A key for any passed indices recovers `s · β` times the sum of its parts. -/
theorem recoverBlind_epochKey_eq (hct : ct.ct3 = ct.ct2 * (sp.beta + S.hashListToZR ct.tag * sp.ry))
    (hinj : Function.Injective S.hashListToZR) (hnull : ct.tag ≠ S.NULLTAG) (htag : ct.tag ∉ punctures.map Prod.snd) :
    recoverBlind S (epochKey S sp d punctures) ct = some (ct.ct2 * sp.beta *
      (-lOrAlpha sp d + ((punctures.map Prod.fst).map fun i => sp.l i - lOrAlpha sp (i - 1)).sum)) := by
  rw [recoverBlind_eq (epochKey_carries sp d punctures) hct, List.sum_cons, List.map_map]
  · rfl
  · intro sh hsh e
    rcases mem_epochKey_tag hsh with h | h
    · exact hnull ((hinj e).trans h)
    · exact htag (hinj e ▸ h)

/-- **Recovery.**  With the indices `1, .., d` for the punctures and `d` for share 0, the parts add up to `α`. -/
theorem recoverBlind_epochKey (hct : ct.ct3 = ct.ct2 * (sp.beta + S.hashListToZR ct.tag * sp.ry))
    (hinj : Function.Injective S.hashListToZR) (hnull : ct.tag ≠ S.NULLTAG) (htag : ct.tag ∉ punctures.map Prod.snd)
    (hidx : punctures.map Prod.fst = (List.range d).map (· + 1)) :
    recoverBlind S (epochKey S sp d punctures) ct = some (sp.alpha * sp.beta * ct.ct2) := by
  rw [recoverBlind_epochKey_eq hct hinj hnull htag, hidx, List.map_map]
  have hsum : ((List.range d).map ((fun i => sp.l i - lOrAlpha sp (i - 1)) ∘ (· + 1))).sum =
      lOrAlpha sp d + sp.alpha := sum_parts sp d
  rw [hsum]
  congr 1
  ring

/-- **Decryption.**  Such a key decrypts every ciphertext whose tag is not punctured. -/
theorem decrypt_epochKey [DecidableEq B] (hinj : Function.Injective S.hashListToZR)
    (hidx : punctures.map Prod.fst = (List.range d).map (· + 1)) {s : F} {M : UInt64} {tag : B}
    (htag : tag ∉ punctures.map Prod.snd) (henc : encrypt S sp s M tag = some ct) :
    decrypt S (epochKey S sp d punctures) ct = some M := by
  unfold encrypt at henc
  split_ifs at henc with hnull
  obtain rfl := Option.some.inj henc
  have hpunct : isPuncturedOnTag (epochKey S sp d punctures) tag = false := by
    unfold isPuncturedOnTag
    rw [List.any_eq_false]
    intro sh hsh
    rw [decide_eq_true_eq]
    intro e
    rcases mem_epochKey_tag hsh with h | h
    · exact hnull (e.symm.trans h)
    · exact htag (e ▸ h)
  have hrec : recoverBlind S (epochKey S sp d punctures)
      ⟨S.hmac tag (sp.alpha * sp.beta * s) ^^^ M, s, s * (sp.beta + S.hashListToZR tag * sp.ry), tag⟩ =
      some (sp.alpha * sp.beta * s) := recoverBlind_epochKey rfl hinj hnull htag hidx
  unfold decrypt
  simp only [hpunct, Bool.false_eq_true, if_false, hrec, Option.map_some, Option.some.injEq]
  rw [← UInt64.xor_assoc, UInt64.xor_self, UInt64.zero_xor]

end

end Sse.Janus
