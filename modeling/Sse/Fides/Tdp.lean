import Sse.Lib.Rsa
import Sse.Fides.Sophos

/-!
# The trapdoor permutation of Sophos

Search tokens are numbers below an RSA modulus, stored as big-endian arrays of
`kMessageSize` bytes.  The client inverts `order` steps at once with the private key; the
server goes forward with the public key, one step (`Tdp::eval`) or `order` steps at once
with a pool of keys whose exponents are powers of three (`TdpMultPool::eval`).

    jumps of the pool that add up to s take a token k steps back to k - s steps back   (tdp_steps)

`none` stands for an exception, an OpenSSL error that leaves the output unset, or an access
outside an array.
-/

namespace Sse.Fides

/-! ## Big numbers as bytes -/

/-- `BN_bin2bn`: big-endian. -/
def bin2bn (l : List UInt8) : Nat := Nat.ofDigits 256 (l.reverse.map UInt8.toNat)

/-- `BN_bn2bin`: no leading zeros. -/
def bn2bin (y : Nat) : List UInt8 := ((Nat.digits 256 y).map UInt8.ofNat).reverse

/-- `BN_num_bytes`. -/
def numBytes (y : Nat) : Nat := (Nat.digits 256 y).length

@[simp] theorem length_bn2bin (y : Nat) : (bn2bin y).length = numBytes y := by
  simp [bn2bin, numBytes]

theorem numBytes_le_iff (y k : Nat) : numBytes y ≤ k ↔ y < 256 ^ k := Nat.digits_length_le_iff (by omega) y

theorem bin2bn_lt (l : List UInt8) : bin2bn l < 256 ^ l.length := by
  have h := Nat.ofDigits_lt_base_pow_length (b := 256) (l := l.reverse.map UInt8.toNat) (by omega) (by
    intro x hx
    obtain ⟨b, -, rfl⟩ := List.mem_map.1 hx
    exact b.toNat_lt)
  simpa [bin2bn] using h

@[simp] theorem bin2bn_bn2bin (y : Nat) : bin2bn (bn2bin y) = y := by
  have hdigits : ((Nat.digits 256 y).map UInt8.ofNat).map UInt8.toNat = Nat.digits 256 y := by
    rw [List.map_map]
    refine (List.map_congr_left ?_).trans (List.map_id _)
    intro d hd
    exact UInt8.toNat_ofNat_of_lt' (Nat.digits_lt_base (show 1 < 256 by omega) hd)
  unfold bin2bn bn2bin
  rw [List.reverse_reverse, hdigits, Nat.ofDigits_digits]

theorem bin2bn_replicate_append (k : Nat) (l : List UInt8) : bin2bn (List.replicate k 0 ++ l) = bin2bn l := by
  unfold bin2bn
  rw [List.reverse_append, List.map_append, Nat.ofDigits_append, List.reverse_replicate, List.map_replicate]
  show _ + _ * Nat.ofDigits 256 (List.replicate k 0) = _
  rw [Nat.ofDigits_replicate_zero, Nat.mul_zero, Nat.add_zero]

theorem bin2bn_inj {l l' : List UInt8} (hlen : l.length = l'.length) (h : bin2bn l = bin2bn l') : l = l' := by
  have hlt : ∀ (m : List UInt8), ∀ x ∈ m.reverse.map UInt8.toNat, x < 256 := by
    intro m x hx
    obtain ⟨b, -, rfl⟩ := List.mem_map.1 hx
    exact b.toNat_lt
  have hdigits := Nat.ofDigits_inj_of_len_eq (by omega) (by simp [hlen]) (hlt l) (hlt l') h
  exact List.reverse_injective (List.map_injective_iff.2 (fun _ _ => UInt8.toNat.inj) hdigits)

/-- `std::array<uint8_t, kMessageSize>`. -/
structure Message (kMessageSize : Nat) where
  data : List UInt8
  size : data.length = kMessageSize

section

variable {kMessageSize : Nat}

namespace Message

def toNat (m : Message kMessageSize) : Nat := bin2bn m.data

/-- The leading bytes are set to zero, `BN_bn2bin` writes the rest. -/
def ofNat (y : Nat) (h : numBytes y ≤ kMessageSize) : Message kMessageSize where
  data := List.replicate (kMessageSize - numBytes y) 0 ++ bn2bin y
  size := by simp; omega

@[simp] theorem toNat_ofNat {y : Nat} (h : numBytes y ≤ kMessageSize) :
    (ofNat y h : Message kMessageSize).toNat = y := by
  unfold toNat ofNat
  rw [bin2bn_replicate_append, bin2bn_bn2bin]

theorem toNat_inj {a b : Message kMessageSize} (h : a.toNat = b.toNat) : a = b := by
  have hdata : a.data = b.data := bin2bn_inj (a.size.trans b.size.symm) h
  cases a
  cases b
  cases hdata
  rfl

end Message

/-- The end of every function here: the array with the number `y`. -/
def write (y : Nat) : Option (Message kMessageSize) :=
  if h : numBytes y ≤ kMessageSize then some (Message.ofNat y h) else none

theorem write_toNat (m : Message kMessageSize) : write m.toNat = some m := by
  have hle : numBytes m.toNat ≤ kMessageSize := by
    rw [numBytes_le_iff]
    exact (bin2bn_lt m.data).trans_eq (by rw [m.size])
  rw [write, dif_pos hle]
  exact congrArg some (Message.toNat_inj (Message.toNat_ofNat hle))

theorem write_eq {m : Message kMessageSize} {y : Nat} (h : y = m.toNat) : write y = some m := by
  rw [h, write_toNat]

/-! ## TdpImpl -/

/-- The public half of an `RSA` object. -/
structure PublicKey where
  n : Nat
  e : Nat

/-- `rsa_size`. -/
def PublicKey.rsaSize (K : PublicKey) : Nat := numBytes K.n

/-- `TdpImpl::eval`. -/
def PublicKey.eval (K : PublicKey) (input : Message kMessageSize) : Option (Message kMessageSize) :=
  if kMessageSize ≠ K.rsaSize then none
  else
    let x := input.toNat
    let y := x ^ K.e % K.n
    write y

/-- `TdpImpl::generate_array` with the pseudo-random function `prf`. -/
def PublicKey.generateArray (K : PublicKey) (prf : Str → List UInt8) (seed : Str) : Option (Message kMessageSize) :=
  let rnd_bn := bin2bn (prf seed)
  let rnd_mod := rnd_bn % K.n
  write rnd_mod

/-- `RSA_public_encrypt` without padding: it refuses a number that is not below the modulus. -/
def PublicKey.publicEncrypt (K : PublicKey) (input : Message kMessageSize) : Option (Message kMessageSize) :=
  if kMessageSize = K.rsaSize ∧ input.toNat < K.n then write (input.toNat ^ K.e % K.n) else none

/-! ## TdpInverseImpl -/

def publicHalf (K : Rsa.Key) : PublicKey := ⟨K.n, K.e⟩

/-- `TdpInverseImpl::invert`: `RSA_private_decrypt` without padding. -/
def invert (K : Rsa.Key) (input : Message kMessageSize) : Option (Message kMessageSize) :=
  if kMessageSize = numBytes K.n ∧ input.toNat < K.n then write (input.toNat ^ K.d % K.n) else none

/-- `TdpInverseImpl::invert_mult`. -/
def invertMult (K : Rsa.Key) (input : Message kMessageSize) (order : UInt32) : Option (Message kMessageSize) :=
  if order = 0 then some input
  else if kMessageSize ≠ numBytes K.n then none
  else
    let p_1 := K.p - 1
    let q_1 := K.q - 1
    let d_p := K.d ^ order.toNat % p_1
    let d_q := K.d ^ order.toNat % q_1
    let x := input.toNat
    let y_p := x ^ d_p % K.p
    let y_q := x ^ d_q % K.q
    let h := (((y_p : Int) - y_q) % K.p).toNat
    let h := h * K.iqmp % K.p
    let y := h * K.q + y_q
    write y

/-! ## TdpMultPoolImpl -/

/-- `RSA_PK`. -/
def rsaPk : Nat := 3

/-- The keys of a pool: each has the exponent of the one before it times `RSA_PK`. -/
def poolKeys (K : PublicKey) : Nat → List PublicKey
  | 0 => []
  | keys_count + 1 =>
    let dup := { K with e := K.e * rsaPk }
    dup :: poolKeys dup keys_count

structure TdpMultPool where
  rsa_key_ : PublicKey
  keys_ : List PublicKey

/-- `TdpMultPoolImpl(pk, size)`: a size of 0 throws, and with a size of 1 `keys_[0]` is not there. -/
def TdpMultPool.new (pk : PublicKey) (size : UInt8) : Option TdpMultPool :=
  if size = 0 then none
  else if size = 1 then none
  else some ⟨pk, poolKeys pk (size.toNat - 1)⟩

theorem TdpMultPool.exists_new (pk : PublicKey) {size : UInt8} (hsize : 2 ≤ size) : ∃ P, new pk size = some P := by
  have h2 : 2 ≤ size.toNat := UInt8.le_iff_toNat_le.1 hsize
  unfold new
  rw [if_neg, if_neg]
  · exact ⟨_, rfl⟩
  · rintro rfl
    exact absurd h2 (by decide)
  · rintro rfl
    exact absurd h2 (by decide)

/-- `maximum_order`. -/
def TdpMultPool.maximumOrder (P : TdpMultPool) : Nat := P.keys_.length + 1

/-- `TdpMultPoolImpl::eval`; for the order 0 the code reads before the array. -/
def TdpMultPool.eval (P : TdpMultPool) (input : Message kMessageSize) (order : UInt8) :
    Option (Message kMessageSize) :=
  if order = 1 then P.rsa_key_.publicEncrypt input
  else if order = 0 then none
  else if order.toNat ≤ P.maximumOrder then do
    let key ← P.keys_[order.toNat - 2]?
    key.publicEncrypt input
  else none

theorem length_poolKeys (K : PublicKey) (keys_count : Nat) : (poolKeys K keys_count).length = keys_count := by
  induction keys_count generalizing K with
  | zero => rfl
  | succ c ih => rw [poolKeys, List.length_cons, ih]

theorem getElem?_poolKeys (K : PublicKey) {keys_count i : Nat} (hi : i < keys_count) :
    (poolKeys K keys_count)[i]? = some ⟨K.n, K.e * rsaPk ^ (i + 1)⟩ := by
  induction keys_count generalizing K i with
  | zero => omega
  | succ c ih =>
    cases i with
    | zero => rw [poolKeys, List.getElem?_cons_zero, Nat.zero_add, pow_one]
    | succ i =>
      rw [poolKeys, List.getElem?_cons_succ, ih _ (by omega)]
      simp only [pow_succ']
      rw [Nat.mul_assoc]

/-! ## Search tokens -/

/-- A private key for arrays of `kMessageSize` bytes, with the exponent that the pools assume. -/
structure TdpKey (kMessageSize : Nat) extends Rsa.Key where
  rsa_size : numBytes (p * q) = kMessageSize
  e_eq : e = rsaPk

variable (K : TdpKey kMessageSize)

theorem TdpKey.size_n : kMessageSize = numBytes K.n := K.rsa_size.symm

theorem TdpKey.rsaSize_public : kMessageSize = (publicHalf K.toKey).rsaSize := K.rsa_size.symm

/-- The arrays that hold a number below the modulus. -/
abbrev Token := { m : Message kMessageSize // m.toNat < K.n }

theorem TdpKey.numBytes_le {y : Nat} (hy : y < K.n) : numBytes y ≤ kMessageSize := by
  rw [← K.rsa_size]
  exact Nat.le_length_digits_le 256 y K.n hy.le

/-- Tokens are the numbers below the modulus. -/
def tokenEquiv : Token K ≃ Fin K.n where
  toFun t := ⟨t.1.toNat, t.2⟩
  invFun x := ⟨Message.ofNat x (K.numBytes_le x.isLt), by rw [Message.toNat_ofNat]; exact x.isLt⟩
  left_inv t := Subtype.ext (Message.toNat_inj (Message.toNat_ofNat (K.numBytes_le t.2)))
  right_inv x := Fin.ext (Message.toNat_ofNat (K.numBytes_le x.isLt))

/-- One step of the server. -/
def tokenPerm : Equiv.Perm (Token K) := (tokenEquiv K).symm.permCongrHom K.perm

variable {K}

theorem tokenPerm_zpow_toNat (z : ℤ) (t : Token K) :
    ((tokenPerm K ^ z) t).1.toNat = ((K.perm ^ z) (tokenEquiv K t) : ℕ) := by
  have hpow : tokenPerm K ^ z = (tokenEquiv K).symm.permCongrHom (K.perm ^ z) := (map_zpow _ _ _).symm
  rw [hpow]
  exact congrArg Fin.val ((tokenEquiv K).right_inv _)

theorem tokenPerm_inv_pow_toNat (k : Nat) (t : Token K) :
    (((tokenPerm K)⁻¹ ^ k) t).1.toNat = K.invertMult k t.1.toNat := by
  have h := tokenPerm_zpow_toNat (-(k : ℤ)) t
  rw [zpow_neg, zpow_neg, zpow_natCast, zpow_natCast, ← inv_pow, ← inv_pow] at h
  exact h.trans (K.invertMult_eq k (tokenEquiv K t)).symm

theorem tokenPerm_pow_toNat (j : Nat) (t : Token K) : ((tokenPerm K ^ j) t).1.toNat = K.evalPow j t.1.toNat := by
  have h := tokenPerm_zpow_toNat j t
  rw [zpow_natCast, zpow_natCast] at h
  exact h.trans (K.evalPow_eq j (tokenEquiv K t)).symm

/-! ## What the calls do on tokens -/

theorem eval_token (t : Token K) : (publicHalf K.toKey).eval t.1 = some (tokenPerm K t).1 := by
  unfold PublicKey.eval
  rw [if_neg (not_not.2 K.rsaSize_public)]
  apply write_eq
  have h := tokenPerm_pow_toNat 1 t
  rw [pow_one, Rsa.Key.evalPow_one] at h
  exact h.symm

theorem invertMult_token (t : Token K) (order : UInt32) :
    invertMult K.toKey t.1 order = some (((tokenPerm K)⁻¹ ^ order.toNat) t).1 := by
  unfold invertMult
  by_cases horder : order = 0
  · rw [if_pos horder, horder]
    rfl
  · rw [if_neg horder, if_neg (not_not.2 K.size_n)]
    apply write_eq
    exact (tokenPerm_inv_pow_toNat order.toNat t).symm

theorem invert_token (t : Token K) : invert K.toKey t.1 = some ((tokenPerm K)⁻¹ t).1 := by
  unfold invert
  rw [if_pos ⟨K.rsa_size.symm, t.2⟩]
  apply write_eq
  have h := tokenPerm_inv_pow_toNat 1 t
  rw [pow_one] at h
  rw [h, Rsa.Key.pow_d_mod]

theorem generateArray_token (prf : Str → List UInt8) (seed : Str) :
    ∃ t : Token K, (publicHalf K.toKey).generateArray prf seed = some t.1 ∧ t.1.toNat = bin2bn (prf seed) % K.n := by
  have hlt : bin2bn (prf seed) % K.n < K.n := Nat.mod_lt _ K.n_pos
  refine ⟨(tokenEquiv K).symm ⟨_, hlt⟩, write_eq ?_, ?_⟩
  · exact (congrArg Fin.val ((tokenEquiv K).right_inv ⟨_, hlt⟩)).symm
  · exact congrArg Fin.val ((tokenEquiv K).right_inv ⟨_, hlt⟩)

/-- The key for `j` steps. -/
theorem publicEncrypt_token (t : Token K) (j : Nat) :
    (PublicKey.mk K.n (K.e * rsaPk ^ j)).publicEncrypt t.1 = some ((tokenPerm K ^ (j + 1)) t).1 := by
  unfold PublicKey.publicEncrypt
  rw [if_pos ⟨K.rsa_size.symm, t.2⟩]
  apply write_eq
  rw [tokenPerm_pow_toNat, Rsa.Key.evalPow, pow_succ', K.e_eq]

/-- **The pool** takes `order` steps, for every order from one to its size. -/
theorem poolEval_token {size order : UInt8} {P : TdpMultPool} (hP : TdpMultPool.new (publicHalf K.toKey) size = some P)
    (hpos : 1 ≤ order) (hle : order ≤ size) (t : Token K) :
    P.eval t.1 order = some ((tokenPerm K ^ order.toNat) t).1 := by
  have hpos' : 1 ≤ order.toNat := UInt8.le_iff_toNat_le.1 hpos
  have hle' : order.toNat ≤ size.toNat := UInt8.le_iff_toNat_le.1 hle
  have hkeys : P = ⟨publicHalf K.toKey, poolKeys (publicHalf K.toKey) (size.toNat - 1)⟩ := by
    unfold TdpMultPool.new at hP
    split_ifs at hP
    exact (Option.some.inj hP).symm
  subst hkeys
  unfold TdpMultPool.eval
  by_cases hone : order = 1
  · have h := publicEncrypt_token t 0
    rw [pow_zero, Nat.mul_one] at h
    rw [if_pos hone, hone]
    exact h
  · have hne : order ≠ 0 := by
      intro h0
      rw [h0] at hpos'
      exact absurd hpos' (by decide)
    have htwo : 2 ≤ order.toNat := by
      have : order.toNat ≠ 1 := fun h1 => hone (UInt8.toNat_inj.1 h1)
      omega
    have hmax : order.toNat ≤ size.toNat - 1 + 1 := by omega
    have hkey : (poolKeys (publicHalf K.toKey) (size.toNat - 1))[order.toNat - 2]? =
        some ⟨K.n, K.e * rsaPk ^ (order.toNat - 1)⟩ := by
      rw [getElem?_poolKeys _ (by omega)]
      have : order.toNat - 2 + 1 = order.toNat - 1 := by omega
      rw [this]
      rfl
    have h := publicEncrypt_token t (order.toNat - 1)
    rw [Nat.sub_add_cancel hpos'] at h
    rw [if_neg hone, if_neg hne, TdpMultPool.maximumOrder, length_poolKeys, if_pos hmax]
    simp only [hkey, Option.bind_eq_bind, Option.bind_some]
    exact h

/-- Jumps of the pool add up. -/
theorem foldlM_poolEval {size : UInt8} {P : TdpMultPool} (hP : TdpMultPool.new (publicHalf K.toKey) size = some P)
    {orders : List UInt8} (h : ∀ order ∈ orders, 1 ≤ order ∧ order ≤ size) (t : Token K) :
    orders.foldlM P.eval t.1 = some ((tokenPerm K ^ (orders.map UInt8.toNat).sum) t).1 := by
  induction orders generalizing t with
  | nil => rfl
  | cons order orders ih =>
    obtain ⟨hpos, hle⟩ := h order List.mem_cons_self
    rw [List.foldlM_cons, poolEval_token hP hpos hle, Option.bind_eq_bind, Option.bind_some,
      ih fun o ho => h o (List.mem_cons_of_mem _ ho), List.map_cons, List.sum_cons, Nat.add_comm, pow_add]
    rfl

/-- A call that takes one step, again and again. -/
theorem iterate_token {f : Message kMessageSize → Option (Message kMessageSize)} {π : Equiv.Perm (Token K)}
    (hf : ∀ t : Token K, f t.1 = some (π t).1) (k : Nat) (t : Token K) :
    (fun m => m >>= f)^[k] (some t.1) = some ((π ^ k) t).1 := by
  induction k with
  | zero => rfl
  | succ k ih =>
    rw [Function.iterate_succ_apply', ih, pow_succ', Equiv.Perm.mul_apply]
    exact hf _

/-- **The chain of search tokens.**  On a number below the modulus, inverting `k` steps at once is inverting `k`
times; the jumps of a pool, of any orders it has keys for, are as many single steps as the orders add up to; and
they undo that many of the `k` steps. -/
theorem tdp_steps (K : TdpKey kMessageSize) (st : Message kMessageSize) (hst : st.toNat < K.n) (k : UInt32)
    (size : UInt8) (hsize : 2 ≤ size) (orders : List UInt8) (horders : ∀ order ∈ orders, 1 ≤ order ∧ order ≤ size) :
    (∃ st', invertMult K.toKey st k = some st' ∧ (fun m => m >>= invert K.toKey)^[k.toNat] (some st) = some st') ∧
      ∃ P, TdpMultPool.new (publicHalf K.toKey) size = some P ∧
        (∃ st', orders.foldlM P.eval st = some st' ∧
          (fun m => m >>= (publicHalf K.toKey).eval)^[(orders.map UInt8.toNat).sum] (some st) = some st') ∧
        ((orders.map UInt8.toNat).sum ≤ k.toNat →
          (invertMult K.toKey st k >>= fun m => orders.foldlM P.eval m) =
            invertMult K.toKey st (k - UInt32.ofNat (orders.map UInt8.toNat).sum)) := by
  set t : Token K := ⟨st, hst⟩
  set s := (orders.map UInt8.toNat).sum with hs
  obtain ⟨P, hP⟩ := TdpMultPool.exists_new (publicHalf K.toKey) hsize
  refine ⟨⟨_, invertMult_token t k, iterate_token invert_token k.toNat t⟩, P, hP,
    ⟨_, foldlM_poolEval hP horders t, iterate_token eval_token s t⟩, fun hle => ?_⟩
  have hsub : (k - UInt32.ofNat s).toNat = k.toNat - s := by
    have hs32 : (UInt32.ofNat s).toNat = s := by
      rw [UInt32.toNat_ofNat', Nat.mod_eq_of_lt (lt_of_le_of_lt hle k.toNat_lt)]
    rw [UInt32.toNat_sub_of_le _ _ (UInt32.le_iff_toNat_le.2 (by rw [hs32]; exact hle)), hs32]
  have hcancel : (tokenPerm K ^ s) (((tokenPerm K)⁻¹ ^ k.toNat) t) = ((tokenPerm K)⁻¹ ^ (k.toNat - s)) t := by
    have hsplit : (tokenPerm K)⁻¹ ^ k.toNat = (tokenPerm K ^ s)⁻¹ * (tokenPerm K)⁻¹ ^ (k.toNat - s) := by
      rw [← inv_pow, ← pow_add, Nat.add_sub_cancel' hle]
    rw [hsplit, ← Equiv.Perm.mul_apply, mul_inv_cancel_left]
  rw [show st = t.1 from rfl, invertMult_token t k, invertMult_token t, hsub, ← hcancel]
  exact foldlM_poolEval hP horders _

/-! ## The scheme over the permutation -/

/-- The token that a call gives. -/
def Token.get (result : Option (Message kMessageSize)) (h : ∃ t : Token K, result = some t.1) : Token K :=
  ⟨result.get (by obtain ⟨t, rfl⟩ := h; rfl), by obtain ⟨t, rfl⟩ := h; exact t.2⟩

theorem Token.get_eq {result : Option (Message kMessageSize)} {t : Token K} (h : result = some t.1)
    (h' : ∃ t : Token K, result = some t.1) : Token.get result h' = t := by
  subst h
  rfl

/-- The functions of a `Setting` other than the permutation. -/
structure Hashes (B : Type) where
  getKeywordIndex : Str → Str
  /-- `prf` of the client's `rsa_prg_`. -/
  rsaPrg : Str → List UInt8
  derivationPrf : Str → Str
  genUpdateTokenMasks : Str → List UInt8 → B × B
  encode : Str → B
  decode : B → Option Str

/-- A client that holds the private key, and its server. -/
def tdpSetting {B : Type} (K : TdpKey kMessageSize) (H : Hashes B) (junk : Token K) (usehdd deleteItems : Bool) :
    Setting B (Token K) where
  getKeywordIndex := H.getKeywordIndex
  generateArray seed := Token.get ((publicHalf K.toKey).generateArray H.rsaPrg seed)
    ((generateArray_token H.rsaPrg seed).imp fun _ h => h.1)
  invertMult st order := Token.get (invertMult K.toKey st.1 order) ⟨_, invertMult_token st order⟩
  eval st := Token.get ((publicHalf K.toKey).eval st.1) ⟨_, eval_token st⟩
  derivationPrf := H.derivationPrf
  genUpdateTokenMasks derivation_key st := H.genUpdateTokenMasks derivation_key st.1.data
  encode := H.encode
  decode := H.decode
  junk := junk
  usehdd := usehdd
  deleteItems := deleteItems

variable {B : Type} {H : Hashes B} {junk : Token K} {usehdd deleteItems : Bool}

theorem tdpSetting_eval : (tdpSetting K H junk usehdd deleteItems).eval = tokenPerm K :=
  funext fun st => Token.get_eq (eval_token st) ⟨_, eval_token st⟩

theorem tdpSetting_invertMult (st : Token K) (order : UInt32) :
    (tdpSetting K H junk usehdd deleteItems).invertMult st order = ((tokenPerm K)⁻¹ ^ order.toNat) st :=
  Token.get_eq (invertMult_token st order) ⟨_, invertMult_token st order⟩

/-- **The permutation is one the scheme can rely on**; what is left to ask is that the update tokens differ. -/
theorem chained_tdp {W : Str → Prop} (hinj : ∀ w w' i i', W w → W w' → i < 2 ^ 32 → i' < 2 ^ 32 →
    token (tdpSetting K H junk usehdd deleteItems) w i = token (tdpSetting K H junk usehdd deleteItems) w' i' →
      w = w' ∧ i = i') : Chained (tdpSetting K H junk usehdd deleteItems) W where
  invertMult_zero st := by
    rw [tdpSetting_invertMult]
    rfl
  eval_invertMult st i hi := by
    have hto : ∀ j < 2 ^ 32, (UInt32.ofNat j).toNat = j := fun j hj => by
      rw [UInt32.toNat_ofNat', Nat.mod_eq_of_lt hj]
    rw [tdpSetting_eval, tdpSetting_invertMult, tdpSetting_invertMult, hto _ hi, hto i (by omega), pow_succ',
      ← Equiv.Perm.mul_apply, mul_inv_cancel_left]
  token_inj := hinj

/-- `public_tdp_.eval(st, order)`. -/
def TdpMultPool.evalToken (P : TdpMultPool) (st : Token K) (order : UInt8) : Option (Token K) := do
  let m ← P.eval st.1 order
  if h : m.toNat < K.n then some ⟨m, h⟩ else none

end

/-! ## A small key -/

def key55 : TdpKey 1 where
  p := 5
  q := 11
  e := 3
  d := 27
  iqmp := 1
  prime_p := by norm_num
  prime_q := by norm_num
  ne := by decide
  two_lt_p := by decide
  two_lt_q := by decide
  ed_p := by decide
  ed_q := by decide
  iqmp_q := by decide
  rsa_size := by decide
  e_eq := rfl

/-- Seven steps back from 29, then jumps of one, three and two steps. -/
theorem tdp_steps_55 :
    (∃ st', invertMult key55.toKey ⟨[29], rfl⟩ 7 = some st' ∧
        (fun m => m >>= invert key55.toKey)^[7] (some (⟨[29], rfl⟩ : Message 1)) = some st') ∧
      ∃ P, TdpMultPool.new (publicHalf key55.toKey) 4 = some P ∧
        (∃ st', [1, 3, 2].foldlM P.eval (⟨[29], rfl⟩ : Message 1) = some st' ∧
          (fun m => m >>= (publicHalf key55.toKey).eval)^[6] (some (⟨[29], rfl⟩ : Message 1)) = some st') ∧
        (6 ≤ 7 → (invertMult key55.toKey (⟨[29], rfl⟩ : Message 1) 7 >>= fun m => [1, 3, 2].foldlM P.eval m) =
          invertMult key55.toKey ⟨[29], rfl⟩ (7 - UInt32.ofNat 6)) :=
  tdp_steps key55 ⟨[29], rfl⟩ (by decide) 7 4 (by decide) [1, 3, 2] (by simp)

/-! ## A key with a long chain

`p = 2 * r + 1` and `r = 2 * s + 1` for primes `r` and `s`, so the steps back from 4 do not
meet for more than `2 ^ 32` steps. -/

theorem prime_s : Nat.Prime 4295039921 := by
  apply lucas_primality 4295039921 3 (by reduce_mod_char)
  intro q hq hd
  have hfac : (4295039921 - 1 : ℕ) = 2 ^ 4 * 5 * 37 * 71 * 107 * 191 := by norm_num
  rw [hfac] at hd
  have hcases : q = 2 ∨ q = 5 ∨ q = 37 ∨ q = 71 ∨ q = 107 ∨ q = 191 := by
    simp only [hq.dvd_mul] at hd
    rcases hd with ((((hd | hd) | hd) | hd) | hd) | hd
    · exact Or.inl ((Nat.prime_dvd_prime_iff_eq hq Nat.prime_two).1 (hq.dvd_of_dvd_pow hd))
    all_goals
      have := (Nat.prime_dvd_prime_iff_eq hq (by norm_num)).1 hd
      omega
  rcases hcases with rfl | rfl | rfl | rfl | rfl | rfl <;> norm_num <;> reduce_mod_char <;> decide

theorem prime_r : Nat.Prime 8590079843 := by
  apply lucas_primality 8590079843 2 (by reduce_mod_char)
  intro q hq hd
  have hfac : (8590079843 - 1 : ℕ) = 2 * 4295039921 := by norm_num
  rw [hfac, hq.dvd_mul, Nat.prime_dvd_prime_iff_eq hq Nat.prime_two, Nat.prime_dvd_prime_iff_eq hq prime_s] at hd
  rcases hd with rfl | rfl <;> norm_num <;> reduce_mod_char <;> decide

theorem prime_p : Nat.Prime 17180159687 := by
  apply lucas_primality 17180159687 5 (by reduce_mod_char)
  intro q hq hd
  have hfac : (17180159687 - 1 : ℕ) = 2 * 8590079843 := by norm_num
  rw [hfac, hq.dvd_mul, Nat.prime_dvd_prime_iff_eq hq Nat.prime_two, Nat.prime_dvd_prime_iff_eq hq prime_r] at hd
  rcases hd with rfl | rfl <;> norm_num <;> reduce_mod_char <;> decide

def keyLong : TdpKey 5 where
  p := 17180159687
  q := 11
  e := 3
  d := 28633599477
  iqmp := 9370996193
  prime_p := prime_p
  prime_q := by norm_num
  ne := by decide
  two_lt_p := by decide
  two_lt_q := by decide
  ed_p := by decide
  ed_q := by decide
  iqmp_q := by decide
  rsa_size := by norm_num [numBytes]
  e_eq := rfl

theorem orderOf_four : orderOf (4 : ZMod 17180159687) = 8590079843 := by
  have : Fact (Nat.Prime 8590079843) := ⟨prime_r⟩
  exact orderOf_eq_prime (by reduce_mod_char) (by decide)

theorem le_orderOf_three : 2 ^ 32 ≤ orderOf (3 : ZMod 8590079843) := by
  have : Fact (Nat.Prime 8590079843) := ⟨prime_r⟩
  have hdvd : orderOf (3 : ZMod 8590079843) ∣ 2 * 4295039921 :=
    orderOf_dvd_of_pow_eq_one (by reduce_mod_char)
  have hpos : 0 < orderOf (3 : ZMod 8590079843) := Nat.pos_of_dvd_of_pos hdvd (by decide)
  rcases (Nat.coprime_or_dvd_of_prime prime_s (orderOf (3 : ZMod 8590079843))) with hcop | hs
  · -- then the order divides 2, but 3 ^ 2 is not 1
    have htwo : orderOf (3 : ZMod 8590079843) ∣ 2 := hcop.symm.dvd_of_dvd_mul_right hdvd
    have hsq : (3 : ZMod 8590079843) ^ 2 = 1 := orderOf_dvd_iff_pow_eq_one.1 htwo
    exact absurd hsq (by reduce_mod_char; decide)
  · have := Nat.le_of_dvd hpos hs
    omega

/-- Two different numbers of steps back from 4. -/
theorem keyLong_injOn (t : Token keyLong) (ht : t.1.toNat = 4) {i j : ℕ} (hi : i < 2 ^ 32) (hj : j < 2 ^ 32)
    (h : ((tokenPerm keyLong)⁻¹ ^ i) t = ((tokenPerm keyLong)⁻¹ ^ j) t) : i = j := by
  have hval : ((keyLong.perm⁻¹ ^ i) (tokenEquiv keyLong t) : ℕ) = ((keyLong.perm⁻¹ ^ j) (tokenEquiv keyLong t) : ℕ) := by
    rw [← Rsa.Key.invertMult_eq, ← Rsa.Key.invertMult_eq]
    exact (tokenPerm_inv_pow_toNat i t).symm.trans
      ((congrArg (fun t : Token keyLong => t.1.toNat) h).trans (tokenPerm_inv_pow_toNat j t))
  have hfour : ((tokenEquiv keyLong t : ℕ) : ZMod keyLong.p) = (4 : ZMod 17180159687) := by
    show ((t.1.toNat : ℕ) : ZMod 17180159687) = 4
    rw [ht]
    rfl
  have hlen : 2 ^ 32 ≤ orderOf (keyLong.e : ZMod (orderOf ((tokenEquiv keyLong t : ℕ) : ZMod keyLong.p))) := by
    have horder : orderOf ((tokenEquiv keyLong t : ℕ) : ZMod keyLong.p) = 8590079843 := by
      rw [hfour]
      exact orderOf_four
    rw [horder]
    exact le_orderOf_three
  refine keyLong.inv_pow_injOn (tokenEquiv keyLong t) ?_ (lt_of_lt_of_le hi hlen) (lt_of_lt_of_le hj hlen) (Fin.ext hval)
  rw [hfour]
  exact (by decide : (4 : ZMod 17180159687) ≠ 0)

end Sse.Fides
