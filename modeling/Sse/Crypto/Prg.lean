import Sse.Crypto.Aesni

/-!
# The pseudo-random generator

`Prg` encrypts the numbers of 16-byte blocks under its key and cuts the bytes asked for out
of them.  There are two builds of `prg.cpp`, with AES-NI and with OpenSSL, and in each a
function of an object, which has its subkeys, and a static one, which has the key.  OpenSSL
is a parameter, of which the code relies on this: its two functions are AES-128.

## Algorithm

The bytes `offset .. offset + len - 1` lie in the blocks from `offset / 16` up to, and
without, `max_block_index`, the quotient rounded up.  The blocks go to a buffer and
`extra_len = offset % 16` bytes of it are skipped; with AES-NI an aligned request goes to
`out` at once.

    derive(k, offset, len)[j] = keystream k (offset + j)              (prg_derive_spec)
-/

namespace Sse.Crypto

open Aes

/-- `max_block_index`. -/
def maxBlockIndex (offset len : Nat) : Nat :=
  let max_block_index := (len + offset) / 16
  if (len + offset) % 16 ≠ 0 then max_block_index + 1 else max_block_index

/-- The AES-NI branch of both `derive` functions; `ctr` is the `aesni_ctr` that each calls. -/
def deriveAesni (ctr : UInt64 → Nat → List Block) (offset : UInt32) (len : Nat) : List UInt8 :=
  let extra_len := (offset % 16).toNat
  let block_offset := offset / 16
  let block_len := maxBlockIndex offset.toNat len - block_offset.toNat
  if offset % 16 = 0 ∧ len % 16 = 0 then (ctr block_offset.toUInt64 block_len).flatMap Block.bytes
  else
    let tmp := (ctr block_offset.toUInt64 block_len).flatMap Block.bytes
    (tmp.drop extra_len).take len

/-- A `size_t` in memory. -/
def sizeTBytes (n : UInt64) : List UInt8 :=
  [n.toUInt8, (n >>> 8).toUInt8, (n >>> 16).toUInt8, (n >>> 24).toUInt8, (n >>> 32).toUInt8, (n >>> 40).toUInt8,
    (n >>> 48).toUInt8, (n >>> 56).toUInt8]

/-- The OpenSSL branch of both `derive` functions, with `AES_encrypt` under the subkeys. -/
def deriveOpenssl (aesEncrypt : Block → Block) (offset : UInt32) (len : Nat) : List UInt8 :=
  let extra_len := (offset % 16).toNat
  let block_offset := (offset / 16).toNat
  let block_len := maxBlockIndex offset.toNat len - block_offset
  let input := (List.range' block_offset block_len).map fun i =>
    Block.ofBytes (sizeTBytes (UInt64.ofNat i) ++ List.replicate 8 0)
  let tmp := input.flatMap fun block => (aesEncrypt block).bytes
  (tmp.drop extra_len).take len

/-- `AES_KEY`, `AES_set_encrypt_key`, which is `none` where it does not return 0, and `AES_encrypt`. -/
structure Openssl where
  AesKey : Type
  setEncryptKey : Block → Option AesKey
  encrypt : AesKey → Block → Block

/-- They are AES-128, and every key is taken. -/
def Openssl.IsAes (lib : Openssl) : Prop :=
  ∀ k, ∃ key, lib.setEncryptKey k = some key ∧ lib.encrypt key = Aes.encrypt k

/-- The functions as the standard has them: a key is its round keys. -/
def fips : Openssl where
  AesKey := List Block
  setEncryptKey k := some (roundKeys 4 k.words)
  encrypt := cipher

theorem fips_isAes : fips.IsAes := by
  intro k
  refine ⟨show List Block from roundKeys 4 k.words, ?_, ?_⟩
  · dsimp only [fips]
  · funext b
    dsimp only [fips]
    rw [Aes.encrypt]

/-- `USE_AESNI` or not. -/
inductive Build
  | aesni
  | openssl

section

variable (lib : Openssl)

/-- `key_type`. -/
inductive KeyType
  | aesni (subkeys : Subkeys)
  | openssl (aes_enc_key : lib.AesKey)

/-- `gen_subkeys`, which the constructors call; `none` is a null pointer. -/
def genSubkeys (build : Build) : Option Block → Except String (KeyType lib)
  | none => throw "PRG input key is NULL"
  | some userKey =>
    match build with
    | .aesni => return .aesni (aesniDeriveSubkeys userKey)
    | .openssl =>
      match lib.setEncryptKey userKey with
      | none => throw "Unable to init AES subkeys"
      | some key => return .openssl key

/-- `derive` of an object. -/
def KeyType.derive (aes_enc_key : KeyType lib) (offset : UInt32) (len : Nat) : Except String (List UInt8) :=
  if len = 0 then throw "The minimum number of bytes to encrypt is 1."
  else match aes_enc_key with
    | .aesni subkeys => return deriveAesni (fun iv N => aesniCtr iv N subkeys) offset len
    | .openssl key => return deriveOpenssl (lib.encrypt key) offset len

/-- The static `derive`. -/
def derive (build : Build) (k : Option Block) (offset : UInt32) (len : Nat) : Except String (List UInt8) :=
  match k with
  | none => throw "PRG input key is NULL"
  | some k =>
    if len = 0 then throw "The minimum number of bytes to encrypt is 1."
    else match build with
      | .aesni => return deriveAesni (fun iv N => aesniCtrKey iv k N) offset len
      | .openssl =>
        match lib.setEncryptKey k with
        | none => throw "Unable to init AES subkeys"
        | some key => return deriveOpenssl (lib.encrypt key) offset len

end

/-! ## The key stream -/

/-- Byte `p` of the encrypted numbers. -/
def keystream (k : Block) (p : Nat) : UInt8 :=
  (encrypt k (mmSetEpi64x 0 (UInt64.ofNat (p / 16)))).bytes.getD (p % 16) 0

/-- `len` bytes of the key stream. -/
def window (k : Block) (offset len : Nat) : List UInt8 := (List.range len).map fun j => keystream k (offset + j)

theorem window_add (k : Block) (offset m n : Nat) :
    window k offset (m + n) = window k offset m ++ window k (offset + m) n := by
  simp only [window, List.range_add, List.map_append, List.map_map, Function.comp_def, Nat.add_assoc]

/-- A part of a window. -/
theorem take_drop_window (k : Block) {offset e len n : Nat} (h : e + len ≤ n) :
    ((window k offset n).drop e).take len = window k (offset + e) len := by
  obtain ⟨r, rfl⟩ := Nat.exists_eq_add_of_le h
  have hlen : ∀ o m, (window k o m).length = m := by simp [window]
  rw [window_add, window_add, List.append_assoc, List.drop_left' (hlen _ _), List.take_left' (hlen _ _)]

/-- One block of the key stream. -/
theorem window_block (k : Block) (q : Nat) :
    window k (16 * q) 16 = (encrypt k (mmSetEpi64x 0 (UInt64.ofNat q))).bytes := by
  have hbyte : ∀ j, j < 16 →
      keystream k (16 * q + j) = (encrypt k (mmSetEpi64x 0 (UInt64.ofNat q))).bytes.getD j 0 := by
    intro j hj
    rw [keystream, Nat.mul_add_div (by omega), Nat.div_eq_of_lt hj, Nat.add_zero, Nat.mul_add_mod, Nat.mod_eq_of_lt hj]
  generalize (encrypt k (mmSetEpi64x 0 (UInt64.ofNat q))) = b at hbyte
  have hall : window k (16 * q) 16 = (List.range 16).map fun j => b.bytes.getD j 0 :=
    List.map_congr_left fun j hj => hbyte j (List.mem_range.1 hj)
  rw [hall]
  rfl

/-- The encrypted numbers from `q` on. -/
theorem flatMap_blocks (k : Block) (q n : Nat) :
    ((List.range n).flatMap fun j => (encrypt k (mmSetEpi64x 0 (UInt64.ofNat (q + j)))).bytes) =
      window k (16 * q) (16 * n) := by
  induction n with
  | zero => rfl
  | succ n ih =>
    rw [List.range_succ, List.flatMap_append, List.flatMap_singleton, ih, Nat.mul_succ, window_add, ← Nat.mul_add,
      window_block]

/-- Both builds number the blocks alike. -/
theorem ofBytes_sizeT (n : UInt64) : Block.ofBytes (sizeTBytes n ++ List.replicate 8 0) = mmSetEpi64x 0 n := by
  have h40 : n >>> 32 >>> 8 = n >>> 40 := by simp [← UInt64.toNat_inj, ← Nat.shiftRight_add]
  have h48 : n >>> 32 >>> 16 = n >>> 48 := by simp [← UInt64.toNat_inj, ← Nat.shiftRight_add]
  have h56 : n >>> 32 >>> 24 = n >>> 56 := by simp [← UInt64.toNat_inj, ← Nat.shiftRight_add]
  simp only [mmSetEpi64x, h40, h48, h56]
  rfl

/-- The blocks of a request hold its bytes, and no others when it is aligned. -/
theorem block_len_spec (offset : UInt32) (len : Nat) :
    16 * (offset / 16).toNat + (offset % 16).toNat = offset.toNat ∧
      (offset % 16).toNat + len ≤ 16 * (maxBlockIndex offset.toNat len - (offset / 16).toNat) ∧
      (offset % 16 = 0 ∧ len % 16 = 0 → 16 * (maxBlockIndex offset.toNat len - (offset / 16).toNat) = len) := by
  have hdiv : (offset / 16).toNat = offset.toNat / 16 := UInt32.toNat_div _ _
  have hmod : (offset % 16).toNat = offset.toNat % 16 := UInt32.toNat_mod _ _
  rw [hdiv, hmod]
  refine ⟨by omega, ?_, ?_⟩
  · simp only [maxBlockIndex]
    split <;> omega
  · rintro ⟨hoff, hlen⟩
    have hzero : offset.toNat % 16 = 0 := by rw [← hmod, hoff]; rfl
    simp only [maxBlockIndex]
    split <;> omega

theorem deriveAesni_eq (k : Block) {ctr : UInt64 → Nat → List Block}
    (hctr : ∀ iv N, ctr iv N = (ctrStates iv N).map (encrypt k)) (offset : UInt32) (len : Nat) :
    deriveAesni ctr offset len = window k offset.toNat len := by
  obtain ⟨hoff, hfit, halign⟩ := block_len_spec offset len
  set n := maxBlockIndex offset.toNat len - (offset / 16).toNat with hn
  have hstream : (ctr (offset / 16).toUInt64 n).flatMap Block.bytes = window k (16 * (offset / 16).toNat) (16 * n) := by
    have hc : ∀ j, (offset / 16).toUInt64 + UInt64.ofNat j = UInt64.ofNat ((offset / 16).toNat + j) := by
      intro j
      have hlt := (offset / 16).toNat_lt
      rw [UInt64.ofNat_add]
      congr 1
      rw [← UInt64.toNat_inj, UInt32.toNat_toUInt64, UInt64.toNat_ofNat', Nat.mod_eq_of_lt (by omega)]
    rw [hctr, ctrStates, List.map_map, List.flatMap_map, ← flatMap_blocks]
    simp only [Function.comp_def, hc]
  unfold deriveAesni
  simp only [← hn, hstream]
  split
  · next h =>
    have hzero : (offset % 16).toNat = 0 := by rw [h.1]; rfl
    rw [halign h, ← hoff, hzero, Nat.add_zero]
  · rw [take_drop_window k hfit, hoff]

theorem deriveOpenssl_eq (k : Block) (offset : UInt32) (len : Nat) :
    deriveOpenssl (encrypt k) offset len = window k offset.toNat len := by
  obtain ⟨hoff, hfit, -⟩ := block_len_spec offset len
  set n := maxBlockIndex offset.toNat len - (offset / 16).toNat with hn
  have hstream : ((List.range' (offset / 16).toNat n).map fun i =>
      Block.ofBytes (sizeTBytes (UInt64.ofNat i) ++ List.replicate 8 0)).flatMap (fun block => (encrypt k block).bytes) =
      window k (16 * (offset / 16).toNat) (16 * n) := by
    rw [List.range'_eq_map_range, List.map_map, List.flatMap_map, ← flatMap_blocks]
    simp only [Function.comp_def, ofBytes_sizeT]
  unfold deriveOpenssl
  simp only [← hn, hstream]
  rw [take_drop_window k hfit, hoff]

section

variable {lib : Openssl} (hlib : lib.IsAes)

include hlib

/-- **Static calls.**  In both builds a call gives the bytes of the key stream it asks for. -/
theorem derive_eq (build : Build) (k : Block) (offset : UInt32) {len : Nat} (hlen : len ≠ 0) :
    derive lib build (some k) offset len = .ok (window k offset.toNat len) := by
  obtain ⟨key, hset, henc⟩ := hlib k
  simp only [derive, if_neg hlen]
  cases build with
  | aesni => exact congrArg Except.ok (deriveAesni_eq k (fun iv N => aesniCtrKey_derive iv k N) offset len)
  | openssl =>
    simp only [hset, henc]
    exact congrArg Except.ok (deriveOpenssl_eq k offset len)

/-- **Calls of an object.** -/
theorem genSubkeys_derive (build : Build) (k : Block) (offset : UInt32) (len : Nat) :
    ((genSubkeys lib build (some k)).bind fun key => key.derive lib offset len) =
      derive lib build (some k) offset len := by
  obtain ⟨key, hset, henc⟩ := hlib k
  by_cases hlen : len = 0
  · subst hlen
    cases build with
    | aesni => rfl
    | openssl =>
      simp only [genSubkeys, hset]
      rfl
  · rw [derive_eq hlib build k offset hlen]
    cases build with
    | aesni =>
      show (if len = 0 then _ else _) = _
      rw [if_neg hlen]
      exact congrArg Except.ok (deriveAesni_eq k (fun iv N => aesniCtr_derive iv k N) offset len)
    | openssl =>
      simp only [genSubkeys, hset]
      show (if len = 0 then _ else _) = _
      rw [if_neg hlen]
      show Except.ok (deriveOpenssl (lib.encrypt key) offset len) = _
      rw [henc, deriveOpenssl_eq]

/-- **Windows of one key stream.**  Whatever the build, and with an object or without, a call for no
bytes throws, and any other call gives the part of the key stream that it asks for. -/
theorem prg_derive_spec (build : Build) (k : Block) (offset : UInt32) (len : Nat) :
    derive lib build (some k) offset len =
        (if len = 0 then .error "The minimum number of bytes to encrypt is 1."
          else .ok ((List.range len).map fun j => keystream k (offset.toNat + j))) ∧
      ((genSubkeys lib build (some k)).bind fun key => key.derive lib offset len) =
        derive lib build (some k) offset len := by
  refine ⟨?_, genSubkeys_derive hlib build k offset len⟩
  split
  · next h =>
    subst h
    rfl
  · next h => exact derive_eq hlib build k offset h

end

/-- Forty bytes from byte 5 on, in the build with OpenSSL. -/
theorem prg_derive_spec_openssl :
    derive fips .openssl (some Block.zero) 5 40 =
        .ok ((List.range 40).map fun j => keystream Block.zero (5 + j)) ∧
      ((genSubkeys fips .openssl (some Block.zero)).bind fun key => key.derive fips 5 40) =
        derive fips .openssl (some Block.zero) 5 40 :=
  prg_derive_spec fips_isAes .openssl Block.zero 5 40

end Sse.Crypto
