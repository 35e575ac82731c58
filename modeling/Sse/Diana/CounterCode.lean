import Sse.Diana.Builds
import Sse.Diana.Interface
import Sse.Fides.Codec

/-!
# The counters in delCntMap

`insertKeyword` keeps the counter of an ind as `Utilities::encode(to_string(kw_counter))`,
and a search reads it with `stoi(Utilities::decode(..))`.  The text of a counter always fits
the cleared part of the buffer; what fails is `stoi`, from `2 ^ 31` on.

The cipher is OpenSSL's, a parameter here, and so is what the buffer of `decode` holds
behind the decrypted text.  The code relies on two facts about them: the padding is left
behind the text, so that `stoi` finds no digit there, and the zero block, which is what an
entry that nobody wrote gives, decrypts to a wrong padding.  AES-128 has the second one.

    stoi(decode(encode(to_string(c)))) = c  ↔  c < 2 ^ 31            (counter_code_iff)
-/

namespace Sse.Diana

open Aes

/-! ## The codec -/

/-- `plaintext` in `Utilities::decode`: `decrypt` writes the text without its padding, and `behind` is what
the other bytes of the buffer hold afterwards. -/
def decodeBuffer (behind : List UInt8 → Nat → UInt8) (block : List UInt8) : List UInt8 :=
  let text := block.take (16 - (block.getLastD 0).toNat)
  text ++ (List.range' text.length (16 - text.length)).map (behind block)

/-- `Utilities::decode` with that buffer; `none` where it aborts. -/
def decode (aes : Fides.Aes) (behind : List UInt8 → Nat → UInt8) (ciphertext : List UInt8) : Option Str :=
  let block := aes.dec ciphertext
  if Fides.padded block then some (cStr (decodeBuffer behind block)) else none

/-- The padding stays in the buffer, behind the text. -/
def LeavesPadding (behind : List UInt8 → Nat → UInt8) : Prop :=
  ∀ block, Fides.padded block = true → ∀ i, 16 - (block.getLastD 0).toNat ≤ i → i < 16 →
    behind block i = block.getD i 0

/-- A counter through `delCntMap`; `stack` is what the buffer of `encode` held before. -/
def counterCode (aes : Fides.Aes) (behind : List UInt8 → Nat → UInt8) (stack : Nat → UInt8) (kw_counter : UInt32) :
    Option UInt32 := do
  let code ← Fides.encode aes stack (natStr kw_counter.toNat)
  let cnt ← decode aes behind code
  let c ← stoi cnt
  return c.toUInt32

/-- With the padding left there, the buffer holds the whole block. -/
theorem decodeBuffer_eq {behind : List UInt8 → Nat → UInt8} (hb : LeavesPadding behind) {block : List UInt8}
    (hp : Fides.padded block = true) (hl : block.length = 16) : decodeBuffer behind block = block := by
  have hlen : (block.take (16 - (block.getLastD 0).toNat)).length = 16 - (block.getLastD 0).toNat := by
    rw [List.length_take]
    omega
  unfold decodeBuffer
  simp only [hlen]
  set m := 16 - (block.getLastD 0).toNat with hm
  have hrest : (List.range' m (16 - m)).map (behind block) = block.drop m := by
    apply List.ext_getElem
    · rw [List.length_map, List.length_range', List.length_drop, hl]
    · intro i hi hi'
      rw [List.length_map, List.length_range'] at hi
      rw [List.getElem_map, List.getElem_range', Nat.one_mul, hb block hp _ (by omega) (by omega), List.getElem_drop,
        List.getD_eq_getElem _ _ (by omega)]
  rw [hrest, List.take_append_drop]

/-- What was encoded is decoded as if the buffer were the block. -/
theorem decode_enc (aes : Fides.Aes) {behind : List UInt8 → Nat → UInt8} (hb : LeavesPadding behind) {text : Str}
    (h : text.length < 16) : decode aes behind (aes.enc (Fides.pkcs7 text)) = some (cStr (Fides.pkcs7 text)) := by
  have hl := Fides.length_pkcs7 h
  have hp := Fides.padded_pkcs7 h
  unfold decode
  simp only [aes.dec_enc _ hl, if_pos hp, decodeBuffer_eq hb hp hl]

/-! ## Counters -/

/-- A number that is no `int`. -/
theorem stoi_natStr_large {n : Nat} (hn : 2 ^ 31 ≤ n) {rest : Str} (hr : ∀ b ∈ rest.head?, isDigit b = false) :
    stoi (natStr n ++ rest) = none := by
  obtain ⟨b, u, hb, hd⟩ := natStr_append_head (n := n) rest
  have h45 : b ≠ 45 := fun h => by rw [h] at hd; revert hd; decide
  have h43 : b ≠ 43 := fun h => by rw [h] at hd; revert hd; decide
  have hds := takeWhile_natStr_append n rest hr
  rw [hb] at hds
  have hbig : ¬(-2 ^ 31 ≤ (n : Int) ∧ (n : Int) < 2 ^ 31) := by omega
  simp only [stoi, hb, List.dropWhile_cons, not_isSpace_of_isDigit hd, Bool.false_eq_true, if_false,
    List.head?_cons, Option.some_beq_some, Bool.or_false, beq_eq_false_iff_ne.2 h45, beq_eq_false_iff_ne.2 h43,
    hds, natStr_ne_nil, digitsVal_natStr, if_neg hbig]

theorem natStr_nulFree (n : Nat) : NulFree (natStr n) := by
  intro h
  have := isDigit_of_mem_natStr h
  revert this
  decide

theorem length_natStr_counter (c : UInt32) : (natStr c.toNat).length ≤ 10 := by
  have hlt : c.toNat < 10 ^ 10 := c.toNat_lt.trans (by decide)
  have hlen : (natStr c.toNat).length = (Nat.toDigits 10 c.toNat).length := by simp [natStr]
  rw [hlen]
  exact (Nat.length_toDigits_le_iff (by omega) (by omega)).2 hlt

/-- The decoded text is the number with the padding behind it, which is no digit. -/
theorem counterCode_eq (aes : Fides.Aes) {behind : List UInt8 → Nat → UInt8} (hb : LeavesPadding behind)
    (stack : Nat → UInt8) (c : UInt32) :
    counterCode aes behind stack c = if c.toNat < 2 ^ 31 then some c else none := by
  have hw := natStr_nulFree c.toNat
  have hl := length_natStr_counter c
  set k := 16 - (natStr c.toNat).length with hk
  have hbyte : (UInt8.ofNat k).toNat = k := by
    rw [UInt8.toNat_ofNat']
    omega
  have hdigit : isDigit (UInt8.ofNat k) = false := by
    unfold isDigit
    rw [hbyte, Bool.and_eq_false_iff]
    left
    exact decide_eq_false (by omega)
  have hrest : ∀ b ∈ (List.replicate k (UInt8.ofNat k)).head?, isDigit b = false := by
    intro b hb
    rw [(List.mem_replicate.1 (List.mem_of_mem_head? hb)).2]
    exact hdigit
  have hread : counterCode aes behind stack c =
      (stoi (natStr c.toNat ++ List.replicate k (UInt8.ofNat k))).map Int32.toUInt32 := by
    rw [counterCode, Fides.encode_short aes stack hw (by omega), Option.bind_eq_bind, Option.bind_some,
      decode_enc aes hb (by omega), Fides.cStr_pkcs7 hw (by omega), Option.bind_eq_bind, Option.bind_some,
      Option.map_eq_bind]
    rfl
  rw [hread]
  split
  · next hsmall =>
    rw [Fides.stoi_natStr_append hsmall hrest]
    exact congrArg some (UInt32.ofNat_toNat)
  · next hlarge => rw [stoi_natStr_large (by omega) hrest, Option.map_none]

/-! ## The settings with this codec -/

section

variable (aes : Fides.Aes) (behind : List UInt8 → Nat → UInt8) (ins : Prims Block UInt64) (del : Prims Block Block)
  (stack : Nat → UInt8) (usehdd deleteResults : Bool)

/-- Diana with the codec of `Utilities`, on any generator. -/
def utilitiesSetting : Setting Block where
  ins := ins
  del := del
  encode keyword := Block.ofBytes ((Fides.encode aes stack keyword).getD [])
  decode code := decode aes behind code.bytes
  zero := Block.zero
  usehdd := usehdd
  deleteResults := deleteResults

/-- What a search reads of the entry that an insert under a counter wrote. -/
def readCounter (S : Setting Block) (kw_counter : UInt32) : Option UInt32 :=
  parseCnt S (S.encode (natStr kw_counter.toNat))

/-- That is what `counterCode` reads. -/
theorem readCounter_utilities (hlen : ∀ block, (aes.enc block).length = 16) (c : UInt32) :
    readCounter (utilitiesSetting aes behind ins del stack usehdd deleteResults) c =
      counterCode aes behind stack c := by
  have hl := length_natStr_counter c
  simp only [readCounter, parseCnt, counterCode, utilitiesSetting,
    Fides.encode_short aes stack (natStr_nulFree c.toNat) (by omega), Option.getD_some,
    Block.bytes_ofBytes (hlen _)]
  rfl

/-- **The counters of delCntMap.**  On any generator and any build of it, with a cipher that leaves its
padding in the buffer, a counter is read back if and only if it is below `2 ^ 31`, and from there on the
search ends the process.  It does so too at an ind that was never inserted, where the zero block has no
padding. -/
theorem counter_code_iff (hlen : ∀ block, (aes.enc block).length = 16) (hb : LeavesPadding behind)
    (hzero : Fides.padded (aes.dec Block.zero.bytes) = false) (c : UInt32) :
    (readCounter (utilitiesSetting aes behind ins del stack usehdd deleteResults) c = some c ↔ c.toNat < 2 ^ 31) ∧
      (readCounter (utilitiesSetting aes behind ins del stack usehdd deleteResults) c = none ↔ 2 ^ 31 ≤ c.toNat) ∧
      ∀ k, parseCnt (utilitiesSetting aes behind ins del stack usehdd deleteResults)
        ((init (utilitiesSetting aes behind ins del stack usehdd deleteResults)).delCntMap k) = none := by
  have hread : readCounter (utilitiesSetting aes behind ins del stack usehdd deleteResults) c =
      if c.toNat < 2 ^ 31 then some c else none :=
    (readCounter_utilities aes behind ins del stack usehdd deleteResults hlen c).trans
      (counterCode_eq aes hb stack c)
  refine ⟨?_, ?_, fun k => ?_⟩
  · rw [hread]
    constructor
    · intro h
      by_contra hlarge
      rw [if_neg hlarge] at h
      cases h
    · exact fun hsmall => if_pos hsmall
  · rw [hread]
    constructor
    · intro h
      by_contra hsmall
      rw [if_pos (by omega)] at h
      cases h
    · exact fun hlarge => if_neg (by omega)
  · simp only [init, utilitiesSetting, parseCnt, decode, hzero, Bool.false_eq_true, if_false, Option.bind_eq_bind,
      Option.bind_none]

end

/-! ## AES-128 -/

/-- One block of AES-128 in CBC mode under `Utilities::key` and `Utilities::iv`, which are zero. -/
def utilitiesAes : Fides.Aes where
  enc block := (encrypt Block.zero (Block.ofBytes block ^^^ Block.zero)).bytes
  dec block := (decrypt Block.zero (Block.ofBytes block) ^^^ Block.zero).bytes
  dec_enc block h := by
    rw [Block.ofBytes_bytes, decrypt_encrypt, Block.xor_zero, Block.xor_zero, Block.bytes_ofBytes h]

/-- The padding of a text that ends with it. -/
def paddingBehind (block : List UInt8) (i : Nat) : UInt8 := block.getD i 0

theorem paddingBehind_leaves : LeavesPadding paddingBehind := fun _ _ _ _ _ => rfl

theorem utilitiesAes_zero : Fides.padded (utilitiesAes.dec Block.zero.bytes) = false := by
  decide +kernel

/-- The counters 300 and `2 ^ 31`, and an ind without a counter. -/
theorem counter_code_300 :
    let S := utilitiesSetting utilitiesAes paddingBehind (prgPrims Crypto.fips .aesni Block.ofBytes id 8 readIndex)
      (prgPrims Crypto.fips .aesni Block.ofBytes id 16 Block.ofBytes) (fun _ => 7) false true
    readCounter S 300 = some 300 ∧ readCounter S (2 ^ 31) = none ∧
      ∀ k, parseCnt S ((init S).delCntMap k) = none := by
  have h := counter_code_iff utilitiesAes paddingBehind (prgPrims Crypto.fips .aesni Block.ofBytes id 8 readIndex)
    (prgPrims Crypto.fips .aesni Block.ofBytes id 16 Block.ofBytes) (fun _ => 7) false true (fun _ => Block.length_bytes _)
    paddingBehind_leaves utilitiesAes_zero
  exact ⟨(h 300).1.2 (by decide), (h (2 ^ 31)).2.1.2 (by decide), (h 300).2.2⟩

end Sse.Diana
