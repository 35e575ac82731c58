import Mathlib

/-!
# AES

The block cipher of FIPS 197.  A block is four words, the columns of the state, and a word
is four bytes, each with the lowest address first.  `cipher` runs over a list of round keys,
so one inverse serves every key length; `roundKeys` makes the round keys of a key of `nk`
words.

    invCipher ks (cipher ks b) = b                         (invCipher_cipher)
    roundKeys 4 [K] = K, nextKey K 1, nextKey (..) 2, ..    (roundKeys_four)
-/

namespace Aes

/-! ## Bytes -/

/-- Figure 7: the S-box, row by row. -/
def sboxTable : List (List UInt8) :=
  [[0x63, 0x7c, 0x77, 0x7b, 0xf2, 0x6b, 0x6f, 0xc5, 0x30, 0x01, 0x67, 0x2b, 0xfe, 0xd7, 0xab, 0x76],
    [0xca, 0x82, 0xc9, 0x7d, 0xfa, 0x59, 0x47, 0xf0, 0xad, 0xd4, 0xa2, 0xaf, 0x9c, 0xa4, 0x72, 0xc0],
    [0xb7, 0xfd, 0x93, 0x26, 0x36, 0x3f, 0xf7, 0xcc, 0x34, 0xa5, 0xe5, 0xf1, 0x71, 0xd8, 0x31, 0x15],
    [0x04, 0xc7, 0x23, 0xc3, 0x18, 0x96, 0x05, 0x9a, 0x07, 0x12, 0x80, 0xe2, 0xeb, 0x27, 0xb2, 0x75],
    [0x09, 0x83, 0x2c, 0x1a, 0x1b, 0x6e, 0x5a, 0xa0, 0x52, 0x3b, 0xd6, 0xb3, 0x29, 0xe3, 0x2f, 0x84],
    [0x53, 0xd1, 0x00, 0xed, 0x20, 0xfc, 0xb1, 0x5b, 0x6a, 0xcb, 0xbe, 0x39, 0x4a, 0x4c, 0x58, 0xcf],
    [0xd0, 0xef, 0xaa, 0xfb, 0x43, 0x4d, 0x33, 0x85, 0x45, 0xf9, 0x02, 0x7f, 0x50, 0x3c, 0x9f, 0xa8],
    [0x51, 0xa3, 0x40, 0x8f, 0x92, 0x9d, 0x38, 0xf5, 0xbc, 0xb6, 0xda, 0x21, 0x10, 0xff, 0xf3, 0xd2],
    [0xcd, 0x0c, 0x13, 0xec, 0x5f, 0x97, 0x44, 0x17, 0xc4, 0xa7, 0x7e, 0x3d, 0x64, 0x5d, 0x19, 0x73],
    [0x60, 0x81, 0x4f, 0xdc, 0x22, 0x2a, 0x90, 0x88, 0x46, 0xee, 0xb8, 0x14, 0xde, 0x5e, 0x0b, 0xdb],
    [0xe0, 0x32, 0x3a, 0x0a, 0x49, 0x06, 0x24, 0x5c, 0xc2, 0xd3, 0xac, 0x62, 0x91, 0x95, 0xe4, 0x79],
    [0xe7, 0xc8, 0x37, 0x6d, 0x8d, 0xd5, 0x4e, 0xa9, 0x6c, 0x56, 0xf4, 0xea, 0x65, 0x7a, 0xae, 0x08],
    [0xba, 0x78, 0x25, 0x2e, 0x1c, 0xa6, 0xb4, 0xc6, 0xe8, 0xdd, 0x74, 0x1f, 0x4b, 0xbd, 0x8b, 0x8a],
    [0x70, 0x3e, 0xb5, 0x66, 0x48, 0x03, 0xf6, 0x0e, 0x61, 0x35, 0x57, 0xb9, 0x86, 0xc1, 0x1d, 0x9e],
    [0xe1, 0xf8, 0x98, 0x11, 0x69, 0xd9, 0x8e, 0x94, 0x9b, 0x1e, 0x87, 0xe9, 0xce, 0x55, 0x28, 0xdf],
    [0x8c, 0xa1, 0x89, 0x0d, 0xbf, 0xe6, 0x42, 0x68, 0x41, 0x99, 0x2d, 0x0f, 0xb0, 0x54, 0xbb, 0x16]]

/-- The entry in the row of the first digit and the column of the second. -/
def sbox (b : UInt8) : UInt8 := (sboxTable.getD (b.toNat / 16) []).getD (b.toNat % 16) 0

/-- The byte that `sbox` sends to `b`. -/
def invSbox (b : UInt8) : UInt8 := UInt8.ofNat (sboxTable.flatten.idxOf b)

theorem invSbox_sbox (b : UInt8) : invSbox (sbox b) = b := by
  have h : ∀ n, n < 256 → invSbox (sbox (UInt8.ofNat n)) = UInt8.ofNat n := by decide +kernel
  simpa using h b.toNat b.toNat_lt

theorem xor_left_comm (a b c : UInt8) : a ^^^ (b ^^^ c) = b ^^^ (a ^^^ c) := by
  rw [← UInt8.xor_assoc, UInt8.xor_comm a b, UInt8.xor_assoc]

theorem xor_cancel_left (a b : UInt8) : a ^^^ (a ^^^ b) = b := by
  rw [← UInt8.xor_assoc, UInt8.xor_self, UInt8.zero_xor]

/-- `XTIMES`: the product with `x` in the field of 256 elements. -/
def xtime (b : UInt8) : UInt8 := (b <<< 1) ^^^ (if b &&& 0x80 = 0 then 0 else 0x1b)

theorem top_bit (b : UInt8) : b &&& 0x80 = 0 ∨ b &&& 0x80 = 0x80 := by
  have h : ∀ n, n < 256 → UInt8.ofNat n &&& 0x80 = 0 ∨ UInt8.ofNat n &&& 0x80 = 0x80 := by decide +kernel
  simpa using h b.toNat b.toNat_lt

theorem xtime_xor (a b : UInt8) : xtime (a ^^^ b) = xtime a ^^^ xtime b := by
  have hand : (a ^^^ b) &&& 0x80 = (a &&& 0x80) ^^^ (b &&& 0x80) := by
    apply UInt8.eq_of_toBitVec_eq
    ext i
    simp [Bool.and_xor_distrib_right]
  unfold xtime
  rw [UInt8.shiftLeft_xor, hand]
  -- the carries add up: none, one, or two that cancel
  rcases top_bit a with ha | ha <;> rcases top_bit b with hb | hb <;> rw [ha, hb] <;>
    simp [UInt8.xor_assoc, UInt8.xor_comm, xor_left_comm]

/-- A byte of `MIXCOLUMNS`: the coefficients are 2, 3, 1, 1. -/
def mixByte (a b c d : UInt8) : UInt8 := xtime a ^^^ (xtime b ^^^ b) ^^^ c ^^^ d

def times9 (b : UInt8) : UInt8 := xtime (xtime (xtime b)) ^^^ b

def times11 (b : UInt8) : UInt8 := xtime (xtime (xtime b)) ^^^ xtime b ^^^ b

def times13 (b : UInt8) : UInt8 := xtime (xtime (xtime b)) ^^^ xtime (xtime b) ^^^ b

def times14 (b : UInt8) : UInt8 := xtime (xtime (xtime b)) ^^^ xtime (xtime b) ^^^ xtime b

/-- A byte of `INVMIXCOLUMNS`: the coefficients are 14, 11, 13, 9. -/
def invMixByte (a b c d : UInt8) : UInt8 := times14 a ^^^ times11 b ^^^ times13 c ^^^ times9 d

theorem invMixByte_xor (a b c d a' b' c' d' : UInt8) :
    invMixByte (a ^^^ a') (b ^^^ b') (c ^^^ c') (d ^^^ d') = invMixByte a b c d ^^^ invMixByte a' b' c' d' := by
  simp only [invMixByte, times9, times11, times13, times14, xtime_xor]
  ac_rfl

/-- A row of one matrix times each column of the other. -/
theorem invMixByte_column (a : UInt8) :
    invMixByte (xtime a) a a (xtime a ^^^ a) = a ∧ invMixByte (xtime a ^^^ a) (xtime a) a a = 0 ∧
      invMixByte a (xtime a ^^^ a) (xtime a) a = 0 ∧ invMixByte a a (xtime a ^^^ a) (xtime a) = 0 := by
  simp only [invMixByte, times9, times11, times13, times14, xtime_xor]
  refine ⟨?_, ?_, ?_, ?_⟩ <;>
    simp only [UInt8.xor_comm, xor_left_comm, xor_cancel_left, UInt8.xor_self, UInt8.xor_zero]

theorem invMixByte_mixByte (a b c d : UInt8) :
    invMixByte (mixByte a b c d) (mixByte b c d a) (mixByte c d a b) (mixByte d a b c) = a := by
  obtain ⟨ha, -, -, -⟩ := invMixByte_column a
  obtain ⟨-, hb, -, -⟩ := invMixByte_column b
  obtain ⟨-, -, hc, -⟩ := invMixByte_column c
  obtain ⟨-, -, -, hd⟩ := invMixByte_column d
  have h0 : mixByte a b c d = xtime a ^^^ (xtime b ^^^ b) ^^^ c ^^^ d := rfl
  have h1 : mixByte b c d a = a ^^^ xtime b ^^^ (xtime c ^^^ c) ^^^ d := by unfold mixByte; ac_rfl
  have h2 : mixByte c d a b = a ^^^ b ^^^ xtime c ^^^ (xtime d ^^^ d) := by unfold mixByte; ac_rfl
  have h3 : mixByte d a b c = xtime a ^^^ a ^^^ b ^^^ c ^^^ xtime d := by unfold mixByte; ac_rfl
  rw [h0, h1, h2, h3, invMixByte_xor, invMixByte_xor, invMixByte_xor, ha, hb, hc, hd]
  simp only [UInt8.xor_zero]

/-! ## Words and blocks -/

@[ext] structure Word where
  b0 : UInt8
  b1 : UInt8
  b2 : UInt8
  b3 : UInt8

@[ext] structure Block where
  w0 : Word
  w1 : Word
  w2 : Word
  w3 : Word

namespace Word

instance : DecidableEq Word := fun _ _ => decidable_of_iff _ Word.ext_iff.symm

instance : XorOp Word := ⟨fun v w => ⟨v.b0 ^^^ w.b0, v.b1 ^^^ w.b1, v.b2 ^^^ w.b2, v.b3 ^^^ w.b3⟩⟩

def zero : Word := ⟨0, 0, 0, 0⟩

def map (f : UInt8 → UInt8) (w : Word) : Word := ⟨f w.b0, f w.b1, f w.b2, f w.b3⟩

def bytes (w : Word) : List UInt8 := [w.b0, w.b1, w.b2, w.b3]

theorem xor_def (v w : Word) : v ^^^ w = ⟨v.b0 ^^^ w.b0, v.b1 ^^^ w.b1, v.b2 ^^^ w.b2, v.b3 ^^^ w.b3⟩ := rfl

theorem xor_assoc (u v w : Word) : u ^^^ v ^^^ w = u ^^^ (v ^^^ w) := by simp [xor_def, UInt8.xor_assoc]

theorem xor_comm (v w : Word) : v ^^^ w = w ^^^ v := by simp [xor_def, UInt8.xor_comm]

@[simp] theorem xor_zero (w : Word) : w ^^^ zero = w := by simp [xor_def, zero]

@[simp] theorem xor_self (w : Word) : w ^^^ w = zero := by simp [xor_def, zero]

@[simp] theorem zero_xor (w : Word) : zero ^^^ w = w := by rw [xor_comm, xor_zero]

theorem xor_left_comm (u v w : Word) : u ^^^ (v ^^^ w) = v ^^^ (u ^^^ w) := by
  rw [← xor_assoc, xor_comm u, xor_assoc]

theorem xor_cancel_left (v w : Word) : v ^^^ (v ^^^ w) = w := by rw [← xor_assoc, xor_self, zero_xor]

end Word

namespace Block

instance : DecidableEq Block := fun _ _ => decidable_of_iff _ Block.ext_iff.symm

instance : XorOp Block := ⟨fun a b => ⟨a.w0 ^^^ b.w0, a.w1 ^^^ b.w1, a.w2 ^^^ b.w2, a.w3 ^^^ b.w3⟩⟩

def zero : Block := ⟨Word.zero, Word.zero, Word.zero, Word.zero⟩

def map (f : Word → Word) (b : Block) : Block := ⟨f b.w0, f b.w1, f b.w2, f b.w3⟩

def bytes (b : Block) : List UInt8 := b.w0.bytes ++ b.w1.bytes ++ b.w2.bytes ++ b.w3.bytes

theorem xor_def (a b : Block) : a ^^^ b = ⟨a.w0 ^^^ b.w0, a.w1 ^^^ b.w1, a.w2 ^^^ b.w2, a.w3 ^^^ b.w3⟩ := rfl

theorem xor_assoc (a b c : Block) : a ^^^ b ^^^ c = a ^^^ (b ^^^ c) := by simp [xor_def, Word.xor_assoc]

@[simp] theorem xor_zero (b : Block) : b ^^^ zero = b := by simp [xor_def, zero]

@[simp] theorem xor_self (b : Block) : b ^^^ b = zero := by simp [xor_def, zero]

/-- Adding a key twice. -/
theorem xor_xor_cancel (b k : Block) : b ^^^ k ^^^ k = b := by rw [xor_assoc, xor_self, xor_zero]

@[simp] theorem length_bytes (b : Block) : b.bytes.length = 16 := rfl

/-- The block in the first 16 bytes. -/
def ofBytes (l : List UInt8) : Block :=
  let word (i : Nat) : Word := ⟨l.getD i 0, l.getD (i + 1) 0, l.getD (i + 2) 0, l.getD (i + 3) 0⟩
  ⟨word 0, word 4, word 8, word 12⟩

@[simp] theorem ofBytes_bytes (b : Block) : ofBytes b.bytes = b := rfl

theorem bytes_ofBytes {l : List UInt8} (h : l.length = 16) : (ofBytes l).bytes = l := by
  apply List.ext_getElem (by rw [length_bytes, h])
  intro i h1 h2
  rw [length_bytes] at h1
  interval_cases i <;> simp [bytes, Word.bytes, ofBytes, h]

theorem ofBytes_append {l : List UInt8} (m : List UInt8) (h : l.length = 16) : ofBytes (l ++ m) = ofBytes l := by
  rw [← bytes_ofBytes h, ofBytes_bytes]
  rfl

end Block

/-! ## The cipher -/

section

variable (b : Block)

/-- `SUBBYTES`. -/
def subBytes : Block := b.map (Word.map sbox)

/-- `SHIFTROWS`: byte `r` of a column comes from `r` columns on. -/
def shiftRows : Block :=
  ⟨⟨b.w0.b0, b.w1.b1, b.w2.b2, b.w3.b3⟩, ⟨b.w1.b0, b.w2.b1, b.w3.b2, b.w0.b3⟩,
    ⟨b.w2.b0, b.w3.b1, b.w0.b2, b.w1.b3⟩, ⟨b.w3.b0, b.w0.b1, b.w1.b2, b.w2.b3⟩⟩

def mixColumn (w : Word) : Word :=
  ⟨mixByte w.b0 w.b1 w.b2 w.b3, mixByte w.b1 w.b2 w.b3 w.b0, mixByte w.b2 w.b3 w.b0 w.b1, mixByte w.b3 w.b0 w.b1 w.b2⟩

/-- `MIXCOLUMNS`. -/
def mixColumns : Block := b.map mixColumn

/-- `INVSUBBYTES`. -/
def invSubBytes : Block := b.map (Word.map invSbox)

/-- `INVSHIFTROWS`. -/
def invShiftRows : Block :=
  ⟨⟨b.w0.b0, b.w3.b1, b.w2.b2, b.w1.b3⟩, ⟨b.w1.b0, b.w0.b1, b.w3.b2, b.w2.b3⟩,
    ⟨b.w2.b0, b.w1.b1, b.w0.b2, b.w3.b3⟩, ⟨b.w3.b0, b.w2.b1, b.w1.b2, b.w0.b3⟩⟩

def invMixColumn (w : Word) : Word :=
  ⟨invMixByte w.b0 w.b1 w.b2 w.b3, invMixByte w.b1 w.b2 w.b3 w.b0, invMixByte w.b2 w.b3 w.b0 w.b1,
    invMixByte w.b3 w.b0 w.b1 w.b2⟩

/-- `INVMIXCOLUMNS`. -/
def invMixColumns : Block := b.map invMixColumn

@[simp] theorem invSubBytes_subBytes : invSubBytes (subBytes b) = b := by
  simp [invSubBytes, subBytes, Block.map, Word.map, invSbox_sbox]

@[simp] theorem invShiftRows_shiftRows : invShiftRows (shiftRows b) = b := rfl

@[simp] theorem invMixColumns_mixColumns : invMixColumns (mixColumns b) = b := by
  simp [invMixColumns, mixColumns, Block.map, invMixColumn, mixColumn, invMixByte_mixByte]

/-- The order of the two steps does not matter. -/
theorem subBytes_shiftRows : subBytes (shiftRows b) = shiftRows (subBytes b) := rfl

end

/-- The rounds after the first round key; the last one leaves `MIXCOLUMNS` out. -/
def rounds : List Block → Block → Block
  | [], b => b
  | [k], b => shiftRows (subBytes b) ^^^ k
  | k :: ks, b => rounds ks (mixColumns (shiftRows (subBytes b)) ^^^ k)

theorem rounds_cons_cons (k k' : Block) (ks : List Block) (b : Block) :
    rounds (k :: k' :: ks) b = rounds (k' :: ks) (mixColumns (shiftRows (subBytes b)) ^^^ k) := by
  rw [rounds]
  simp

/-- `CIPHER`. -/
def cipher : List Block → Block → Block
  | [], b => b
  | k :: ks, b => rounds ks (b ^^^ k)

def invRounds : List Block → Block → Block
  | [], b => b
  | [k], b => invSubBytes (invShiftRows (b ^^^ k))
  | k :: ks, b => invSubBytes (invShiftRows (invMixColumns (invRounds ks b ^^^ k)))

/-- `INVCIPHER`, on the round keys in the order of `cipher`. -/
def invCipher : List Block → Block → Block
  | [], b => b
  | k :: ks, b => invRounds ks b ^^^ k

theorem invRounds_rounds (ks : List Block) (b : Block) : invRounds ks (rounds ks b) = b := by
  fun_induction rounds ks b with
  | case1 b => rfl
  | case2 k b => rw [invRounds, Block.xor_xor_cancel, invShiftRows_shiftRows, invSubBytes_subBytes]
  | case3 k ks b hks ih =>
    rw [invRounds, ih, Block.xor_xor_cancel, invMixColumns_mixColumns, invShiftRows_shiftRows, invSubBytes_subBytes]
    exact hks

/-- **Decryption.** -/
theorem invCipher_cipher (ks : List Block) (b : Block) : invCipher ks (cipher ks b) = b := by
  cases ks with
  | nil => rfl
  | cons k ks => rw [cipher, invCipher, invRounds_rounds, Block.xor_xor_cancel]

/-! ## The key -/

/-- The round constant `Rcon[n + 1]`. -/
def rcon : Nat → UInt8
  | 0 => 1
  | n + 1 => xtime (rcon n)

def subWord (w : Word) : Word := w.map sbox

def rotWord (w : Word) : Word := ⟨w.b1, w.b2, w.b3, w.b0⟩

/-- `KEYEXPANSION`: the word after the words `ws`. -/
def nextWord (nk : Nat) (ws : List Word) : Word :=
  let i := ws.length
  let temp := ws.getD (i - 1) Word.zero
  let temp :=
    if i % nk = 0 then subWord (rotWord temp) ^^^ ⟨rcon (i / nk - 1), 0, 0, 0⟩
    else if 6 < nk ∧ i % nk = 4 then subWord temp
    else temp
  ws.getD (i - nk) Word.zero ^^^ temp

/-- The words of a key and `n` more. -/
def expand (nk : Nat) (key : List Word) : Nat → List Word
  | 0 => key
  | n + 1 => expand nk key n ++ [nextWord nk (expand nk key n)]

def toBlocks : List Word → List Block
  | w0 :: w1 :: w2 :: w3 :: ws => ⟨w0, w1, w2, w3⟩ :: toBlocks ws
  | _ => []

/-- The round keys of a key of `nk` words, for `nk + 6` rounds. -/
def roundKeys (nk : Nat) (key : List Word) : List Block := toBlocks (expand nk key (4 * (nk + 7) - nk))

namespace Block

def words (b : Block) : List Word := [b.w0, b.w1, b.w2, b.w3]

end Block

/-- The next round key of a key of four words. -/
def nextKey (K : Block) (rc : UInt8) : Block :=
  let w0 := K.w0 ^^^ (subWord (rotWord K.w3) ^^^ ⟨rc, 0, 0, 0⟩)
  let w1 := K.w1 ^^^ w0
  let w2 := K.w2 ^^^ w1
  ⟨w0, w1, w2, K.w3 ^^^ w2⟩

/-- Round key `n`. -/
def roundKey (K : Block) : Nat → Block
  | 0 => K
  | n + 1 => nextKey (roundKey K n) (rcon n)

theorem nextWord_four (ws : List Word) (w0 w1 w2 w3 : Word) :
    nextWord 4 (ws ++ [w0, w1, w2, w3]) = w0 ^^^
      if ws.length % 4 = 0 then subWord (rotWord w3) ^^^ ⟨rcon (ws.length / 4), 0, 0, 0⟩ else w3 := by
  have hlast : (ws ++ [w0, w1, w2, w3]).getD (ws.length + 4 - 1) Word.zero = w3 := by
    rw [List.getD_append_right _ _ _ _ (by omega), show ws.length + 4 - 1 - ws.length = 3 by omega]
    rfl
  have hfirst : (ws ++ [w0, w1, w2, w3]).getD (ws.length + 4 - 4) Word.zero = w0 := by
    rw [Nat.add_sub_cancel, List.getD_append_right _ _ _ _ (le_refl _), Nat.sub_self]
    rfl
  have hlen : (ws ++ [w0, w1, w2, w3]).length = ws.length + 4 := by simp
  simp only [nextWord, hlen, hlast, hfirst, Nat.add_mod_right]
  rw [show (ws.length + 4) / 4 - 1 = ws.length / 4 by omega]
  simp

/-- Four steps from a whole round key make the next one. -/
theorem expand_nextKey {key ws : List Word} {K : Block} {n m : Nat} (h : expand 4 key n = ws ++ K.words)
    (hws : ws.length = 4 * m) : expand 4 key (n + 4) = ws ++ K.words ++ (nextKey K (rcon m)).words := by
  set K' := nextKey K (rcon m) with hK'
  have h0 : nextWord 4 (ws ++ [K.w0, K.w1, K.w2, K.w3]) = K'.w0 := by
    rw [nextWord_four, if_pos (by omega), hws, Nat.mul_div_cancel_left _ (by omega)]
    rfl
  have h1 : nextWord 4 (ws ++ [K.w0] ++ [K.w1, K.w2, K.w3, K'.w0]) = K'.w1 := by
    rw [nextWord_four, if_neg (by simp only [List.length_append, List.length_singleton]; omega)]
    rfl
  have h2 : nextWord 4 (ws ++ [K.w0, K.w1] ++ [K.w2, K.w3, K'.w0, K'.w1]) = K'.w2 := by
    rw [nextWord_four, if_neg (by simp only [List.length_append, List.length_cons, List.length_nil]; omega)]
    rfl
  have h3 : nextWord 4 (ws ++ [K.w0, K.w1, K.w2] ++ [K.w3, K'.w0, K'.w1, K'.w2]) = K'.w3 := by
    rw [nextWord_four, if_neg (by simp only [List.length_append, List.length_cons, List.length_nil]; omega)]
    rfl
  have e1 : expand 4 key (n + 1) = ws ++ [K.w0] ++ [K.w1, K.w2, K.w3, K'.w0] := by
    rw [expand, h, Block.words, h0]
    simp
  have e2 : expand 4 key (n + 2) = ws ++ [K.w0, K.w1] ++ [K.w2, K.w3, K'.w0, K'.w1] := by
    rw [expand, e1, h1]
    simp
  have e3 : expand 4 key (n + 3) = ws ++ [K.w0, K.w1, K.w2] ++ [K.w3, K'.w0, K'.w1, K'.w2] := by
    rw [expand, e2, h2]
    simp
  rw [expand, e3, h3]
  simp [Block.words]

/-- The words of a schedule are those of the round keys. -/
theorem expand_roundKey (K : Block) (n : Nat) :
    expand 4 K.words (4 * n) = (List.range (n + 1)).flatMap fun r => (roundKey K r).words := by
  induction n with
  | zero => simp [expand, roundKey]
  | succ n ih =>
    rw [List.range_succ, List.flatMap_append, List.flatMap_singleton] at ih
    have hlen : ((List.range n).flatMap fun r => (roundKey K r).words).length = 4 * n := by
      simp [List.length_flatMap, Block.words, Nat.mul_comm]
    rw [Nat.mul_succ, expand_nextKey ih hlen, List.range_succ, List.range_succ, List.flatMap_append,
      List.flatMap_append, List.flatMap_singleton, List.flatMap_singleton]
    rfl

theorem toBlocks_words (l : List Block) : toBlocks (l.flatMap Block.words) = l := by
  induction l with
  | nil => rfl
  | cons b l ih =>
    rw [List.flatMap_cons]
    show b :: toBlocks (l.flatMap Block.words) = b :: l
    rw [ih]

/-- **The round keys of a key of four words.** -/
theorem roundKeys_four (K : Block) : roundKeys 4 K.words = (List.range 11).map (roundKey K) := by
  rw [roundKeys, show 4 * (4 + 7) - 4 = 4 * 10 by rfl, expand_roundKey, ← List.flatMap_map, toBlocks_words]

/-- A block under a key of four words. -/
def encrypt (K b : Block) : Block := cipher (roundKeys 4 K.words) b

def decrypt (K b : Block) : Block := invCipher (roundKeys 4 K.words) b

theorem decrypt_encrypt (K b : Block) : decrypt K (encrypt K b) = b := invCipher_cipher _ b

/-- The example of Appendix B. -/
example :
    (encrypt
      (Block.ofBytes [0x2b, 0x7e, 0x15, 0x16, 0x28, 0xae, 0xd2, 0xa6, 0xab, 0xf7, 0x15, 0x88, 0x09, 0xcf, 0x4f, 0x3c])
      (Block.ofBytes [0x32, 0x43, 0xf6, 0xa8, 0x88, 0x5a, 0x30, 0x8d, 0x31, 0x31, 0x98, 0xa2, 0xe0, 0x37, 0x07, 0x34])).bytes =
    [0x39, 0x25, 0x84, 0x1d, 0x02, 0xdc, 0x09, 0xfb, 0xdc, 0x11, 0x85, 0x97, 0x19, 0x6a, 0x0b, 0x32] := by
  decide +kernel

end Aes
