import Sse.Lib.Aes

/-!
# AES in counter mode with AES-NI

`aesni.cpp` has the counter blocks `iv, iv + 1, ..` encrypted up to eight at a time.  With
the subkeys at hand a lane function only reads them; from the bare key it makes each subkey
between two rounds and throws it away again, and for eight blocks or more the first call
keeps them for the rest.

    KEYEXP_128 is the key schedule of FIPS 197                      (keyexp128_eq)
    aesni_ctr N iv = the N blocks from iv on, encrypted, with
      the subkeys and from the key                                  (aesni_ctr_spec)
-/

namespace Sse.Crypto

open Aes

/-! ## The instructions -/

/-- `_mm_set_epi64x`: least significant byte first. -/
def mmSetEpi64x (hi lo : UInt64) : Block :=
  let word (n : UInt64) : Word := ⟨n.toUInt8, (n >>> 8).toUInt8, (n >>> 16).toUInt8, (n >>> 24).toUInt8⟩
  ⟨word lo, word (lo >>> 32), word hi, word (hi >>> 32)⟩

/-- `_mm_set_epi32`. -/
def mmSetEpi32 (e3 e2 e1 e0 : UInt32) : Block :=
  let word (n : UInt32) : Word := ⟨n.toUInt8, (n >>> 8).toUInt8, (n >>> 16).toUInt8, (n >>> 24).toUInt8⟩
  ⟨word e0, word e1, word e2, word e3⟩

/-- `_mm_shuffle_epi8`. -/
def mmShuffleEpi8 (a mask : Block) : Block :=
  mask.map (Word.map fun m => if m &&& 0x80 = 0 then a.bytes.getD (m &&& 0x0f).toNat 0 else 0)

/-- `_mm_shuffle_epi32`. -/
def mmShuffleEpi32 (a : Block) (imm : UInt8) : Block :=
  let word (i : UInt8) : Word := a.words.getD (imm >>> i &&& 3).toNat Word.zero
  ⟨word 0, word 2, word 4, word 6⟩

/-- `_mm_slli_si128`: a shift by bytes. -/
def mmSlliSi128 (a : Block) (imm : Nat) : Block := Block.ofBytes (List.replicate imm 0 ++ a.bytes)

/-- `_mm_aesenc_si128`. -/
def mmAesencSi128 (a k : Block) : Block := mixColumns (subBytes (shiftRows a)) ^^^ k

/-- `_mm_aesenclast_si128`. -/
def mmAesenclastSi128 (a k : Block) : Block := subBytes (shiftRows a) ^^^ k

theorem mmAesencSi128_eq (a k : Block) : mmAesencSi128 a k = mixColumns (shiftRows (subBytes a)) ^^^ k := by
  rw [mmAesencSi128, subBytes_shiftRows]

theorem mmAesenclastSi128_eq (a k : Block) : mmAesenclastSi128 a k = shiftRows (subBytes a) ^^^ k := by
  rw [mmAesenclastSi128, subBytes_shiftRows]

/-! ## Subkeys -/

def mask : Block := mmSetEpi32 0x0c0f0e0d 0x0c0f0e0d 0x0c0f0e0d 0x0c0f0e0d

/-- `KEYEXP_128`. -/
def keyexp128 (K : Block) (Rcon : UInt32) : Block :=
  let I := mmShuffleEpi8 K mask
  let R := mmSetEpi32 Rcon Rcon Rcon Rcon
  let I := mmAesenclastSi128 I R
  let K := K ^^^ mmSlliSi128 K 4
  let K := K ^^^ mmSlliSi128 K 4
  let K := K ^^^ mmSlliSi128 K 4
  let I := mmShuffleEpi32 I 0xff
  K ^^^ I

/-- `aes_subkeys_type`, as blocks. -/
abbrev Subkeys := Fin 11 → Block

/-- `aesni_derive_subkeys`. -/
def aesniDeriveSubkeys (key : Block) : Subkeys :=
  let K0 := key
  let K1 := keyexp128 K0 0x01
  let K2 := keyexp128 K1 0x02
  let K3 := keyexp128 K2 0x04
  let K4 := keyexp128 K3 0x08
  let K5 := keyexp128 K4 0x10
  let K6 := keyexp128 K5 0x20
  let K7 := keyexp128 K6 0x40
  let K8 := keyexp128 K7 0x80
  let K9 := keyexp128 K8 0x1b
  let K10 := keyexp128 K9 0x36
  ![K0, K1, K2, K3, K4, K5, K6, K7, K8, K9, K10]

theorem mmSlliSi128_four (a : Block) : mmSlliSi128 a 4 = ⟨Word.zero, a.w0, a.w1, a.w2⟩ := rfl

/-- The shuffle leaves the last word, rotated, in every column, so `SHIFTROWS` does nothing. -/
theorem shiftRows_mask (K : Block) : shiftRows (mmShuffleEpi8 K mask) =
    ⟨rotWord K.w3, rotWord K.w3, rotWord K.w3, rotWord K.w3⟩ := by
  rfl

theorem mmSetEpi32_rcon (n : Nat) (hn : n < 10) : mmSetEpi32 (rcon n).toUInt32 (rcon n).toUInt32 (rcon n).toUInt32 (rcon n).toUInt32 =
    ⟨⟨rcon n, 0, 0, 0⟩, ⟨rcon n, 0, 0, 0⟩, ⟨rcon n, 0, 0, 0⟩, ⟨rcon n, 0, 0, 0⟩⟩ := by
  interval_cases n <;> decide

theorem keyexp128_eq (K : Block) {n : Nat} (hn : n < 10) : keyexp128 K (rcon n).toUInt32 = nextKey K (rcon n) := by
  have hI : mmShuffleEpi32 (mmAesenclastSi128 (mmShuffleEpi8 K mask)
      (mmSetEpi32 (rcon n).toUInt32 (rcon n).toUInt32 (rcon n).toUInt32 (rcon n).toUInt32)) 0xff =
      let I := subWord (rotWord K.w3) ^^^ ⟨rcon n, 0, 0, 0⟩
      ⟨I, I, I, I⟩ := by
    rw [mmAesenclastSi128, shiftRows_mask, mmSetEpi32_rcon n hn]
    rfl
  -- three shifted sums put the sum of the words up to `w_i` into word `i`
  simp only [keyexp128, hI, mmSlliSi128_four, Block.xor_def, nextKey, Word.xor_zero]
  simp only [Word.xor_assoc, Word.xor_comm, Word.xor_left_comm, Word.xor_cancel_left]

/-- **The subkeys are the round keys.** -/
theorem aesniDeriveSubkeys_eq (key : Block) : List.ofFn (aesniDeriveSubkeys key) = roundKeys 4 key.words := by
  have e : ∀ n, n < 10 → keyexp128 (roundKey key n) (rcon n).toUInt32 = roundKey key (n + 1) :=
    fun n hn => keyexp128_eq _ hn
  have h0 : keyexp128 key 0x01 = roundKey key 1 := e 0 (by omega)
  have h1 : keyexp128 (roundKey key 1) 0x02 = roundKey key 2 := e 1 (by omega)
  have h2 : keyexp128 (roundKey key 2) 0x04 = roundKey key 3 := e 2 (by omega)
  have h3 : keyexp128 (roundKey key 3) 0x08 = roundKey key 4 := e 3 (by omega)
  have h4 : keyexp128 (roundKey key 4) 0x10 = roundKey key 5 := e 4 (by omega)
  have h5 : keyexp128 (roundKey key 5) 0x20 = roundKey key 6 := e 5 (by omega)
  have h6 : keyexp128 (roundKey key 6) 0x40 = roundKey key 7 := e 6 (by omega)
  have h7 : keyexp128 (roundKey key 7) 0x80 = roundKey key 8 := e 7 (by omega)
  have h8 : keyexp128 (roundKey key 8) 0x1b = roundKey key 9 := e 8 (by omega)
  have h9 : keyexp128 (roundKey key 9) 0x36 = roundKey key 10 := e 9 (by omega)
  rw [roundKeys_four]
  simp only [aesniDeriveSubkeys, h0, h1, h2, h3, h4, h5, h6, h7, h8, h9]
  rfl

/-! ## Lanes -/

/-- `XOR_KEY_n`. -/
def xorKey (K : Block) (states : List Block) : List Block := states.map (· ^^^ K)

/-- `ENCRYPT_ROUND_n`. -/
def encryptRound (K : Block) (states : List Block) : List Block := states.map (mmAesencSi128 · K)

/-- `ENCRYPT_ROUND_LAST_n`. -/
def encryptRoundLast (K : Block) (states : List Block) : List Block := states.map (mmAesenclastSi128 · K)

/-- The body that the lane functions with subkeys share. -/
def encryptLanes (subkeys : Subkeys) (states : List Block) : List Block :=
  let states := xorKey (subkeys 0) states
  let states := encryptRound (subkeys 1) states
  let states := encryptRound (subkeys 2) states
  let states := encryptRound (subkeys 3) states
  let states := encryptRound (subkeys 4) states
  let states := encryptRound (subkeys 5) states
  let states := encryptRound (subkeys 6) states
  let states := encryptRound (subkeys 7) states
  let states := encryptRound (subkeys 8) states
  let states := encryptRound (subkeys 9) states
  encryptRoundLast (subkeys 10) states

/-- `EXP_ENCRYPT_ROUND_n`. -/
def expEncryptRound (Rcon : UInt32) (s : Block × List Block) : Block × List Block :=
  let K := keyexp128 s.1 Rcon
  (K, encryptRound K s.2)

/-- `EXP_ENCRYPT_ROUND_n_LAST`. -/
def expEncryptRoundLast (s : Block × List Block) : Block × List Block :=
  let K := keyexp128 s.1 0x36
  (K, encryptRoundLast K s.2)

/-- The body that the lane functions with a key share. -/
def expEncryptLanes (key : Block) (states : List Block) : List Block :=
  let s := (key, xorKey key states)
  let s := expEncryptRound 0x01 s
  let s := expEncryptRound 0x02 s
  let s := expEncryptRound 0x04 s
  let s := expEncryptRound 0x08 s
  let s := expEncryptRound 0x10 s
  let s := expEncryptRound 0x20 s
  let s := expEncryptRound 0x40 s
  let s := expEncryptRound 0x80 s
  let s := expEncryptRound 0x1b s
  (expEncryptRoundLast s).2

/-- Making the subkeys on the way is reading them. -/
theorem expEncryptLanes_eq (key : Block) (states : List Block) :
    expEncryptLanes key states = encryptLanes (aesniDeriveSubkeys key) states := rfl

/-- The lanes do not mix. -/
theorem encryptLanes_eq (subkeys : Subkeys) (states : List Block) :
    encryptLanes subkeys states = states.map (cipher (List.ofFn subkeys)) := by
  have hlist : List.ofFn subkeys = [subkeys 0, subkeys 1, subkeys 2, subkeys 3, subkeys 4, subkeys 5, subkeys 6,
      subkeys 7, subkeys 8, subkeys 9, subkeys 10] := by
    simp [List.ofFn_succ]
  simp only [encryptLanes, xorKey, encryptRound, encryptRoundLast, List.map_map, hlist]
  apply List.map_congr_left
  intro b _
  rw [cipher, rounds_cons_cons, rounds_cons_cons, rounds_cons_cons, rounds_cons_cons, rounds_cons_cons,
    rounds_cons_cons, rounds_cons_cons, rounds_cons_cons, rounds_cons_cons, rounds]
  simp only [Function.comp_apply, mmAesencSi128_eq, mmAesenclastSi128_eq]

theorem encryptLanes_derive (key : Block) (states : List Block) :
    encryptLanes (aesniDeriveSubkeys key) states = states.map (encrypt key) := by
  rw [encryptLanes_eq, aesniDeriveSubkeys_eq]
  rfl

/-! ## Counter mode -/

/-- The counter blocks from `iv` on, `n` of them. -/
def ctrStates (iv : UInt64) (n : Nat) : List Block := (List.range n).map fun j => mmSetEpi64x 0 (iv + UInt64.ofNat j)

section

variable (iv : UInt64)

def aesniCtr1 (subkeys : Subkeys) : List Block := encryptLanes subkeys [mmSetEpi64x 0 iv]

def aesniCtr2 (subkeys : Subkeys) : List Block :=
  encryptLanes subkeys [mmSetEpi64x 0 iv, mmSetEpi64x 0 (iv + 1)]

def aesniCtr3 (subkeys : Subkeys) : List Block :=
  encryptLanes subkeys [mmSetEpi64x 0 iv, mmSetEpi64x 0 (iv + 1), mmSetEpi64x 0 (iv + 2)]

def aesniCtr4 (subkeys : Subkeys) : List Block :=
  encryptLanes subkeys [mmSetEpi64x 0 iv, mmSetEpi64x 0 (iv + 1), mmSetEpi64x 0 (iv + 2), mmSetEpi64x 0 (iv + 3)]

def aesniCtr5 (subkeys : Subkeys) : List Block :=
  encryptLanes subkeys [mmSetEpi64x 0 iv, mmSetEpi64x 0 (iv + 1), mmSetEpi64x 0 (iv + 2), mmSetEpi64x 0 (iv + 3),
    mmSetEpi64x 0 (iv + 4)]

def aesniCtr6 (subkeys : Subkeys) : List Block :=
  encryptLanes subkeys [mmSetEpi64x 0 iv, mmSetEpi64x 0 (iv + 1), mmSetEpi64x 0 (iv + 2), mmSetEpi64x 0 (iv + 3),
    mmSetEpi64x 0 (iv + 4), mmSetEpi64x 0 (iv + 5)]

def aesniCtr7 (subkeys : Subkeys) : List Block :=
  encryptLanes subkeys [mmSetEpi64x 0 iv, mmSetEpi64x 0 (iv + 1), mmSetEpi64x 0 (iv + 2), mmSetEpi64x 0 (iv + 3),
    mmSetEpi64x 0 (iv + 4), mmSetEpi64x 0 (iv + 5), mmSetEpi64x 0 (iv + 6)]

def aesniCtr8 (subkeys : Subkeys) : List Block :=
  encryptLanes subkeys [mmSetEpi64x 0 iv, mmSetEpi64x 0 (iv + 1), mmSetEpi64x 0 (iv + 2), mmSetEpi64x 0 (iv + 3),
    mmSetEpi64x 0 (iv + 4), mmSetEpi64x 0 (iv + 5), mmSetEpi64x 0 (iv + 6), mmSetEpi64x 0 (iv + 7)]

def aesniCtr1Key (key : Block) : List Block := expEncryptLanes key [mmSetEpi64x 0 iv]

def aesniCtr2Key (key : Block) : List Block :=
  expEncryptLanes key [mmSetEpi64x 0 iv, mmSetEpi64x 0 (iv + 1)]

def aesniCtr3Key (key : Block) : List Block :=
  expEncryptLanes key [mmSetEpi64x 0 iv, mmSetEpi64x 0 (iv + 1), mmSetEpi64x 0 (iv + 2)]

def aesniCtr4Key (key : Block) : List Block :=
  expEncryptLanes key [mmSetEpi64x 0 iv, mmSetEpi64x 0 (iv + 1), mmSetEpi64x 0 (iv + 2), mmSetEpi64x 0 (iv + 3)]

def aesniCtr5Key (key : Block) : List Block :=
  expEncryptLanes key [mmSetEpi64x 0 iv, mmSetEpi64x 0 (iv + 1), mmSetEpi64x 0 (iv + 2), mmSetEpi64x 0 (iv + 3),
    mmSetEpi64x 0 (iv + 4)]

def aesniCtr6Key (key : Block) : List Block :=
  expEncryptLanes key [mmSetEpi64x 0 iv, mmSetEpi64x 0 (iv + 1), mmSetEpi64x 0 (iv + 2), mmSetEpi64x 0 (iv + 3),
    mmSetEpi64x 0 (iv + 4), mmSetEpi64x 0 (iv + 5)]

def aesniCtr7Key (key : Block) : List Block :=
  expEncryptLanes key [mmSetEpi64x 0 iv, mmSetEpi64x 0 (iv + 1), mmSetEpi64x 0 (iv + 2), mmSetEpi64x 0 (iv + 3),
    mmSetEpi64x 0 (iv + 4), mmSetEpi64x 0 (iv + 5), mmSetEpi64x 0 (iv + 6)]

/-- `aesni_ctr_exp8`: eight blocks, and the subkeys that were stored on the way. -/
def aesniCtrExp8 (key : Block) : Subkeys × List Block :=
  let states := [mmSetEpi64x 0 iv, mmSetEpi64x 0 (iv + 1), mmSetEpi64x 0 (iv + 2), mmSetEpi64x 0 (iv + 3),
    mmSetEpi64x 0 (iv + 4), mmSetEpi64x 0 (iv + 5), mmSetEpi64x 0 (iv + 6), mmSetEpi64x 0 (iv + 7)]
  let s0 := (key, xorKey key states)
  let s1 := expEncryptRound 0x01 s0
  let s2 := expEncryptRound 0x02 s1
  let s3 := expEncryptRound 0x04 s2
  let s4 := expEncryptRound 0x08 s3
  let s5 := expEncryptRound 0x10 s4
  let s6 := expEncryptRound 0x20 s5
  let s7 := expEncryptRound 0x40 s6
  let s8 := expEncryptRound 0x80 s7
  let s9 := expEncryptRound 0x1b s8
  let s10 := expEncryptRoundLast s9
  (![s0.1, s1.1, s2.1, s3.1, s4.1, s5.1, s6.1, s7.1, s8.1, s9.1, s10.1], s10.2)

/-- The loop and the `switch` of `aesni_ctr`, with the number of blocks to go and the index `i`. -/
def ctrLoop (subkeys : Subkeys) : Nat → UInt64 → List Block
  | n + 8, i => aesniCtr8 (i + iv) subkeys ++ ctrLoop subkeys n (i + 8)
  | 7, i => aesniCtr7 (i + iv) subkeys
  | 6, i => aesniCtr6 (i + iv) subkeys
  | 5, i => aesniCtr5 (i + iv) subkeys
  | 4, i => aesniCtr4 (i + iv) subkeys
  | 3, i => aesniCtr3 (i + iv) subkeys
  | 2, i => aesniCtr2 (i + iv) subkeys
  | 1, i => aesniCtr1 (i + iv) subkeys
  | 0, _ => []

/-- `aesni_ctr` with subkeys. -/
def aesniCtr (N : Nat) (subkeys : Subkeys) : List Block := ctrLoop iv subkeys N 0

/-- `aesni_ctr` with a key. -/
def aesniCtrKey (key : Block) : Nat → List Block
  | n + 8 =>
    let (subkeys, out) := aesniCtrExp8 iv key
    if 0 < n then out ++ aesniCtr (iv + 8) n subkeys else out
  | 7 => aesniCtr7Key iv key
  | 6 => aesniCtr6Key iv key
  | 5 => aesniCtr5Key iv key
  | 4 => aesniCtr4Key iv key
  | 3 => aesniCtr3Key iv key
  | 2 => aesniCtr2Key iv key
  | 1 => aesniCtr1Key iv key
  | 0 => []

end

theorem aesniCtrExp8_eq (iv : UInt64) (key : Block) :
    aesniCtrExp8 iv key = (aesniDeriveSubkeys key, aesniCtr8 iv (aesniDeriveSubkeys key)) := rfl

theorem ctrStates_add (iv : UInt64) (m n : Nat) :
    ctrStates iv (m + n) = ctrStates iv m ++ ctrStates (iv + UInt64.ofNat m) n := by
  rw [ctrStates, List.range_add, List.map_append, List.map_map]
  congr 1
  apply List.map_congr_left
  intro j _
  rw [Function.comp_apply, UInt64.ofNat_add, UInt64.add_assoc]

theorem encryptLanes_append (subkeys : Subkeys) (l l' : List Block) :
    encryptLanes subkeys (l ++ l') = encryptLanes subkeys l ++ encryptLanes subkeys l' := by
  rw [encryptLanes_eq, encryptLanes_eq, encryptLanes_eq, List.map_append]

theorem aesniCtr8_eq (iv : UInt64) (subkeys : Subkeys) : aesniCtr8 iv subkeys = encryptLanes subkeys (ctrStates iv 8) := by
  simp [ctrStates, List.range_succ, aesniCtr8]

/-- Every lane function encrypts as many counter blocks as it has lanes. -/
theorem ctrLoop_eq (iv : UInt64) (subkeys : Subkeys) (n : Nat) (i : UInt64) :
    ctrLoop iv subkeys n i = encryptLanes subkeys (ctrStates (i + iv) n) := by
  fun_induction ctrLoop iv subkeys n i with
  | case1 n i ih =>
    show _ = encryptLanes subkeys (ctrStates (i + iv) (n + 8))
    rw [ih, Nat.add_comm n 8, ctrStates_add, encryptLanes_append, aesniCtr8_eq]
    congr 3
    ac_rfl
  | case2 i => simp [ctrStates, List.range_succ, aesniCtr7]
  | case3 i => simp [ctrStates, List.range_succ, aesniCtr6]
  | case4 i => simp [ctrStates, List.range_succ, aesniCtr5]
  | case5 i => simp [ctrStates, List.range_succ, aesniCtr4]
  | case6 i => simp [ctrStates, List.range_succ, aesniCtr3]
  | case7 i => simp [ctrStates, List.range_succ, aesniCtr2]
  | case8 i => simp [ctrStates, List.range_succ, aesniCtr1]
  | case9 i => simp [ctrStates, encryptLanes_eq]

theorem aesniCtr_eq (iv : UInt64) (N : Nat) (subkeys : Subkeys) :
    aesniCtr iv N subkeys = encryptLanes subkeys (ctrStates iv N) := by
  rw [aesniCtr, ctrLoop_eq, UInt64.zero_add]

/-- The function with a key does what the one with its subkeys does. -/
theorem aesniCtrKey_eq (iv : UInt64) (key : Block) (N : Nat) :
    aesniCtrKey iv key N = aesniCtr iv N (aesniDeriveSubkeys key) := by
  by_cases hN : 8 ≤ N
  · obtain ⟨n, rfl⟩ := Nat.exists_eq_add_of_le' hN
    simp only [aesniCtrKey, aesniCtrExp8_eq, aesniCtr_eq, aesniCtr8_eq, Nat.add_comm n 8, ctrStates_add,
      encryptLanes_append]
    split
    · rfl
    · next hn =>
      obtain rfl : n = 0 := by omega
      simp [ctrStates, encryptLanes_eq]
  · rw [aesniCtr_eq]
    interval_cases N <;> simp [ctrStates, List.range_succ, aesniCtrKey, encryptLanes_eq, aesniCtr1Key,
      aesniCtr2Key, aesniCtr3Key, aesniCtr4Key, aesniCtr5Key, aesniCtr6Key, aesniCtr7Key, expEncryptLanes_eq]

theorem aesniCtr_derive (iv : UInt64) (key : Block) (N : Nat) :
    aesniCtr iv N (aesniDeriveSubkeys key) = (ctrStates iv N).map (encrypt key) := by
  rw [aesniCtr_eq, encryptLanes_derive]

theorem aesniCtrKey_derive (iv : UInt64) (key : Block) (N : Nat) :
    aesniCtrKey iv key N = (ctrStates iv N).map (encrypt key) := by
  rw [aesniCtrKey_eq, aesniCtr_derive]

/-- **Counter mode.**  Both functions write the encrypted counter blocks, in order. -/
theorem aesni_ctr_spec (iv : UInt64) (key : Block) (N : Nat) :
    aesniCtr iv N (aesniDeriveSubkeys key) = (ctrStates iv N).map (encrypt key) ∧
      aesniCtrKey iv key N = (ctrStates iv N).map (encrypt key) :=
  ⟨aesniCtr_derive iv key N, aesniCtrKey_derive iv key N⟩

end Sse.Crypto
