import Sse.Lib.Aes

/-!
# CBC with padding

A mode over any block cipher, first on blocks, then on bytes: the text is filled up to whole
blocks, by a whole block when it has no open one, and the filling tells its own length.

    unpad 16 (pad 16 l) = some l                                       (unpad_pad)
    cbcDec C iv (cbcEnc C iv ps) = ps                                  (cbcDec_cbcEnc)
    decryptBytes C iv (encryptBytes C iv l) = some l                   (decrypt_encryptBytes)
-/

namespace Cbc

/-! ## Blocks -/

/-- A block cipher under one key, with the sum of two blocks. -/
structure Cipher (B : Type*) where
  enc : B → B
  dec : B → B
  add : B → B → B
  dec_enc : ∀ b, dec (enc b) = b
  add_add : ∀ a b, add (add a b) b = a

section

variable {B : Type*} (C : Cipher B)

def cbcEnc (iv : B) : List B → List B
  | [] => []
  | p :: ps => C.enc (C.add p iv) :: cbcEnc (C.enc (C.add p iv)) ps

def cbcDec (iv : B) : List B → List B
  | [] => []
  | c :: cs => C.add (C.dec c) iv :: cbcDec c cs

@[simp] theorem length_cbcEnc (iv : B) (ps : List B) : (cbcEnc C iv ps).length = ps.length := by
  induction ps generalizing iv with
  | nil => rfl
  | cons p ps ih => simp [cbcEnc, ih]

theorem cbcDec_cbcEnc (iv : B) (ps : List B) : cbcDec C iv (cbcEnc C iv ps) = ps := by
  induction ps generalizing iv with
  | nil => rfl
  | cons p ps ih => rw [cbcEnc, cbcDec, ih, C.dec_enc, C.add_add]

end

/-! ## Padding -/

/-- Fill up to a multiple of `n`, with at least one byte. -/
def pad (n : Nat) (l : List UInt8) : List UInt8 :=
  l ++ List.replicate (n - l.length % n) (UInt8.ofNat (n - l.length % n))

/-- `none` where the last bytes are no filling. -/
def unpad (n : Nat) (l : List UInt8) : Option (List UInt8) :=
  let k := (l.getLastD 0).toNat
  if (1 ≤ k ∧ k ≤ n) ∧ l.drop (l.length - k) = List.replicate k (UInt8.ofNat k) then some (l.take (l.length - k))
  else none

theorem length_pad {n : Nat} (hn : 0 < n) (l : List UInt8) : (pad n l).length = (l.length / n + 1) * n := by
  have hlt := Nat.mod_lt l.length hn
  have hdiv := Nat.div_add_mod l.length n
  rw [pad, List.length_append, List.length_replicate, Nat.add_mul, Nat.one_mul, Nat.mul_comm]
  omega

theorem unpad_pad {n : Nat} (hn : 0 < n) (hn' : n < 256) (l : List UInt8) : unpad n (pad n l) = some l := by
  have hlt := Nat.mod_lt l.length hn
  have hpad : pad n l = l ++ List.replicate (n - l.length % n) (UInt8.ofNat (n - l.length % n)) := rfl
  set k := n - l.length % n with hk
  have hbyte : (UInt8.ofNat k).toNat = k := by
    rw [UInt8.toNat_ofNat']
    omega
  obtain ⟨m, hm⟩ : ∃ m, k = m + 1 := ⟨k - 1, by omega⟩
  have hlast : (pad n l).getLastD 0 = UInt8.ofNat k := by
    rw [hpad, show List.replicate k (UInt8.ofNat k) = List.replicate m (UInt8.ofNat k) ++ [UInt8.ofNat k] by
      rw [hm, List.replicate_succ'], ← List.append_assoc, List.getLastD_concat]
  have hlen : (pad n l).length - k = l.length := by
    rw [hpad, List.length_append, List.length_replicate]
    omega
  have hdrop : (pad n l).drop l.length = List.replicate k (UInt8.ofNat k) := by rw [hpad, List.drop_left]
  have htake : (pad n l).take l.length = l := by rw [hpad, List.take_left]
  unfold unpad
  simp only [hlast, hbyte, hlen, hdrop, htake, and_true]
  rw [if_pos (by omega)]

/-! ## Bytes -/

open Aes

/-- The first `k` blocks of a text. -/
def toBlocks : Nat → List UInt8 → List Block
  | 0, _ => []
  | k + 1, l => Block.ofBytes l :: toBlocks k (l.drop 16)

/-- The bytes of some blocks. -/
def ofBlocks (bs : List Block) : List UInt8 := bs.flatMap Block.bytes

theorem length_ofBlocks (bs : List Block) : (ofBlocks bs).length = 16 * bs.length := by
  induction bs with
  | nil => rfl
  | cons b bs ih =>
    rw [ofBlocks, List.flatMap_cons, List.length_append, Block.length_bytes, List.length_cons]
    rw [ofBlocks] at ih
    omega

@[simp] theorem length_toBlocks (k : Nat) (l : List UInt8) : (toBlocks k l).length = k := by
  induction k generalizing l with
  | zero => rfl
  | succ k ih => rw [toBlocks, List.length_cons, ih]

theorem toBlocks_ofBlocks (bs : List Block) (rest : List UInt8) : toBlocks bs.length (ofBlocks bs ++ rest) = bs := by
  induction bs with
  | nil => rfl
  | cons b bs ih =>
    rw [List.length_cons, toBlocks, ofBlocks, List.flatMap_cons, List.append_assoc,
      Block.ofBytes_append _ (Block.length_bytes b), Block.ofBytes_bytes, List.drop_left' (Block.length_bytes b)]
    exact congrArg _ ih

theorem ofBlocks_toBlocks {k : Nat} {l : List UInt8} (h : l.length = 16 * k) : ofBlocks (toBlocks k l) = l := by
  induction k generalizing l with
  | zero => exact (List.length_eq_zero_iff.1 h).symm
  | succ k ih =>
    have htake : (l.take 16).length = 16 := by
      rw [List.length_take]
      omega
    have hblock : (Block.ofBytes l).bytes = l.take 16 := by
      rw [← Block.bytes_ofBytes htake, ← Block.ofBytes_append (l.drop 16) htake, List.take_append_drop]
    have hrest : ofBlocks (toBlocks k (l.drop 16)) = l.drop 16 := ih (by
      rw [List.length_drop]
      omega)
    rw [toBlocks, ofBlocks, List.flatMap_cons, hblock]
    exact (congrArg _ hrest).trans (List.take_append_drop 16 l)

variable (C : Cipher Block)

def encryptBytes (iv : Block) (plaintext : List UInt8) : List UInt8 :=
  ofBlocks (cbcEnc C iv (toBlocks (plaintext.length / 16 + 1) (pad 16 plaintext)))

/-- What decryption gives before the filling is looked at. -/
def rawBytes (iv : Block) (ciphertext : List UInt8) : List UInt8 :=
  ofBlocks (cbcDec C iv (toBlocks (ciphertext.length / 16) ciphertext))

def decryptBytes (iv : Block) (ciphertext : List UInt8) : Option (List UInt8) := unpad 16 (rawBytes C iv ciphertext)

theorem length_encryptBytes (iv : Block) (plaintext : List UInt8) :
    (encryptBytes C iv plaintext).length = (plaintext.length / 16 + 1) * 16 := by
  rw [encryptBytes, length_ofBlocks, length_cbcEnc, length_toBlocks, Nat.mul_comm]

theorem decrypt_encryptBytes (iv : Block) (plaintext : List UInt8) :
    decryptBytes C iv (encryptBytes C iv plaintext) = some plaintext := by
  have hpad : (pad 16 plaintext).length = 16 * (plaintext.length / 16 + 1) := by
    rw [length_pad (by omega), Nat.mul_comm]
  have hblocks : toBlocks ((encryptBytes C iv plaintext).length / 16) (encryptBytes C iv plaintext) =
      cbcEnc C iv (toBlocks (plaintext.length / 16 + 1) (pad 16 plaintext)) := by
    rw [length_encryptBytes, Nat.mul_div_cancel _ (by omega)]
    have := toBlocks_ofBlocks (cbcEnc C iv (toBlocks (plaintext.length / 16 + 1) (pad 16 plaintext))) []
    rwa [List.append_nil, length_cbcEnc, length_toBlocks] at this
  have hraw : rawBytes C iv (encryptBytes C iv plaintext) = pad 16 plaintext := by
    rw [rawBytes, hblocks, cbcDec_cbcEnc, ofBlocks_toBlocks hpad]
  rw [decryptBytes, hraw, unpad_pad (by omega) (by omega)]

end Cbc
