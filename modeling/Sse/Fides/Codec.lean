import Sse.Fides.Search

/-!
# The value codec of Fides

A value `ind|op` goes through `Utilities::encode` before it is masked: the text is copied
into a buffer of 16 bytes, of which only the first 12 are cleared, its length is found with
`strlen`, and it is encrypted as one block with its padding.  `Utilities::decode` scans the
decrypted block for a NUL, so it reads the padding as well; `split` and `stoi` cut that off.

    every buffer gives back (ind, op)  ↔  ind < 10 ^ 9          (codec_round_trip_iff)
-/

namespace Sse.Fides

/-! ## Encode and decode -/

/-- AES-128 in CBC mode on one block, under the fixed key and IV. -/
structure Aes where
  enc : List UInt8 → List UInt8
  dec : List UInt8 → List UInt8
  dec_enc : ∀ block, block.length = 16 → dec (enc block) = block

/-- The block of a text with its PKCS#7 padding. -/
def pkcs7 (text : Str) : List UInt8 :=
  text ++ List.replicate (16 - text.length) (UInt8.ofNat (16 - text.length))

/-- The padding check of `EVP_DecryptFinal_ex`. -/
def padded (block : List UInt8) : Bool :=
  let n := (block.getLastD 0).toNat
  decide (1 ≤ n ∧ n ≤ 16) && block.drop (16 - n) == List.replicate n (UInt8.ofNat n)

/-- `plaintext` in `Utilities::encode`, where `stack` is what its bytes held before. -/
def plaintext (stack : Nat → UInt8) (keyword : Str) : List UInt8 :=
  let written := keyword ++ List.replicate (16 - 4 - keyword.length) 0
  written ++ (List.range' written.length (16 - written.length)).map stack

/-- `Utilities::encode`; `none` where it writes or reads past one of its buffers. -/
def encode (aes : Aes) (stack : Nat → UInt8) (keyword : Str) : Option (List UInt8) :=
  if keyword.length ≤ 16 then
    let text := cStr (plaintext stack keyword)
    -- without a NUL `strlen` runs on behind the buffer
    if text.length < 16 then some (aes.enc (pkcs7 text)) else none
  else none

/-- `Utilities::decode`; `none` where it aborts. -/
def decode (aes : Aes) (ciphertext : List UInt8) : Option Str :=
  let plaintext := aes.dec ciphertext
  if padded plaintext then some (cStr plaintext) else none

/-- The ind and the op of a decoded value, as `searchProcess` reads them. -/
def readTokens (plainValue : Str) : Option (UInt64 × Int32) := do
  let tokens := splitBar plainValue
  let finalPlainValue ← stoi (← tokens[0]?)
  let op ← stoi (← tokens[1]?)
  return (finalPlainValue.toInt64.toUInt64, op)

/-- A value through `encode`, `decode` and the parsing. -/
def roundTrip (aes : Aes) (stack : Nat → UInt8) (ind : UInt64) (op : Bool) : Option (UInt64 × Int32) := do
  let ciphertext ← encode aes stack (valueText ind op)
  let plainValue ← decode aes ciphertext
  readTokens plainValue

/-- The search counts what the parsing reads. -/
theorem readValue_eq {B ST : Type} (S : Setting B ST) (r : B) :
    readValue S r = ((S.decode r).bind readTokens).map fun t => (t.1, 2 * t.2 - 1) := by
  unfold readValue readTokens
  cases S.decode r with
  | none => rfl
  | some plainValue =>
    cases h0 : (splitBar plainValue)[0]? with
    | none => simp [h0]
    | some t0 =>
      cases h1 : stoi t0 with
      | none => simp [h0, h1]
      | some n =>
        cases h2 : (splitBar plainValue)[1]? with
        | none => simp [h0, h2]
        | some t1 => cases h3 : stoi t1 <;> simp [h0, h1, h2, h3]

/-! ## The block -/

theorem length_pkcs7 {text : Str} (h : text.length < 16) : (pkcs7 text).length = 16 := by
  rw [pkcs7, List.length_append, List.length_replicate]
  omega

/-- The padding of a short text passes the check. -/
theorem padded_pkcs7 {text : Str} (h : text.length < 16) : padded (pkcs7 text) = true := by
  have hn : (UInt8.ofNat (16 - text.length)).toNat = 16 - text.length := by
    rw [UInt8.toNat_ofNat']
    omega
  obtain ⟨m, hm⟩ : ∃ m, 16 - text.length = m + 1 := ⟨15 - text.length, by omega⟩
  have hlast : (pkcs7 text).getLastD 0 = UInt8.ofNat (16 - text.length) := by
    rw [pkcs7, hm, List.replicate_succ', ← List.append_assoc, List.getLastD_concat]
  have hdrop : (pkcs7 text).drop (16 - (16 - text.length)) =
      List.replicate (16 - text.length) (UInt8.ofNat (16 - text.length)) := by
    rw [show 16 - (16 - text.length) = text.length by omega, pkcs7, List.drop_left]
  unfold padded
  simp only [hlast, hn, hdrop, beq_self_eq_true, Bool.and_true, decide_eq_true_eq]
  omega

theorem decode_enc (aes : Aes) {text : Str} (h : text.length < 16) :
    decode aes (aes.enc (pkcs7 text)) = some (cStr (pkcs7 text)) := by
  rw [decode, aes.dec_enc _ (length_pkcs7 h), if_pos (padded_pkcs7 h)]

/-! ## The text of a value -/

theorem valueText_nulFree (ind : UInt64) (op : Bool) : NulFree (valueText ind op) := by
  intro h
  rcases List.mem_append.1 h with h | h
  · have := isDigit_of_mem_natStr h
    revert this
    decide
  · revert h
    cases op <;> decide

/-- The text of a value fits the cleared part of the buffer, with a NUL behind it, below `10 ^ 9`. -/
theorem length_valueText (ind : UInt64) (op : Bool) : (valueText ind op).length ≤ 11 ↔ ind.toNat < 10 ^ 9 := by
  have hlen : (valueText ind op).length = (Nat.toDigits 10 ind.toNat).length + 2 := by
    cases op <;> simp [valueText, natStr]
  rw [hlen, ← Nat.length_toDigits_le_iff (by omega) (by omega)]
  omega

theorem cStr_append_zero {w : Str} (hw : NulFree w) (rest : List UInt8) : cStr (w ++ 0 :: rest) = w := by
  rw [cStr, List.takeWhile_append_of_pos]
  · simp
  · intro b hb
    have : b ≠ 0 := fun e => hw (e ▸ hb)
    simpa using this

/-- A short text is encoded as it is. -/
theorem encode_short (aes : Aes) (stack : Nat → UInt8) {w : Str} (hw : NulFree w) (hl : w.length ≤ 11) :
    encode aes stack w = some (aes.enc (pkcs7 w)) := by
  obtain ⟨m, hm⟩ : ∃ m, 16 - 4 - w.length = m + 1 := ⟨11 - w.length, by omega⟩
  have htext : cStr (plaintext stack w) = w := by
    unfold plaintext
    rw [hm, List.replicate_succ]
    simp only [List.append_assoc, List.cons_append]
    exact cStr_append_zero hw _
  unfold encode
  simp only [htext]
  rw [if_pos (by omega), if_pos (by omega)]

/-- The scan of `decode` runs through the padding. -/
theorem cStr_pkcs7 {w : Str} (hw : NulFree w) (hl : w.length < 16) : cStr (pkcs7 w) = pkcs7 w := by
  have hpad : UInt8.ofNat (16 - w.length) ≠ 0 := by
    intro e
    have := congrArg UInt8.toNat e
    rw [UInt8.toNat_ofNat'] at this
    have hz : (0 : UInt8).toNat = 0 := rfl
    omega
  rw [cStr, List.takeWhile_eq_self_iff]
  intro b hb
  have : b ≠ 0 := by
    rcases List.mem_append.1 hb with hb | hb
    · exact fun e => hw (e ▸ hb)
    · rw [(List.mem_replicate.1 hb).2]
      exact hpad
  simpa using this

theorem stoi_natStr_append {n : Nat} (hn : n < 2 ^ 31) {rest : Str} (hr : ∀ b ∈ rest.head?, isDigit b = false) :
    stoi (natStr n ++ rest) = some (Int32.ofNat n) := by
  have hstr : natStr n = toStr (Int32.ofNat n).toInt := by simp [toInt_ofNat_small hn, toStr]
  rw [hstr, stoi_toStr_append _ _ hr]

/-- The padding behind a value is neither a digit nor a bar. -/
theorem readTokens_pkcs7 {ind : UInt64} (op : Bool) (h : ind.toNat < 10 ^ 9) :
    readTokens (pkcs7 (valueText ind op)) = some (ind, if op then 1 else 0) := by
  have hl := (length_valueText ind op).2 h
  have hsmall : ind.toNat < 2 ^ 31 := h.trans (by decide)
  have hmin : 3 ≤ (valueText ind op).length := by
    have := List.length_pos_of_ne_nil (natStr_ne_nil ind.toNat)
    cases op <;> simp [valueText] <;> omega
  set k := 16 - (valueText ind op).length with hk
  have hbyte : (UInt8.ofNat k).toNat = k := by
    rw [UInt8.toNat_ofNat']
    omega
  have hbar : UInt8.ofNat k ≠ 124 := by
    intro e
    have h124 : (124 : UInt8).toNat = 124 := rfl
    rw [e] at hbyte
    omega
  have hdigit : isDigit (UInt8.ofNat k) = false := by
    unfold isDigit
    rw [hbyte, Bool.and_eq_false_iff]
    left
    exact decide_eq_false (by omega)
  have hsplit : splitBar (pkcs7 (valueText ind op)) =
      [natStr ind.toNat, (if op then [49] else [48]) ++ List.replicate k (UInt8.ofNat k)] := by
    unfold splitBar pkcs7 valueText
    rw [List.append_assoc, List.cons_append, List.splitOn_append_cons_of_beq _ _ (by decide),
      List.splitOn_eq_singleton (natStr_no_bar _), List.splitOn_eq_singleton]
    · rfl
    · intro hm
      rcases List.mem_append.1 hm with hm | hm
      · revert hm
        cases op <;> decide
      · exact hbar (List.mem_replicate.1 hm).2.symm
  have hflag : stoi ((if op then [49] else [48]) ++ List.replicate k (UInt8.ofNat k)) =
      some (if op then 1 else 0) := by
    have hrest : ∀ b ∈ (List.replicate k (UInt8.ofNat k)).head?, isDigit b = false := by
      intro b hb
      rw [(List.mem_replicate.1 (List.mem_of_mem_head? hb)).2]
      exact hdigit
    cases op
    · exact stoi_natStr_append (n := 0) (by decide) hrest
    · exact stoi_natStr_append (n := 1) (by decide) hrest
  have hnum : stoi (natStr ind.toNat) = some (Int32.ofNat ind.toNat) := by
    have hnil : ∀ b ∈ ([] : Str).head?, isDigit b = false := fun b hb => nomatch hb
    have hread := stoi_natStr_append hsmall hnil
    rwa [List.append_nil] at hread
  unfold readTokens
  simp only [hsplit, List.getElem?_cons_zero, List.getElem?_cons_succ, Option.bind_eq_bind, Option.bind_some, hnum,
    hflag, Option.pure_def, toUInt64_ofNat_small hsmall, UInt64.ofNat_toNat]

/-! ## The round trip -/

theorem roundTrip_small (aes : Aes) (stack : Nat → UInt8) {ind : UInt64} (op : Bool) (h : ind.toNat < 10 ^ 9) :
    roundTrip aes stack ind op = some (ind, if op then 1 else 0) := by
  have hw := valueText_nulFree ind op
  have hl := (length_valueText ind op).2 h
  rw [roundTrip, encode_short aes stack hw hl, Option.bind_eq_bind, Option.bind_some, decode_enc aes (by omega),
    cStr_pkcs7 hw (by omega), Option.bind_some]
  exact readTokens_pkcs7 op h

/-- From 12 characters on nothing is cleared, and a buffer full of digits has no NUL. -/
theorem encode_long (aes : Aes) {w : Str} (hw : NulFree w) (hl : 12 ≤ w.length) :
    encode aes (fun _ => 53) w = none := by
  unfold encode
  split
  · next h16 =>
    have hzero : 16 - 4 - w.length = 0 := by omega
    have hall : cStr (plaintext (fun _ => 53) w) = plaintext (fun _ => 53) w := by
      rw [cStr, List.takeWhile_eq_self_iff]
      intro b hb
      have hb' : b ∈ w ∨ b = 53 := by
        rw [plaintext, hzero, List.replicate_zero, List.append_nil, List.mem_append, List.mem_map] at hb
        rcases hb with hb | ⟨i, -, rfl⟩
        · exact Or.inl hb
        · exact Or.inr rfl
      have : b ≠ 0 := by
        rcases hb' with hb' | rfl
        · exact fun e => hw (e ▸ hb')
        · decide
      simpa using this
    have hlen : (plaintext (fun _ => 53) w).length = 16 := by
      simp only [plaintext, List.length_append, List.length_replicate, List.length_map, List.length_range']
      omega
    simp only [hall, hlen, Nat.lt_irrefl, if_false]
  · rfl

/-- **The codec gives back an update from every buffer** exactly when its ind has at most nine
digits. -/
theorem codec_round_trip_iff (aes : Aes) (ind : UInt64) (op : Bool) :
    (∀ stack, roundTrip aes stack ind op = some (ind, if op then 1 else 0)) ↔ ind.toNat < 10 ^ 9 := by
  constructor
  · intro h
    by_contra hge
    have hlong : 12 ≤ (valueText ind op).length := by
      have := (length_valueText ind op).not.2 hge
      omega
    have hnone := h fun _ => 53
    rw [roundTrip, encode_long aes (valueText_nulFree ind op) hlong] at hnone
    cases hnone
  · intro h stack
    exact roundTrip_small aes stack op h

/-- A cipher that turns the block around. -/
def turnAround : Aes := ⟨List.reverse, List.reverse, fun block _ => List.reverse_reverse block⟩

/-- With ten digits a digit left behind in the buffer becomes part of the op. -/
theorem roundTrip_ten_digits :
    roundTrip turnAround (fun i => if i = 12 then 53 else 0) 1000000000 true = some (1000000000, 15) ∧
      roundTrip turnAround (fun i => if i = 12 then 53 else 0) 1000000000 true ≠ some (1000000000, 1) := by
  decide +kernel

end Sse.Fides
