import Mathlib

/-!
# Bytes, decimal text and fixed-width buffers

The schemes build their map keys and seeds out of raw bytes: a keyword is copied
into a zero-filled buffer and the four bytes of an `int` are laid over part of it.
Values in the maps are decimal text written by `to_string` and read by `stoi`.
This file has those conversions and the facts every scheme uses of them:

    toBytes a = toBytes b → a = b                                  (toBytes_injective)
    readInt (toBytes n ++ rest) = n                                (readInt_toBytes)
    padTo n w = padTo n w' → w = w'   for NUL-free w, w' of at most n bytes (padTo_injective)
    stoi (toStr n) = some n           for every `int` n                  (stoi_toStr)
-/

namespace Sse

/-- `std::string`, as its bytes. -/
abbrev Str := List UInt8

/-! ## The bytes of an `int` -/

/-- `to_bytes` of an `int`: four bytes, least significant first. -/
def toBytes (n : Int32) : List UInt8 :=
  let m := n.toUInt32.toNat
  [m.toUInt8, (m / 256).toUInt8, (m / 65536).toUInt8, (m / 16777216).toUInt8]

@[simp] theorem length_toBytes (n : Int32) : (toBytes n).length = 4 := rfl

theorem toUInt8_eq_iff (a b : Nat) : a.toUInt8 = b.toUInt8 ↔ a % 256 = b % 256 := by
  rw [← UInt8.toNat_inj]
  simp

theorem toBytes_injective {a b : Int32} (h : toBytes a = toBytes b) : a = b := by
  have ha := a.toUInt32.toNat_lt
  have hb := b.toUInt32.toNat_lt
  simp only [toBytes, List.cons.injEq, toUInt8_eq_iff, and_true] at h
  have hn : a.toUInt32.toNat = b.toUInt32.toNat := by omega
  have hu : a.toUInt32 = b.toUInt32 := UInt32.toNat_inj.1 hn
  cases a; cases b
  exact congrArg _ hu

/-- `*(int*) p`: the first four bytes, least significant first. -/
def readInt (l : List UInt8) : Int32 :=
  match l with
  | b0 :: b1 :: b2 :: b3 :: _ =>
    Int32.ofNat (b0.toNat + 256 * b1.toNat + 65536 * b2.toNat + 16777216 * b3.toNat)
  | _ => 0

theorem readInt_toBytes (n : Int32) (rest : List UInt8) : readInt (toBytes n ++ rest) = n := by
  have hn := n.toUInt32.toNat_lt
  have hsum : ∀ m : Nat, m < 2 ^ 32 → m % 256 + 256 * (m / 256 % 256) + 65536 * (m / 65536 % 256) +
      16777216 * (m / 16777216 % 256) = m := by
    intro m hm
    omega
  simp only [toBytes, readInt, List.cons_append, List.nil_append, Nat.toUInt8_eq, UInt8.toNat_ofNat']
  rw [hsum _ hn]
  cases n with
  | ofUInt32 u => simp [Int32.ofNat]

/-! ## Keywords in zero-filled buffers -/

/-- A keyword without a NUL byte. -/
def NulFree (w : Str) : Prop := (0 : UInt8) ∉ w

instance (w : Str) : Decidable (NulFree w) := inferInstanceAs (Decidable (_ ∉ _))

/-- `memset(buf, 0, n)` followed by copying `w` to its front. -/
def padTo (n : Nat) (w : Str) : List UInt8 := (w ++ List.replicate n 0).take n

@[simp] theorem length_padTo (n : Nat) (w : Str) : (padTo n w).length = n := by
  simp [padTo]

theorem padTo_of_le {n : Nat} {w : Str} (h : w.length ≤ n) :
    padTo n w = w ++ List.replicate (n - w.length) 0 := by
  rw [padTo, List.take_append, List.take_of_length_le h, List.take_replicate, Nat.min_eq_left (by omega)]

/-- A shorter buffer is a prefix of a longer one. -/
theorem take_padTo {k n : Nat} (h : k ≤ n) (w : Str) : (padTo n w).take k = padTo k w := by
  apply List.ext_getElem?
  intro i
  simp only [padTo, List.getElem?_take, List.getElem?_append, List.getElem?_replicate]
  split_ifs <;> first | rfl | omega

/-- `res = res.c_str()` of a buffer: its bytes up to the first NUL. -/
def cStr (buf : List UInt8) : Str := buf.takeWhile (· ≠ 0)

/-- A NUL-free keyword is read back from the buffer it was copied into. -/
theorem cStr_padTo {n : Nat} {w : Str} (hw : NulFree w) (hl : w.length ≤ n) : cStr (padTo n w) = w := by
  rw [cStr, padTo_of_le hl, List.takeWhile_append_of_pos]
  · cases n - w.length <;> simp [List.replicate_succ]
  · intro b hb
    have : b ≠ 0 := fun e => hw (e ▸ hb)
    simpa using this

/-- The padded buffer determines a NUL-free keyword that fits into it. -/
theorem padTo_injective {n : Nat} {w w' : Str} (hw : NulFree w) (hw' : NulFree w')
    (hl : w.length ≤ n) (hl' : w'.length ≤ n) (h : padTo n w = padTo n w') : w = w' := by
  rw [← cStr_padTo hw hl, ← cStr_padTo hw' hl', h]

/-! ## Decimal text -/

/-- `to_string` of a non-negative number. -/
def natStr (n : Nat) : Str := (Nat.toDigits 10 n).map fun c => c.toNat.toUInt8

/-- `to_string`. -/
def toStr (n : Int) : Str := if n < 0 then 45 :: natStr n.natAbs else natStr n.natAbs

def isDigit (b : UInt8) : Bool := 48 ≤ b.toNat && b.toNat ≤ 57

def isSpace (b : UInt8) : Bool := b.toNat == 32 || (9 ≤ b.toNat && b.toNat ≤ 13)

/-- Value of a digit string. -/
def digitsVal (s : Str) : Nat := s.foldl (fun a b => 10 * a + (b.toNat - 48)) 0

/-- `std::stoi`: leading blanks, a sign, then as many digits as there are; `none`
where it throws (no digit, or the value does not fit an `int`). -/
def stoi (s : Str) : Option Int32 :=
  let t := s.dropWhile isSpace
  let neg := t.head? == some 45
  let u := if neg || t.head? == some 43 then t.tail else t
  let ds := u.takeWhile isDigit
  let v : Int := if neg then -(digitsVal ds : Int) else digitsVal ds
  if ds = [] then none
  else if -2 ^ 31 ≤ v ∧ v < 2 ^ 31 then some (Int32.ofInt v) else none

theorem toNat_toUInt8_of_isDigit {c : Char} (h : c.isDigit = true) :
    c.toNat.toUInt8.toNat = c.toNat := by
  simp only [Char.isDigit, Bool.and_eq_true, decide_eq_true_eq] at h
  have h57 : c.toNat ≤ 57 := h.2
  simp only [Nat.toUInt8_eq, UInt8.toNat_ofNat']
  omega

theorem isDigit_of_mem_natStr {n : Nat} {b : UInt8} (h : b ∈ natStr n) : isDigit b = true := by
  obtain ⟨c, hc, rfl⟩ := List.mem_map.1 h
  have hd := Nat.isDigit_of_mem_toDigits (by decide) (by decide) hc
  simp only [isDigit, toNat_toUInt8_of_isDigit hd]
  simp only [Char.isDigit, Bool.and_eq_true, decide_eq_true_eq] at hd ⊢
  exact hd

theorem natStr_no_bar (n : Nat) : (124 : UInt8) ∉ natStr n := by
  intro h
  have := isDigit_of_mem_natStr h
  revert this
  decide

theorem natStr_ne_nil (n : Nat) : natStr n ≠ [] := by
  simp [natStr]

theorem digitsVal_natStr (n : Nat) : digitsVal (natStr n) = n := by
  have key : ∀ (l : List Char) (a : Nat), (∀ c ∈ l, c.isDigit = true) →
      (l.map fun c => c.toNat.toUInt8).foldl (fun a b => 10 * a + (b.toNat - 48)) a =
        Nat.ofDigitChars 10 l a := by
    intro l
    induction l with
    | nil => intro a _; rfl
    | cons c l ih =>
      intro a h
      rw [List.map_cons, List.foldl_cons, Nat.ofDigitChars_cons,
        toNat_toUInt8_of_isDigit (h c List.mem_cons_self)]
      exact ih _ fun d hd => h d (List.mem_cons_of_mem _ hd)
  rw [digitsVal, natStr, key _ _ fun c hc => Nat.isDigit_of_mem_toDigits (by decide) (by decide) hc]
  exact Nat.ofDigitChars_ten_toDigits

theorem natStr_injective {m n : Nat} (h : natStr m = natStr n) : m = n := by
  rw [← digitsVal_natStr m, h, digitsVal_natStr]

/-- The digits are read back whatever follows them, as long as it is no digit. -/
theorem takeWhile_natStr_append (n : Nat) (rest : Str) (hr : ∀ b ∈ rest.head?, isDigit b = false) :
    (natStr n ++ rest).takeWhile isDigit = natStr n := by
  rw [List.takeWhile_append_of_pos fun b hb => isDigit_of_mem_natStr hb]
  cases rest with
  | nil => simp
  | cons b rest => simp [hr b (by simp)]

theorem natStr_append_head {n : Nat} (rest : Str) :
    ∃ b u, natStr n ++ rest = b :: u ∧ isDigit b = true := by
  cases h : natStr n with
  | nil => exact absurd h (natStr_ne_nil n)
  | cons b u => exact ⟨b, u ++ rest, rfl, isDigit_of_mem_natStr (by rw [h]; exact List.mem_cons_self)⟩

theorem not_isSpace_of_isDigit {b : UInt8} (h : isDigit b = true) : isSpace b = false := by
  simp only [isDigit, Bool.and_eq_true, decide_eq_true_eq] at h
  simp only [isSpace, Bool.or_eq_false_iff, Bool.and_eq_false_iff, beq_eq_false_iff_ne,
    decide_eq_false_iff_not]
  omega

/-- `stoi` reads the number at the front of a text. -/
theorem stoi_toStr_append (n : Int32) (rest : Str) (hr : ∀ b ∈ rest.head?, isDigit b = false) :
    stoi (toStr n.toInt ++ rest) = some n := by
  have hlo := n.le_toInt
  have hhi := n.toInt_lt
  have hfit : -2 ^ 31 ≤ n.toInt ∧ n.toInt < 2 ^ 31 := ⟨by omega, by omega⟩
  by_cases hneg : n.toInt < 0
  · have e : toStr n.toInt ++ rest = 45 :: (natStr n.toInt.natAbs ++ rest) := by simp [toStr, hneg]
    have hs : isSpace 45 = false := by decide
    simp only [stoi, e, List.dropWhile_cons, hs, Bool.false_eq_true, if_false, List.head?_cons,
      beq_self_eq_true, Bool.true_or, if_true, List.tail_cons, takeWhile_natStr_append _ _ hr,
      natStr_ne_nil, digitsVal_natStr]
    have hv : -((n.toInt.natAbs : Nat) : Int) = n.toInt := by omega
    rw [hv, if_pos hfit, Int32.ofInt_toInt]
  · obtain ⟨b, u, hb, hd⟩ := natStr_append_head (n := n.toInt.natAbs) rest
    have e : toStr n.toInt ++ rest = natStr n.toInt.natAbs ++ rest := by simp [toStr, hneg]
    have h45 : b ≠ 45 := fun h => by rw [h] at hd; revert hd; decide
    have h43 : b ≠ 43 := fun h => by rw [h] at hd; revert hd; decide
    have hds := takeWhile_natStr_append n.toInt.natAbs rest hr
    rw [hb] at hds
    simp only [stoi, e, hb, List.dropWhile_cons, not_isSpace_of_isDigit hd, Bool.false_eq_true,
      if_false, List.head?_cons, Option.some_beq_some, Bool.or_false, beq_eq_false_iff_ne.2 h45,
      beq_eq_false_iff_ne.2 h43, hds, natStr_ne_nil, digitsVal_natStr]
    have hv : ((n.toInt.natAbs : Nat) : Int) = n.toInt := by omega
    rw [hv, if_pos hfit, Int32.ofInt_toInt]

theorem stoi_toStr (n : Int32) : stoi (toStr n.toInt) = some n := by
  simpa using stoi_toStr_append n [] (by simp)

theorem toStr_injective {a b : Int32} (h : toStr a.toInt = toStr b.toInt) : a = b := by
  have ha := stoi_toStr a
  rw [h, stoi_toStr] at ha
  exact (Option.some.inj ha).symm

theorem toStr_ne_nil (n : Int) : toStr n ≠ [] := by
  unfold toStr
  split
  · simp
  · exact natStr_ne_nil _

example : stoi (toStr (-17)) = some (-17) := by decide

/-! ## Counters -/

theorem toInt_ofNat_small {k : Nat} (h : k < 2 ^ 31) : (Int32.ofNat k).toInt = k := by
  rw [Int32.toInt_ofNat_of_lt h]

theorem ofNat_add_one (k : Nat) : Int32.ofNat k + 1 = Int32.ofNat (k + 1) := by
  rw [Int32.ofNat_add]
  rfl

theorem ofNat_sub_one {k : Nat} (h : 0 < k) : Int32.ofNat k - 1 = Int32.ofNat (k - 1) := by
  obtain ⟨m, rfl⟩ : ∃ m, k = m + 1 := ⟨k - 1, by omega⟩
  rw [← ofNat_add_one, Int32.add_sub_cancel, Nat.add_sub_cancel]

theorem ofNat_inj_small {j k : Nat} (hj : j < 2 ^ 31) (hk : k < 2 ^ 31)
    (h : Int32.ofNat j = Int32.ofNat k) : j = k := by
  have := congrArg Int32.toInt h
  rw [toInt_ofNat_small hj, toInt_ofNat_small hk] at this
  omega

theorem ofNat_ne_small {j k : Nat} (hj : j < 2 ^ 31) (hk : k < 2 ^ 31) (h : j ≠ k) : Int32.ofNat j ≠ Int32.ofNat k :=
  fun e => h (ofNat_inj_small hj hk e)

theorem ofNat_pos {k : Nat} (h : k < 2 ^ 31) : (0 : Int32) < Int32.ofNat k ↔ 0 < k := by
  rw [Int32.lt_iff_toInt_lt, toInt_ofNat_small h]
  simp

theorem stoi_slot {k : Nat} (h : k < 2 ^ 31) : stoi (toStr (k : Int)) = some (Int32.ofNat k) := by
  rw [← toInt_ofNat_small h]
  exact stoi_toStr _

/-! ## Entries of lists -/

theorem lt_of_getElem?_eq_some {α : Type*} {l : List α} {i : Nat} {x : α} (h : l[i]? = some x) :
    i < l.length := by
  by_contra hge
  rw [List.getElem?_eq_none (by omega)] at h
  cases h

/-- An element of a list without duplicates has one index. -/
theorem index_unique {α : Type*} {l : List α} (h : l.Nodup) {i j : Nat} {x : α} (hi : l[i]? = some x) (hj : l[j]? = some x) :
    i = j :=
  (List.getElem?_inj (lt_of_getElem?_eq_some hi) h).1 (hi.trans hj.symm)

theorem getElem?_concat_cases {α : Type*} {l : List α} {i : Nat} {x y : α} (h : (l ++ [x])[i]? = some y) :
    l[i]? = some y ∨ (i = l.length ∧ y = x) := by
  rw [List.getElem?_append] at h
  split at h
  · exact Or.inl h
  · rw [List.getElem?_singleton] at h
    split at h
    · exact Or.inr ⟨by omega, (Option.some.inj h).symm⟩
    · cases h

end Sse
