import Sse.Basic.Bytes

/-!
# Block identifiers

A `Bid` is an array of `ID_SIZE` bytes: 16 in Orion, 24 in Horus, so the size is a
parameter.  Orion and Horus build their map keys by laying the bytes of an `int`
over a `Bid` made from a keyword.
-/

namespace Sse

/-- `std::array<byte_t, ID_SIZE> id`. -/
structure Bid (n : Nat) where
  id : List UInt8
  size : id.length = n
deriving DecidableEq

namespace Bid

variable {n : Nat}

instance : LawfulBEq (Bid n) := inferInstance

theorem ext_id {a b : Bid n} (h : a.id = b.id) : a = b := by
  cases a; cases b; cases h; rfl

/-- `Bid()`: all bytes zero. -/
def zero : Bid n := ⟨List.replicate n 0, by simp⟩

/-- `Bid(string)`: the bytes of the string, zero-filled. -/
def ofStr (value : Str) : Bid n := ⟨padTo n value, length_padTo n value⟩

/-- `std::copy` of four bytes to the end of the array. -/
def setEnd (b : Bid n) (arr : List UInt8) (h : arr.length ≤ n) : Bid n :=
  ⟨b.id.take (n - arr.length) ++ arr, by simp [b.size]; omega⟩

/-- `Bid(int)`: the four bytes of the number, zero-filled. -/
def ofInt (value : Int32) : Bid n := ⟨padTo n (toBytes value), length_padTo n _⟩

/-- `bid == 0`: only the first four bytes are compared. -/
def isZero (b : Bid n) : Bool := (b.id.take 4).all (· = 0)

/-! ## The order of the keys of a `map<Bid, _>` -/

instance : LE (Bid n) := ⟨fun a b => a.id ≤ b.id⟩

instance : LT (Bid n) := ⟨fun a b => a.id < b.id⟩

instance : DecidableLT (Bid n) := fun a b => inferInstanceAs (Decidable (a.id < b.id))

instance : Std.IsLinearOrder (Bid n) where
  le_refl a := Std.le_refl a.id
  le_trans a b c h h' := @Std.le_trans _ _ _ a.id b.id c.id h h'
  le_antisymm _ _ h h' := ext_id (Std.le_antisymm h h')
  le_total a b := Std.le_total (a := a.id) (b := b.id)

instance : Std.LawfulOrderLT (Bid n) where
  lt_iff a b := Std.LawfulOrderLT.lt_iff a.id b.id

end Bid

end Sse
