import Sse.Basic.Bytes

/-!
# Masked entries of a server

Diana and Fides share one pattern, which both have from Sophos: the client counts the
updates of a keyword, and the server stores each under a token made from the count, xored
with a mask.
-/

namespace Sse

/-- Xor with the same mask twice gives the payload back. -/
class LawfulXor (T : Type*) [XorOp T] : Prop where
  xor_cancel : ∀ x m : T, x ^^^ m ^^^ m = x

instance : LawfulXor UInt64 where
  xor_cancel x m := by rw [UInt64.xor_assoc, UInt64.xor_self, UInt64.xor_zero]

/-- Bytewise xor, with a mask that is extended by zeros. -/
instance : XorOp Str := ⟨fun x m => x.mapIdx fun i b => b ^^^ m.getD i 0⟩

instance : LawfulXor Str where
  xor_cancel x m := by
    show (x.mapIdx fun i b => b ^^^ m.getD i 0).mapIdx (fun i b => b ^^^ m.getD i 0) = x
    apply List.ext_getElem?
    intro i
    rw [List.getElem?_mapIdx, List.getElem?_mapIdx]
    cases x[i]? with
    | none => rfl
    | some b =>
      simp only [Option.map_some]
      rw [UInt8.xor_assoc, UInt8.xor_self, UInt8.xor_zero]

instance instXorOpProd {S T : Type*} [XorOp S] [XorOp T] : XorOp (S × T) := ⟨fun x m => (x.1 ^^^ m.1, x.2 ^^^ m.2)⟩

instance {S T : Type*} [XorOp S] [XorOp T] [LawfulXor S] [LawfulXor T] : LawfulXor (S × T) where
  xor_cancel x m := Prod.ext (LawfulXor.xor_cancel x.1 m.1) (LawfulXor.xor_cancel x.2 m.2)

/-- The counter of the next update of a keyword. -/
def nextCnt : Option UInt32 → UInt32
  | some c => c + 1
  | none => 0

section

variable {B T : Type*} [DecidableEq B]

/-- `update` of the servers: `map::insert` keeps an entry that is there, RocksDB overwrites it. -/
def serverUpdate (usehdd : Bool) (edb : B → Option T) (req : B × T) : B → Option T :=
  if usehdd then Function.update edb req.1 (some req.2)
  else match edb req.1 with
    | some _ => edb
    | none => Function.update edb req.1 (some req.2)

/-- An update writes unless the map has an entry already. -/
theorem serverUpdate_eq (usehdd : Bool) (edb : B → Option T) (req : B × T) :
    serverUpdate usehdd edb req =
      if usehdd = true ∨ edb req.1 = none then Function.update edb req.1 (some req.2) else edb := by
  unfold serverUpdate
  cases usehdd with
  | true => simp
  | false => cases edb req.1 <;> simp

end

theorem filterMap_range_getElem? {α : Type*} (l : List α) : (List.range l.length).filterMap (l[·]?) = l := by
  induction l using List.reverseRecOn with
  | nil => rfl
  | append_singleton l a ih =>
    rw [List.length_append, List.length_singleton, List.range_succ, List.filterMap_append]
    have hl : (List.range l.length).filterMap ((l ++ [a])[·]?) = (List.range l.length).filterMap (l[·]?) := by
      apply List.filterMap_congr
      intro i hi
      exact List.getElem?_append_left (List.mem_range.1 hi)
    rw [hl, ih]
    simp

theorem mapM_eq_some_map {α β : Type*} {f : α → Option β} {g : α → β} {l : List α} (h : ∀ x ∈ l, f x = some (g x)) :
    l.mapM f = some (l.map g) := by
  induction l with
  | nil => rfl
  | cons x l ih =>
    rw [List.mapM_cons, h x List.mem_cons_self, ih fun y hy => h y (List.mem_cons_of_mem _ hy)]
    rfl

end Sse
