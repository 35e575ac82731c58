import Sse.Diana.Core
import Sse.Diana.Words

/-!
# The naive search of the Diana server

`search_simple` walks from the root to every leaf with `derive_node`, for as many leaves as
`1 << depth` says.  The shift is one of `int`: it is right up to depth 30, gives the lowest
`int` at depth 31, which is a count of 2 ^ 64 - 2 ^ 31 leaves, and has no value from depth 32 on.

    search_simple = search  ↔  every token is at most 30 high, or 31 high over no entry
                                                                       (search_simple_iff)
-/

namespace Sse.Diana

section

variable {B T : Type*} [XorOp T] (P : Prims B T)

/-- `uint64_t count = 1 << depth`; `none` where the shift of an `int` is undefined. -/
def leafCount (depth : Nat) : Option UInt64 :=
  if depth < 32 then some ((1 : Int32) <<< Int32.ofNat depth).toInt64.toUInt64 else none

/-- The leaves `search_simple` derives from one token, in order. -/
def simpleKeys (e : B × Nat) : Option (List B) :=
  (leafCount e.2).map fun count =>
    (List.range count.toNat).map fun i => deriveNode64 P.derive e.1 (UInt64.ofNat i) (UInt8.ofNat e.2)

/-- The leaves of all tokens of a request. -/
def allSimpleKeys : List (B × Nat) → Option (List B)
  | [] => some []
  | e :: es => do
    let keys ← simpleKeys P e
    let rest ← allSimpleKeys es
    some (keys ++ rest)

/-- `DianaServer::search_simple`. -/
def searchSimple [DecidableEq B] (delete_results : Bool) (edb : B → Option T) (req : SearchRequest B) :
    Option ((B → Option T) × List T) :=
  (allSimpleKeys P req.token_list).map (searchKeys P delete_results edb)

end

/-! ## The shift -/

theorem leafCount_small {d : Nat} (hd : d ≤ 30) : leafCount d = some (UInt64.ofNat (2 ^ d)) := by
  have h : ∀ d < 31, leafCount d = some (UInt64.ofNat (2 ^ d)) := by decide
  exact h d (by omega)

theorem leafCount_31 : leafCount 31 = some (UInt64.ofNat (2 ^ 64 - 2 ^ 31)) := by decide

theorem leafCount_large {d : Nat} (hd : 32 ≤ d) : leafCount d = none := if_neg (by omega)

/-! ## One token -/

section

variable {B T : Type*} [XorOp T] {P : Prims B T}

omit [XorOp T] in
theorem simpleKeys_small (hs : Splits P.derive P.derive32) (K : B) {d : Nat} (hd : d ≤ 30) :
    simpleKeys P (K, d) = some (deriveAllLeaves P.derive32 K d) := by
  have hlt : 2 ^ d < 2 ^ 64 := Nat.pow_lt_pow_right (by omega) (by omega)
  have hcount : (UInt64.ofNat (2 ^ d)).toNat = 2 ^ d := by rw [UInt64.toNat_ofNat', Nat.mod_eq_of_lt hlt]
  rw [simpleKeys, leafCount_small hd, Option.map_some, hcount, deriveAllLeaves_eq hs]
  congr 1
  apply List.map_congr_left
  intro i hi
  exact deriveNode64_ofNat K (by omega) (List.mem_range.1 hi)

omit [XorOp T] in
/-- The bits from 31 up fall out of the mask. -/
theorem deriveNode64_mod (K : B) {i : Nat} (hi : i < 2 ^ 64) :
    deriveNode64 P.derive K (UInt64.ofNat i) (UInt8.ofNat 31) = deriveNode P.derive K (i % 2 ^ 31) 31 := by
  have hdepth : (UInt8.ofNat 31).toNat = 31 := rfl
  rw [deriveNode64_eq _ _ (by omega), hdepth, UInt64.toNat_ofNat', Nat.mod_eq_of_lt hi]
  apply deriveNode_congr
  intro b hb
  rw [Nat.testBit_mod_two_pow, decide_eq_true hb, Bool.true_and]

omit [XorOp T] in
/-- At depth 31 the walk goes on after the last leaf, over the same leaves again. -/
theorem simpleKeys_31 (hs : Splits P.derive P.derive32) (K : B) :
    ∃ again, simpleKeys P (K, 31) = some (deriveAllLeaves P.derive32 K 31 ++ again) ∧
      ∀ key, key ∈ again ↔ key ∈ deriveAllLeaves P.derive32 K 31 := by
  have hcount : (UInt64.ofNat (2 ^ 64 - 2 ^ 31)).toNat = 2 ^ 31 + (2 ^ 64 - 2 ^ 32) := by
    rw [UInt64.toNat_ofNat']
    omega
  have hfirst : (List.range (2 ^ 31)).map (fun i => deriveNode64 P.derive K (UInt64.ofNat i) (UInt8.ofNat 31)) =
      (List.range (2 ^ 31)).map (deriveNode P.derive K · 31) := by
    apply List.map_congr_left
    intro i hi
    exact deriveNode64_ofNat K (by omega) (List.mem_range.1 hi)
  refine ⟨(List.range (2 ^ 64 - 2 ^ 32)).map fun i =>
    deriveNode64 P.derive K (UInt64.ofNat (2 ^ 31 + i)) (UInt8.ofNat 31), ?_, ?_⟩
  · rw [simpleKeys, leafCount_31, Option.map_some, hcount, List.range_add, List.map_append, hfirst, List.map_map,
      deriveAllLeaves_eq hs]
    rfl
  · intro key
    rw [deriveAllLeaves_eq hs]
    simp only [List.mem_map, List.mem_range]
    constructor
    · rintro ⟨i, hi, rfl⟩
      exact ⟨(2 ^ 31 + i) % 2 ^ 31, Nat.mod_lt _ (by omega), (deriveNode64_mod K (by omega)).symm⟩
    · rintro ⟨i, hi, rfl⟩
      refine ⟨i, by omega, ?_⟩
      rw [deriveNode64_mod K (by omega), Nat.add_mod_left, Nat.mod_eq_of_lt hi]

/-- A token over which the naive walk is right. -/
def Counted (P : Prims B T) (edb : B → Option T) (e : B × Nat) : Prop :=
  e.2 ≤ 30 ∨ (e.2 = 31 ∧ ∀ key ∈ deriveAllLeaves P.derive32 e.1 e.2, edb (P.derive key false) = none)

theorem found_eq_none {edb : B → Option T} {key : B} : found P edb key = none ↔ edb (P.derive key false) = none := by
  rw [found, Option.map_eq_none_iff]

/-- **One token**: the naive walk finds what there is, and more unless the token is `Counted`. -/
theorem simpleKeys_spec (hs : Splits P.derive P.derive32) (edb : B → Option T) {e : B × Nat} (he : e.2 ≤ 31) :
    ∃ keys extra, simpleKeys P e = some keys ∧
      keys.filterMap (found P edb) = (deriveAllLeaves P.derive32 e.1 e.2).filterMap (found P edb) ++ extra ∧
      (extra = [] ↔ Counted P edb e) := by
  obtain ⟨K, d⟩ := e
  by_cases hd : d ≤ 30
  · refine ⟨_, [], simpleKeys_small hs K hd, (List.append_nil _).symm, ?_⟩
    exact ⟨fun _ => Or.inl hd, fun _ => rfl⟩
  · obtain rfl : d = 31 := by
      have : d ≤ 31 := he
      omega
    obtain ⟨again, hk, hmem⟩ := simpleKeys_31 hs K
    refine ⟨_, _, hk, List.filterMap_append, ?_⟩
    rw [List.filterMap_eq_nil_iff]
    constructor
    · intro h
      exact Or.inr ⟨rfl, fun key hkey => found_eq_none.1 (h key ((hmem key).2 hkey))⟩
    · rintro (h | ⟨-, h⟩) key hkey
      · exact absurd h hd
      · exact found_eq_none.2 (h key ((hmem key).1 hkey))

/-! ## The request -/

/-- Nothing that the walk over the whole request finds makes up for what it finds too often. -/
theorem allSimpleKeys_spec (hs : Splits P.derive P.derive32) (edb : B → Option T) {es : List (B × Nat)}
    (he : ∀ e ∈ es, e.2 ≤ 31) :
    ∃ keys, allSimpleKeys P es = some keys ∧
      ((leaves P.derive32 es).filterMap (found P edb)).length ≤ (keys.filterMap (found P edb)).length ∧
      (keys.filterMap (found P edb) = (leaves P.derive32 es).filterMap (found P edb) ↔ ∀ e ∈ es, Counted P edb e) := by
  induction es with
  | nil => exact ⟨[], rfl, le_rfl, by simp [leaves]⟩
  | cons e es ih =>
    obtain ⟨keys, extra, hk, hf, hx⟩ := simpleKeys_spec hs edb (he e List.mem_cons_self)
    obtain ⟨rest, hr, hlen, heq⟩ := ih fun e' h => he e' (List.mem_cons_of_mem _ h)
    refine ⟨keys ++ rest, by rw [allSimpleKeys, hk, hr]; rfl, ?_, ?_⟩
    · rw [leaves, List.flatMap_cons, ← leaves, List.filterMap_append, List.filterMap_append, hf]
      simp only [List.length_append]
      omega
    · rw [leaves, List.flatMap_cons, ← leaves, List.filterMap_append, List.filterMap_append, hf, List.append_assoc,
        List.append_cancel_left_eq, List.forall_mem_cons, ← hx, ← heq]
      constructor
      · intro h
        have hl := congrArg List.length h
        rw [List.length_append] at hl
        have hnil : extra = [] := List.eq_nil_of_length_eq_zero (by omega)
        rw [hnil] at h
        exact ⟨hnil, h⟩
      · rintro ⟨h1, h2⟩
        rw [h1, h2, List.nil_append]

omit [XorOp T] in
theorem allSimpleKeys_none {es : List (B × Nat)} {e : B × Nat} (he : e ∈ es) (hd : 32 ≤ e.2) :
    allSimpleKeys P es = none := by
  induction es with
  | nil => cases he
  | cons f es ih =>
    rw [allSimpleKeys]
    rcases List.mem_cons.1 he with rfl | h
    · rw [simpleKeys, leafCount_large hd]
      rfl
    · rw [ih h]
      cases simpleKeys P f <;> rfl

variable [DecidableEq B]

/-- **The naive search agrees with the recursive one** exactly on requests of `Counted` tokens. -/
theorem search_simple_iff (hs : Splits P.derive P.derive32) (edb : B → Option T) (req : SearchRequest B) :
    (searchSimple P false edb req).map Prod.snd = some (search P false edb req).2 ↔
      ∀ e ∈ req.token_list, e.2 ≤ 30 ∨
        (e.2 = 31 ∧ ∀ key ∈ deriveAllLeaves P.derive32 e.1 e.2, edb (P.derive key false) = none) := by
  show _ ↔ ∀ e ∈ req.token_list, Counted P edb e
  by_cases he : ∀ e ∈ req.token_list, e.2 ≤ 31
  · obtain ⟨keys, hk, -, heq⟩ := allSimpleKeys_spec hs edb he
    rw [searchSimple, search, hk, Option.map_some, Option.map_some, searchKeys_keep, searchKeys_keep, Option.some.injEq]
    exact heq
  · push Not at he
    obtain ⟨e, hmem, hd⟩ := he
    rw [searchSimple, allSimpleKeys_none hmem hd]
    constructor
    · intro h
      cases h
    · intro h
      rcases h e hmem with h1 | ⟨h1, -⟩ <;> omega

/-- Payloads of 64 bits over heap-numbered tokens. -/
def heapPrims : Prims Nat UInt64 where
  hash := fun _ => 0
  rootPrf := fun _ => 1
  derive := heapDerive
  derive32 := heapDerive32
  mask := fun _ => 5

/-- A server that holds the entry of the first leaf of a token 31 high. -/
def oneEntry (t : Nat) : Option UInt64 := if t = 2 ^ 32 then some 7 else none

theorem search_simple_iff_heap :
    (searchSimple heapPrims false oneEntry ⟨[(1, 2)], 4⟩).map Prod.snd =
        some (search heapPrims false oneEntry ⟨[(1, 2)], 4⟩).2 ↔
      ∀ e ∈ [((1 : Nat), 2)], e.2 ≤ 30 ∨
        (e.2 = 31 ∧ ∀ key ∈ deriveAllLeaves heapPrims.derive32 e.1 e.2, oneEntry (heapPrims.derive key false) = none) :=
  search_simple_iff (P := heapPrims) heap_splits oneEntry ⟨[(1, 2)], 4⟩

/-- The entry of the first leaf is found again every 2 ^ 31 leaves. -/
theorem search_simple_repeats :
    (searchSimple heapPrims false oneEntry ⟨[(1, 31)], 1⟩).map Prod.snd ≠
      some (search heapPrims false oneEntry ⟨[(1, 31)], 1⟩).2 := by
  have hs : Splits heapPrims.derive heapPrims.derive32 := heap_splits
  obtain ⟨keys, hk, -, heq⟩ := allSimpleKeys_spec hs oneEntry (show ∀ e ∈ [((1 : Nat), 31)], e.2 ≤ 31 by simp)
  rw [searchSimple, search, hk, Option.map_some, Option.map_some, searchKeys_keep, searchKeys_keep, ne_eq,
    Option.some.injEq]
  intro h
  have hfirst : (2 ^ 31 : Nat) ∈ deriveAllLeaves heapPrims.derive32 1 31 := by
    rw [deriveAllLeaves_eq hs]
    exact List.mem_map.2 ⟨0, List.mem_range.2 (by omega), by decide⟩
  rcases heq.1 h (1, 31) List.mem_cons_self with h30 | ⟨-, hnone⟩
  · have : 31 ≤ 30 := h30
    omega
  · have hsome : oneEntry (heapPrims.derive (2 ^ 31) false) = some 7 := by decide
    rw [hnone _ hfirst] at hsome
    cases hsome

end

end Sse.Diana
