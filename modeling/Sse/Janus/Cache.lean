import Sse.Janus.Server

/-!
# The bytes of the Janus cache

`Server` keeps the cache of a keyword token as a list of pairs.  The code keeps a string in
RocksDB: `put` writes 8 bytes of the index and 16 of the tag for each pair, `get` reads them
back with its own loop.  The two do not agree.  The index is copied byte by byte into
`&ind`, so one byte becomes the whole index and seven more words are written behind it;
the length test takes 8 + 8 bytes for a pair, cut to 32 bits.

    get after put gives the list  ↔  the list is `Kept`                       (get_put_iff)
    the loop on s is sound        ↔  s stops it at once, or the seven words do no
                                     harm and 16 to 23 bytes are never left    (loopOk_iff, getLoop_ne_none_iff)

`Kept` lists are short and their indices one `char`; while the cache has only those, `get`
reads what `Server` has (`Stores.get`).
-/

namespace Sse.Janus

/-! ## The two directions -/

/-- `tag_type`: an array of `kTagSize` bytes. -/
structure Tag where
  bytes : List UInt8
  size : bytes.length = 16

/-- The bytes of a `uint64_t`, least significant first. -/
def indexBytes (ind : UInt64) : Str := (List.range 8).map fun i => (ind.toNat / 256 ^ i).toUInt8

/-- `serialize`. -/
def serialize (elt : CachedResult Tag) : Str := indexBytes elt.1 ++ elt.2.bytes

/-- A `char`, which is signed, assigned to a `uint64_t`. -/
def ofChar (c : UInt8) : UInt64 := c.toInt8.toInt64.toUInt64

/-- The copy of the tag: `none` where it reads behind `end`. -/
def copyTag (s : Str) : Option Tag :=
  if h : ((s.drop 8).take 16).length = 16 then some ⟨(s.drop 8).take 16, h⟩ else none

/-- `deserialize` on what is between `begin` and `end`: `some none` where it returns false, otherwise `out` and
what is left, and `none` where its behaviour is undefined.  `harmless` says that the words it writes behind `ind`
change nothing that is used. -/
def deserialize (harmless : Bool) (s : Str) : Option (Option (CachedResult Tag × Str)) :=
  -- `sizeof(kTagSize)` is the size of a `size_t`
  if s.length % 2 ^ 32 < 8 + 8 then some none
  else do
    -- `std::copy` assigns a `char` to each of eight words, and `ind` is one
    let words := (s.take 8).map ofChar
    let tag ← copyTag s
    if harmless then some (some ((words.headD 0, tag), s.drop 24)) else none

variable {harmless : Bool} {s t : Str}

theorem copyTag_of_lt (h : s.length < 24) : copyTag s = none := by
  unfold copyTag
  rw [dif_neg]
  rw [List.length_take, List.length_drop]
  omega

theorem copyTag_of_le (h : 24 ≤ s.length) : ∃ tag, copyTag s = some tag := by
  unfold copyTag
  rw [dif_pos]
  · exact ⟨_, rfl⟩
  · rw [List.length_take, List.length_drop]
    omega

/-- What one call of `deserialize` does: it returns false, is undefined, or takes 24 bytes. -/
theorem deserialize_cases (harmless : Bool) (s : Str) :
    (s.length % 2 ^ 32 < 16 ∧ deserialize harmless s = some none) ∨
    (16 ≤ s.length % 2 ^ 32 ∧ (s.length < 24 ∨ harmless = false) ∧ deserialize harmless s = none) ∨
    (16 ≤ s.length % 2 ^ 32 ∧ 24 ≤ s.length ∧ harmless = true ∧ ∃ tag, copyTag s = some tag ∧
      deserialize harmless s = some (some ((ofChar (s.headD 0), tag), s.drop 24))) := by
  unfold deserialize
  by_cases hstop : s.length % 2 ^ 32 < 8 + 8
  · exact Or.inl ⟨hstop, if_pos hstop⟩
  · have hgo : 16 ≤ s.length % 2 ^ 32 := Nat.not_lt.1 hstop
    right
    rw [if_neg hstop]
    by_cases hshort : s.length < 24
    · exact Or.inl ⟨hgo, Or.inl hshort, by rw [copyTag_of_lt hshort]; rfl⟩
    · obtain ⟨tag, htag⟩ := copyTag_of_le (Nat.not_lt.1 hshort)
      rw [htag]
      cases harmless with
      | false => exact Or.inl ⟨hgo, Or.inr rfl, rfl⟩
      | true =>
        refine Or.inr ⟨hgo, Nat.not_lt.1 hshort, rfl, tag, rfl, ?_⟩
        cases s with
        | nil => exact absurd hshort (by simp)
        | cons c s => rfl

/-- One step of the loop: `deserialize` returns true and leaves `rest`. -/
def Next (harmless : Bool) (s rest : Str) : Prop := ∃ elt, deserialize harmless s = some (some (elt, rest))

theorem Next.drop (h : Next harmless s t) : t = s.drop 24 ∧ 24 ≤ s.length := by
  obtain ⟨elt, helt⟩ := h
  obtain ⟨-, hd⟩ | ⟨-, -, hd⟩ | ⟨-, hlen, -, tag, -, hd⟩ := deserialize_cases harmless s
  · rw [hd] at helt
    cases helt
  · rw [hd] at helt
    cases helt
  · rw [hd] at helt
    cases helt
    exact ⟨rfl, hlen⟩

/-- The loop of `get`: the elements it appends, and where `it` ends up. -/
def getLoop (harmless : Bool) (s : Str) : Option (List (CachedResult Tag) × Str) :=
  match _hd : deserialize harmless s with
  | none => none
  | some none => some ([], s)
  | some (some (elt, rest)) => (getLoop harmless rest).map fun (data, it) => (elt :: data, it)
termination_by s.length
decreasing_by
  obtain ⟨rfl, hlen⟩ := Next.drop ⟨elt, _hd⟩
  rw [List.length_drop]
  omega

section

variable {K : Type} [DecidableEq K]

/-- `RockDBListStore::put`; RocksDB holds a string under every key. -/
def put (edb : K → Option Str) (key : K) (data : List (CachedResult Tag)) : K → Option Str :=
  Function.update edb key (some (data.flatMap serialize))

omit [DecidableEq K] in
/-- `RockDBListStore::get`: what it returns, and `data` with the elements it appends. -/
def get (harmless : Bool) (edb : K → Option Str) (key : K) (data : List (CachedResult Tag)) :
    Option (Bool × List (CachedResult Tag)) :=
  match edb key with
  | none => some (false, data)
  | some raw_string => (getLoop harmless raw_string).map fun (new, _) => (true, data ++ new)

end

/-! ## The loop -/

theorem getLoop_stop (h : deserialize harmless s = some none) : getLoop harmless s = some ([], s) := by
  rw [getLoop]
  split <;> simp_all

theorem getLoop_undefined (h : deserialize harmless s = none) : getLoop harmless s = none := by
  rw [getLoop]
  split <;> simp_all

theorem getLoop_next {elt : CachedResult Tag} (h : deserialize harmless s = some (some (elt, t))) :
    getLoop harmless s = (getLoop harmless t).map fun (data, it) => (elt :: data, it) := by
  rw [getLoop]
  split <;> simp_all

/-- The lengths on which the loop is defined: it stops at once; or the words behind `ind` do no harm and going down
in steps of 24 it meets a length below 16, or from `2 ^ 32` on one that is below 16 in 32 bits. -/
theorem getLoop_ne_none_iff (harmless : Bool) (s : Str) : getLoop harmless s ≠ none ↔
    s.length % 2 ^ 32 < 16 ∨ harmless = true ∧ (s.length % 24 < 16 ∨ 2 ^ 32 ≤ s.length) := by
  induction hn : s.length using Nat.strong_induction_on generalizing s with
  | _ n ih =>
    subst hn
    obtain ⟨hstop, hd⟩ | ⟨hgo, hbad, hd⟩ | ⟨hgo, hlen, rfl, tag, -, hd⟩ := deserialize_cases harmless s
    · exact iff_of_true (by simp [getLoop_stop hd]) (Or.inl hstop)
    · rw [getLoop_undefined hd]
      rcases hbad with hshort | rfl
      · simp only [ne_eq, not_true_eq_false, false_iff]
        omega
      · simp only [ne_eq, not_true_eq_false, Bool.false_eq_true, false_and, or_false, false_iff]
        omega
    · have hdrop : (s.drop 24).length = s.length - 24 := List.length_drop
      have hrest := ih (s.length - 24) (by omega) (s.drop 24) hdrop
      rw [getLoop_next hd, ne_eq, Option.map_eq_none_iff, ← ne_eq, hrest]
      simp only [true_and]
      omega

/-- The remainders on which the loop calls `deserialize`. -/
def Met (harmless : Bool) (s : Str) : Str → Prop := Relation.ReflTransGen (Next harmless) s

/-- The loop on `s` ends, within `s`; nothing it does is undefined; and it is not fooled by a remainder that is shorter
than a serialized pair. -/
structure LoopOk (harmless : Bool) (s : Str) : Prop where
  ends : ∃ data it, getLoop harmless s = some (data, it) ∧ Met harmless s it ∧ deserialize harmless it = some none
  inside : ∀ t, Met harmless s t → t <:+ s ∧ deserialize harmless t ≠ none
  short : ∀ t, Met harmless s t → t.length < 24 → deserialize harmless t = some none

theorem Met.suffix (h : Met harmless s t) : t <:+ s := by
  induction h with
  | refl => exact List.suffix_rfl
  | tail _ hnext ih =>
    rw [hnext.drop.1]
    exact (List.drop_suffix 24 _).trans ih

/-- Where the loop is defined, it stays so. -/
theorem Met.defined (h : Met harmless s t) (hs : getLoop harmless s ≠ none) : getLoop harmless t ≠ none := by
  induction h with
  | refl => exact hs
  | tail _ hnext ih =>
    obtain ⟨elt, hd⟩ := hnext
    intro hnone
    rw [getLoop_next hd, hnone] at ih
    exact ih rfl

theorem deserialize_ne_none (h : getLoop harmless s ≠ none) : deserialize harmless s ≠ none :=
  fun hd => h (getLoop_undefined hd)

/-- Where the loop leaves `it`. -/
theorem getLoop_end {data : List (CachedResult Tag)} (h : getLoop harmless s = some (data, t)) :
    Met harmless s t ∧ deserialize harmless t = some none := by
  induction data generalizing s with
  | nil =>
    cases hd : deserialize harmless s with
    | none => simp [getLoop_undefined hd] at h
    | some r =>
      cases r with
      | none =>
        rw [getLoop_stop hd] at h
        cases h
        exact ⟨Relation.ReflTransGen.refl, hd⟩
      | some p =>
        rw [getLoop_next hd] at h
        simp at h
  | cons elt data ih =>
    cases hd : deserialize harmless s with
    | none => simp [getLoop_undefined hd] at h
    | some r =>
      cases r with
      | none => simp [getLoop_stop hd] at h
      | some p =>
        rw [getLoop_next hd] at h
        obtain ⟨⟨data', it⟩, hrest, heq⟩ := Option.map_eq_some_iff.1 h
        cases heq
        obtain ⟨hmet, hlast⟩ := ih hrest
        exact ⟨Relation.ReflTransGen.head ⟨_, hd⟩ hmet, hlast⟩

theorem loopOk_iff (harmless : Bool) (s : Str) : LoopOk harmless s ↔ getLoop harmless s ≠ none := by
  constructor
  · rintro ⟨⟨data, it, h, -⟩, -, -⟩
    rw [h]
    exact Option.some_ne_none _
  · intro h
    obtain ⟨⟨data, it⟩, hsome⟩ := Option.ne_none_iff_exists'.1 h
    refine ⟨⟨data, it, hsome, getLoop_end hsome⟩, fun t hmet => ⟨hmet.suffix, deserialize_ne_none (hmet.defined h)⟩, ?_⟩
    intro t hmet hshort
    obtain ⟨-, hd⟩ | ⟨-, -, hd⟩ | ⟨-, hlen, -⟩ := deserialize_cases harmless t
    · exact hd
    · exact absurd hd (deserialize_ne_none (hmet.defined h))
    · omega

/-! ## Reading back what was written -/

/-- An index that is one `char`, with its sign. -/
def OneChar (ind : UInt64) : Prop := ind.toNat < 2 ^ 7 ∨ 2 ^ 64 - 2 ^ 7 ≤ ind.toNat

instance (ind : UInt64) : Decidable (OneChar ind) := inferInstanceAs (Decidable (_ ∨ _))

theorem ofChar_toNat_all : ∀ n, n < 256 →
    (ofChar n.toUInt8).toNat = if n < 2 ^ 7 then n else 2 ^ 64 - 2 ^ 8 + n := by
  decide +kernel

/-- The first byte of an index is the index. -/
theorem ofChar_toUInt8_iff (ind : UInt64) : ofChar ind.toNat.toUInt8 = ind ↔ OneChar ind := by
  have hlt := ind.toNat_lt
  have hbyte : ind.toNat.toUInt8 = (ind.toNat % 256).toUInt8 := by
    rw [toUInt8_eq_iff]
    omega
  rw [← UInt64.toNat_inj, hbyte, ofChar_toNat_all _ (Nat.mod_lt _ (by omega)), OneChar]
  split <;> omega

@[simp] theorem length_indexBytes (ind : UInt64) : (indexBytes ind).length = 8 := rfl

theorem length_serialize (elt : CachedResult Tag) : (serialize elt).length = 24 := by
  rw [serialize, List.length_append, length_indexBytes, elt.2.size]

theorem length_serialized (data : List (CachedResult Tag)) : (data.flatMap serialize).length = 24 * data.length := by
  induction data with
  | nil => rfl
  | cons elt data ih =>
    rw [List.flatMap_cons, List.length_append, length_serialize, ih, List.length_cons]
    omega

/-- A call of `deserialize` at a serialized pair, where it does not stop: the tag is right, the index its first byte. -/
theorem deserialize_serialize (elt : CachedResult Tag) (rest : Str)
    (hgo : 16 ≤ (serialize elt ++ rest).length % 2 ^ 32) :
    deserialize true (serialize elt ++ rest) = some (some ((ofChar elt.1.toNat.toUInt8, elt.2), rest)) := by
  have hindex : (indexBytes elt.1).length = 8 := rfl
  have hdrop : (serialize elt ++ rest).drop 8 = elt.2.bytes ++ rest := by
    rw [serialize, List.append_assoc, ← hindex, List.drop_left]
  have htag : copyTag (serialize elt ++ rest) = some elt.2 := by
    have htake : ((serialize elt ++ rest).drop 8).take 16 = elt.2.bytes := by
      rw [hdrop, ← elt.2.size, List.take_left]
    unfold copyTag
    rw [dif_pos (by rw [htake, elt.2.size])]
    simp only [htake]
  have hhead : (serialize elt ++ rest).headD 0 = elt.1.toNat.toUInt8 := by
    simp [serialize, indexBytes, List.range_succ_eq_map]
  have hrest : (serialize elt ++ rest).drop 24 = rest := by
    rw [← length_serialize elt, List.drop_left]
  obtain ⟨hstop, -⟩ | ⟨-, hbad, -⟩ | ⟨-, -, -, tag, hcopy, hd⟩ := deserialize_cases true (serialize elt ++ rest)
  · omega
  · rw [List.length_append, length_serialize] at hbad
    rcases hbad with hshort | hfalse
    · omega
    · cases hfalse
  · rw [htag] at hcopy
    cases hcopy
    rw [hd, hhead, hrest]

/-- The lists that the loop gives back.  `24 * 178956971` is `2 ^ 32 + 8`: there it stops before the first pair. -/
def Kept (harmless : Bool) (data : List (CachedResult Tag)) : Prop :=
  data = [] ∨ harmless = true ∧ (∀ elt ∈ data, OneChar elt.1) ∧ data.length < 178956971

/-- A shorter list does not stop the loop before its first pair. -/
theorem le_of_stops {n : Nat} (hn : 0 < n) (h : 24 * n % 2 ^ 32 < 16) : 178956971 ≤ n := by
  by_contra hlt
  rcases Nat.lt_or_ge (24 * n) (2 ^ 32) with hsmall | hbig
  · rw [Nat.mod_eq_of_lt hsmall] at h
    omega
  · rw [Nat.mod_eq_sub_mod hbig, Nat.mod_eq_of_lt (by omega)] at h
    omega

/-- The loop on a serialized list. -/
theorem getLoop_serialized_iff (harmless : Bool) (data : List (CachedResult Tag)) :
    (∃ it, getLoop harmless (data.flatMap serialize) = some (data, it)) ↔ Kept harmless data := by
  induction data with
  | nil =>
    have hstop : deserialize harmless [] = some none := rfl
    exact iff_of_true ⟨[], getLoop_stop hstop⟩ (Or.inl rfl)
  | cons elt data ih =>
    have hlen : ((elt :: data).flatMap serialize).length = 24 * (data.length + 1) := length_serialized _
    obtain ⟨hstop, hd⟩ | ⟨hgo, hbad, hd⟩ | ⟨hgo, -, rfl, -⟩ := deserialize_cases harmless ((elt :: data).flatMap serialize)
    · -- only a string of `2 ^ 32` bytes or more stops the loop before it is empty
      rw [hlen] at hstop
      rw [getLoop_stop hd]
      refine iff_of_false (by simp) ?_
      rintro (hnil | ⟨-, -, hshort⟩)
      · cases hnil
      · exact absurd (le_of_stops (Nat.succ_pos _) hstop) (Nat.not_le.2 hshort)
    · rw [getLoop_undefined hd]
      refine iff_of_false (by simp) ?_
      rintro (hnil | ⟨rfl, -⟩)
      · cases hnil
      · rcases hbad with hshort | hfalse
        · omega
        · cases hfalse
    · rw [List.flatMap_cons] at hgo ⊢
      rw [getLoop_next (deserialize_serialize elt _ hgo)]
      have hloop : (∃ it, ((getLoop true (data.flatMap serialize)).map fun r =>
            ((ofChar elt.1.toNat.toUInt8, elt.2) :: r.1, r.2)) = some (elt :: data, it)) ↔
          OneChar elt.1 ∧ ∃ it, getLoop true (data.flatMap serialize) = some (data, it) := by
        rw [← ofChar_toUInt8_iff]
        constructor
        · rintro ⟨it, h⟩
          obtain ⟨⟨data', it'⟩, hrest, heq⟩ := Option.map_eq_some_iff.1 h
          simp only [Prod.mk.injEq, List.cons.injEq] at heq
          obtain ⟨⟨helt, rfl⟩, rfl⟩ := heq
          exact ⟨congrArg Prod.fst helt, it', hrest⟩
        · rintro ⟨hind, it, hrest⟩
          exact ⟨it, by rw [hrest, hind]; rfl⟩
      refine hloop.trans ((and_congr_right fun _ => ih).trans ?_)
      rw [← List.flatMap_cons, hlen] at hgo
      simp only [Kept, true_and, List.forall_mem_cons, List.length_cons, reduceCtorEq, false_or, and_assoc]
      refine and_congr_right fun _ => ⟨?_, ?_⟩
      · rintro (rfl | ⟨hall, hshort⟩)
        · exact ⟨by simp, by simp⟩
        · exact ⟨hall, by omega⟩
      · rintro ⟨hall, hshort⟩
        exact Or.inr ⟨hall, by omega⟩

section

variable {K : Type} [DecidableEq K]

theorem get_put_iff (harmless : Bool) (edb : K → Option Str) (key : K) (data : List (CachedResult Tag)) :
    get harmless (put edb key data) key [] = some (true, data) ↔ Kept harmless data := by
  rw [← getLoop_serialized_iff, get, put, Function.update_self]
  simp only [List.nil_append, Option.map_eq_some_iff, Prod.mk.injEq, true_and, Prod.exists]
  constructor
  · rintro ⟨new, it, h, rfl⟩
    exact ⟨it, h⟩
  · rintro ⟨it, h⟩
    exact ⟨data, it, h, rfl⟩

/-- The cache of `Server` as strings. -/
def Stores (edb : K → Option Str) (cached_results_edb : K → Option (List (CachedResult Tag))) : Prop :=
  ∀ key, edb key = (cached_results_edb key).map fun data => data.flatMap serialize

theorem Stores.put {edb : K → Option Str} {cached_results_edb : K → Option (List (CachedResult Tag))}
    (h : Stores edb cached_results_edb) (key : K) (data : List (CachedResult Tag)) :
    Stores (put edb key data) (Function.update cached_results_edb key (some data)) := by
  intro k
  unfold Janus.put
  by_cases hk : k = key
  · subst hk
    simp
  · rw [Function.update_of_ne hk, Function.update_of_ne hk]
    exact h k

omit [DecidableEq K] in
/-- While it holds only lists that are given back, the store is the one `Server` has. -/
theorem Stores.get {edb : K → Option Str} {cached_results_edb : K → Option (List (CachedResult Tag))}
    (h : Stores edb cached_results_edb) (key : K) (hkept : ∀ data, cached_results_edb key = some data → Kept harmless data) :
    get harmless edb key [] = some ((cached_results_edb key).isSome, (cached_results_edb key).getD []) := by
  unfold Janus.get
  rw [h key]
  cases hdata : cached_results_edb key with
  | none => rfl
  | some data =>
    obtain ⟨it, hloop⟩ := (getLoop_serialized_iff harmless data).2 (hkept data hdata)
    simp [hloop]

/-- `get` gives back what `put` stored under the same key, and the loop on a stored string is sound, exactly for
lists that are kept and strings of these lengths. -/
theorem cache_sound_iff (harmless : Bool) (edb : K → Option Str) (key : K) (data : List (CachedResult Tag)) (s : Str) :
    get harmless (put edb key data) key [] = some (true, data) ∧ LoopOk harmless s ↔
      (data = [] ∨ harmless = true ∧ (∀ elt ∈ data, OneChar elt.1) ∧ data.length < 178956971) ∧
        (s.length % 2 ^ 32 < 16 ∨ harmless = true ∧ (s.length % 24 < 16 ∨ 2 ^ 32 ≤ s.length)) :=
  and_congr (get_put_iff harmless edb key data) ((loopOk_iff harmless s).trans (getLoop_ne_none_iff harmless s))

end

/-- The index 256 comes back as 0 at best, and on 16 bytes the tag is read from behind the end. -/
theorem index_256_comes_back_as_0 :
    get true (put (fun _ : Unit => none) () [(256, ⟨List.replicate 16 7, rfl⟩)]) () [] =
        some (true, [(0, ⟨List.replicate 16 7, rfl⟩)]) ∧
      get false (put (fun _ : Unit => none) () [(256, ⟨List.replicate 16 7, rfl⟩)]) () [] = none ∧
      ¬ LoopOk true (List.replicate 16 0) := by
  have hgo : 16 ≤ (serialize (256, ⟨List.replicate 16 7, rfl⟩) ++ []).length % 2 ^ 32 := by decide
  refine ⟨?_, ?_, ?_⟩
  · have hloop := getLoop_next (deserialize_serialize _ _ hgo)
    have hend : getLoop true [] = some ([], []) := getLoop_stop rfl
    rw [hend] at hloop
    simp only [get, put, Function.update_self, List.flatMap_cons, List.flatMap_nil, hloop]
    rfl
  · have hloop : getLoop false (serialize (256, ⟨List.replicate 16 7, rfl⟩) ++ []) = none :=
      getLoop_undefined (by decide)
    simp only [get, put, Function.update_self, List.flatMap_cons, List.flatMap_nil, hloop]
    rfl
  · intro h
    exact absurd ((getLoop_ne_none_iff _ _).1 ((loopOk_iff _ _).1 h)) (by simp)

end Sse.Janus
