import Sse.Lib.SortedMap

/-!
# A tree of buckets with a stash

Blocks live in a stash or in the buckets of a complete binary tree, stored as a heap
array.  A block has a leaf, its position, and may lie in any bucket on the path to that
leaf.  Two moves: `fetch` copies a bucket into the stash, after which the bucket is dead;
`evict` rewrites a dead bucket with blocks of the stash whose paths go through it.

`Holds L D st m` says that the stash and the buckets outside the dead set `D` hold the
map `m`, each block exactly once and on its path.

    Holds D → Holds (insert i D) after fetching bucket i ∉ D              (Holds.fetch)
    Holds D → Holds (D.erase i)  after evicting to bucket i ∈ D           (Holds.evict)
    all buckets on the path of a block dead → it is in the stash          (Holds.get?_of_path)
-/

/-! ## Addresses -/

namespace PathOram

/-- The ancestor `n` levels up, in heap order. -/
def climb : Nat → Nat → Nat
  | 0, i => i
  | n + 1, i => climb n ((i + 1) / 2 - 1)

/-- The bucket at level `d` on the path to a leaf. -/
def nodeOnPath (depth leaf d : Nat) : Nat := climb (depth - d) (leaf + (2 ^ (depth + 1) - 1) / 2)

theorem climb_eq (n i : Nat) (h : 2 ^ n ≤ i + 1) : climb n i = (i + 1) / 2 ^ n - 1 := by
  induction n generalizing i with
  | zero => simp [climb]
  | succ n ih =>
    have hpow : 2 ^ (n + 1) = 2 * 2 ^ n := by rw [pow_succ]; omega
    have hhalf : 2 ^ n ≤ (i + 1) / 2 := by omega
    have hpos : 0 < 2 ^ n := by positivity
    rw [climb, ih _ (by omega), hpow, ← Nat.div_div_eq_div_mul]
    congr 2
    omega

theorem nodeOnPath_eq {depth leaf d : Nat} (hd : d ≤ depth) :
    nodeOnPath depth leaf d = (leaf + 2 ^ depth) / 2 ^ (depth - d) - 1 := by
  have hpow : 2 ^ (depth + 1) = 2 * 2 ^ depth := by rw [pow_succ]; omega
  have hpos : 0 < 2 ^ depth := by positivity
  have hle : 2 ^ (depth - d) ≤ 2 ^ depth := Nat.pow_le_pow_right (by omega) (by omega)
  rw [nodeOnPath, climb_eq _ _ (by omega)]
  congr 2
  omega

/-- The buckets of level `d` have the numbers `2 ^ d - 1 .. 2 ^ (d + 1) - 2`. -/
theorem nodeOnPath_level {depth leaf d : Nat} (hl : leaf < 2 ^ depth) (hd : d ≤ depth) :
    2 ^ d ≤ nodeOnPath depth leaf d + 1 ∧ nodeOnPath depth leaf d + 1 < 2 ^ (d + 1) := by
  have hsplit : 2 ^ depth = 2 ^ d * 2 ^ (depth - d) := by rw [← pow_add]; congr 1; omega
  have hpos : 0 < 2 ^ (depth - d) := by positivity
  have hposd : 0 < 2 ^ d := by positivity
  have hlo : 2 ^ d ≤ (leaf + 2 ^ depth) / 2 ^ (depth - d) := by
    rw [Nat.le_div_iff_mul_le hpos, ← hsplit]
    omega
  have hhi : (leaf + 2 ^ depth) / 2 ^ (depth - d) < 2 ^ (d + 1) := by
    rw [Nat.div_lt_iff_lt_mul hpos, pow_succ, mul_assoc, mul_comm 2, ← mul_assoc, ← hsplit]
    omega
  rw [nodeOnPath_eq hd]
  omega

theorem nodeOnPath_lt {depth leaf d : Nat} (hl : leaf < 2 ^ depth) (hd : d ≤ depth) :
    nodeOnPath depth leaf d < 2 ^ (depth + 1) - 1 := by
  have hle : 2 ^ (d + 1) ≤ 2 ^ (depth + 1) := Nat.pow_le_pow_right (by omega) (by omega)
  have := (nodeOnPath_level hl hd).2
  omega

/-- Buckets of two levels differ. -/
theorem level_unique {depth leaf leaf' d d' : Nat} (hl : leaf < 2 ^ depth) (hl' : leaf' < 2 ^ depth) (hd : d ≤ depth)
    (hd' : d' ≤ depth) (h : nodeOnPath depth leaf d = nodeOnPath depth leaf' d') : d = d' := by
  obtain ⟨h1, h2⟩ := nodeOnPath_level hl hd
  obtain ⟨h3, h4⟩ := nodeOnPath_level hl' hd'
  rw [h] at h1 h2
  have hlt : 2 ^ d < 2 ^ (d' + 1) := by omega
  have hlt' : 2 ^ d' < 2 ^ (d + 1) := by omega
  have := (Nat.pow_lt_pow_iff_right (show 1 < 2 by omega)).1 hlt
  have := (Nat.pow_lt_pow_iff_right (show 1 < 2 by omega)).1 hlt'
  omega

/-- The buckets on the path to a leaf, from the root down. -/
def path (depth leaf : Nat) : List Nat := (List.range (depth + 1)).map (nodeOnPath depth leaf)

theorem mem_path {depth leaf i : Nat} : i ∈ path depth leaf ↔ ∃ d ≤ depth, nodeOnPath depth leaf d = i := by
  simp only [path, List.mem_map, List.mem_range]
  exact exists_congr fun d => and_congr_left fun _ => by omega

/-! ## Stash and buckets -/

/-- What the store knows of its blocks: their key and leaf, the keys that are no dummy's, and the dummy
that fills a bucket up to `Z` blocks. -/
structure Layout (κ β : Type) where
  depth : Nat
  Z : Nat
  key : β → κ
  pos : β → Nat
  real : κ → Bool
  dummy : β
  dummy_not_real : real (key dummy) = false

/-- The number of buckets. -/
def Layout.size {κ β : Type} (L : Layout κ β) : Nat := 2 ^ (L.depth + 1) - 1

theorem lt_size_of_mem_path {κ β : Type} {L : Layout κ β} {leaf i : Nat} (hl : leaf < 2 ^ L.depth)
    (hi : i ∈ path L.depth leaf) : i < L.size := by
  obtain ⟨d, hd, rfl⟩ := mem_path.1 hi
  exact nodeOnPath_lt hl hd

structure Store (κ β : Type) [LT κ] where
  stash : SortedMap κ β
  bucket : Nat → List β

section

variable {κ β : Type} [LT κ] [DecidableEq κ] [DecidableLT κ] [LE κ] [Std.IsLinearOrder κ] [Std.LawfulOrderLT κ]
variable (L : Layout κ β)

/-- Take a block of a bucket into the stash, unless it is a dummy or its key is there. -/
def take (stash : SortedMap κ β) (b : β) : SortedMap κ β :=
  if L.real (L.key b) then stash.insertNew (L.key b) b else stash

/-- Read a bucket into the stash. -/
def fetch (st : Store κ β) (i : Nat) : Store κ β := { st with stash := (st.bucket i).foldl (take L) st.stash }

/-- The first `Z` entries of the stash whose path goes through bucket `i` of level `d`. -/
def candidates (stash : SortedMap κ β) (i d : Nat) : List (κ × β) :=
  (stash.entries.filter fun e => nodeOnPath L.depth (L.pos e.2) d = i).take L.Z

/-- Rewrite bucket `i` with blocks of the stash, and fill it up with dummies. -/
def evict (st : Store κ β) (i d : Nat) : Store κ β :=
  let c := candidates L st.stash i d
  { stash := c.foldl (fun s e => s.erase e.1) st.stash
    bucket := Function.update st.bucket i (c.map Prod.snd ++ List.replicate (L.Z - c.length) L.dummy) }

end

/-! ## What the store holds -/

section

variable {κ β : Type} [LT κ] [DecidableEq κ]

/-- How often a key occurs in the stash and in the buckets outside `D`. -/
def copies (L : Layout κ β) (D : Finset Nat) (st : Store κ β) (k : κ) : Nat :=
  (st.stash.get? k).isSome.toNat + ∑ i ∈ Finset.range L.size \ D, (st.bucket i).countP fun b => L.key b = k

/-- The store holds the map `m` outside the dead buckets `D`: every block once, on its path. -/
structure Holds (L : Layout κ β) (D : Finset Nat) (st : Store κ β) (m : κ → Option β) : Prop where
  once : ∀ k, L.real k = true → copies L D st k = (m k).isSome.toNat
  stash : ∀ k b, st.stash.get? k = some b → m k = some b
  bucket : ∀ i < L.size, i ∉ D → ∀ b ∈ st.bucket i, L.real (L.key b) = true →
    m (L.key b) = some b ∧ i ∈ path L.depth (L.pos b)
  wf : ∀ k b, m k = some b → L.key b = k ∧ L.real k = true ∧ L.pos b < 2 ^ L.depth
  slots : ∀ i < L.size, (st.bucket i).length = L.Z ∧ ∀ b ∈ st.bucket i, L.real (L.key b) = true ∨ b = L.dummy

end

section

variable {κ β : Type} [LT κ] [DecidableEq κ]
variable {L : Layout κ β} {D : Finset Nat} {st : Store κ β} {m : κ → Option β}

/-- A new store holds nothing. -/
theorem holds_empty : Holds L ∅ ⟨SortedMap.empty, fun _ => List.replicate L.Z L.dummy⟩ fun _ => none := by
  refine ⟨fun k hk => ?_, fun k b h => ?_, fun i _ _ b hb hr => ?_, fun k b h => ?_, fun i _ => ⟨by simp, fun b hb => ?_⟩⟩
  · have hne : L.key L.dummy ≠ k := by
      intro he
      rw [← he, L.dummy_not_real] at hk
      cases hk
    simp [copies, List.countP_replicate, hne]
  · simp at h
  · rw [List.eq_of_mem_replicate hb, L.dummy_not_real] at hr
    cases hr
  · cases h
  · exact Or.inr (List.eq_of_mem_replicate hb)

/-- A block whose path is dead is in the stash. -/
theorem Holds.get?_of_path (h : Holds L D st m) {k : κ} {b : β} (hb : m k = some b)
    (hp : ∀ i ∈ path L.depth (L.pos b), i ∈ D) : st.stash.get? k = some b := by
  have hreal := (h.wf k b hb).2.1
  have honce := h.once k hreal
  rw [hb, Option.isSome_some, Bool.toNat_true] at honce
  cases hs : st.stash.get? k with
  | some b' =>
    have := h.stash k b' hs
    rw [hb] at this
    rw [Option.some.inj this]
  | none =>
    -- the one copy lies in a bucket that is not dead, but on the path of the block
    exfalso
    have hpos : 0 < ∑ i ∈ Finset.range L.size \ D, (st.bucket i).countP fun b => L.key b = k := by
      rw [copies, hs, Option.isSome_none, Bool.toNat_false] at honce
      omega
    obtain ⟨i, hi, hne⟩ := Finset.exists_ne_zero_of_sum_ne_zero (Nat.pos_iff_ne_zero.1 hpos)
    obtain ⟨b', hb', hk⟩ := List.countP_pos_iff.1 (Nat.pos_of_ne_zero hne)
    obtain ⟨hlt, hD⟩ := Finset.mem_sdiff.1 hi
    have hkey : L.key b' = k := by simpa using hk
    obtain ⟨hm, hpath⟩ := h.bucket i (Finset.mem_range.1 hlt) hD b' hb' (by rw [hkey]; exact hreal)
    rw [hkey, hb] at hm
    obtain rfl := Option.some.inj hm
    exact hD (hp i hpath)

theorem sum_live {n i : Nat} (hi : i < n) (hD : i ∉ D) (f : Nat → Nat) :
    ∑ j ∈ Finset.range n \ D, f j = f i + ∑ j ∈ Finset.range n \ insert i D, f j := by
  have hsplit : Finset.range n \ D = insert i (Finset.range n \ insert i D) := by
    ext j
    simp only [Finset.mem_sdiff, Finset.mem_range, Finset.mem_insert]
    by_cases hj : j = i
    · simp [hj, hi, hD]
    · simp [hj]
  rw [hsplit, Finset.sum_insert (by simp)]

/-- A bucket without blocks may be taken for dead. -/
theorem Holds.bury (h : Holds L D st m) {i : Nat} (hi : i < L.size)
    (hb : ∀ b ∈ st.bucket i, L.real (L.key b) = false) : Holds L (insert i D) st m := by
  refine ⟨fun k hk => ?_, h.stash, fun j hj hD => h.bucket j hj fun hjD => hD (Finset.mem_insert_of_mem hjD), h.wf, h.slots⟩
  rw [← h.once k hk, copies, copies]
  congr 1
  have hzero : (st.bucket i).countP (fun b => L.key b = k) = 0 := by
    rw [List.countP_eq_zero]
    intro b hbi hkey
    have := hb b hbi
    rw [show L.key b = k by simpa using hkey, hk] at this
    cases this
  by_cases hD : i ∈ D
  · rw [Finset.insert_eq_self.2 hD]
  · rw [sum_live hi hD, hzero, Nat.zero_add]

theorem Holds.buryAll (h : Holds L D st m) {E : Finset Nat} (hE : ∀ i ∈ E, i < L.size)
    (hb : ∀ i ∈ E, ∀ b ∈ st.bucket i, L.real (L.key b) = false) : Holds L (D ∪ E) st m := by
  induction E using Finset.induction_on with
  | empty => rwa [Finset.union_empty]
  | insert i E hi ih =>
    rw [Finset.union_insert]
    exact (ih (fun j hj => hE j (Finset.mem_insert_of_mem hj)) fun j hj => hb j (Finset.mem_insert_of_mem hj)).bury
      (hE i (Finset.mem_insert_self i E)) (hb i (Finset.mem_insert_self i E))

/-- Same blocks, other leaves and contents: an entry of the stash may be replaced, and a new key put in. -/
theorem Holds.put [DecidableLT κ] [LE κ] [Std.IsLinearOrder κ] [Std.LawfulOrderLT κ] (h : Holds L D st m) {b : β}
    (hreal : L.real (L.key b) = true) (hpos : L.pos b < 2 ^ L.depth)
    (hk : m (L.key b) = none ∨ (st.stash.get? (L.key b)).isSome) :
    Holds L D { st with stash := st.stash.insert (L.key b) b } (Function.update m (L.key b) (some b)) := by
  -- no bucket that counts has a block with this key
  have hfree : ∀ i < L.size, i ∉ D → ∀ b' ∈ st.bucket i, L.key b' ≠ L.key b := by
    intro i hi hD b' hb' hkey
    have hreal' : L.real (L.key b') = true := by rw [hkey]; exact hreal
    have hm := (h.bucket i hi hD b' hb' hreal').1
    rw [hkey] at hm
    rcases hk with hk | hk
    · rw [hk] at hm
      cases hm
    · have honce := h.once _ hreal
      rw [copies, hk, hm, Option.isSome_some, Bool.toNat_true, sum_live hi hD] at honce
      have : 0 < (st.bucket i).countP fun x => L.key x = L.key b :=
        List.countP_pos_iff.2 ⟨b', hb', by simpa using hkey⟩
      omega
  refine ⟨fun k hkr => ?_, fun k b' hs => ?_, fun i hi hD b' hb' hr => ?_, fun k b' hm => ?_, h.slots⟩
  · by_cases he : k = L.key b
    · have hsum : ∑ i ∈ Finset.range L.size \ D, (st.bucket i).countP (fun x => L.key x = k) = 0 := by
        refine Finset.sum_eq_zero fun i hi => ?_
        obtain ⟨h1, h2⟩ := Finset.mem_sdiff.1 hi
        rw [List.countP_eq_zero]
        intro b' hb' hkey
        exact hfree i (Finset.mem_range.1 h1) h2 b' hb' (by rw [← he]; simpa using hkey)
      rw [copies, SortedMap.get?_insert, if_pos he, hsum, he, Function.update_self]
      rfl
    · rw [copies, SortedMap.get?_insert, if_neg he, Function.update_of_ne he]
      exact h.once k hkr
  · simp only [SortedMap.get?_insert] at hs
    by_cases he : k = L.key b
    · rw [if_pos he] at hs
      rw [he, Function.update_self]
      exact hs
    · rw [if_neg he] at hs
      rw [Function.update_of_ne he]
      exact h.stash k b' hs
  · rw [Function.update_of_ne (hfree i hi hD b' hb')]
    exact h.bucket i hi hD b' hb' hr
  · by_cases he : k = L.key b
    · rw [he, Function.update_self] at hm
      obtain rfl := Option.some.inj hm
      exact ⟨he.symm, by rw [he]; exact hreal, hpos⟩
    · rw [Function.update_of_ne he] at hm
      exact h.wf k b' hm

end

/-! ## Fetching -/

section

variable {κ β : Type} [LT κ] [DecidableEq κ] [DecidableLT κ] [LE κ] [Std.IsLinearOrder κ] [Std.LawfulOrderLT κ]
variable {L : Layout κ β} {D : Finset Nat} {st : Store κ β} {m : κ → Option β}

/-- A block that is taken in. -/
theorem get?_take (s : SortedMap κ β) (b : β) (k : κ) :
    (take L s b).get? k =
      if L.real k = true ∧ L.key b = k ∧ s.get? k = none then some b else s.get? k := by
  unfold take
  by_cases hr : L.real (L.key b) = true
  · rw [if_pos hr]
    cases hs : s.get? (L.key b) with
    | some b' =>
      rw [SortedMap.insertNew, hs, if_neg]
      rintro ⟨-, he, hn⟩
      rw [← he, hs] at hn
      cases hn
    | none =>
      rw [SortedMap.get?_insertNew hs]
      by_cases he : L.key b = k
      · rw [if_pos he.symm, if_pos ⟨he ▸ hr, he, he ▸ hs⟩]
      · rw [if_neg (Ne.symm he), if_neg fun hc => he hc.2.1]
  · rw [if_neg hr, if_neg]
    rintro ⟨hk, he, -⟩
    rw [he] at hr
    exact hr hk

/-- What is in the stash stays. -/
theorem get?_takes_of_some {s : SortedMap κ β} {k : κ} {b : β} (h : s.get? k = some b) (bs : List β) :
    (bs.foldl (take L) s).get? k = some b := by
  induction bs generalizing s with
  | nil => exact h
  | cons x bs ih =>
    refine ih ?_
    rw [get?_take, if_neg, h]
    rintro ⟨-, -, hn⟩
    rw [h] at hn
    cases hn

/-- What is new in the stash comes from the bucket. -/
theorem get?_takes_of_none {s : SortedMap κ β} {k : κ} (h : s.get? k = none) (hk : L.real k = true) (bs : List β) :
    (bs.foldl (take L) s).get? k = bs.find? fun b => L.key b = k := by
  induction bs generalizing s with
  | nil => exact h
  | cons x bs ih =>
    rw [List.foldl_cons, List.find?_cons]
    by_cases he : L.key x = k
    · rw [get?_takes_of_some (b := x) (by rw [get?_take, if_pos ⟨hk, he, h⟩])]
      simp [he]
    · rw [ih (by rw [get?_take, if_neg (fun hc => he hc.2.1), h])]
      simp [he]

theorem get?_takes_not_real {s : SortedMap κ β} {k : κ} (hk : L.real k = false) (bs : List β) :
    (bs.foldl (take L) s).get? k = s.get? k := by
  induction bs generalizing s with
  | nil => rfl
  | cons x bs ih =>
    rw [List.foldl_cons, ih, get?_take, if_neg]
    rintro ⟨hr, -⟩
    rw [hk] at hr
    cases hr

/-- **Fetching moves a bucket into the stash.** -/
theorem Holds.fetch (h : Holds L D st m) {i : Nat} (hi : i < L.size) (hD : i ∉ D) :
    Holds L (insert i D) (fetch L st i) m := by
  refine ⟨fun k hk => ?_, fun k b hs => ?_, fun j hj hjD => h.bucket j hj fun hjD' => hjD (Finset.mem_insert_of_mem hjD'),
    h.wf, h.slots⟩
  · have honce := h.once k hk
    rw [copies, sum_live hi hD, ← Nat.add_assoc] at honce
    have hle := Bool.toNat_le (m k).isSome
    rw [← honce, copies]
    congr 1
    show ((st.bucket i).foldl (take L) st.stash |>.get? k).isSome.toNat = _
    cases hs : st.stash.get? k with
    | some b =>
      rw [get?_takes_of_some hs, Option.isSome_some, Bool.toNat_true]
      rw [hs, Option.isSome_some, Bool.toNat_true] at honce
      omega
    | none =>
      rw [get?_takes_of_none hs hk, Option.isSome_none, Bool.toNat_false, Nat.zero_add]
      rw [hs, Option.isSome_none, Bool.toNat_false, Nat.zero_add] at honce
      by_cases hex : ∃ b ∈ st.bucket i, L.key b = k
      · have hsome : ((st.bucket i).find? fun b => L.key b = k).isSome = true := by
          rw [List.find?_isSome]
          obtain ⟨b, hb, he⟩ := hex
          exact ⟨b, hb, by simpa using he⟩
        have hpos : 0 < (st.bucket i).countP fun b => L.key b = k := by
          obtain ⟨b, hb, he⟩ := hex
          exact List.countP_pos_iff.2 ⟨b, hb, by simpa using he⟩
        rw [hsome, Bool.toNat_true]
        omega
      · have hnone : ((st.bucket i).find? fun b => L.key b = k) = none := by
          rw [List.find?_eq_none]
          intro b hb he
          exact hex ⟨b, hb, by simpa using he⟩
        have hzero : (st.bucket i).countP (fun b => L.key b = k) = 0 := by
          rw [List.countP_eq_zero]
          intro b hb he
          exact hex ⟨b, hb, by simpa using he⟩
        rw [hnone, hzero, Option.isSome_none, Bool.toNat_false]
  · simp only [PathOram.fetch] at hs
    cases hst : st.stash.get? k with
    | some b' =>
      rw [get?_takes_of_some hst] at hs
      rw [← Option.some.inj hs]
      exact h.stash k b' hst
    | none =>
      by_cases hk : L.real k = true
      · rw [get?_takes_of_none hst hk] at hs
        have hmem := List.mem_of_find?_eq_some hs
        have hkey : L.key b = k := by simpa using List.find?_some hs
        have := (h.bucket i hi hD b hmem (by rw [hkey]; exact hk)).1
        rwa [hkey] at this
      · rw [get?_takes_not_real (by simpa using hk), hst] at hs
        cases hs

/-! ## Evicting -/

omit [DecidableLT κ] [LE κ] [Std.IsLinearOrder κ] [Std.LawfulOrderLT κ] in
theorem get?_eraseAll (es : List (κ × β)) (s : SortedMap κ β) (k : κ) :
    (es.foldl (fun s e => s.erase e.1) s).get? k = if k ∈ es.map Prod.fst then none else s.get? k := by
  induction es generalizing s with
  | nil => simp
  | cons e es ih =>
    rw [List.foldl_cons, ih, SortedMap.get?_erase]
    by_cases he : k = e.1
    · simp [he]
    · have hmem : k ∈ (e :: es).map Prod.fst ↔ k ∈ es.map Prod.fst := by
        rw [List.map_cons, List.mem_cons]
        exact or_iff_right he
      simp only [he, if_false, hmem]

omit [DecidableLT κ] [Std.IsLinearOrder κ] in
theorem mem_candidates {s : SortedMap κ β} {i d : Nat} {e : κ × β} (h : e ∈ candidates L s i d) :
    s.get? e.1 = some e.2 ∧ nodeOnPath L.depth (L.pos e.2) d = i := by
  have hmem := List.mem_filter.1 (List.mem_of_mem_take h)
  exact ⟨(SortedMap.mem_entries s e.1 e.2).1 hmem.1, by simpa using hmem.2⟩

omit [DecidableEq κ] [DecidableLT κ] [Std.IsLinearOrder κ] in
theorem nodup_candidates (s : SortedMap κ β) (i d : Nat) : ((candidates L s i d).map Prod.fst).Nodup := by
  have hsub : (candidates L s i d).Sublist s.entries := (List.take_sublist _ _).trans List.filter_sublist
  have hpair := s.sorted.sublist hsub
  refine List.pairwise_map.2 (hpair.imp ?_)
  intro a b hlt he
  rw [he] at hlt
  exact Std.lt_irrefl hlt

omit [DecidableLT κ] [Std.IsLinearOrder κ] in
/-- **Evicting makes a dead bucket live again.** -/
theorem Holds.evict (h : Holds L D st m) {i d : Nat} (hi : i < L.size) (hd : d ≤ L.depth) (hD : i ∈ D) :
    Holds L (D.erase i) (evict L st i d) m := by
  have hkey : ∀ e ∈ candidates L st.stash i d, L.key e.2 = e.1 ∧ m e.1 = some e.2 ∧ L.real e.1 = true := by
    intro e he
    have hm := h.stash _ _ (mem_candidates he).1
    exact ⟨(h.wf _ _ hm).1, hm, (h.wf _ _ hm).2.1⟩
  have hlen : (candidates L st.stash i d).length ≤ L.Z := List.length_take_le _ _
  refine ⟨fun k hk => ?_, fun k b hs => ?_, fun j hj hjD b hb hr => ?_, h.wf, fun j hj => ?_⟩
  · have hne : L.key L.dummy ≠ k := by
      intro he
      rw [← he, L.dummy_not_real] at hk
      cases hk
    -- the bucket holds the key once if it was chosen, and the stash loses it then
    have hcount : ((PathOram.evict L st i d).bucket i).countP (fun b => L.key b = k) =
        if k ∈ (candidates L st.stash i d).map Prod.fst then 1 else 0 := by
      rw [← (nodup_candidates st.stash i d).count]
      simp only [PathOram.evict, Function.update_self, List.countP_append, List.countP_replicate, hne,
        List.countP_map, List.count]
      simp only [decide_false, Bool.false_eq_true, if_false, Nat.add_zero]
      refine List.countP_congr fun e he => ?_
      simp [(hkey e he).1]
    have hrest : ∑ j ∈ Finset.range L.size \ D, ((PathOram.evict L st i d).bucket j).countP (fun b => L.key b = k) =
        ∑ j ∈ Finset.range L.size \ D, (st.bucket j).countP fun b => L.key b = k := by
      refine Finset.sum_congr rfl fun j hj => ?_
      have hji : j ≠ i := fun he => (Finset.mem_sdiff.1 hj).2 (he ▸ hD)
      simp only [PathOram.evict, Function.update_of_ne hji]
    have honce := h.once k hk
    rw [← honce, copies, copies, sum_live hi (Finset.notMem_erase i D), Finset.insert_erase hD, hcount, hrest,
      ← Nat.add_assoc]
    congr 1
    simp only [PathOram.evict, get?_eraseAll]
    by_cases hmem : k ∈ (candidates L st.stash i d).map Prod.fst
    · obtain ⟨e, he, rfl⟩ := List.mem_map.1 hmem
      simp [hmem, (mem_candidates he).1]
    · simp [hmem]
  · simp only [PathOram.evict, get?_eraseAll] at hs
    split_ifs at hs
    exact h.stash k b hs
  · by_cases hji : j = i
    · subst hji
      simp only [PathOram.evict, Function.update_self, List.mem_append, List.mem_map] at hb
      rcases hb with ⟨e, he, rfl⟩ | hb
      · rw [(hkey e he).1]
        exact ⟨(hkey e he).2.1, mem_path.2 ⟨d, hd, (mem_candidates he).2⟩⟩
      · rw [List.eq_of_mem_replicate hb, L.dummy_not_real] at hr
        cases hr
    · simp only [PathOram.evict, Function.update_of_ne hji] at hb
      exact h.bucket j hj (fun hjD' => hjD (Finset.mem_erase.2 ⟨hji, hjD'⟩)) b hb hr
  · by_cases hji : j = i
    · subst hji
      simp only [PathOram.evict, Function.update_self]
      refine ⟨by simp; omega, fun b hb => ?_⟩
      rcases List.mem_append.1 hb with hb | hb
      · obtain ⟨e, he, rfl⟩ := List.mem_map.1 hb
        left
        rw [(hkey e he).1]
        exact (hkey e he).2.2
      · exact Or.inr (List.eq_of_mem_replicate hb)
    · simp only [PathOram.evict, Function.update_of_ne hji]
      exact h.slots j hj

/-! ## Whole paths

Reading and writing back go by lists of visited buckets: a bucket on the list is skipped. -/

variable (L)

/-- Read a bucket unless it was visited. -/
def fetchOnce (s : Store κ β × List Nat) (i : Nat) : Store κ β × List Nat :=
  if i ∈ s.2 then s else (fetch L s.1 i, s.2 ++ [i])

/-- Rewrite a bucket unless it was visited. -/
def evictOnce (s : Store κ β × List Nat) (i d : Nat) : Store κ β × List Nat :=
  if i ∈ s.2 then s else (evict L s.1 i d, s.2 ++ [i])

/-- Rewrite the paths to some leaves, level by level from the leaves up. -/
def writeBack (leafs : List Nat) (s : Store κ β × List Nat) : Store κ β × List Nat :=
  (List.range (L.depth + 1)).reverse.foldl
    (fun s d => leafs.foldl (fun s leaf => evictOnce L s (nodeOnPath L.depth leaf d) d) s) s

/-- The buckets on the paths to some leaves. -/
def nodes (depth : Nat) (leafs : List Nat) : Finset Nat := (leafs.flatMap (path depth)).toFinset

variable {L}

theorem mem_nodes {depth i : Nat} {leafs : List Nat} : i ∈ nodes depth leafs ↔ ∃ l ∈ leafs, i ∈ path depth l := by
  simp [nodes]

theorem path_nodup {depth leaf : Nat} (hl : leaf < 2 ^ depth) : (path depth leaf).Nodup := by
  refine List.Nodup.map_on ?_ List.nodup_range
  intro d hd d' hd' he
  rw [List.mem_range] at hd hd'
  exact level_unique hl hl (by omega) (by omega) he

/-- Reading a path without a list of visited buckets: its buckets are distinct. -/
theorem Holds.fetches (h : Holds L D st m) {is : List Nat} (hn : is.Nodup) (hi : ∀ i ∈ is, i < L.size ∧ i ∉ D) :
    Holds L (D ∪ is.toFinset) (is.foldl (PathOram.fetch L) st) m := by
  induction is generalizing D st with
  | nil => simpa using h
  | cons i is ih =>
    obtain ⟨hnot, hn⟩ := List.nodup_cons.1 hn
    obtain ⟨hlt, hD⟩ := hi i List.mem_cons_self
    have hset : D ∪ (i :: is).toFinset = insert i D ∪ is.toFinset := by
      ext j
      simp only [List.toFinset_cons, Finset.mem_union, Finset.mem_insert, List.mem_toFinset]
      tauto
    rw [hset, List.foldl_cons]
    refine ih (h.fetch hlt hD) hn fun j hj => ⟨(hi j (List.mem_cons_of_mem _ hj)).1, fun hjD => ?_⟩
    rcases Finset.mem_insert.1 hjD with rfl | hjD
    · exact hnot hj
    · exact (hi j (List.mem_cons_of_mem _ hj)).2 hjD

theorem fetchOnce_seen (s : Store κ β × List Nat) (i : Nat) :
    (fetchOnce L s i).2.toFinset = insert i s.2.toFinset := by
  unfold fetchOnce
  by_cases hi : i ∈ s.2
  · rw [if_pos hi, Finset.insert_eq_self.2 (List.mem_toFinset.2 hi)]
  · rw [if_neg hi]
    ext j
    simp only [List.mem_toFinset, List.mem_append, List.mem_singleton, Finset.mem_insert]
    tauto

theorem Holds.fetchOnce {s : Store κ β × List Nat} (h : Holds L s.2.toFinset s.1 m) {i : Nat} (hi : i < L.size) :
    Holds L (fetchOnce L s i).2.toFinset (fetchOnce L s i).1 m := by
  rw [fetchOnce_seen]
  unfold PathOram.fetchOnce
  by_cases hs : i ∈ s.2
  · rw [if_pos hs, Finset.insert_eq_self.2 (List.mem_toFinset.2 hs)]
    exact h
  · rw [if_neg hs]
    exact h.fetch hi (by rwa [List.mem_toFinset])

theorem fetchesOnce_seen (s : Store κ β × List Nat) (is : List Nat) :
    (is.foldl (PathOram.fetchOnce L) s).2.toFinset = s.2.toFinset ∪ is.toFinset := by
  induction is generalizing s with
  | nil => simp
  | cons i is ih =>
    rw [List.foldl_cons, ih, fetchOnce_seen]
    ext j
    simp only [List.toFinset_cons, Finset.mem_union, Finset.mem_insert, List.mem_toFinset]
    tauto

/-- **Reading a path**, with a list of visited buckets: these are the dead ones. -/
theorem Holds.fetchesOnce {s : Store κ β × List Nat} (h : Holds L s.2.toFinset s.1 m) {is : List Nat}
    (hi : ∀ i ∈ is, i < L.size) :
    Holds L (is.foldl (PathOram.fetchOnce L) s).2.toFinset (is.foldl (PathOram.fetchOnce L) s).1 m := by
  induction is generalizing s with
  | nil => exact h
  | cons i is ih => exact ih (h.fetchOnce (hi i List.mem_cons_self)) fun j hj => hi j (List.mem_cons_of_mem _ hj)

theorem fetchesOnce_bucket (s : Store κ β × List Nat) (is : List Nat) :
    (is.foldl (PathOram.fetchOnce L) s).1.bucket = s.1.bucket := by
  induction is generalizing s with
  | nil => rfl
  | cons i is ih =>
    rw [List.foldl_cons, ih, PathOram.fetchOnce]
    split_ifs
    · rfl
    · rfl

theorem get?_fetchOnce_of_some {s : Store κ β × List Nat} {k : κ} {b : β} (h : s.1.stash.get? k = some b) (i : Nat) :
    (fetchOnce L s i).1.stash.get? k = some b := by
  unfold PathOram.fetchOnce
  split_ifs
  · exact h
  · exact get?_takes_of_some h _

/-- Reading takes nothing out of the stash. -/
theorem get?_fetchesOnce_of_some {s : Store κ β × List Nat} {k : κ} {b : β} (h : s.1.stash.get? k = some b)
    (is : List Nat) : (is.foldl (PathOram.fetchOnce L) s).1.stash.get? k = some b := by
  induction is generalizing s with
  | nil => exact h
  | cons i is ih => exact ih (get?_fetchOnce_of_some h i)

/-- What the visited buckets hold is in the stash. -/
def Drained (L : Layout κ β) (s : Store κ β × List Nat) : Prop :=
  ∀ i ∈ s.2, ∀ b ∈ s.1.bucket i, L.real (L.key b) = true → (s.1.stash.get? (L.key b)).isSome = true

theorem isSome_takes {s : SortedMap κ β} {bs : List β} {b : β} (hb : b ∈ bs) (hr : L.real (L.key b) = true) :
    ((bs.foldl (take L) s).get? (L.key b)).isSome = true := by
  cases hs : s.get? (L.key b) with
  | some b' => rw [get?_takes_of_some hs]; rfl
  | none =>
    rw [get?_takes_of_none hs hr, List.find?_isSome]
    exact ⟨b, hb, by simp⟩

theorem Drained.fetchOnce {s : Store κ β × List Nat} (h : Drained L s) (i : Nat) : Drained L (fetchOnce L s i) := by
  unfold PathOram.fetchOnce
  by_cases hi : i ∈ s.2
  · rw [if_pos hi]
    exact h
  · rw [if_neg hi]
    intro j hj b hb hr
    rcases List.mem_append.1 hj with hj | hj
    · obtain ⟨b', hb'⟩ := Option.isSome_iff_exists.1 (h j hj b hb hr)
      have := get?_takes_of_some (L := L) hb' (s.1.bucket i)
      rw [PathOram.fetch, this]
      rfl
    · rw [List.mem_singleton] at hj
      subst hj
      exact isSome_takes hb hr

theorem Drained.fetchesOnce {s : Store κ β × List Nat} (h : Drained L s) (is : List Nat) :
    Drained L (is.foldl (PathOram.fetchOnce L) s) := by
  induction is generalizing s with
  | nil => exact h
  | cons i is ih => exact ih (h.fetchOnce i)

omit [DecidableLT κ] [Std.IsLinearOrder κ] in
theorem Holds.evictOnce {s : Store κ β × List Nat} (h : Holds L (D \ s.2.toFinset) s.1 m) {i d : Nat}
    (hi : i < L.size) (hd : d ≤ L.depth) (hD : i ∈ D) :
    Holds L (D \ (evictOnce L s i d).2.toFinset) (evictOnce L s i d).1 m := by
  unfold PathOram.evictOnce
  by_cases hs : i ∈ s.2
  · rw [if_pos hs]
    exact h
  · have hset : D \ (s.2 ++ [i]).toFinset = (D \ s.2.toFinset).erase i := by
      ext j
      simp only [Finset.mem_sdiff, List.mem_toFinset, List.mem_append, List.mem_singleton, Finset.mem_erase]
      tauto
    rw [if_neg hs, hset]
    exact h.evict hi hd (Finset.mem_sdiff.2 ⟨hD, by rwa [List.mem_toFinset]⟩)

omit [DecidableLT κ] [LE κ] [Std.IsLinearOrder κ] [Std.LawfulOrderLT κ] in
theorem mem_evictOnce {s : Store κ β × List Nat} {i j d : Nat} :
    j ∈ (evictOnce L s i d).2 ↔ j = i ∨ j ∈ s.2 := by
  unfold evictOnce
  by_cases hi : i ∈ s.2
  · rw [if_pos hi]
    constructor
    · exact Or.inr
    · rintro (rfl | hj)
      · exact hi
      · exact hj
  · rw [if_neg hi, List.mem_append, List.mem_singleton, or_comm]

omit [DecidableLT κ] [LE κ] [Std.IsLinearOrder κ] [Std.LawfulOrderLT κ] in
/-- Evicting only takes blocks out of the stash. -/
theorem get?_of_get?_evictOnce {s : Store κ β × List Nat} {i d : Nat} {k : κ} {b : β}
    (h : (evictOnce L s i d).1.stash.get? k = some b) : s.1.stash.get? k = some b := by
  unfold evictOnce at h
  by_cases hi : i ∈ s.2
  · rwa [if_pos hi] at h
  · rw [if_neg hi] at h
    simp only [evict, get?_eraseAll] at h
    split_ifs at h
    exact h

/-- The buckets that `writeBack` visits, with their levels. -/
def turns (depth : Nat) (leafs : List Nat) : List (Nat × Nat) :=
  (List.range (depth + 1)).reverse.flatMap fun d => leafs.map fun l => (nodeOnPath depth l d, d)

theorem mem_turns {depth : Nat} {leafs : List Nat} {t : Nat × Nat} :
    t ∈ turns depth leafs ↔ t.2 ≤ depth ∧ ∃ l ∈ leafs, nodeOnPath depth l t.2 = t.1 := by
  simp only [turns, List.mem_flatMap, List.mem_reverse, List.mem_range, List.mem_map, Prod.ext_iff]
  constructor
  · rintro ⟨d, hd, l, hl, h1, rfl⟩
    exact ⟨by omega, l, hl, h1⟩
  · rintro ⟨hd, l, hl, h1⟩
    exact ⟨t.2, by omega, l, hl, h1, rfl⟩

omit [DecidableLT κ] [LE κ] [Std.IsLinearOrder κ] [Std.LawfulOrderLT κ] in
theorem writeBack_eq (leafs : List Nat) (s : Store κ β × List Nat) :
    writeBack L leafs s = (turns L.depth leafs).foldl (fun s t => PathOram.evictOnce L s t.1 t.2) s := by
  simp only [writeBack, turns, List.foldl_flatMap, List.foldl_map]

omit [DecidableLT κ] [Std.IsLinearOrder κ] in
theorem Holds.evictsOnce {s : Store κ β × List Nat} (h : Holds L (D \ s.2.toFinset) s.1 m) {ts : List (Nat × Nat)}
    (ht : ∀ t ∈ ts, t.1 < L.size ∧ t.2 ≤ L.depth ∧ t.1 ∈ D) :
    Holds L (D \ (ts.foldl (fun s t => PathOram.evictOnce L s t.1 t.2) s).2.toFinset)
        (ts.foldl (fun s t => PathOram.evictOnce L s t.1 t.2) s).1 m ∧
      ∀ j, j ∈ (ts.foldl (fun s t => PathOram.evictOnce L s t.1 t.2) s).2 ↔ j ∈ s.2 ∨ j ∈ ts.map Prod.fst := by
  induction ts generalizing s with
  | nil => exact ⟨h, by simp⟩
  | cons t ts ih =>
    obtain ⟨h1, h2, h3⟩ := ht t List.mem_cons_self
    obtain ⟨hh, hs⟩ := ih (h.evictOnce h1 h2 h3) fun t' ht' => ht t' (List.mem_cons_of_mem _ ht')
    refine ⟨hh, fun j => ?_⟩
    rw [List.foldl_cons, hs j, mem_evictOnce, List.map_cons, List.mem_cons]
    tauto

omit [DecidableLT κ] [Std.IsLinearOrder κ] in
/-- **Writing back** all the paths that were read brings every bucket back to life. -/
theorem Holds.writeBack {leafs : List Nat} (hl : ∀ l ∈ leafs, l < 2 ^ L.depth)
    (h : Holds L (nodes L.depth leafs) st m) : Holds L ∅ (PathOram.writeBack L leafs (st, [])).1 m := by
  have hturn : ∀ t ∈ turns L.depth leafs, t.1 < L.size ∧ t.2 ≤ L.depth ∧ t.1 ∈ nodes L.depth leafs := by
    intro t ht
    obtain ⟨hd, l, hmem, he⟩ := mem_turns.1 ht
    have hpath : t.1 ∈ path L.depth l := mem_path.2 ⟨t.2, hd, he⟩
    exact ⟨lt_size_of_mem_path (hl l hmem) hpath, hd, mem_nodes.2 ⟨l, hmem, hpath⟩⟩
  have hstart : Holds L (nodes L.depth leafs \ ([] : List Nat).toFinset) st m := by simpa using h
  obtain ⟨hh, hs⟩ := Holds.evictsOnce (s := (st, [])) hstart hturn
  rw [← writeBack_eq] at hh hs
  have hdone : nodes L.depth leafs \ (PathOram.writeBack L leafs (st, [])).2.toFinset = ∅ := by
    rw [Finset.sdiff_eq_empty_iff_subset]
    intro i hi
    obtain ⟨l, hmem, hpath⟩ := mem_nodes.1 hi
    obtain ⟨d, hd, he⟩ := mem_path.1 hpath
    rw [List.mem_toFinset, hs i]
    exact Or.inr (List.mem_map.2 ⟨(i, d), mem_turns.2 ⟨hd, l, hmem, he⟩, rfl⟩)
  rwa [hdone] at hh

end

/-! ## The keys of the stash -/

section

variable {κ β : Type} [LT κ] [DecidableEq κ] [DecidableLT κ] [LE κ] [Std.IsLinearOrder κ] [Std.LawfulOrderLT κ]
variable {L : Layout κ β}

/-- The entries of a stash are filed under their keys. -/
def Filed (L : Layout κ β) (stash : SortedMap κ β) : Prop := ∀ k b, stash.get? k = some b → L.key b = k

theorem Filed.takes {stash : SortedMap κ β} (h : Filed L stash) (bs : List β) : Filed L (bs.foldl (take L) stash) := by
  induction bs generalizing stash with
  | nil => exact h
  | cons b bs ih =>
    refine ih fun k b' hk => ?_
    rw [get?_take] at hk
    split_ifs at hk with hc
    · obtain rfl := Option.some.inj hk
      exact hc.2.1
    · exact h k b' hk

theorem Filed.fetchesOnce {s : Store κ β × List Nat} (h : Filed L s.1.stash) (is : List Nat) :
    Filed L (is.foldl (PathOram.fetchOnce L) s).1.stash := by
  induction is generalizing s with
  | nil => exact h
  | cons i is ih =>
    refine ih ?_
    unfold PathOram.fetchOnce
    split_ifs
    · exact h
    · exact h.takes _

omit [DecidableLT κ] [LE κ] [Std.IsLinearOrder κ] [Std.LawfulOrderLT κ] in
theorem Filed.writeBack {s : Store κ β × List Nat} (h : Filed L s.1.stash) (leafs : List Nat) :
    Filed L (PathOram.writeBack L leafs s).1.stash := by
  rw [writeBack_eq]
  generalize turns L.depth leafs = ts
  induction ts generalizing s with
  | nil => exact h
  | cons t ts ih => exact ih fun k b hk => h k b (get?_of_get?_evictOnce hk)

end

/-! ## What a read finds

Whatever the stash and the buckets hold, as long as each block lies on its own path. -/

section

variable {κ β : Type} [LT κ] [DecidableEq κ]

/-- The block that a key has in the stash or else in the first of some buckets. -/
def lookIn (L : Layout κ β) (st : Store κ β) (is : List Nat) (k : κ) : Option β :=
  (st.stash.get? k).or (is.findSome? fun i => (st.bucket i).find? fun b => L.real k && decide (L.key b = k))

/-- Every block is at its own leaf, and in a bucket on the path to it. -/
structure Rooted (L : Layout κ β) (leaf : κ → Nat) (st : Store κ β) : Prop where
  stash : ∀ k b, st.stash.get? k = some b → L.key b = k ∧ L.pos b = leaf k
  bucket : ∀ i, ∀ b ∈ st.bucket i, L.real (L.key b) = true →
    L.pos b = leaf (L.key b) ∧ i ∈ path L.depth (leaf (L.key b))

/-- The buckets `is` have been read, those on the list of `s` and no others left out. -/
structure Gathered (L : Layout κ β) (st : Store κ β) (is : List Nat) (s : Store κ β × List Nat) : Prop where
  bucket : s.1.bucket = st.bucket
  found : ∀ k, s.1.stash.get? k = lookIn L st is k
  visited : ∀ i ∈ s.2, i ∈ is

end

section

variable {κ β : Type} [LT κ] [DecidableEq κ]
variable {L : Layout κ β} {leaf : κ → Nat} {st : Store κ β}

theorem lookIn_of_stash {k : κ} {b : β} (h : st.stash.get? k = some b) (is : List Nat) : lookIn L st is k = some b := by
  rw [lookIn, h]
  rfl

theorem lookIn_append (is js : List Nat) (k : κ) :
    lookIn L st (is ++ js) k =
      (lookIn L st is k).or (js.findSome? fun i => (st.bucket i).find? fun b => L.real k && decide (L.key b = k)) := by
  rw [lookIn, lookIn, List.findSome?_append, Option.or_assoc]

/-- A bucket that was searched before adds nothing. -/
theorem lookIn_again {is : List Nat} {i : Nat} (hi : i ∈ is) (k : κ) : lookIn L st (is ++ [i]) k = lookIn L st is k := by
  rw [lookIn_append]
  cases h : lookIn L st is k with
  | some b => rfl
  | none =>
    rw [lookIn, Option.or_eq_none_iff, List.findSome?_eq_none_iff] at h
    simp [h.2 i hi]

/-- Climbing in two goes. -/
theorem climb_add (m n i : Nat) : climb (m + n) i = climb n (climb m i) := by
  induction m generalizing i with
  | zero => rw [Nat.zero_add]; rfl
  | succ m ih =>
    rw [Nat.succ_add]
    exact ih _

/-- Two paths that meet have run together from the root. -/
theorem nodeOnPath_ancestor {depth leaf leaf' d d' : Nat} (hd : d ≤ depth) (hle : d' ≤ d)
    (h : nodeOnPath depth leaf d = nodeOnPath depth leaf' d) : nodeOnPath depth leaf d' = nodeOnPath depth leaf' d' := by
  have hsplit : depth - d' = (depth - d) + (d - d') := by omega
  unfold nodeOnPath at h ⊢
  rw [hsplit, climb_add, climb_add, h]

/-- The first bucket of a path at which `f` answers. -/
theorem findSome?_path {γ : Type} {depth leaf : Nat} {f : Nat → Option γ} {c : γ} :
    (path depth leaf).findSome? f = some c ↔
      ∃ d ≤ depth, f (nodeOnPath depth leaf d) = some c ∧ ∀ d' < d, f (nodeOnPath depth leaf d') = none := by
  have hrange : ∀ n, ((List.range n).map (nodeOnPath depth leaf)).findSome? f = some c ↔
      ∃ d < n, f (nodeOnPath depth leaf d) = some c ∧ ∀ d' < d, f (nodeOnPath depth leaf d') = none := by
    intro n
    induction n with
    | zero => simp
    | succ n ih =>
      rw [List.range_succ, List.map_append, List.findSome?_append, Option.or_eq_some_iff, ih]
      constructor
      · rintro (⟨d, hd, h⟩ | ⟨hnone, h⟩)
        · exact ⟨d, by omega, h⟩
        · refine ⟨n, by omega, by simpa using h, fun d' hd' => ?_⟩
          exact List.findSome?_eq_none_iff.1 hnone _ (List.mem_map_of_mem (List.mem_range.2 hd'))
      · rintro ⟨d, hd, hc, hbelow⟩
        by_cases he : d = n
        · subst he
          refine Or.inr ⟨List.findSome?_eq_none_iff.2 fun i hi => ?_, by simpa using hc⟩
          obtain ⟨d', hd', rfl⟩ := List.mem_map.1 hi
          exact hbelow d' (List.mem_range.1 hd')
        · exact Or.inl ⟨d, by omega, hc, hbelow⟩
  rw [path, hrange (depth + 1)]
  exact exists_congr fun d => and_congr_left fun _ => by omega

/-- A block found on some other path is the first on its own. -/
theorem Rooted.findSome?_own (h : Rooted L leaf st) {k : κ} {l : Nat} (hl : l < 2 ^ L.depth) (hk : leaf k < 2 ^ L.depth)
    {b : β} (hf : ((path L.depth l).findSome? fun i => (st.bucket i).find? fun b => L.real k && decide (L.key b = k)) = some b) :
    ((path L.depth (leaf k)).findSome? fun i => (st.bucket i).find? fun b => L.real k && decide (L.key b = k)) = some b := by
  obtain ⟨d, hd, hb, hbefore⟩ := findSome?_path.1 hf
  have hkey := List.find?_some hb
  rw [Bool.and_eq_true, decide_eq_true_eq] at hkey
  obtain ⟨hreal, rfl⟩ := hkey
  -- the bucket is on the path of the block, so both paths run together down to it
  obtain ⟨d', hd', he⟩ := mem_path.1 (h.bucket _ b (List.mem_of_find?_eq_some hb) hreal).2
  obtain rfl := level_unique hk hl hd' hd he
  refine findSome?_path.2 ⟨d', hd, ?_, fun d hlt => ?_⟩
  · rw [he]
    exact hb
  · rw [nodeOnPath_ancestor hd (by omega) he]
    exact hbefore d hlt

/-- **With its own path read last**, a key is found as by reading that path alone. -/
theorem Rooted.lookIn_path (h : Rooted L leaf st) {k : κ} (hk : leaf k < 2 ^ L.depth) {ls : List Nat}
    (hls : ∀ l ∈ ls, l < 2 ^ L.depth) :
    lookIn L st ((ls ++ [leaf k]).flatMap (path L.depth)) k = lookIn L st (path L.depth (leaf k)) k := by
  unfold lookIn
  congr 1
  induction ls with
  | nil => simp
  | cons l ls ih =>
    rw [List.cons_append, List.flatMap_cons, List.findSome?_append, ih fun l' hl' => hls l' (List.mem_cons_of_mem _ hl')]
    cases hf : (path L.depth l).findSome? fun i => (st.bucket i).find? fun b => L.real k && decide (L.key b = k) with
    | none => rfl
    | some b =>
      rw [h.findSome?_own (hls l List.mem_cons_self) hk hf]
      rfl

theorem Gathered.start (st : Store κ β) : Gathered L st [] (st, []) :=
  ⟨rfl, fun k => by simp [lookIn], fun i hi => absurd hi List.not_mem_nil⟩

variable [DecidableLT κ] [LE κ] [Std.IsLinearOrder κ] [Std.LawfulOrderLT κ]

theorem get?_takes (s : SortedMap κ β) (bs : List β) (k : κ) :
    (bs.foldl (take L) s).get? k = (s.get? k).or (bs.find? fun b => L.real k && decide (L.key b = k)) := by
  cases hs : s.get? k with
  | some b => rw [get?_takes_of_some hs, Option.some_or]
  | none =>
    rw [Option.none_or]
    cases hk : L.real k with
    | true => simp [get?_takes_of_none hs hk]
    | false =>
      rw [get?_takes_not_real hk, hs]
      exact (List.find?_eq_none.2 fun _ _ => by simp).symm

/-- One more bucket is searched. -/
theorem Gathered.fetchOnce {is : List Nat} {s : Store κ β × List Nat} (h : Gathered L st is s) (i : Nat) :
    Gathered L st (is ++ [i]) (fetchOnce L s i) := by
  unfold PathOram.fetchOnce
  by_cases hi : i ∈ s.2
  · rw [if_pos hi]
    refine ⟨h.bucket, fun k => ?_, fun j hj => List.mem_append_left _ (h.visited j hj)⟩
    rw [h.found, lookIn_again (h.visited i hi)]
  · rw [if_neg hi]
    refine ⟨h.bucket, fun k => ?_, fun j hj => ?_⟩
    · show ((s.1.bucket i).foldl (take L) s.1.stash).get? k = _
      rw [get?_takes, h.found, h.bucket, lookIn_append, List.findSome?_singleton]
    · rw [List.mem_append] at hj ⊢
      exact hj.imp_left (h.visited j)

theorem Gathered.fetchesOnce {is : List Nat} {s : Store κ β × List Nat} (h : Gathered L st is s) (js : List Nat) :
    Gathered L st (is ++ js) (js.foldl (PathOram.fetchOnce L) s) := by
  induction js generalizing is s with
  | nil => simpa using h
  | cons j js ih => simpa using ih (h.fetchOnce j)

omit [DecidableLT κ] [LE κ] [Std.IsLinearOrder κ] [Std.LawfulOrderLT κ] in
theorem Drained.gathered {s : Store κ β × List Nat} (h : Drained L s) : Gathered L s.1 s.2 s := by
  refine ⟨rfl, fun k => ?_, fun i hi => hi⟩
  rw [lookIn]
  cases hk : s.1.stash.get? k with
  | some b => rfl
  | none =>
    refine (List.findSome?_eq_none_iff.2 fun i hi => List.find?_eq_none.2 fun b hb hkey => ?_).symm
    rw [Bool.and_eq_true, decide_eq_true_eq] at hkey
    obtain ⟨hreal, rfl⟩ := hkey
    have hsome := h i hi b hb hreal
    rw [hk] at hsome
    cases hsome

/-- **What a read brings into the stash**, if what was visited is there. -/
theorem isSome_fetchesOnce {s : Store κ β × List Nat} (h : Drained L s) {k : κ} (hk : L.real k = true) (is : List Nat) :
    ((is.foldl (PathOram.fetchOnce L) s).1.stash.get? k).isSome = true ↔
      (s.1.stash.get? k).isSome = true ∨ ∃ i ∈ is, ∃ b ∈ s.1.bucket i, L.key b = k := by
  rw [(h.gathered.fetchesOnce is).found k, lookIn_append, ← h.gathered.found k, Option.isSome_or, Bool.or_eq_true,
    List.findSome?_isSome_iff]
  simp [hk, List.find?_isSome]

/-- A read without a list of visited buckets. -/
theorem get?_fetches (st : Store κ β) (is : List Nat) (k : κ) :
    (is.foldl (fetch L) st).stash.get? k = lookIn L st is k := by
  induction is generalizing st with
  | nil => simp [lookIn]
  | cons i is ih =>
    rw [List.foldl_cons, ih, lookIn, lookIn, fetch, get?_takes, List.findSome?_cons, Option.or_assoc]
    cases (st.bucket i).find? fun b => L.real k && decide (L.key b = k) with
    | none => rfl
    | some b => rfl

theorem Rooted.fetch (h : Rooted L leaf st) (i : Nat) : Rooted L leaf (fetch L st i) := by
  refine ⟨fun k b hb => ?_, h.bucket⟩
  have hget : ((st.bucket i).foldl (take L) st.stash).get? k = some b := hb
  rw [get?_takes, Option.or_eq_some_iff] at hget
  rcases hget with hs | ⟨-, hf⟩
  · exact h.stash k b hs
  · have hkey := List.find?_some hf
    rw [Bool.and_eq_true, decide_eq_true_eq] at hkey
    obtain ⟨hreal, rfl⟩ := hkey
    exact ⟨rfl, (h.bucket i b (List.mem_of_find?_eq_some hf) hreal).1⟩

theorem Rooted.fetches (h : Rooted L leaf st) (is : List Nat) : Rooted L leaf (is.foldl (PathOram.fetch L) st) := by
  induction is generalizing st with
  | nil => exact h
  | cons i is ih => exact ih (h.fetch i)

omit [DecidableLT κ] [Std.IsLinearOrder κ] in
/-- Whatever bucket is rewritten. -/
theorem Rooted.evictOnce {s : Store κ β × List Nat} (h : Rooted L leaf s.1) {i d : Nat} (hd : d ≤ L.depth) :
    Rooted L leaf (evictOnce L s i d).1 := by
  unfold PathOram.evictOnce
  by_cases hi : i ∈ s.2
  · rw [if_pos hi]
    exact h
  · rw [if_neg hi]
    refine ⟨fun k b hb => ?_, fun j b hb hreal => ?_⟩
    · simp only [evict, get?_eraseAll] at hb
      split_ifs at hb
      exact h.stash k b hb
    · by_cases hj : j = i
      · subst hj
        simp only [evict, Function.update_self, List.mem_append, List.mem_map] at hb
        rcases hb with ⟨e, he, rfl⟩ | hb
        · obtain ⟨hs, hn⟩ := mem_candidates he
          obtain ⟨hkey, hpos⟩ := h.stash _ _ hs
          rw [hkey, ← hpos]
          exact ⟨rfl, mem_path.2 ⟨d, hd, hn⟩⟩
        · rw [List.eq_of_mem_replicate hb, L.dummy_not_real] at hreal
          cases hreal
      · simp only [evict, Function.update_of_ne hj] at hb
        exact h.bucket j b hb hreal

end

end PathOram
