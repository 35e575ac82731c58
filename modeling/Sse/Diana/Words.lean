import Sse.Diana.TokenTree

/-!
# The token tree in machine words

`TokenTree` counts leaves in `uint64_t` and depths in `uint8_t`, and finds the bits of an
index with a mask that it shifts.  The functions here have the types of the source; up to
depth 63 no shift loses a bit and no subtraction wraps, so they are the functions over
`Nat`, and what holds of those holds of the words.

    expand (coveringList64 K n d)        = [derive_node(K, i, d) | i < n]       (covering_list_exact)
    expand (coveringListDel64 K n d del) ~ [derive_node(K, i, d) | i < n, i ∉ del]
                                                                          (covering_list_del_exact)
    deriveLeaves64 K d s e               = elements s .. e of all leaves        (derive_leaves_slice)
-/

namespace Sse.Diana

section

variable {B : Type*} (derive : B → Bool → B) (derive32 : B → B × B)

/-- The loop of `derive_node`, with `n` levels to go. -/
def deriveNodeLoop (node_index : UInt64) : Nat → UInt64 → B → B
  | 0, _, t => t
  | n + 1, mask, t =>
    let right := decide (node_index &&& mask ≠ 0)
    deriveNodeLoop node_index n (mask >>> 1) (derive t right)

/-- `TokenTree::derive_node`. -/
def deriveNode64 (K : B) (node_index : UInt64) (depth : UInt8) : B :=
  if depth = 0 then K
  else deriveNodeLoop derive node_index depth.toNat (1 <<< (depth - 1).toUInt64) K

/-- `covering_list_aux`; `none` where it recurses at depth 0. -/
def coveringListAux (K : B) (node_count : UInt64) : Nat → Option (List (B × UInt8))
  | 0 =>
    let siblings_count : UInt64 := (1 : UInt64) <<< 0
    if node_count = siblings_count then some [(K, 0)] else none
  | d + 1 =>
    let siblings_count : UInt64 := 1 <<< UInt64.ofNat (d + 1)
    if node_count = siblings_count then some [(K, UInt8.ofNat (d + 1))]
    else if node_count > siblings_count >>> 1 then
      (coveringListAux (derive K true) (node_count - (siblings_count >>> 1)) d).map fun l =>
        (derive K false, UInt8.ofNat d) :: l
    else coveringListAux (derive K false) node_count d

/-- `TokenTree::covering_list`. -/
def coveringList64 (K : B) (node_count : UInt64) (depth : UInt8) : Option (List (B × UInt8)) :=
  coveringListAux derive K node_count depth.toNat

/-- The array branch of `covering_list_aux` with deletions; `none` where the sizes of the rows
do not fit in an `int`, or a write falls outside a row. -/
def markedList64 (K : B) (node_count : UInt64) (depth : Nat) (delCnts : List UInt32) : Option (List (B × UInt8)) :=
  if depth < 31 ∧ node_count.toNat ≤ 2 ^ depth ∧ ∀ c ∈ delCnts, c.toNat < 2 ^ depth then
    some ((targetNodes depth (leafRow depth node_count.toNat (delCnts.map UInt32.toNat))).map fun t =>
      (deriveNode64 derive K (UInt64.ofNat t.2) (UInt8.ofNat t.1), UInt8.ofNat (depth - t.1)))
  else none

/-- `covering_list_aux` with deletions. -/
def coveringListDelAux (K : B) (node_count : UInt64) (delCnts : List UInt32) : Nat → Option (List (B × UInt8))
  | 0 =>
    let siblings_count : UInt64 := (1 : UInt64) <<< 0
    if node_count > siblings_count >>> 1 then markedList64 derive K node_count 0 delCnts else none
  | d + 1 =>
    let siblings_count : UInt64 := 1 <<< UInt64.ofNat (d + 1)
    if node_count > siblings_count >>> 1 then markedList64 derive K node_count (d + 1) delCnts
    else coveringListDelAux (derive K false) node_count delCnts d

/-- `TokenTree::covering_list` with deletions. -/
def coveringListDel64 (K : B) (node_count : UInt64) (depth : UInt8) (delCnts : List UInt32) :
    Option (List (B × UInt8)) :=
  coveringListDelAux derive K node_count delCnts depth.toNat

/-- `derive_leaves_aux`; `none` where it throws `out_of_range`. -/
def deriveLeavesAux (K : B) : Nat → UInt64 → UInt64 → Option (List B)
  | 0, start_index, _ => if start_index ≠ 0 then none else some [K]
  | d + 1, start_index, end_index =>
    if start_index = 0 ∧ end_index = (1 <<< UInt64.ofNat (d + 1)) - 1 then some (deriveAllLeavesAux derive32 K d)
    else
      let half_node_count : UInt64 := 1 <<< UInt64.ofNat d
      let need_left := decide (start_index ≤ half_node_count - 1)
      let need_right := decide (end_index ≥ half_node_count)
      match need_left, need_right with
      | true, true => do
        let l ← deriveLeavesAux (derive32 K).1 d start_index (half_node_count - 1)
        let r ← deriveLeavesAux (derive32 K).2 d 0 (end_index - half_node_count)
        some (l ++ r)
      | true, false => deriveLeavesAux (derive K false) d start_index end_index
      | false, true => deriveLeavesAux (derive K true) d (start_index - half_node_count) (end_index - half_node_count)
      | false, false => none

/-- `TokenTree::derive_leaves`. -/
def deriveLeaves64 (K : B) (depth : UInt8) (start_index end_index : UInt64) : Option (List B) :=
  deriveLeavesAux derive derive32 K depth.toNat start_index end_index

/-- `derive_all_leaves` of every entry of a list, in order. -/
def expand (l : List (B × UInt8)) : List B := l.flatMap fun e => deriveAllLeaves derive32 e.1 e.2.toNat

end

/-! ## Words and numbers -/

theorem toNat_shift_one {d : Nat} (hd : d < 64) : ((1 : UInt64) <<< UInt64.ofNat d).toNat = 2 ^ d := by
  have hlt : 2 ^ d < 2 ^ 64 := Nat.pow_lt_pow_right (by omega) hd
  rw [UInt64.toNat_shiftLeft, UInt64.toNat_ofNat', Nat.mod_eq_of_lt (show d < 2 ^ 64 by omega),
    Nat.mod_eq_of_lt hd, UInt64.toNat_one, Nat.one_shiftLeft, Nat.mod_eq_of_lt hlt]

theorem toNat_half {d : Nat} (hd : d + 1 < 64) :
    (((1 : UInt64) <<< UInt64.ofNat (d + 1)) >>> 1).toNat = 2 ^ d := by
  rw [UInt64.toNat_shiftRight, toNat_shift_one hd]
  show 2 ^ (d + 1) >>> 1 = 2 ^ d
  rw [Nat.shiftRight_eq_div_pow, pow_succ]
  omega

theorem toNat_ofNat_depth {d : Nat} (hd : d < 256) : (UInt8.ofNat d).toNat = d := by
  rw [UInt8.toNat_ofNat', Nat.mod_eq_of_lt hd]

section

variable {B : Type*} {derive : B → Bool → B} {derive32 : B → B × B}

/-- A mask on bit `n` reads that bit. -/
theorem and_mask (i mask : UInt64) {n : Nat} (hm : mask.toNat = 2 ^ n) :
    decide (i &&& mask ≠ 0) = i.toNat.testBit n := by
  have h : (i &&& mask).toNat = (i.toNat.testBit n).toNat * 2 ^ n := by
    rw [UInt64.toNat_and, hm, Nat.and_two_pow]
  have hpos := Nat.two_pow_pos n
  rw [Bool.eq_iff_iff, decide_eq_true_iff, ne_eq, ← UInt64.toNat_inj, h]
  cases i.toNat.testBit n <;> simp

/-- The mask stands on the bit of the current level. -/
theorem deriveNodeLoop_eq (i : UInt64) {n : Nat} {mask : UInt64} (hm : mask.toNat = 2 ^ n / 2) (K : B) :
    deriveNodeLoop derive i n mask K = deriveNode derive K i.toNat n := by
  induction n generalizing mask K with
  | zero => rfl
  | succ n ih =>
    have hbit : mask.toNat = 2 ^ n := by
      rw [hm, pow_succ]
      omega
    have hnext : (mask >>> 1).toNat = 2 ^ n / 2 := by
      rw [UInt64.toNat_shiftRight, hbit]
      rfl
    rw [deriveNodeLoop, deriveNode, ih hnext, and_mask i mask hbit]

theorem deriveNode64_eq (K : B) (i : UInt64) {d : UInt8} (hd : d.toNat ≤ 64) :
    deriveNode64 derive K i d = deriveNode derive K i.toNat d.toNat := by
  unfold deriveNode64
  split
  · next h =>
    rw [h]
    rfl
  · next h =>
    have hpos : d.toNat ≠ 0 := fun e => h (UInt8.toNat_inj.1 e)
    obtain ⟨n, hn⟩ := Nat.exists_eq_succ_of_ne_zero hpos
    have hshift : (d - 1).toUInt64 = UInt64.ofNat n := by
      rw [← UInt64.toNat_inj, UInt8.toNat_toUInt64, UInt64.toNat_ofNat',
        UInt8.toNat_sub_of_le _ _ (UInt8.le_iff_toNat_le.2 (by show 1 ≤ d.toNat; omega)), hn]
      show n + 1 - 1 = n % 2 ^ 64
      omega
    apply deriveNodeLoop_eq
    rw [hshift, toNat_shift_one (by omega), hn, pow_succ]
    omega

/-- The entries of a covering list with their depths as numbers. -/
def toNats (l : List (B × UInt8)) : List (B × Nat) := l.map fun e => (e.1, e.2.toNat)

theorem expand_eq (l : List (B × UInt8)) : expand derive32 l = leaves derive32 (toNats l) := by
  rw [expand, leaves, toNats, List.flatMap_map]

theorem coveringListAux_eq (K : B) (n : UInt64) {d : Nat} (hd : d < 64) :
    (coveringListAux derive K n d).map toNats = coveringList derive K n.toNat d := by
  induction d generalizing K n with
  | zero =>
    have hone : n = (1 : UInt64) <<< 0 ↔ n.toNat = 1 := by
      rw [← UInt64.toNat_inj]
      rfl
    unfold coveringListAux coveringList
    simp only [hone]
    split <;> rfl
  | succ d ih =>
    have hfull : n = 1 <<< UInt64.ofNat (d + 1) ↔ n.toNat = 2 ^ (d + 1) := by
      rw [← UInt64.toNat_inj, toNat_shift_one hd]
    have hhalf : n > (1 <<< UInt64.ofNat (d + 1)) >>> 1 ↔ n.toNat > 2 ^ d := by
      rw [gt_iff_lt, UInt64.lt_iff_toNat_lt, toNat_half hd]
    unfold coveringListAux coveringList
    simp only [hfull, hhalf]
    split_ifs with h1 h2
    · rw [Option.map_some, toNats, List.map_singleton, toNat_ofNat_depth (by omega)]
    · have hsub : (n - (1 <<< UInt64.ofNat (d + 1)) >>> 1).toNat = n.toNat - 2 ^ d := by
        rw [UInt64.toNat_sub_of_le, toNat_half hd]
        rw [UInt64.le_iff_toNat_le, toNat_half hd]
        omega
      rw [← hsub, ← ih (derive K true) _ (by omega), Option.map_map, Option.map_map]
      congr 1
      funext l
      show (derive K false, (UInt8.ofNat d).toNat) :: toNats l = _
      rw [toNat_ofNat_depth (by omega)]
      rfl
    · exact ih (derive K false) n (by omega)

theorem markedList64_eq (K : B) (n : UInt64) (d : Nat) (dels : List UInt32) :
    (markedList64 derive K n d dels).map toNats = markedList derive K n.toNat d (dels.map UInt32.toNat) := by
  have hdels : (∀ c ∈ dels.map UInt32.toNat, c < 2 ^ d) ↔ ∀ c ∈ dels, c.toNat < 2 ^ d := by simp
  unfold markedList64 markedList
  simp only [hdels]
  split
  · next hok =>
    rw [Option.map_some, toNats, List.map_map]
    congr 1
    apply List.map_congr_left
    intro t ht
    obtain ⟨h1, h2⟩ := targetNodes_level d _ (length_leafRow _ _ _) (leafRow_le_two _ _ _) t ht
    have hi : (UInt8.ofNat t.1).toNat = t.1 := toNat_ofNat_depth (by omega)
    have hj : (UInt64.ofNat t.2).toNat = t.2 := by
      have hlt : 2 ^ t.1 < 2 ^ 64 := Nat.pow_lt_pow_right (by omega) (by omega)
      rw [UInt64.toNat_ofNat', Nat.mod_eq_of_lt (h2.trans hlt)]
    show (deriveNode64 derive K (UInt64.ofNat t.2) (UInt8.ofNat t.1), (UInt8.ofNat (d - t.1)).toNat) =
      (deriveNode derive K t.2 t.1, d - t.1)
    rw [deriveNode64_eq _ _ (by omega), hi, hj, toNat_ofNat_depth (by omega)]
  · rfl

theorem coveringListDelAux_eq (K : B) (n : UInt64) (dels : List UInt32) {d : Nat} (hd : d < 64) :
    (coveringListDelAux derive K n dels d).map toNats =
      coveringListDel derive K n.toNat (dels.map UInt32.toNat) d := by
  induction d generalizing K with
  | zero =>
    have hpos : n > ((1 : UInt64) <<< 0) >>> 1 ↔ n.toNat > 0 := by
      rw [gt_iff_lt, UInt64.lt_iff_toNat_lt]
      rfl
    unfold coveringListDelAux coveringListDel
    simp only [hpos]
    split
    · exact markedList64_eq K n 0 dels
    · rfl
  | succ d ih =>
    have hhalf : n > (1 <<< UInt64.ofNat (d + 1)) >>> 1 ↔ n.toNat > 2 ^ d := by
      rw [gt_iff_lt, UInt64.lt_iff_toNat_lt, toNat_half hd]
    unfold coveringListDelAux coveringListDel
    simp only [hhalf]
    split
    · exact markedList64_eq K n (d + 1) dels
    · exact ih (derive K false) (by omega)

theorem deriveLeavesAux_eq (K : B) {d : Nat} (hd : d < 64) (s e : UInt64) :
    deriveLeavesAux derive derive32 K d s e = deriveLeaves derive derive32 K d s.toNat e.toNat := by
  induction d generalizing K s e with
  | zero =>
    have hzero : s = 0 ↔ s.toNat = 0 := by
      rw [← UInt64.toNat_inj]
      rfl
    unfold deriveLeavesAux deriveLeaves
    simp only [ne_eq, hzero]
  | succ d ih =>
    have hone : ∀ k, k < 64 → ((1 : UInt64) <<< UInt64.ofNat k - 1).toNat = 2 ^ k - 1 := by
      intro k hk
      have hpos := Nat.two_pow_pos k
      rw [UInt64.toNat_sub_of_le, toNat_shift_one hk]
      · rfl
      · rw [UInt64.le_iff_toNat_le, toNat_shift_one hk]
        exact hpos
    have hall : s = 0 ∧ e = (1 <<< UInt64.ofNat (d + 1)) - 1 ↔ s.toNat = 0 ∧ e.toNat = 2 ^ (d + 1) - 1 := by
      rw [← UInt64.toNat_inj, ← UInt64.toNat_inj, hone (d + 1) hd]
      rfl
    have hleft : s ≤ (1 <<< UInt64.ofNat d) - 1 ↔ s.toNat ≤ 2 ^ d - 1 := by
      rw [UInt64.le_iff_toNat_le, hone d (by omega)]
    have hright : e ≥ 1 <<< UInt64.ofNat d ↔ e.toNat ≥ 2 ^ d := by
      rw [ge_iff_le, UInt64.le_iff_toNat_le, toNat_shift_one (by omega)]
    have hsub : ∀ i : UInt64, 2 ^ d ≤ i.toNat → (i - 1 <<< UInt64.ofNat d).toNat = i.toNat - 2 ^ d := by
      intro i hi
      rw [UInt64.toNat_sub_of_le, toNat_shift_one (by omega)]
      rw [UInt64.le_iff_toNat_le, toNat_shift_one (by omega)]
      exact hi
    unfold deriveLeavesAux deriveLeaves
    simp only [hall, hleft, hright]
    split_ifs with h
    · rfl
    · by_cases hl : s.toNat ≤ 2 ^ d - 1
      · by_cases hr : e.toNat ≥ 2 ^ d
        · simp only [hl, hr, decide_true]
          rw [ih _ (by omega), ih _ (by omega), hone d (by omega), hsub e hr]
          rfl
        · simp only [hl, hr, decide_true, decide_false]
          exact ih _ (by omega) s e
      · by_cases hr : e.toNat ≥ 2 ^ d
        · simp only [hl, hr, decide_true, decide_false]
          rw [ih _ (by omega), hsub e hr, hsub s (by omega)]
        · simp only [hl, hr, decide_false]

/-- A node by its numbers. -/
theorem deriveNode64_ofNat (K : B) {i d : Nat} (hd : d ≤ 63) (hi : i < 2 ^ d) :
    deriveNode64 derive K (UInt64.ofNat i) (UInt8.ofNat d) = deriveNode derive K i d := by
  have hlt : 2 ^ d < 2 ^ 64 := Nat.pow_lt_pow_right (by omega) (by omega)
  have hdepth : (UInt8.ofNat d).toNat = d := toNat_ofNat_depth (by omega)
  rw [deriveNode64_eq _ _ (by omega), hdepth, UInt64.toNat_ofNat', Nat.mod_eq_of_lt (hi.trans hlt)]

/-- The leaves of a list of counters, by words and by numbers. -/
theorem map_deriveNode64 (K : B) {d : UInt8} (hd : d.toNat ≤ 63) {is : List Nat} (his : ∀ i ∈ is, i < 2 ^ d.toNat) :
    (is.map fun i => deriveNode64 derive K (UInt64.ofNat i) d) = is.map (deriveNode derive K · d.toNat) := by
  apply List.map_congr_left
  intro i hi
  have h := @deriveNode64_ofNat _ derive K _ _ hd (his i hi)
  rw [UInt8.ofNat_toNat] at h
  exact h

theorem toNats_injective : Function.Injective (toNats (B := B)) := by
  apply List.map_injective_iff.2
  intro e f h
  obtain ⟨h1, h2⟩ := Prod.mk.inj h
  exact Prod.ext h1 (UInt8.toNat_inj.1 h2)

/-! ## The covering lists and the range, exactly -/

/-- Tokens numbered like the nodes of a heap. -/
def heapDerive (K : Nat) (right : Bool) : Nat := 2 * K + right.toNat

def heapDerive32 (K : Nat) : Nat × Nat := (2 * K, 2 * K + 1)

theorem heap_splits : Splits heapDerive heapDerive32 := fun _ => rfl

/-- **The covering list is exact**: its entries expand to the first `n` leaves, in order. -/
theorem covering_list_exact (hs : Splits derive derive32) (K : B) {d : UInt8} (hd : d.toNat ≤ 63) {n : UInt64}
    (h1 : 1 ≤ n.toNat) (hn : n.toNat ≤ 2 ^ d.toNat) :
    ∃ l, coveringList64 derive K n d = some l ∧
      expand derive32 l = (List.range n.toNat).map fun i => deriveNode64 derive K (UInt64.ofNat i) d := by
  have heq := @coveringListAux_eq _ derive K n _ (show d.toNat < 64 by omega)
  obtain ⟨m, hm⟩ := @coveringList_isSome _ derive _ _ h1 hn K
  rw [hm] at heq
  obtain ⟨l, hl, rfl⟩ := Option.map_eq_some_iff.1 heq
  refine ⟨l, hl, ?_⟩
  rw [expand_eq, leaves_coveringList hs hn hm, map_deriveNode64 K hd]
  intro i hi
  exact (List.mem_range.1 hi).trans_le hn

theorem covering_list_exact_heap :
    ∃ l, coveringList64 heapDerive 1 5 3 = some l ∧
      expand heapDerive32 l = (List.range (5 : UInt64).toNat).map fun i => deriveNode64 heapDerive 1 (UInt64.ofNat i) 3 :=
  covering_list_exact heap_splits 1 (by decide) (by decide) (by decide)

/-- **The covering list with deletions is exact**: its entries expand to the leaves of the counters
that were not deleted, each once.  They are nodes of the tree over counters to keep only, and
no two of them are the children of one node. -/
theorem covering_list_del_exact (hs : Splits derive derive32) (K : B) {d : UInt8} (hd : d.toNat ≤ 48) {n : UInt64}
    (h1 : 1 ≤ n.toNat) (h30 : n.toNat ≤ 2 ^ 30) (hn : n.toNat ≤ 2 ^ d.toNat) {dels : List UInt32}
    (hne : dels ≠ []) (hdel : ∀ c ∈ dels, c.toNat < n.toNat) :
    ∃ (l : List (B × UInt8)) (nodes : List (Nat × Nat)), coveringListDel64 derive K n d dels = some l ∧
      l = nodes.map (fun t => (deriveNode64 derive K (UInt64.ofNat t.2) (UInt8.ofNat t.1), UInt8.ofNat (d.toNat - t.1))) ∧
      (expand derive32 l).Perm (((List.range n.toNat).filter fun i => i ∉ dels.map UInt32.toNat).map fun i =>
        deriveNode64 derive K (UInt64.ofNat i) d) ∧
      (∀ t ∈ nodes, t.1 ≤ d.toNat ∧ t.2 < 2 ^ t.1 ∧
        ∀ i ∈ span (d.toNat - t.1) t.2, i < n.toNat ∧ i ∉ dels.map UInt32.toNat) ∧
      ∀ i k, (i + 1, 2 * k) ∈ nodes → (i + 1, 2 * k + 1) ∉ nodes := by
  have hne' : dels.map UInt32.toNat ≠ [] := by simpa using hne
  have hdel' : ∀ c ∈ dels.map UInt32.toNat, c < n.toNat := by simpa using hdel
  obtain ⟨is, hk⟩ := kept_isSome h1 hn h30 hdel'
  obtain ⟨nodes, hc, hlist⟩ := @coveringListDel_cover _ derive _ _ _ _ hk K
  have hperm := kept_perm hne' hk
  have heq := @coveringListDelAux_eq _ derive K n dels _ (show d.toNat < 64 by omega)
  have hleaves := leaves_coveringListDel hs hne' K (n := n.toNat) (d := d.toNat)
  rw [hlist] at heq hleaves
  rw [hk, Option.map_some, Option.map_some, Option.some.injEq] at hleaves
  obtain ⟨l, hl, hnat⟩ := Option.map_eq_some_iff.1 heq
  refine ⟨l, nodes, hl, ?_, ?_, ?_, hc.siblings⟩
  · apply toNats_injective
    rw [hnat, toNats, List.map_map]
    apply List.map_congr_left
    intro t ht
    obtain ⟨hd1, hj⟩ := hc.node t ht
    show _ = (deriveNode64 derive K (UInt64.ofNat t.2) (UInt8.ofNat t.1), (UInt8.ofNat (d.toNat - t.1)).toNat)
    rw [deriveNode64_ofNat K (by omega) hj, toNat_ofNat_depth (by omega)]
  · rw [expand_eq, hnat, hleaves, map_deriveNode64 K (by omega)]
    · exact hperm.map _
    · intro i hi
      exact (List.mem_range.1 (List.mem_filter.1 hi).1).trans_le hn
  · intro t ht
    obtain ⟨hd1, hj⟩ := hc.node t ht
    refine ⟨hd1, hj, fun i hi => ?_⟩
    have hmem : i ∈ nodeLeaves d.toNat nodes := List.mem_flatMap.2 ⟨t, ht, hi⟩
    rw [hc.leaf, hperm.mem_iff, List.mem_filter, List.mem_range, decide_eq_true_iff] at hmem
    exact hmem

theorem covering_list_del_exact_heap :
    ∃ (l : List (Nat × UInt8)) (nodes : List (Nat × Nat)), coveringListDel64 heapDerive 1 7 4 [2, 5, 2] = some l ∧
      l = nodes.map (fun t => (deriveNode64 heapDerive 1 (UInt64.ofNat t.2) (UInt8.ofNat t.1),
        UInt8.ofNat ((4 : UInt8).toNat - t.1))) ∧
      (expand heapDerive32 l).Perm
        (((List.range (7 : UInt64).toNat).filter fun i => i ∉ [2, 5, 2].map UInt32.toNat).map fun i =>
          deriveNode64 heapDerive 1 (UInt64.ofNat i) 4) ∧
      (∀ t ∈ nodes, t.1 ≤ (4 : UInt8).toNat ∧ t.2 < 2 ^ t.1 ∧
        ∀ i ∈ span ((4 : UInt8).toNat - t.1) t.2, i < (7 : UInt64).toNat ∧ i ∉ [2, 5, 2].map UInt32.toNat) ∧
      ∀ i k, (i + 1, 2 * k) ∈ nodes → (i + 1, 2 * k + 1) ∉ nodes :=
  covering_list_del_exact heap_splits 1 (by decide) (by decide)
    (by show 7 ≤ 2 ^ 30; omega) (by decide) (by decide) (by simp)

/-- **A range of leaves is a slice** of all of them, and `out_of_range` is never thrown. -/
theorem derive_leaves_slice (hs : Splits derive derive32) (K : B) {d : UInt8} (hd : d.toNat ≤ 63) {s e : UInt64}
    (hse : s ≤ e) (he : e.toNat < 2 ^ d.toNat) :
    deriveLeaves64 derive derive32 K d s e = some (slice (deriveAllLeaves derive32 K d.toNat) s.toNat e.toNat) := by
  rw [deriveLeaves64, deriveLeavesAux_eq K (by omega)]
  exact deriveLeaves_eq hs K (UInt64.le_iff_toNat_le.1 hse) he

theorem derive_leaves_slice_heap :
    deriveLeaves64 heapDerive heapDerive32 1 3 2 5 =
      some (slice (deriveAllLeaves heapDerive32 1 (3 : UInt8).toNat) (2 : UInt64).toNat (5 : UInt64).toNat) :=
  derive_leaves_slice heap_splits 1 (by decide) (by decide) (by decide)

end

end Sse.Diana
