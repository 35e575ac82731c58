import Mathlib

/-!
# The token tree of Diana

A token is the root of a binary tree: `Prg::derive` with offset 0 gives its left child,
with offset 16 its right child.  The client walks from the root to one leaf
(`deriveNode`); the server gets a list of inner nodes and expands each into all its
leaves (`deriveAllLeaves`).  `coveringList` is the list for the leaves `0 .. n - 1`, and
`coveringListDel` the one that leaves out deleted counters.

    leaves of coveringList K n d           = [derive_node(K, i, d) | i < n]  (leaves_coveringList)
    leaves of coveringListDel K n d dels   = [derive_node(K, i, d) | i ∈ kept n dels]
    kept n dels                            ~ [i | i < n, i ∉ dels]           (kept_perm)
-/

namespace Sse.Diana

section

variable {B : Type*} (derive : B → Bool → B) (derive32 : B → B × B)

/-- `TokenTree::derive_node`: one child per bit of the index, from the highest. -/
def deriveNode (K : B) (node_index : Nat) : Nat → B
  | 0 => K
  | depth + 1 => deriveNode (derive K (node_index.testBit depth)) node_index depth

/-- `derive_all_leaves_aux` at depth `d + 1`. -/
def deriveAllLeavesAux (K : B) : Nat → List B
  | 0 => [(derive32 K).1, (derive32 K).2]
  | d + 1 => deriveAllLeavesAux (derive32 K).1 d ++ deriveAllLeavesAux (derive32 K).2 d

/-- `TokenTree::derive_all_leaves`. -/
def deriveAllLeaves (K : B) : Nat → List B
  | 0 => [K]
  | d + 1 => deriveAllLeavesAux derive32 K d

/-- `TokenTree::covering_list`; `none` outside `1 ≤ node_count ≤ 2 ^ depth`, where the
recursion runs past depth 0. -/
def coveringList (K : B) (node_count : Nat) : Nat → Option (List (B × Nat))
  | 0 => if node_count = 1 then some [(K, 0)] else none
  | d + 1 =>
    if node_count = 2 ^ (d + 1) then some [(K, d + 1)]
    else if node_count > 2 ^ d then
      (coveringList (derive K true) (node_count - 2 ^ d) d).map fun l => (derive K false, d) :: l
    else coveringList (derive K false) node_count d

/-! ## The covering list with deletions -/

/-- The bottom row of the marked tree: 2 for a counter to keep. -/
def leafRow (depth node_count : Nat) (delCnts : List Nat) : List Nat :=
  (List.range (2 ^ depth)).map fun i => if i ∈ delCnts then 0 else if i < node_count then 2 else 0

/-- One round of the marking loop, on row `i + 1` from column `2 * j`: row `i` and the nodes
it adds to `targetNodes`. -/
def levelStep (i : Nat) : Nat → List Nat → List Nat × List (Nat × Nat)
  | j, a :: b :: row =>
    let v := if a + b = 4 then 2 else if a + b < 4 ∧ a + b > 0 then 1 else 0
    -- both children of a full node are cleared before they are looked at
    let a' := if a + b = 4 then 0 else a
    let b' := if a + b = 4 then 0 else b
    let here := (if i = 0 ∧ v = 2 then [(i, j)] else []) ++
      (if v ≠ 4 ∧ a' = 2 then [(i + 1, 2 * j)] else []) ++
      (if v ≠ 4 ∧ b' = 2 then [(i + 1, 2 * j + 1)] else [])
    let (vs, ts) := levelStep i (j + 1) row
    (v :: vs, here ++ ts)
  | _, _ => ([], [])

/-- `targetNodes`, marking upwards from a row. -/
def targetNodes : Nat → List Nat → List (Nat × Nat)
  | 0, _ => []
  | i + 1, row =>
    let (row', ts) := levelStep i 0 row
    ts ++ targetNodes i row'

/-- The array branch of `covering_list_aux`; `none` where `(int) pow(2, depth)` is not the size
of the bottom row, or a write falls outside it. -/
def markedList (K : B) (node_count depth : Nat) (delCnts : List Nat) : Option (List (B × Nat)) :=
  if depth < 31 ∧ node_count ≤ 2 ^ depth ∧ ∀ c ∈ delCnts, c < 2 ^ depth then
    some ((targetNodes depth (leafRow depth node_count delCnts)).map fun t =>
      (deriveNode derive K t.2 t.1, depth - t.1))
  else none

/-- `TokenTree::covering_list` with deleted counters. -/
def coveringListDel (K : B) (node_count : Nat) (delCnts : List Nat) : Nat → Option (List (B × Nat))
  | 0 => if node_count > 0 then markedList derive K node_count 0 delCnts else none
  | d + 1 =>
    if node_count > 2 ^ d then markedList derive K node_count (d + 1) delCnts
    else coveringListDel (derive K false) node_count delCnts d

/-- `TokenTree::derive_leaves`; `none` where it throws `out_of_range`. -/
def deriveLeaves (K : B) : Nat → Nat → Nat → Option (List B)
  | 0, start_index, _ => if start_index ≠ 0 then none else some [K]
  | d + 1, start_index, end_index =>
    if start_index = 0 ∧ end_index = 2 ^ (d + 1) - 1 then some (deriveAllLeavesAux derive32 K d)
    else
      let half_node_count := 2 ^ d
      let need_left := decide (start_index ≤ half_node_count - 1)
      let need_right := decide (end_index ≥ half_node_count)
      match need_left, need_right with
      | true, true => do
        let l ← deriveLeaves (derive32 K).1 d start_index (half_node_count - 1)
        let r ← deriveLeaves (derive32 K).2 d 0 (end_index - half_node_count)
        some (l ++ r)
      | true, false => deriveLeaves (derive K false) d start_index end_index
      | false, true => deriveLeaves (derive K true) d (start_index - half_node_count) (end_index - half_node_count)
      | false, false => none

/-- The leaves of a covering list, in the order the server expands them. -/
def leaves (l : List (B × Nat)) : List B := l.flatMap fun e => deriveAllLeaves derive32 e.1 e.2

end

/-! ## Nodes and leaves -/

/-- The leaves under node `j` at `e` levels above the bottom. -/
def span (e j : Nat) : List Nat := List.range' (j * 2 ^ e) (2 ^ e)

theorem span_zero (j : Nat) : span 0 j = [j] := by
  simp [span]

theorem span_succ (e j : Nat) : span (e + 1) j = span e (2 * j) ++ span e (2 * j + 1) := by
  unfold span
  have h1 : j * 2 ^ (e + 1) = 2 * j * 2 ^ e := by rw [pow_succ]; ring
  have h2 : (2 * j + 1) * 2 ^ e = 2 * j * 2 ^ e + 1 * 2 ^ e := by ring
  have h3 : 2 ^ (e + 1) = 2 ^ e + 2 ^ e := by rw [pow_succ]; omega
  rw [h1, h2, h3, List.range'_append]

section

variable {B : Type*} {derive : B → Bool → B} {derive32 : B → B × B}

/-- The bits above the depth do not matter. -/
theorem deriveNode_congr {i j d : Nat} (h : ∀ b < d, i.testBit b = j.testBit b) (K : B) :
    deriveNode derive K i d = deriveNode derive K j d := by
  induction d generalizing K with
  | zero => rfl
  | succ d ih =>
    rw [deriveNode, deriveNode, h d (by omega)]
    exact ih (fun b hb => h b (by omega)) _

theorem deriveNode_left {i d : Nat} (h : i < 2 ^ d) (K : B) :
    deriveNode derive K i (d + 1) = deriveNode derive (derive K false) i d := by
  rw [deriveNode, Nat.testBit_lt_two_pow h]

theorem deriveNode_right {i d : Nat} (h : i < 2 ^ d) (K : B) :
    deriveNode derive K (2 ^ d + i) (d + 1) = deriveNode derive (derive K true) i d := by
  rw [deriveNode, Nat.testBit_two_pow_add_eq, Nat.testBit_lt_two_pow h]
  apply deriveNode_congr
  intro b hb
  rw [Nat.testBit_two_pow_add_gt hb]

/-- A node below a node. -/
theorem deriveNode_add {k e : Nat} (hk : k < 2 ^ e) (j i : Nat) (K : B) :
    deriveNode derive K (j * 2 ^ e + k) (i + e) = deriveNode derive (deriveNode derive K j i) k e := by
  have hbit : ∀ b, (j * 2 ^ e + k).testBit b = if b < e then k.testBit b else j.testBit (b - e) := by
    intro b
    rw [Nat.mul_comm, Nat.testBit_two_pow_mul_add _ hk]
  induction i generalizing K with
  | zero =>
    rw [Nat.zero_add]
    apply deriveNode_congr
    intro b hb
    rw [hbit, if_pos hb]
  | succ i ih =>
    rw [show i + 1 + e = i + e + 1 by omega, deriveNode, ih, hbit, if_neg (by omega), Nat.add_sub_cancel]
    rfl

/-- `Prg::derive` of 32 bytes is the two children. -/
def Splits (derive : B → Bool → B) (derive32 : B → B × B) : Prop :=
  ∀ K, derive32 K = (derive K false, derive K true)

theorem range_two_pow_succ (d : Nat) : List.range (2 ^ (d + 1)) = List.range (2 ^ d) ++ (List.range (2 ^ d)).map (2 ^ d + ·) := by
  rw [pow_succ, Nat.mul_two, List.range_add]

/-- Both halves of the leaves of a node are those of its children. -/
theorem map_deriveNode_succ (K : B) (d : Nat) :
    (List.range (2 ^ (d + 1))).map (deriveNode derive K · (d + 1)) =
      (List.range (2 ^ d)).map (deriveNode derive (derive K false) · d) ++
        (List.range (2 ^ d)).map (deriveNode derive (derive K true) · d) := by
  rw [range_two_pow_succ, List.map_append, List.map_map]
  congr 1
  · apply List.map_congr_left
    intro i hi
    exact deriveNode_left (List.mem_range.1 hi) K
  · apply List.map_congr_left
    intro i hi
    exact deriveNode_right (List.mem_range.1 hi) K

/-- **All leaves**, from left to right. -/
theorem deriveAllLeaves_eq (hs : Splits derive derive32) (K : B) (d : Nat) :
    deriveAllLeaves derive32 K d = (List.range (2 ^ d)).map (deriveNode derive K · d) := by
  cases d with
  | zero => simp [deriveAllLeaves, deriveNode]
  | succ d =>
    rw [deriveAllLeaves]
    induction d generalizing K with
    | zero =>
      rw [map_deriveNode_succ]
      simp [deriveAllLeavesAux, deriveNode, hs K]
    | succ d ih =>
      rw [deriveAllLeavesAux, hs K, ih, ih, map_deriveNode_succ _ (d + 1)]

/-- The elements `lo .. hi` of a list. -/
def slice {α : Type*} (l : List α) (lo hi : Nat) : List α := (l.drop lo).take (hi + 1 - lo)

theorem slice_append_left {α : Type*} {a b : List α} {lo hi : Nat} (hle : lo ≤ hi) (h : hi < a.length) :
    slice (a ++ b) lo hi = slice a lo hi := by
  unfold slice
  rw [List.drop_append_of_le_length (by omega), List.take_append_of_le_length]
  rw [List.length_drop]
  omega

theorem slice_append_right {α : Type*} {a b : List α} {lo hi : Nat} (h : a.length ≤ lo) (hle : lo ≤ hi) :
    slice (a ++ b) lo hi = slice b (lo - a.length) (hi - a.length) := by
  unfold slice
  rw [List.drop_append, List.drop_eq_nil_of_le h, List.nil_append]
  congr 1
  omega

theorem slice_append {α : Type*} {a b : List α} {lo hi : Nat} (hlo : lo < a.length) (hhi : a.length ≤ hi) :
    slice (a ++ b) lo hi = slice a lo (a.length - 1) ++ slice b 0 (hi - a.length) := by
  have hall : ∀ k, a.length - lo ≤ k → (a.drop lo).take k = a.drop lo := by
    intro k hk
    apply List.take_of_length_le
    rw [List.length_drop]
    omega
  have hcount : hi + 1 - lo - (a.length - lo) = hi - a.length + 1 - 0 := by omega
  unfold slice
  rw [List.drop_append_of_le_length (by omega), List.take_append, List.length_drop, List.drop_zero,
    hall _ (by omega), hall _ (by omega), hcount]

theorem slice_all {α : Type*} (l : List α) {hi : Nat} (h : l.length ≤ hi + 1) : slice l 0 hi = l := by
  unfold slice
  rw [List.drop_zero, List.take_of_length_le (by omega)]

theorem length_deriveAllLeaves (hs : Splits derive derive32) (K : B) (d : Nat) :
    (deriveAllLeaves derive32 K d).length = 2 ^ d := by
  rw [deriveAllLeaves_eq hs, List.length_map, List.length_range]

/-- The leaves of a node are those of its children. -/
theorem deriveAllLeaves_succ (hs : Splits derive derive32) (K : B) (d : Nat) :
    deriveAllLeaves derive32 K (d + 1) =
      deriveAllLeaves derive32 (derive K false) d ++ deriveAllLeaves derive32 (derive K true) d := by
  rw [deriveAllLeaves_eq hs, deriveAllLeaves_eq hs, deriveAllLeaves_eq hs, map_deriveNode_succ]

/-- **A range of leaves** is a slice of all of them. -/
theorem deriveLeaves_eq (hs : Splits derive derive32) (K : B) {d s e : Nat} (hse : s ≤ e) (he : e < 2 ^ d) :
    deriveLeaves derive derive32 K d s e = some (slice (deriveAllLeaves derive32 K d) s e) := by
  induction d generalizing K s e with
  | zero =>
    obtain rfl : e = 0 := by omega
    obtain rfl : s = 0 := by omega
    rfl
  | succ d ih =>
    have hpow : 2 ^ (d + 1) = 2 ^ d + 2 ^ d := by rw [pow_succ]; omega
    have hlen := length_deriveAllLeaves hs
    unfold deriveLeaves
    split_ifs with hall
    · obtain ⟨rfl, rfl⟩ := hall
      rw [slice_all _ (by rw [hlen]; omega)]
      rfl
    · rw [deriveAllLeaves_succ hs]
      have hk : derive32 K = (derive K false, derive K true) := hs K
      by_cases hleft : s ≤ 2 ^ d - 1
      · by_cases hright : e ≥ 2 ^ d
        · simp only [hleft, hright, decide_true, hk]
          rw [ih _ hleft (by omega), ih _ (Nat.zero_le _) (by omega), slice_append (by rw [hlen]; omega)
            (by rw [hlen]; omega), hlen]
          rfl
        · simp only [hleft, hright, decide_true, decide_false]
          rw [ih _ hse (by omega), slice_append_left hse (by rw [hlen]; omega)]
      · have hright : e ≥ 2 ^ d := by omega
        simp only [hleft, hright, decide_true, decide_false]
        rw [ih _ (by omega) (by omega), slice_append_right (by rw [hlen]; omega) hse, hlen]

/-! ## The covering list -/

theorem coveringList_zero (K : B) (d : Nat) : coveringList derive K 0 d = none := by
  induction d generalizing K with
  | zero => rfl
  | succ d ih =>
    rw [coveringList, if_neg (Nat.two_pow_pos (d + 1)).ne, if_neg (Nat.not_lt_zero _), ih]

theorem coveringList_isSome {n d : Nat} (h1 : 1 ≤ n) (h2 : n ≤ 2 ^ d) (K : B) :
    ∃ l, coveringList derive K n d = some l := by
  induction d generalizing K n with
  | zero =>
    obtain rfl : n = 1 := by
      rw [pow_zero] at h2
      omega
    exact ⟨_, rfl⟩
  | succ d ih =>
    rw [pow_succ] at h2
    rw [coveringList]
    split_ifs with hfull hright
    · exact ⟨_, rfl⟩
    · obtain ⟨l, hl⟩ := ih (n := n - 2 ^ d) (by omega) (by omega) (derive K true)
      exact ⟨_, by rw [hl]; rfl⟩
    · exact ih h1 (by omega) _

/-- **The covering list is exact**: its leaves are the first `n`, in order. -/
theorem leaves_coveringList (hs : Splits derive derive32) {n d : Nat} (hn : n ≤ 2 ^ d) {K : B}
    {l : List (B × Nat)} (h : coveringList derive K n d = some l) :
    leaves derive32 l = (List.range n).map (deriveNode derive K · d) := by
  induction d generalizing K n l with
  | zero =>
    rw [coveringList] at h
    split at h
    · next hn =>
      obtain rfl := Option.some.inj h
      simp [leaves, deriveAllLeaves, deriveNode, hn]
    · cases h
  | succ d ih =>
    rw [coveringList] at h
    split_ifs at h with hfull hright
    · obtain rfl := Option.some.inj h
      rw [leaves, List.flatMap_singleton, deriveAllLeaves_eq hs, hfull]
    · obtain ⟨r, hr, rfl⟩ := Option.map_eq_some_iff.1 h
      obtain ⟨m, rfl⟩ : ∃ m, n = 2 ^ d + m := ⟨n - 2 ^ d, by omega⟩
      rw [pow_succ] at hn
      rw [Nat.add_sub_cancel_left] at hr
      rw [leaves, List.flatMap_cons, ← leaves, ih (by omega) hr, deriveAllLeaves_eq hs, List.range_add,
        List.map_append, List.map_map]
      congr 1
      · apply List.map_congr_left
        intro i hi
        exact (deriveNode_left (List.mem_range.1 hi) K).symm
      · apply List.map_congr_left
        intro i hi
        exact (deriveNode_right (lt_of_lt_of_le (List.mem_range.1 hi) (by omega)) K).symm
    · rw [ih (by omega) h]
      apply List.map_congr_left
      intro i hi
      exact (deriveNode_left (lt_of_lt_of_le (List.mem_range.1 hi) (by omega)) K).symm

/-! ## The covering list with deletions -/

/-- The leaves under the nodes marked 2 in a row, from column `j`. -/
def rowLeaves (e : Nat) : Nat → List Nat → List Nat
  | _, [] => []
  | j, a :: row => (if a = 2 then span e j else []) ++ rowLeaves e (j + 1) row

/-- The leaves under a list of nodes of a tree of depth `d`. -/
def nodeLeaves (d : Nat) (ts : List (Nat × Nat)) : List Nat := ts.flatMap fun t => span (d - t.1) t.2

/-- What one round of the marking does with the pair of columns `2 * j` and `2 * j + 1`. -/
theorem levelStep_cons (i j a b : Nat) (row : List Nat) (ha : a ≤ 2) (hb : b ≤ 2) :
    levelStep i j (a :: b :: row) =
      if a = 2 ∧ b = 2 then
        (2 :: (levelStep i (j + 1) row).1,
          (if i = 0 then [(i, j)] else []) ++ (levelStep i (j + 1) row).2)
      else
        ((if a + b = 0 then 0 else 1) :: (levelStep i (j + 1) row).1,
          ((if a = 2 then [(i + 1, 2 * j)] else []) ++ (if b = 2 then [(i + 1, 2 * j + 1)] else [])) ++
            (levelStep i (j + 1) row).2) := by
  rw [levelStep]
  by_cases h : a = 2 ∧ b = 2
  · obtain ⟨rfl, rfl⟩ := h
    by_cases hi : i = 0 <;> simp [hi]
  · have hs : a + b ≠ 4 := by omega
    have hlt : a + b < 4 := by omega
    by_cases h0 : a + b = 0
    · have ha0 : a = 0 := by omega
      have hb0 : b = 0 := by omega
      simp [ha0, hb0]
    · simp only [if_neg h, if_neg hs, if_neg h0, if_pos (show a + b < 4 ∧ a + b > 0 by omega)]
      simp

/-- Row `i` has one entry for two of row `i + 1`, again at most 2. -/
theorem levelStep_row (i m : Nat) : ∀ j (row : List Nat), row.length = 2 * m → (∀ a ∈ row, a ≤ 2) →
    (levelStep i j row).1.length = m ∧ ∀ v ∈ (levelStep i j row).1, v ≤ 2 := by
  induction m with
  | zero =>
    intro j row hl _
    rw [List.eq_nil_of_length_eq_zero hl]
    exact ⟨rfl, fun v hv => by cases hv⟩
  | succ m ih =>
    intro j row hl hle
    match row, hl, hle with
    | a :: b :: row, hl, hle =>
      simp only [List.length_cons] at hl
      simp only [List.mem_cons, forall_eq_or_imp] at hle
      obtain ⟨h1, h2⟩ := ih (j + 1) row (by omega) hle.2.2
      rw [levelStep_cons i j a b row hle.1 hle.2.1]
      split
      · refine ⟨by simp [h1], ?_⟩
        simp only [List.mem_cons, forall_eq_or_imp]
        exact ⟨by omega, h2⟩
      · refine ⟨by simp [h1], ?_⟩
        simp only [List.mem_cons, forall_eq_or_imp]
        exact ⟨by split <;> omega, h2⟩

@[simp] theorem nodeLeaves_append (d : Nat) (ts ts' : List (Nat × Nat)) :
    nodeLeaves d (ts ++ ts') = nodeLeaves d ts ++ nodeLeaves d ts' := by
  simp [nodeLeaves]

/-- One round loses no leaf: those of row `i + 1` are under the new nodes or in row `i`, and in
the last round all are under the new nodes. -/
theorem levelStep_leaves (d e i m : Nat) (hd : d = i + 1 + e) : ∀ j (row : List Nat), row.length = 2 * m →
    (∀ a ∈ row, a ≤ 2) →
    (nodeLeaves d (levelStep i j row).2 ++
      (if i = 0 then [] else rowLeaves (e + 1) j (levelStep i j row).1)).Perm (rowLeaves e (2 * j) row) := by
  have he : d - (i + 1) = e := by omega
  have he' : d - i = e + 1 := by omega
  induction m with
  | zero =>
    intro j row hl _
    rw [List.eq_nil_of_length_eq_zero hl]
    simp [levelStep, nodeLeaves, rowLeaves]
  | succ m ih =>
    intro j row hl hle
    match row, hl, hle with
    | a :: b :: row, hl, hle =>
      simp only [List.length_cons] at hl
      simp only [List.mem_cons, forall_eq_or_imp] at hle
      have hrest := ih (j + 1) row (by omega) hle.2.2
      rw [show 2 * (j + 1) = 2 * j + 1 + 1 by omega] at hrest
      rw [levelStep_cons i j a b row hle.1 hle.2.1, rowLeaves, rowLeaves, ← List.append_assoc]
      by_cases hab : a = 2 ∧ b = 2
      · -- a full node: its leaves go to the row above, or out as the root
        rw [if_pos hab, if_pos hab.1, if_pos hab.2, ← span_succ]
        by_cases hi : i = 0
        · rw [if_pos hi, List.append_nil] at hrest
          rw [if_pos hi, if_pos hi, List.append_nil, nodeLeaves_append]
          have hroot : nodeLeaves d [(i, j)] = span (e + 1) j := by simp [nodeLeaves, he']
          rw [hroot]
          exact hrest.append_left _
        · rw [if_neg hi] at hrest
          rw [if_neg hi, if_neg hi, List.nil_append, rowLeaves, if_pos rfl]
          refine List.Perm.trans ?_ (hrest.append_left (span (e + 1) j))
          exact (List.perm_append_comm_assoc _ _ _)
      · -- the marked children of any other node go out
        rw [if_neg hab]
        have hrow : rowLeaves (e + 1) j ((if a + b = 0 then 0 else 1) :: (levelStep i (j + 1) row).1) =
            rowLeaves (e + 1) (j + 1) (levelStep i (j + 1) row).1 := by
          rw [rowLeaves, if_neg (by split <;> omega), List.nil_append]
        have hnew : nodeLeaves d ((if a = 2 then [(i + 1, 2 * j)] else []) ++
            (if b = 2 then [(i + 1, 2 * j + 1)] else [])) =
              (if a = 2 then span e (2 * j) else []) ++ (if b = 2 then span e (2 * j + 1) else []) := by
          rw [nodeLeaves_append]
          congr 1 <;> split <;> simp [nodeLeaves, he]
        simp only [hrow]
        rw [nodeLeaves_append, hnew, List.append_assoc]
        exact hrest.append_left _

/-- **The marked nodes are exact**: their leaves are those of the row the marking starts from. -/
theorem targetNodes_leaves (d i e : Nat) (hd : d = i + 1 + e) (row : List Nat) (hl : row.length = 2 ^ (i + 1))
    (hle : ∀ a ∈ row, a ≤ 2) : (nodeLeaves d (targetNodes (i + 1) row)).Perm (rowLeaves e 0 row) := by
  induction i generalizing e row with
  | zero =>
    have h := levelStep_leaves d e 0 1 hd 0 row (by simpa using hl) hle
    simpa [targetNodes] using h
  | succ i ih =>
    have hl' : row.length = 2 * 2 ^ (i + 1) := by rw [hl, pow_succ (n := i + 1)]; omega
    have h := levelStep_leaves d e (i + 1) (2 ^ (i + 1)) hd 0 row hl' hle
    obtain ⟨hlen, hle'⟩ := levelStep_row (i + 1) (2 ^ (i + 1)) 0 row hl' hle
    have hup := ih (e + 1) (by omega) (levelStep (i + 1) 0 row).1 hlen hle'
    rw [if_neg (by omega)] at h
    rw [targetNodes, nodeLeaves_append]
    exact (hup.append_left _).trans h

/-- A round adds nodes of level `i + 1` below its columns, and in the last round the root. -/
theorem levelStep_nodes (i m : Nat) : ∀ j (row : List Nat), row.length = 2 * m → (∀ a ∈ row, a ≤ 2) →
    ∀ t ∈ (levelStep i j row).2,
      (i = 0 ∧ t.1 = 0 ∧ t.2 < j + m) ∨ (t.1 = i + 1 ∧ 2 * j ≤ t.2 ∧ t.2 < 2 * (j + m)) := by
  induction m with
  | zero =>
    intro j row hl _ t ht
    rw [List.eq_nil_of_length_eq_zero hl] at ht
    cases ht
  | succ m ih =>
    intro j row hl hle t ht
    match row, hl, hle, ht with
    | a :: b :: row, hl, hle, ht =>
      simp only [List.length_cons] at hl
      simp only [List.mem_cons, forall_eq_or_imp] at hle
      rw [levelStep_cons i j a b row hle.1 hle.2.1] at ht
      have hrest : t ∈ (levelStep i (j + 1) row).2 →
          (i = 0 ∧ t.1 = 0 ∧ t.2 < j + (m + 1)) ∨ (t.1 = i + 1 ∧ 2 * j ≤ t.2 ∧ t.2 < 2 * (j + (m + 1))) := by
        intro h
        have := ih (j + 1) row (by omega) hle.2.2 t h
        omega
      split at ht
      · rcases List.mem_append.1 ht with ht | ht
        · split at ht
          · next hi =>
            rw [List.mem_singleton.1 ht]
            exact Or.inl ⟨hi, hi, by show j < j + (m + 1); omega⟩
          · cases ht
        · exact hrest ht
      · rcases List.mem_append.1 ht with ht | ht
        · rcases List.mem_append.1 ht with ht | ht
          · split at ht
            · rw [List.mem_singleton.1 ht]
              exact Or.inr ⟨rfl, le_rfl, by show 2 * j < _; omega⟩
            · cases ht
          · split at ht
            · rw [List.mem_singleton.1 ht]
              exact Or.inr ⟨rfl, Nat.le_succ _, by show 2 * j + 1 < _; omega⟩
            · cases ht
        · exact hrest ht

/-- One round never adds both children of a node: two full children are cleared. -/
theorem levelStep_siblings (i m : Nat) : ∀ j (row : List Nat), row.length = 2 * m → (∀ a ∈ row, a ≤ 2) →
    ∀ k, (i + 1, 2 * k) ∈ (levelStep i j row).2 → (i + 1, 2 * k + 1) ∉ (levelStep i j row).2 := by
  induction m with
  | zero =>
    intro j row hl _ k h
    rw [List.eq_nil_of_length_eq_zero hl] at h
    cases h
  | succ m ih =>
    intro j row hl hle k
    match row, hl, hle with
    | a :: b :: row, hl, hle =>
      simp only [List.length_cons] at hl
      simp only [List.mem_cons, forall_eq_or_imp] at hle
      have hrest := ih (j + 1) row (by omega) hle.2.2 k
      -- the columns of the rest are to the right
      have hright : ∀ c, (i + 1, c) ∈ (levelStep i (j + 1) row).2 → 2 * (j + 1) ≤ c := by
        intro c hc
        rcases levelStep_nodes i m (j + 1) row (by omega) hle.2.2 _ hc with ⟨-, h0, -⟩ | ⟨-, h2, -⟩
        · cases h0
        · exact h2
      rw [levelStep_cons i j a b row hle.1 hle.2.1]
      by_cases hab : a = 2 ∧ b = 2
      · have hroot : ∀ c, (i + 1, c) ∉ (if i = 0 then [(i, j)] else []) := by
          intro c hc
          split at hc
          · simp at hc
          · cases hc
        simp only [if_pos hab, List.mem_append, hroot, false_or]
        exact hrest
      · simp only [if_neg hab, List.mem_append]
        intro h1 h2
        have hl1 : (i + 1, 2 * k) ∈ (if a = 2 then [(i + 1, 2 * j)] else []) → k = j ∧ a = 2 := by
          intro h
          split at h
          · next ha => simp at h; exact ⟨h, ha⟩
          · cases h
        have hl2 : (i + 1, 2 * k) ∉ (if b = 2 then [(i + 1, 2 * j + 1)] else []) := by
          intro h
          split at h
          · simp at h; omega
          · cases h
        have hr1 : (i + 1, 2 * k + 1) ∉ (if a = 2 then [(i + 1, 2 * j)] else []) := by
          intro h
          split at h
          · simp at h; omega
          · cases h
        have hr2 : (i + 1, 2 * k + 1) ∈ (if b = 2 then [(i + 1, 2 * j + 1)] else []) → k = j ∧ b = 2 := by
          intro h
          split at h
          · next hb => simp at h; exact ⟨h, hb⟩
          · cases h
        rcases h1 with (h1 | h1) | h1
        · obtain ⟨hk, ha⟩ := hl1 h1
          rcases h2 with (h2 | h2) | h2
          · exact hr1 h2
          · exact hab ⟨ha, (hr2 h2).2⟩
          · have := hright _ h2
            omega
        · exact hl2 h1
        · rcases h2 with (h2 | h2) | h2
          · exact hr1 h2
          · have := hright _ h1
            have := (hr2 h2).1
            omega
          · exact hrest h1 h2

/-- The marked nodes are nodes of the tree. -/
theorem targetNodes_level (i : Nat) (row : List Nat) (hl : row.length = 2 ^ i) (hle : ∀ a ∈ row, a ≤ 2) :
    ∀ t ∈ targetNodes i row, t.1 ≤ i ∧ t.2 < 2 ^ t.1 := by
  induction i generalizing row with
  | zero =>
    intro t ht
    cases ht
  | succ i ih =>
    intro t ht
    have hl' : row.length = 2 * 2 ^ i := by rw [hl, pow_succ]; omega
    obtain ⟨hlen, hle'⟩ := levelStep_row i (2 ^ i) 0 row hl' hle
    rw [targetNodes] at ht
    rcases List.mem_append.1 ht with ht | ht
    · rcases levelStep_nodes i (2 ^ i) 0 row hl' hle t ht with ⟨rfl, h1, h2⟩ | ⟨h1, -, h2⟩
      · rw [h1]
        exact ⟨Nat.zero_le _, by omega⟩
      · rw [h1, pow_succ]
        exact ⟨le_rfl, by omega⟩
    · exact ⟨Nat.le_succ_of_le (ih _ hlen hle' t ht).1, (ih _ hlen hle' t ht).2⟩

/-- **No two marked nodes are siblings.** -/
theorem targetNodes_siblings (i : Nat) (row : List Nat) (hl : row.length = 2 ^ i) (hle : ∀ a ∈ row, a ≤ 2)
    (n k : Nat) : (n + 1, 2 * k) ∈ targetNodes i row → (n + 1, 2 * k + 1) ∉ targetNodes i row := by
  induction i generalizing row with
  | zero =>
    intro h
    cases h
  | succ i ih =>
    have hl' : row.length = 2 * 2 ^ i := by rw [hl, pow_succ]; omega
    obtain ⟨hlen, hle'⟩ := levelStep_row i (2 ^ i) 0 row hl' hle
    -- this round works on level `i + 1`, the later ones above it
    have hnow : ∀ c, (n + 1, c) ∈ (levelStep i 0 row).2 → n = i := by
      intro c hc
      rcases levelStep_nodes i (2 ^ i) 0 row hl' hle _ hc with ⟨-, h, -⟩ | ⟨h, -⟩
      · cases h
      · exact Nat.succ.inj h
    have hlater : ∀ c, (n + 1, c) ∈ targetNodes i (levelStep i 0 row).1 → n + 1 ≤ i := fun c hc =>
      (targetNodes_level i _ hlen hle' _ hc).1
    rw [targetNodes]
    simp only [List.mem_append]
    rintro (h1 | h1) (h2 | h2)
    · obtain rfl := hnow _ h1
      exact levelStep_siblings n (2 ^ n) 0 row hl' hle k h1 h2
    · have := hnow _ h1
      have := hlater _ h2
      omega
    · have := hlater _ h1
      have := hnow _ h2
      omega
    · exact ih _ hlen hle' h1 h2

theorem length_leafRow (d n : Nat) (dels : List Nat) : (leafRow d n dels).length = 2 ^ d := by
  simp [leafRow]

theorem leafRow_le_two (d n : Nat) (dels : List Nat) : ∀ a ∈ leafRow d n dels, a ≤ 2 := by
  intro a ha
  obtain ⟨i, -, rfl⟩ := List.mem_map.1 ha
  split_ifs <;> omega

theorem rowLeaves_map (p : Nat → Bool) (j m : Nat) :
    rowLeaves 0 j ((List.range' j m).map fun i => if p i then 2 else 0) = (List.range' j m).filter p := by
  induction m generalizing j with
  | zero => rfl
  | succ m ih =>
    rw [List.range'_succ, List.map_cons, rowLeaves, ih, List.filter_cons, span_zero]
    cases p j <;> simp

/-- The leaves of the bottom row are the counters to keep. -/
theorem rowLeaves_leafRow {d n : Nat} (hn : n ≤ 2 ^ d) (dels : List Nat) :
    rowLeaves 0 0 (leafRow d n dels) = (List.range n).filter (· ∉ dels) := by
  have hrow : leafRow d n dels = (List.range' 0 (2 ^ d)).map fun i => if i ∉ dels ∧ i < n then 2 else 0 := by
    unfold leafRow
    rw [List.range_eq_range']
    apply List.map_congr_left
    intro i _
    by_cases hi : i ∈ dels <;> simp [hi]
  have hp := rowLeaves_map (fun i => decide (i ∉ dels ∧ i < n)) 0 (2 ^ d)
  simp only [decide_eq_true_eq] at hp
  rw [hrow, hp, ← List.range_eq_range', show 2 ^ d = n + (2 ^ d - n) by omega, List.range_add,
    List.filter_append]
  have hhi : ((List.range (2 ^ d - n)).map (n + ·)).filter (fun i => decide (i ∉ dels ∧ i < n)) = [] := by
    rw [List.filter_eq_nil_iff]
    intro x hx
    obtain ⟨i, -, rfl⟩ := List.mem_map.1 hx
    simp
  rw [hhi, List.append_nil]
  apply List.filter_congr
  intro i hi
  simp [List.mem_range.1 hi]

/-- The counters under the nodes of the array branch, in the order the server meets them. -/
def markedKept (n d : Nat) (dels : List Nat) : Option (List Nat) :=
  if d < 31 ∧ n ≤ 2 ^ d ∧ ∀ c ∈ dels, c < 2 ^ d then
    some (nodeLeaves d (targetNodes d (leafRow d n dels)))
  else none

/-- The counters that `covering_list` with deletions leaves to the server. -/
def kept (n : Nat) (dels : List Nat) : Nat → Option (List Nat)
  | 0 => if n > 0 then markedKept n 0 dels else none
  | d + 1 => if n > 2 ^ d then markedKept n (d + 1) dels else kept n dels d

theorem kept_zero (dels : List Nat) (d : Nat) : kept 0 dels d = none := by
  induction d with
  | zero => rfl
  | succ d ih => rw [kept, if_neg (Nat.not_lt_zero _), ih]

theorem markedKept_perm {n d : Nat} {dels : List Nat} {l : List Nat} (hd : dels ≠ [])
    (h : markedKept n d dels = some l) : l.Perm ((List.range n).filter (· ∉ dels)) := by
  unfold markedKept at h
  split at h
  · next hok =>
    obtain rfl := Option.some.inj h
    rw [← rowLeaves_leafRow hok.2.1 dels]
    cases d with
    | zero =>
      -- one leaf, and it is deleted
      obtain ⟨c, dels', rfl⟩ := List.exists_cons_of_ne_nil hd
      have hc : c = 0 := by
        have := hok.2.2 c List.mem_cons_self
        rw [pow_zero] at this
        omega
      subst hc
      simp [targetNodes, nodeLeaves, leafRow, rowLeaves]
    | succ d =>
      exact targetNodes_leaves (d + 1) d 0 rfl _ (length_leafRow _ _ _) (leafRow_le_two _ _ _)
  · cases h

/-- **The covering list with deletions keeps exactly the other counters**, each once. -/
theorem kept_perm {n d : Nat} {dels : List Nat} {l : List Nat} (hd : dels ≠ []) (h : kept n dels d = some l) :
    l.Perm ((List.range n).filter (· ∉ dels)) := by
  induction d with
  | zero =>
    rw [kept] at h
    split at h
    · exact markedKept_perm hd h
    · cases h
  | succ d ih =>
    rw [kept] at h
    split at h
    · exact markedKept_perm hd h
    · exact ih h

theorem kept_isSome {n d : Nat} {dels : List Nat} (h1 : 1 ≤ n) (hn : n ≤ 2 ^ d) (hcap : n ≤ 2 ^ 30)
    (hdels : ∀ c ∈ dels, c < n) : ∃ l, kept n dels d = some l := by
  have hmark : ∀ e, e < 31 → n ≤ 2 ^ e → ∃ l, markedKept n e dels = some l := fun e he hne =>
    ⟨_, if_pos ⟨he, hne, fun c hc => lt_of_lt_of_le (hdels c hc) hne⟩⟩
  induction d with
  | zero =>
    rw [kept, if_pos (show n > 0 from h1)]
    exact hmark 0 (by omega) hn
  | succ d ih =>
    rw [kept]
    split
    · next hgt =>
      refine hmark (d + 1) ?_ hn
      by_contra hge
      have := Nat.pow_le_pow_right (show 0 < 2 by omega) (show 30 ≤ d by omega)
      omega
    · exact ih (by omega)

theorem mem_kept_lt {n d : Nat} {dels : List Nat} {l : List Nat} (hd : dels ≠ []) (h : kept n dels d = some l)
    {i : Nat} (hi : i ∈ l) : i < n := by
  have := ((kept_perm hd h).mem_iff).1 hi
  exact List.mem_range.1 (List.mem_filter.1 this).1

/-- The leaves of a node, as leaves of the whole tree. -/
theorem deriveAllLeaves_node (hs : Splits derive derive32) (K : B) (i j e : Nat) :
    deriveAllLeaves derive32 (deriveNode derive K j i) e = (span e j).map (deriveNode derive K · (i + e)) := by
  rw [deriveAllLeaves_eq hs, span, List.range'_eq_map_range, List.map_map]
  apply List.map_congr_left
  intro k hk
  exact (deriveNode_add (List.mem_range.1 hk) j i K).symm

theorem leaves_markedList (hs : Splits derive derive32) (K : B) (n d : Nat) (dels : List Nat) :
    (markedList derive K n d dels).map (leaves derive32) =
      (markedKept n d dels).map fun l => l.map (deriveNode derive K · d) := by
  unfold markedList markedKept
  split
  · simp only [Option.map_some, leaves, nodeLeaves, List.flatMap_map, List.map_flatMap]
    congr 1
    apply List.flatMap_congr
    intro t ht
    have hle := (targetNodes_level d _ (length_leafRow _ _ _) (leafRow_le_two _ _ _) t ht).1
    rw [deriveAllLeaves_node hs, Nat.add_sub_cancel' hle]
  · rfl

/-- The leaves of the covering list with deletions are those of the kept counters. -/
theorem leaves_coveringListDel (hs : Splits derive derive32) {n d : Nat} {dels : List Nat} (hd : dels ≠ [])
    (K : B) : (coveringListDel derive K n dels d).map (leaves derive32) =
      (kept n dels d).map fun l => l.map (deriveNode derive K · d) := by
  induction d generalizing K with
  | zero =>
    rw [coveringListDel, kept]
    split
    · exact leaves_markedList hs K n 0 dels
    · rfl
  | succ d ih =>
    rw [coveringListDel, kept]
    split
    · exact leaves_markedList hs K n (d + 1) dels
    · next hle =>
      rw [ih]
      cases hk : kept n dels d with
      | none => rfl
      | some l =>
        simp only [Option.map_some, Option.some.injEq]
        apply List.map_congr_left
        intro i hi
        exact (deriveNode_left (lt_of_lt_of_le (mem_kept_lt hd hk hi) (by omega)) K).symm

/-- A list of nodes of a tree of depth `d`, no two of them siblings, that covers the leaves `is`. -/
structure Cover (d : Nat) (nodes : List (Nat × Nat)) (is : List Nat) : Prop where
  node : ∀ t ∈ nodes, t.1 ≤ d ∧ t.2 < 2 ^ t.1
  leaf : nodeLeaves d nodes = is
  siblings : ∀ i k, (i + 1, 2 * k) ∈ nodes → (i + 1, 2 * k + 1) ∉ nodes

/-- A cover of a tree is one of the left half of the next. -/
theorem Cover.left {d : Nat} {nodes : List (Nat × Nat)} {is : List Nat} (h : Cover d nodes is) :
    Cover (d + 1) (nodes.map fun t => (t.1 + 1, t.2)) is where
  node := by
    intro t ht
    obtain ⟨u, hu, rfl⟩ := List.mem_map.1 ht
    obtain ⟨h1, h2⟩ := h.node u hu
    refine ⟨Nat.succ_le_succ h1, ?_⟩
    show u.2 < 2 ^ (u.1 + 1)
    rw [pow_succ]
    omega
  leaf := by
    rw [← h.leaf, nodeLeaves, nodeLeaves, List.flatMap_map]
    apply List.flatMap_congr
    intro t _
    rw [Nat.add_sub_add_right]
  siblings := by
    intro i k h1 h2
    simp only [List.mem_map, Prod.exists, Prod.mk.injEq, Nat.add_right_cancel_iff] at h1 h2
    obtain ⟨i1, k1, hm1, rfl, rfl⟩ := h1
    obtain ⟨i2, k2, hm2, rfl, rfl⟩ := h2
    cases i2 with
    | zero =>
      have := (h.node _ hm2).2
      simp only [pow_zero] at this
      omega
    | succ i => exact h.siblings i k hm1 hm2

theorem markedList_cover {n d : Nat} {dels is : List Nat} (h : markedKept n d dels = some is) (K : B) :
    ∃ nodes, Cover d nodes is ∧ markedList derive K n d dels =
      some (nodes.map fun t => (deriveNode derive K t.2 t.1, d - t.1)) := by
  unfold markedKept at h
  split at h
  · next hok =>
    have hl := length_leafRow d n dels
    have hle := leafRow_le_two d n dels
    exact ⟨_, ⟨targetNodes_level d _ hl hle, Option.some.inj h, targetNodes_siblings d _ hl hle⟩, if_pos hok⟩
  · cases h

/-- **The covering list with deletions is a cover** of the counters it keeps. -/
theorem coveringListDel_cover {n d : Nat} {dels is : List Nat} (h : kept n dels d = some is) (K : B) :
    ∃ nodes, Cover d nodes is ∧ coveringListDel derive K n dels d =
      some (nodes.map fun t => (deriveNode derive K t.2 t.1, d - t.1)) := by
  induction d generalizing K with
  | zero =>
    rw [kept] at h
    rw [coveringListDel]
    split at h
    · next hpos =>
      rw [if_pos hpos]
      exact markedList_cover h K
    · cases h
  | succ d ih =>
    rw [kept] at h
    rw [coveringListDel]
    split at h
    · next hgt =>
      rw [if_pos hgt]
      exact markedList_cover h K
    · next hle =>
      obtain ⟨nodes, hc, hl⟩ := ih h (derive K false)
      refine ⟨_, hc.left, ?_⟩
      rw [if_neg hle, hl, List.map_map]
      congr 1
      apply List.map_congr_left
      intro t ht
      show (deriveNode derive (derive K false) t.2 t.1, d - t.1) =
        (deriveNode derive K t.2 (t.1 + 1), d + 1 - (t.1 + 1))
      rw [deriveNode_left (hc.node t ht).2, Nat.add_sub_add_right]

end

end Sse.Diana
