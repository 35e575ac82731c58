import Sse.Horus.Horus
import Sse.Lib.PathOram

/-!
# The leaf labels of the three stores

A tree for `m` blocks has depth `floor(log2(m / Z))`, and `GetNodeOnPath` sends the labels
`0 .. 2 ^ depth - 1` to its leaf buckets, one to one (`leaves_bijOn`).  Three formulas say which
labels are drawn:

    AVLTree::RandomPath         0 .. (2^(depth+1) - 1) / 2         all of them           (avlTree_labels)
    ORAM::RandomPath            0 .. (2^depth - 1) / 2             the lower half        (oram_labels)
    Horus::generatePosition     modulo (2^(depth+1) - 1) / 2       all but the last one  (generatePosition_lt)

The last one divides by zero in a tree of depth 0.  So there is no size for which all three
draw all labels (`labels_never_match`).

`log2` and `pow` are exact here, and a `double` is a rational number.
-/

namespace Sse.Horus

open PathOram (nodeOnPath nodeOnPath_eq nodeOnPath_level)

/-! ## The functions -/

/-- `double` to `int`: the fraction is dropped. -/
def truncate (x : ℚ) : Int := if 0 ≤ x then ⌊x⌋ else ⌈x⌉

/-- `Z`. -/
def Z : Nat := 4

/-- `depth`, in `ORAM` and in `PRFORAM`. -/
def depthFor (m : Nat) : Nat := Nat.log 2 (m / Z)

/-- `bucketCount`. -/
def bucketCount (m : Nat) : Nat := 2 ^ (depthFor m + 1) - 1

/-- The upper bound of `dis` in `ORAM`. -/
def oramBound (m : Nat) : Int := truncate ((2 ^ depthFor m - 1) / 2)

/-- The upper bound of `dis` in `AVLTree`. -/
def avlTreeBound (m : Nat) : Int := truncate ((2 ^ (depthFor m + 1) - 1) / 2)

/-- What `uniform_int_distribution<int> dis(0, bound)` can draw. -/
def draws (bound : Int) : Set Int := Set.Icc 0 bound

/-- `key` in `generatePosition`: 31 bytes of `keyStr` and zeros. -/
def positionKey (p : PosArgs) : Str :=
  padTo 32 ((p.keyword ++ 45 :: toStr p.updt_cnt.toInt ++ 45 :: toStr p.src_cnt.toInt ++ 45 :: toStr p.acc_cnt.toInt).take 31)

/-- The modulus of `generatePosition`. -/
def positionModulus (maxSize : Nat) : Int := truncate ((2 ^ (Nat.log 2 (maxSize * 4 / Z) + 1) - 1) / 2)

/-- `Horus::generatePosition`; `derive` gives the first four bytes of the generator, and the answer is `none` where
the code divides by zero. -/
def generatePosition (derive : Str → UInt32) (maxSize : Nat) (p : PosArgs) : Option Int :=
  let result : Int := (derive (positionKey p)).toNat
  if positionModulus maxSize = 0 then none else some (result % positionModulus maxSize)

/-! ## The labels of a tree -/

/-- The labels of the leaves. -/
def leaves (m : Nat) : Set Int := Set.Ico 0 (2 ^ depthFor m)

/-- The buckets without children. -/
def leafBuckets (m : Nat) : Set Nat := {i | i < bucketCount m ∧ bucketCount m ≤ 2 * i + 1}

/-- **`GetNodeOnPath`** sends the labels one to one to the leaf buckets. -/
theorem leaves_bijOn (m : Nat) :
    Set.BijOn (fun leaf => nodeOnPath (depthFor m) leaf (depthFor m)) (Set.Iio (2 ^ depthFor m)) (leafBuckets m) := by
  have hnode : ∀ leaf, nodeOnPath (depthFor m) leaf (depthFor m) = leaf + 2 ^ depthFor m - 1 := by
    intro leaf
    rw [nodeOnPath_eq le_rfl, Nat.sub_self, pow_zero, Nat.div_one]
  have hpos : 0 < 2 ^ depthFor m := Nat.two_pow_pos _
  have hcount : bucketCount m = 2 * 2 ^ depthFor m - 1 := by rw [bucketCount, pow_succ, mul_comm]
  refine ⟨fun leaf hl => ?_, fun a ha b hb he => ?_, fun i hi => ?_⟩
  · simp only [Set.mem_Iio] at hl
    simp only [leafBuckets, Set.mem_ofPred_eq, hnode, hcount]
    omega
  · simp only [hnode] at he
    omega
  · simp only [leafBuckets, Set.mem_ofPred_eq, hcount] at hi
    refine ⟨i + 1 - 2 ^ depthFor m, ?_, ?_⟩
    · rw [Set.mem_Iio]
      omega
    · simp only [hnode]
      omega

/-! ## Halves of powers -/

/-- A half too much is dropped. -/
theorem truncate_half (k : Nat) : truncate ((2 ^ (k + 1) - 1) / 2) = 2 ^ k - 1 := by
  have hone : (1 : ℚ) ≤ 2 ^ k := one_le_pow₀ (by norm_num)
  have hsplit : ((2 : ℚ) ^ (k + 1) - 1) / 2 = 2 ^ k - 1 / 2 := by
    rw [pow_succ]
    ring
  unfold truncate
  rw [hsplit, if_pos (by linarith), Int.floor_eq_iff]
  push_cast
  constructor <;> linarith

theorem avlTreeBound_eq (m : Nat) : avlTreeBound m = 2 ^ depthFor m - 1 := truncate_half _

theorem oramBound_zero {m : Nat} (h : depthFor m = 0) : oramBound m = 0 := by
  unfold oramBound truncate
  rw [h]
  norm_num

theorem oramBound_succ {m d : Nat} (h : depthFor m = d + 1) : oramBound m = 2 ^ d - 1 := by
  unfold oramBound
  rw [h]
  exact truncate_half d

theorem positionModulus_eq (maxSize : Nat) : positionModulus maxSize = 2 ^ depthFor (maxSize * 4) - 1 := truncate_half _

/-! ## What is drawn -/

/-- **`AVLTree::RandomPath`** draws every label. -/
theorem avlTree_labels (m : Nat) : draws (avlTreeBound m) = leaves m := by
  ext x
  simp only [draws, leaves, avlTreeBound_eq, Set.mem_Icc, Set.mem_Ico]
  omega

/-- **`ORAM::RandomPath`** draws the lower half of the labels in a tree of more than one bucket. -/
theorem oram_labels {m d : Nat} (h : depthFor m = d + 1) : draws (oramBound m) = Set.Ico 0 (2 ^ d) := by
  ext x
  simp only [draws, oramBound_succ h, Set.mem_Icc, Set.mem_Ico]
  omega

theorem oram_labels_iff (m : Nat) : draws (oramBound m) = leaves m ↔ depthFor m = 0 := by
  constructor
  · intro heq
    cases h : depthFor m with
    | zero => rfl
    | succ d =>
      -- the label in the middle
      have hpos : (0 : Int) < 2 ^ d := by positivity
      have hmem : (2 ^ d : Int) ∈ leaves m := by
        rw [leaves, h, Set.mem_Ico, pow_succ]
        omega
      rw [← heq, oram_labels h, Set.mem_Ico] at hmem
      omega
  · intro h
    ext x
    simp only [draws, leaves, oramBound_zero h, h, Set.mem_Icc, Set.mem_Ico, pow_zero]
    omega

section

variable {derive : Str → UInt32} {maxSize : Nat} {p : PosArgs}

theorem generatePosition_eq_none : generatePosition derive maxSize p = none ↔ depthFor (maxSize * 4) = 0 := by
  unfold generatePosition
  rw [positionModulus_eq]
  cases h : depthFor (maxSize * 4) with
  | zero => simp
  | succ d =>
    have hpos : (0 : Int) < 2 ^ d := by positivity
    have hne : ¬ (2 ^ (d + 1) - 1 : Int) = 0 := by
      rw [pow_succ]
      omega
    simp [hne]

/-- **`Horus::generatePosition`** never answers the last label. -/
theorem generatePosition_lt {pos : Int} (h : generatePosition derive maxSize p = some pos) :
    0 ≤ pos ∧ pos < 2 ^ depthFor (maxSize * 4) - 1 := by
  unfold generatePosition at h
  rw [positionModulus_eq] at h
  simp only [Option.ite_none_left_eq_some, Option.some.injEq] at h
  obtain ⟨hne, rfl⟩ := h
  have hpos : (0 : Int) < 2 ^ depthFor (maxSize * 4) := by positivity
  exact ⟨Int.emod_nonneg _ hne, Int.emod_lt_of_pos _ (by omega)⟩

/-- So its answers are never all labels. -/
theorem position_labels_ne :
    {pos | ∃ p, generatePosition derive maxSize p = some pos} ≠ leaves (maxSize * 4) := by
  intro heq
  have hpos : (0 : Int) < 2 ^ depthFor (maxSize * 4) := by positivity
  have hlast : (2 ^ depthFor (maxSize * 4) - 1 : Int) ∈ leaves (maxSize * 4) := by
    rw [leaves, Set.mem_Ico]
    omega
  rw [← heq] at hlast
  obtain ⟨p, hp⟩ := hlast
  exact absurd (generatePosition_lt hp).2 (lt_irrefl _)

end

/-! ## All three -/

/-- The three functions have values, and can answer every label of a leaf and nothing else. -/
structure LabelsMatch (derive : Str → UInt32) (maxSize : Nat) : Prop where
  avlTree_defined : 0 ≤ avlTreeBound (maxSize * 4)
  avlTree : draws (avlTreeBound (maxSize * 4)) = leaves (maxSize * 4)
  oram_defined : 0 ≤ oramBound (maxSize * 4)
  oram : draws (oramBound (maxSize * 4)) = leaves (maxSize * 4)
  position_defined : ∀ p, (generatePosition derive maxSize p).isSome
  position : {pos | ∃ p, generatePosition derive maxSize p = some pos} = leaves (maxSize * 4)
  one_to_one : Set.BijOn (fun leaf => nodeOnPath (depthFor (maxSize * 4)) leaf (depthFor (maxSize * 4)))
    (Set.Iio (2 ^ depthFor (maxSize * 4))) (leafBuckets (maxSize * 4))

/-- **No size** has all three functions draw all labels, whatever the generator. -/
theorem labels_never_match (derive : Str → UInt32) (maxSize : Nat) : ¬ LabelsMatch derive maxSize := fun h =>
  position_labels_ne h.position

theorem depthFor_two : depthFor (2 * 4) = 1 := by norm_num [depthFor, Z]

/-- In the tree of two leaves, `ORAM` and `Horus` draw leaf 0 only. -/
theorem two_leaves_one_label :
    leaves (2 * 4) = {0, 1} ∧ draws (avlTreeBound (2 * 4)) = {0, 1} ∧ draws (oramBound (2 * 4)) = {0} ∧
      generatePosition (fun _ => 5) 2 ⟨[97], 1, 0, 1⟩ = some 0 ∧ generatePosition (fun _ => 5) 1 ⟨[97], 1, 0, 1⟩ = none ∧
      ¬ LabelsMatch (fun _ => 5) 2 := by
  have hleaves : leaves (2 * 4) = {0, 1} := by
    ext x
    rw [leaves, depthFor_two, Set.mem_Ico, Set.mem_insert_iff, Set.mem_singleton_iff]
    omega
  have horam : draws (oramBound (2 * 4)) = {0} := by
    ext x
    rw [oram_labels depthFor_two, Set.mem_Ico, Set.mem_singleton_iff]
    omega
  refine ⟨hleaves, (avlTree_labels _).trans hleaves, horam, ?_, ?_, fun h => ?_⟩
  · unfold generatePosition
    rw [positionModulus_eq, depthFor_two]
    rfl
  · rw [generatePosition_eq_none]
    norm_num [depthFor, Z]
  · have hone : (1 : Int) ∈ ({0} : Set Int) := by
      rw [← horam, h.oram, hleaves]
      exact Or.inr rfl
    exact absurd (Set.mem_singleton_iff.1 hone) one_ne_zero

end Sse.Horus
