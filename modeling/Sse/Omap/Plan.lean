import Sse.Omap.Oram

/-!
# What a batch reads

In `batchWrite` mode the path of a stored node is read when the node is first touched, and
that of a new node is only noted.  What has been read follows from the nodes touched, in
their order (`Oram.planOf`): a stored node is not read if a new node was given its leaf
before, and other paths have brought it into the cache.

    ReadNode of a stored node and WriteNode of a new one go by the plan       (Planned.fetch, Planned.give)
-/

namespace Sse.Omap

open PathOram

/-- The leaves of stored nodes whose paths are read, and those given to new nodes. -/
structure Plan where
  read : List Nat
  given : List Nat

section

variable {n : Nat}

/-- The leaf of the node under a key. -/
def leafOf (m : Bid n → Option (Node n)) (k : Bid n) : Nat := ((m k).map Node.pos).getD 0

end

namespace Oram

section

variable {n : Nat} (depth : Nat) (s : Oram n)

/-- A node is in the cache once the paths to `read` are read. -/
def Held (read : List Nat) (k : Bid n) : Prop :=
  (s.cache.get? k).isSome = true ∨ ∃ i ∈ nodes depth read, ∃ b ∈ s.store.bucket i, b.key = k

instance (read : List Nat) (k : Bid n) : Decidable (s.Held depth read k) :=
  inferInstanceAs (Decidable (_ ∨ ∃ i ∈ _, ∃ b ∈ _, _))

variable (stored : List (Bid n)) (leaf : Bid n → Nat)

/-- A node is touched for the first time. -/
def planTouch (k : Bid n) (p : Plan) : Plan :=
  if k ∈ stored then
    if leaf k ∈ p.given ∧ s.Held depth p.read k then p else { p with read := leaf k :: p.read }
  else { p with given := leaf k :: p.given }

/-- The nodes `ks` are touched, the last one first. -/
def planOf (ks : List (Bid n)) : Plan := ks.foldr (s.planTouch depth stored leaf) ⟨[], []⟩

variable {leaf}

theorem planOf_congr {leaf' : Bid n → Nat} {ks : List (Bid n)} (h : ∀ k ∈ ks, leaf' k = leaf k) :
    s.planOf depth stored leaf' ks = s.planOf depth stored leaf ks := by
  induction ks with
  | nil => rfl
  | cons k ks ih =>
    have htouch : ∀ p, s.planTouch depth stored leaf' k p = s.planTouch depth stored leaf k p := fun p => by
      unfold planTouch
      rw [h k List.mem_cons_self]
    exact (htouch _).trans (congrArg _ (ih fun j hj => h j (List.mem_cons_of_mem k hj)))

/-- The leaves that are given are those of the nodes touched. -/
theorem mem_given_planOf {ks : List (Bid n)} {l : Nat} (h : l ∈ (s.planOf depth stored leaf ks).given) :
    ∃ k ∈ ks, k ∉ stored ∧ leaf k = l := by
  induction ks with
  | nil => cases h
  | cons k ks ih =>
    have hrest : l ∈ (s.planOf depth stored leaf ks).given → ∃ j ∈ k :: ks, j ∉ stored ∧ leaf j = l := fun hl =>
      (ih hl).imp fun j hj => ⟨List.mem_cons_of_mem k hj.1, hj.2⟩
    replace h : l ∈ (s.planTouch depth stored leaf k (s.planOf depth stored leaf ks)).given := h
    unfold planTouch at h
    split_ifs at h with hk
    · exact hrest h
    · exact hrest h
    · rcases List.mem_cons.1 h with rfl | h
      · exact ⟨k, List.mem_cons_self, hk, rfl⟩
      · exact hrest h

end

/-! ## Going by a plan -/

/-- What has been read, noted and brought into the cache since the state `s₀` is what the plan says. -/
structure Planned {n : Nat} (depth : Nat) (s₀ : Oram n) (stored : List (Bid n)) (s : Oram n) (p : Plan) : Prop where
  leafs : ∀ l, l ∈ s.leafList ↔ l ∈ p.read ∨ l ∈ p.given
  reads : ∀ i, i ∈ s.readviewmap ↔ i ∈ nodes depth p.read
  held : ∀ k ∈ stored, (s.cache.get? k).isSome = true ↔ s₀.Held depth p.read k

section

variable {n depth : Nat} {s₀ s s' : Oram n} {stored : List (Bid n)} {leaf : Bid n → Nat} {k : Bid n} {p p' : Plan}

theorem mem_nodes_cons {l i : Nat} {ls : List Nat} :
    i ∈ nodes depth (l :: ls) ↔ i ∈ nodes depth ls ∨ i ∈ path depth l := by
  rw [mem_nodes, mem_nodes, List.exists_mem_cons_iff, or_comm]

theorem Planned.congr (h : Planned depth s₀ stored s p) (hl : ∀ l, l ∈ s'.leafList ↔ l ∈ s.leafList)
    (hr : s'.readviewmap = s.readviewmap) (hc : ∀ k ∈ stored, (s'.cache.get? k).isSome = (s.cache.get? k).isSome) :
    Planned depth s₀ stored s' p :=
  ⟨fun l => (hl l).trans (h.leafs l), fun i => by rw [hr, h.reads], fun k hk => by rw [hc k hk, h.held k hk]⟩

/-- A stored node that is in the cache, and whose leaf is noted. -/
theorem Planned.again (h : Planned depth s₀ stored s p) (hk : k ∈ stored) (hc : (s.cache.get? k).isSome = true)
    (hl : leaf k ∈ s.leafList) : Planned depth s₀ stored s (s₀.planTouch depth stored leaf k p) := by
  unfold planTouch
  rw [if_pos hk]
  split_ifs with hgiven
  · exact h
  · -- its path was read before
    have hread : leaf k ∈ p.read := ((h.leafs _).1 hl).resolve_right fun hg => hgiven ⟨hg, (h.held k hk).1 hc⟩
    have hnodes : ∀ i, i ∈ nodes depth (leaf k :: p.read) ↔ i ∈ nodes depth p.read := fun i => by
      rw [mem_nodes_cons]
      exact or_iff_left_of_imp fun hi => mem_nodes.2 ⟨_, hread, hi⟩
    refine ⟨fun l => ?_, fun i => ?_, fun j hj => ?_⟩
    · rw [h.leafs, List.mem_cons]
      exact or_congr_left (or_iff_right_of_imp fun he => he ▸ hread).symm
    · rw [h.reads, hnodes]
    · rw [h.held j hj, Held, Held]
      simp only [hnodes]

/-- **A stored node is read.** -/
theorem Planned.fetch {m : Bid n → Option (Node n)} (h : Planned depth s₀ stored s p) (hmid : Mid depth s m)
    (hb : s.store.bucket = s₀.store.bucket) (hz : ∀ k ∈ stored, k.isZero = false) (hk : k ∈ stored)
    (hc : s.cache.get? k = none ∨ leaf k ∉ s.leafList) :
    Planned depth s₀ stored ((fetchPath depth s (leaf k)).pushLeaf (leaf k)) (s₀.planTouch depth stored leaf k p) := by
  have hnot : ¬ (leaf k ∈ p.given ∧ s₀.Held depth p.read k) := by
    rintro ⟨hg, hheld⟩
    rcases hc with hc | hl
    · rw [← h.held k hk, hc] at hheld
      cases hheld
    · exact hl ((h.leafs _).2 (Or.inr hg))
  unfold planTouch
  rw [if_pos hk, if_neg hnot]
  refine ⟨fun l => ?_, fun i => ?_, fun j hj => ?_⟩
  · rw [mem_pushLeaf, List.mem_cons]
    show l ∈ s.leafList ∨ l = leaf k ↔ _
    rw [h.leafs]
    tauto
  · rw [pushLeaf_readviewmap, mem_readviewmap_fetchPath, h.reads, mem_nodes_cons]
  · rw [cache_pushLeaf, hmid.isSome_fetchPath (hz j hj), h.held j hj, hb, Held, Held, or_assoc]
    simp only [mem_nodes_cons]
    refine or_congr_right ⟨?_, ?_⟩
    · rintro (⟨i, hi, hbi⟩ | ⟨i, hi, hbi⟩)
      · exact ⟨i, Or.inl hi, hbi⟩
      · exact ⟨i, Or.inr hi, hbi⟩
    · rintro ⟨i, hi | hi, hbi⟩
      · exact Or.inl ⟨i, hi, hbi⟩
      · exact Or.inr ⟨i, hi, hbi⟩

/-- **A leaf is given** to a new node. -/
theorem Planned.give (h : Planned depth s₀ stored s p) (hk : k ∉ stored)
    (hl : ∀ l, l ∈ s'.leafList ↔ l ∈ s.leafList ∨ l = leaf k) (hr : s'.readviewmap = s.readviewmap)
    (hc : ∀ j ∈ stored, (s'.cache.get? j).isSome = (s.cache.get? j).isSome) :
    Planned depth s₀ stored s' (s₀.planTouch depth stored leaf k p) := by
  unfold planTouch
  rw [if_neg hk]
  refine ⟨fun l => ?_, fun i => by rw [hr, h.reads], fun j hj => by rw [hc j hj, h.held j hj]⟩
  rw [hl, h.leafs, List.mem_cons]
  tauto

end

end Oram

end Sse.Omap
