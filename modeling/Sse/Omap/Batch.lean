import Sse.Omap.OmapOram

/-!
# Batches

In `batchWrite` mode the path of a new node is noted and not read, and `finilize` writes it
back.  What a batch will have read is known before: the nodes it touches follow from the
tree (`batchVisits`), stored nodes have their leaves, and new ones get those drawn next
(`batchLeaf`).  A batch spares the nodes if every bucket on the path of a new node is empty
or on a path that is read.

    batchInsert                         keeps the tree if it spares the nodes           (Kept.batchInsert)
-/

namespace Sse.Omap

open Wp PathOram

/-! ## What a batch touches -/

section

variable {n : Nat}

/-- The nodes touched by the insertions of a batch into the tree `t`, the last one first. -/
def batchVisits : Tree n → List (Bid n × Str) → List (Bid n)
  | _, [] => []
  | t, (k, v) :: es => batchVisits (t.insert k (padTo 16 v)) es ++ visits k t

/-- The leaves of the nodes with those of the new nodes, of which the first is `rnd i`. -/
def batchLeaf (rnd : Nat → Nat) : Tree n → Nat → List (Bid n × Str) → (Bid n → Nat) → Bid n → Nat
  | _, _, [], leaf => leaf
  | t, i, (k, v) :: es, leaf =>
    batchLeaf rnd (t.insert k (padTo 16 v)) (i + draws k (padTo 16 v) t) es
      (if k ∈ t.keys then leaf else Function.update leaf k (rnd i))

/-- What a batch will do to an ORAM that stores the nodes of `t`. -/
def Oram.plan (depth : Nat) (s : Oram n) (t : Tree n) (es : List (Bid n × Str)) : Plan :=
  s.planOf depth t.keys (batchLeaf s.rnd t s.drawn es (leafOf (s.current depth))) (batchVisits t es).dedup

/-- **A batch spares the nodes**: a bucket on the path of a new node holds none, or is on a path that is read. -/
def Oram.Spares (depth : Nat) (s : Oram n) (t : Tree n) (es : List (Bid n × Str)) : Prop :=
  ∀ l ∈ (s.plan depth t es).given, ∀ i ∈ path depth l,
    (∀ b ∈ s.store.bucket i, b.key.isZero = true) ∨ i ∈ nodes depth (s.plan depth t es).read

instance (depth : Nat) (s : Oram n) (t : Tree n) (es : List (Bid n × Str)) : Decidable (s.Spares depth t es) :=
  inferInstanceAs (Decidable (∀ l ∈ _, ∀ i ∈ _, (∀ b ∈ _, _) ∨ _))

variable {rnd : Nat → Nat} {t : Tree n} {i : Nat} {es : List (Bid n × Str)} {leaf leaf' : Bid n → Nat} {k : Bid n}

theorem batchLeaf_congr (h : leaf' k = leaf k) : batchLeaf rnd t i es leaf' k = batchLeaf rnd t i es leaf k := by
  induction es generalizing t i leaf leaf' with
  | nil => exact h
  | cons e es ih =>
    refine ih ?_
    split_ifs
    · exact h
    · by_cases hk : k = e.1
      · rw [hk, Function.update_self, Function.update_self]
      · rw [Function.update_of_ne hk, Function.update_of_ne hk, h]

theorem batchLeaf_lt {N : Nat} (hrnd : ∀ j, rnd j < N) (h : leaf k < N) : batchLeaf rnd t i es leaf k < N := by
  induction es generalizing t i leaf with
  | nil => exact h
  | cons e es ih =>
    refine ih ?_
    split_ifs
    · exact h
    · by_cases hk : k = e.1
      · rw [hk, Function.update_self]
        exact hrnd i
      · rw [Function.update_of_ne hk]
        exact h

end

/-! ## The plan is followed -/

section

variable {n depth : Nat} {m m' : Bid n → Option (Node n)} {s s' s₀ : Oram n} {o : OMap n} {t : Tree n} {E : Err → Prop}
variable {hE : E .noSpace} {stored : List (Bid n)}

/-- **One insertion** gives the leaf that is drawn next to the new node. -/
theorem Inserted.leafOf {q q' : Bid n × Nat} {k : Bid n} {v : List UInt8}
    (hs : Stored (Oram.laws depth hE s₀ stored) s m q t)
    (hs' : Stored (Oram.laws depth hE s₀ stored) s' m' q' (t.insert k v))
    (hins : Inserted (Oram.laws depth hE s₀ stored) k v s m t s' m') :
    leafOf m' = if k ∈ t.keys then leafOf m else Function.update (leafOf m) k (s.rnd s.drawn) := by
  funext j
  by_cases hj : j ∈ t.keys
  · rw [hins.leaves.leafOf (hs.repr.isSome hj)]
    split_ifs with hk
    · rfl
    · rw [Function.update_of_ne fun he => hk (by rw [← he]; exact hj)]
  · by_cases hjk : j = k
    · subst hjk
      obtain ⟨node, hm', hp⟩ := hins.leaf hj
      rw [if_neg hj, Function.update_self, Omap.leafOf, hm']
      exact hp
    · -- not in the tree, before and after
      have hnone := hs'.only j fun hmem => ((AvlTree.mem_keys_insert hs.ordered).1 hmem).elim hjk hj
      have hsame : Omap.leafOf m' j = Omap.leafOf m j := by rw [Omap.leafOf, Omap.leafOf, hnone, hs.only j hj]
      split_ifs
      · exact hsame
      · rw [Function.update_of_ne hjk, hsame]

/-- The insertions of a batch, one after the other. -/
theorem Stored.insertNodes {q : Bid n × Nat} (h : Stored (Oram.laws depth hE s₀ stored) s m q t)
    {es : List (Bid n × Str)} {fuel : Nat} (hf : t.height + es.length ≤ fuel) (hkeys : ∀ e ∈ es, e.1.isZero = false ∨ E .idNotSet) :
    Run E (es.foldlM (fun q pair => OMap.insertNode (Oram.treeStore depth) fuel q pair.1 pair.2) q) s fun q' s' =>
      ∃ m' d, Stored (Oram.laws depth hE s₀ stored) s' m' q' (es.foldl (fun t e => t.insert e.1 (padTo 16 e.2)) t) ∧
        Oram.Frame d s s' ∧ s'.modified.dedup = (batchVisits t es ++ s.modified).dedup ∧
        leafOf m' = batchLeaf s.rnd t s.drawn es (leafOf m) := by
  induction es generalizing s m q t with
  | nil => exact Run.pure ⟨m, 0, h, Oram.Frame.refl s, rfl, rfl⟩
  | cons e es ih =>
    rw [List.length_cons] at hf
    rw [List.foldlM_cons]
    refine Run.bind (h.insertNode (by omega) (hkeys e List.mem_cons_self) e.2) ?_
    rintro q1 s1 ⟨m1, hs1, hins⟩
    have hframe : Oram.Frame (draws e.1 (padTo 16 e.2) t) s s1 := hins.le
    have hlog : s1.modified.dedup = (visits e.1 t ++ s.modified).dedup := hins.log
    have hgrow := (AvlTree.bal_insert h.bal e.1 (padTo 16 e.2)).2.2.1
    refine (ih hs1 (by omega) fun e' he' => hkeys e' (List.mem_cons_of_mem _ he')).mono ?_
    rintro q2 s2 ⟨m2, d, hs2, hframe2, hlog2, hleaf2⟩
    refine ⟨m2, _, hs2, hframe.trans hframe2, ?_, ?_⟩
    · rw [hlog2, batchVisits, List.append_assoc, List.dedup_append, hlog, ← List.dedup_append]
    · rw [hleaf2, hins.leafOf h hs1, hframe.rnd, hframe.drawn]
      rfl

/-- **The plan is followed.** -/
theorem Kept.planned {es : List (Bid n × Str)} (h : Kept depth s m o t) (hs' : Oram.Noted depth s t.keys s' m')
    (hb : s'.batchWrite = true) (hlog : s'.modified.dedup = (batchVisits t es).dedup)
    (hleaf : leafOf m' = batchLeaf s.rnd t s.drawn es (leafOf m)) :
    Oram.Planned depth s t.keys s' (s.plan depth t es) := by
  have hplan := hs'.planned hb
  -- what was touched is stored, and no key that is stored is zero
  have hstart : ∀ k ∈ s'.modified.dedup, batchLeaf s.rnd t s.drawn es (leafOf m) k =
      batchLeaf s.rnd t s.drawn es (leafOf (s.current depth)) k := by
    intro k hk
    obtain ⟨node, hm'⟩ := Option.isSome_iff_exists.1 (hs'.isSome (List.mem_dedup.1 hk))
    refine batchLeaf_congr ?_
    rw [leafOf, leafOf, h.rest.current (hs'.mid.wf hm').2.1]
  rw [hleaf, Oram.planOf_congr depth s t.keys hstart, hlog] at hplan
  exact hplan

/-- What `finilize` writes back is read or empty. -/
theorem Oram.Planned.spare {es : List (Bid n × Str)} (h : Oram.Planned depth s t.keys s' (s.plan depth t es))
    (hbucket : s'.store.bucket = s.store.bucket) (hspares : s.Spares depth t es) : Oram.Spare depth s' := by
  intro i hi
  obtain ⟨l, hl, hil⟩ := mem_nodes.1 hi
  rcases (h.leafs l).1 hl with hread | hgiven
  · exact Or.inl ((h.reads i).2 (mem_nodes.2 ⟨l, hread, hil⟩))
  · rcases hspares l hgiven i hil with hempty | hread
    · rw [← hbucket] at hempty
      exact Or.inr hempty
    · exact Or.inl ((h.reads i).2 hread)

/-- **`OMAP::batchInsert`**, where it spares the nodes. -/
theorem Kept.batchInsert (h : Kept depth s m o t) (hE : E .noSpace) {pairs : SortedMap (Bid n) Str} {fuel : Nat}
    (hf : t.height + pairs.entries.length ≤ fuel) (hkeys : ∀ e ∈ pairs.entries, e.1.isZero = false ∨ E .idNotSet)
    (hspares : s.Spares depth t pairs.entries) :
    Run E (o.batchInsert (Oram.treeStore depth) fuel pairs) s fun o' s' =>
      ∃ m', Ended depth s' m' o' (pairs.entries.foldl (fun t e => t.insert e.1 (padTo 16 e.2)) t) := by
  unfold OMap.batchInsert
  refine Run.bind (P := fun _ s' => s' = s.start true) (Run.of_ok (a := ()) rfl rfl) ?_
  rintro - _ rfl
  refine Run.bind ((h.start hE true).insertNodes hf hkeys) ?_
  rintro q s1 ⟨m1, d, hs1, hframe, hlog, hleaf⟩
  have hmod : (s.start true).modified = [] := h.rest.untouched
  rw [hmod, List.append_nil] at hlog
  have hplanned := h.planned hs1.abs hframe.batch hlog hleaf
  obtain ⟨m', hend⟩ := hs1.finilize (fun _ => hplanned.spare hframe.bucket hspares) false
  exact Run.of_ok rfl ⟨m', hend⟩

/-- What is found under a key has a leaf. -/
theorem Oram.Rest.current_lt (h : Oram.Rest depth s m) (k : Bid n) : leafOf (s.current depth) k < 2 ^ depth := by
  unfold leafOf
  cases hcur : s.current depth k with
  | none => exact Nat.two_pow_pos depth
  | some node =>
    show node.pos < 2 ^ depth
    cases hz : k.isZero with
    | false =>
      rw [h.current hz] at hcur
      exact ((h.start false).wf hcur).2.2
    | true =>
      -- only dummies have a zero key
      unfold Oram.current at hcur
      cases hc : s.cache.get? k with
      | some node' =>
        have hnz := ((h.start false).wf (h.holds.stash k node' hc)).2.1
        rw [hz] at hnz
        cases hnz
      | none =>
        rw [hc] at hcur
        obtain ⟨i, hi, hnode⟩ := List.mem_flatMap.1 (List.mem_of_find?_eq_some hcur)
        have hkey : node.key = k := by simpa using List.find?_some hcur
        rcases (h.holds.slots i (List.mem_range.1 hi)).2 node hnode with hreal | hdummy
        · have hnz : (!node.key.isZero) = true := hreal
          rw [hkey, hz] at hnz
          cases hnz
        · rw [hdummy]
          exact Nat.two_pow_pos depth

/-- A batch into an empty map spares the nodes: there are none. -/
theorem Kept.spares_empty (h : Kept depth s m o .nil) (es : List (Bid n × Str)) : s.Spares depth .nil es := by
  intro l hl i hi
  refine Or.inl fun b hb => ?_
  by_contra hz
  have hlt : l < 2 ^ depth := by
    obtain ⟨k, -, -, rfl⟩ := Oram.mem_given_planOf _ _ _ hl
    exact batchLeaf_lt h.rest.draws (h.rest.current_lt k)
  have hreal : (layout depth : Layout (Bid n) (Node n)).real b.key = true := by
    show (!b.key.isZero) = true
    rw [Bool.eq_false_of_not_eq_true hz]
    rfl
  have hm : m b.key = some b := (h.rest.holds.bucket i
    (lt_size_of_mem_path (L := layout depth) hlt hi) (Finset.notMem_empty i) b hb hreal).1
  rw [h.only _ List.not_mem_nil] at hm
  cases hm

end

end Sse.Omap
