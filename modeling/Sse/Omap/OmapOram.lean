import Sse.Omap.Finilize
import Sse.Omap.Omap
import Sse.Omap.OramRuns
import Sse.Omap.Plan

/-!
# OMAP over ORAM

The tree over the store of buckets.  One operation reads and writes nodes in the cache, then
`finilize` gives the touched nodes new leaves and copies them to their parents, by rising
height up to `depth + 2`.  As long as no node is taller, the tree is the same tree after
each operation, and all leaves that are kept for a node are its leaf (`Kept`).

    insert, find, batchSearch keep the tree          (Kept.insert, Kept.find, Kept.batchSearch)
-/

namespace Sse.Omap

open Wp PathOram

/-! ## The calls that reach the ORAM -/

theorem KeepLeaves.leafOf {n : Nat} {m m' : Bid n → Option (Node n)} (h : KeepLeaves m m') {k : Bid n}
    (hk : (m k).isSome = true) : leafOf m' k = leafOf m k := by
  obtain ⟨node, hn⟩ := Option.isSome_iff_exists.1 hk
  obtain ⟨node', hn', hp⟩ := h k node hn
  rw [Omap.leafOf, Omap.leafOf, hn, hn']
  exact hp

namespace Oram

section

variable {n : Nat} (depth : Nat)

/-- The calls of `AVLTree`; a pointer is the key of an entry of the cache. -/
def nodeStore : NodeStore n (Oram n) where
  readNode bid leaf := fun s => .ok (s.readNode depth bid leaf leaf)
  readCached bid := fun s => (s.readCached bid).map fun k => (k, s)
  writeNode bid node := fun s => s.writeNode depth bid node
  deref bid := fun s => match s.cache.get? bid with
    | some node => .ok (node, s)
    | none => .error .nullNode
  assign bid f := fun s => match s.cache.get? bid with
    | some _ => .ok ((), s.setNode bid f)
    | none => .error .nullNode
  randomPath := fun s => .ok s.randomPath

def treeStore : TreeStore n (Oram n) where
  toNodeStore := nodeStore depth
  start batchWrite := modify fun s => s.start batchWrite
  finilize find rootKey rootPos := fun s => .ok (s.finilize depth find rootKey rootPos)

variable {depth}

theorem readCached_eq {s : Oram n} {k : Bid n} {node : Node n} (hz : k.isZero = false) (hc : s.cache.get? k = some node) :
    (nodeStore depth : NodeStore n (Oram n)).readCached k s = .ok (k, s) := by
  show (s.readCached k).map _ = _
  unfold Oram.readCached
  rw [hz, if_neg Bool.false_ne_true, hc, if_neg (by simp)]
  rfl

theorem deref_eq {s : Oram n} {k : Bid n} {node : Node n} (hc : s.cache.get? k = some node) :
    (nodeStore depth : NodeStore n (Oram n)).deref k s = .ok (node, s) := by
  simp only [nodeStore, hc]

theorem assign_eq {s : Oram n} {k : Bid n} {node : Node n} (hc : s.cache.get? k = some node) (f : Node n → Node n) :
    (nodeStore depth : NodeStore n (Oram n)).assign k f s = .ok ((), s.setNode k f) := by
  simp only [nodeStore, hc]

/-- An entry of the cache whose leaf is in `leafList`. -/
def Fetched (s : Oram n) (k : Bid n) : Prop := ∃ node, s.cache.get? k = some node ∧ node.pos ∈ s.leafList

theorem Frame.fetched {d : Nat} {s s' : Oram n} (h : Frame d s s') {k : Bid n} (hk : Fetched s k) : Fetched s' k := by
  obtain ⟨node, hc, hl⟩ := hk
  obtain ⟨node', hc', hp⟩ := h.kept k node hc
  exact ⟨node', hc', by rw [hp]; exact h.leafs _ hl⟩

variable (depth)

/-- In the middle of an operation that has started in `s₀`, with the nodes `stored`: what has been touched is fetched,
and a batch has read what the plan says. -/
structure Noted (s₀ : Oram n) (stored : List (Bid n)) (s : Oram n) (m : Bid n → Option (Node n)) : Prop where
  mid : Mid depth s m
  there : ∀ k ∈ stored, (m k).isSome = true
  others : ∀ k, (m k).isSome = true → k ∈ stored ∨ k ∈ s.modified
  fetched : ∀ k ∈ s.modified, Fetched s k
  bucket : s.store.bucket = s₀.store.bucket
  planned : s.batchWrite = true →
    Planned depth s₀ stored s (s₀.planOf depth stored (leafOf m) s.modified.dedup)

variable {depth}

section

variable {s₀ s s' : Oram n} {stored : List (Bid n)} {m m' : Bid n → Option (Node n)}

theorem Noted.cached (h : Noted depth s₀ stored s m) {k : Bid n} (hk : Fetched s k) :
    ∃ node, m k = some node ∧ s.cache.get? k = some node := by
  obtain ⟨node, hc, -⟩ := hk
  exact ⟨node, h.mid.of_cache hc, hc⟩

theorem Noted.isSome (h : Noted depth s₀ stored s m) {k : Bid n} (hk : k ∈ s.modified) : (m k).isSome = true := by
  obtain ⟨node, hm, -⟩ := h.cached (h.fetched k hk)
  rw [hm]
  rfl

theorem Noted.nonZero (h : Noted depth s₀ stored s m) : ∀ k ∈ stored, k.isZero = false := by
  intro k hk
  obtain ⟨node, hn⟩ := Option.isSome_iff_exists.1 (h.there k hk)
  exact (h.mid.wf hn).2.1

/-- The plan so far is not changed by what happens to the nodes. -/
theorem Noted.planOf (h : Noted depth s₀ stored s m) (hleaves : KeepLeaves m m') :
    s₀.planOf depth stored (leafOf m') s.modified.dedup = s₀.planOf depth stored (leafOf m) s.modified.dedup :=
  planOf_congr _ _ _ fun _ hk => hleaves.leafOf (h.isSome (List.mem_dedup.1 hk))

/-- One more step, where nodes keep their leaves. -/
theorem Noted.next (h : Noted depth s₀ stored s m) {d : Nat} (hframe : Frame d s s') (hmid : Mid depth s' m')
    (hleaves : KeepLeaves m m') (hothers : ∀ k, (m' k).isSome = true → (m k).isSome = true ∨ k ∈ s'.modified)
    (hmod : ∀ k ∈ s'.modified, k ∈ s.modified ∨ Fetched s' k)
    (hplan : s.batchWrite = true → Planned depth s₀ stored s (s₀.planOf depth stored (leafOf m') s.modified.dedup) →
      Planned depth s₀ stored s' (s₀.planOf depth stored (leafOf m') s'.modified.dedup)) :
    Noted depth s₀ stored s' m' where
  mid := hmid
  there k hk := by
    obtain ⟨node, hn⟩ := Option.isSome_iff_exists.1 (h.there k hk)
    obtain ⟨node', hn', -⟩ := hleaves k node hn
    rw [hn']
    rfl
  others k hk := by
    rcases hothers k hk with hk | hk
    · exact (h.others k hk).imp_right fun hk => hframe.touches.subset hk
    · exact Or.inr hk
  fetched k hk := (hmod k hk).elim (fun hk => hframe.fetched (h.fetched k hk)) id
  bucket := hframe.bucket.trans h.bucket
  planned hb := by
    have hb' : s.batchWrite = true := hframe.batch.symm.trans hb
    refine hplan hb' ?_
    rw [h.planOf hleaves]
    exact h.planned hb'

theorem planOf_touch {leaf : Bid n → Nat} {ks : List (Bid n)} {k : Bid n} (hk : k ∉ ks) :
    s₀.planOf depth stored leaf (k :: ks).dedup =
      s₀.planTouch depth stored leaf k (s₀.planOf depth stored leaf ks.dedup) := by
  rw [List.dedup_cons_of_notMem hk]
  rfl

/-- A node that is fetched is touched. -/
theorem Noted.touch (h : Noted depth s₀ stored s m) {k : Bid n} (hk : Fetched s k)
    (hp : Planned depth s₀ stored s (s₀.planOf depth stored (leafOf m) s.modified.dedup)) :
    Planned depth s₀ stored (s.touch k) (s₀.planOf depth stored (leafOf m) (k :: s.modified).dedup) := by
  refine Planned.congr (s := s) ?_ (fun _ => Iff.rfl) rfl fun _ _ => rfl
  by_cases hmod : k ∈ s.modified
  · rw [List.dedup_cons_of_mem hmod]
    exact hp
  · rw [planOf_touch hmod]
    obtain ⟨node, hc, hl⟩ := hk
    have hm := h.mid.of_cache hc
    have hstored := (h.others k (by rw [hm]; rfl)).resolve_right hmod
    refine hp.again hstored (by rw [hc]; rfl) ?_
    rw [leafOf, hm]
    exact hl

/-- A stored node is read. -/
theorem Noted.read (h : Noted depth s₀ stored s m) {k : Bid n} {node : Node n} (hk : m k = some node)
    (hp : Planned depth s₀ stored s (s₀.planOf depth stored (leafOf m) s.modified.dedup)) :
    Planned depth s₀ stored (s.readNode depth k node.pos node.pos).2
      (s₀.planOf depth stored (leafOf m) (k :: s.modified).dedup) := by
  have hleaf : leafOf m k = node.pos := by
    rw [leafOf, hk]
    rfl
  rw [h.mid.readNode_eq hk]
  by_cases hc : s.cache.get? k = none ∨ node.pos ∉ s.leafList
  · have hmod : k ∉ s.modified := by
      intro hmod
      obtain ⟨node', hn, hl⟩ := h.fetched k hmod
      obtain rfl := Option.some.inj (hk.symm.trans (h.mid.of_cache hn))
      rcases hc with hc | hc
      · rw [hn] at hc
        cases hc
      · exact hc hl
    have hstored := (h.others k (by rw [hk]; rfl)).resolve_right hmod
    rw [if_pos hc, planOf_touch hmod, ← hleaf]
    rw [← hleaf] at hc
    exact Planned.congr (hp.fetch h.mid h.bucket h.nonZero hstored hc) (fun _ => Iff.rfl) rfl fun _ _ => rfl
  · rw [if_neg hc]
    rw [not_or, not_not] at hc
    obtain ⟨node', hn⟩ := Option.ne_none_iff_exists'.1 hc.1
    obtain rfl := Option.some.inj (hk.symm.trans (h.mid.of_cache hn))
    exact h.touch ⟨node, hn, hc.2⟩ hp

end

variable (depth)

/-- **In the middle of an operation** the ORAM is a lawful store, that throws when it is full or for a zero key. -/
def laws {E : Err → Prop} (hE : E .noSpace) (s₀ : Oram n) (stored : List (Bid n)) :
    Laws (nodeStore depth : NodeStore n (Oram n)) E where
  Abs s m := Noted depth s₀ stored s m
  cached := Fetched
  touched := Touched
  log := modified
  Leaf leaf := leaf < 2 ^ depth
  next s := s.rnd s.drawn
  Le := Frame
  le_refl := Frame.refl
  le_trans := Frame.trans
  le_cached h hk := h.fetched hk
  le_next := @Frame.next n
  le_log h := h.touches
  mem_log := @mem_modified n
  wf h hk := ⟨(h.mid.wf hk).1, (h.mid.wf hk).2.1⟩
  readNode := by
    intro s m k node h hk
    have hplan := h.read hk
    obtain ⟨s', heq, hmid, hframe, hc, hmod, -, hleafs⟩ := h.mid.readNode hk
    rw [heq] at hplan
    have hf : Fetched s' k := ⟨node, hc, (hleafs _).2 (Or.inr rfl)⟩
    refine Run.of_ok (a := some k) (t := s') (congrArg Except.ok heq)
      ⟨rfl, h.next hframe hmid (.refl m) (fun _ => Or.inl) (fun j hj => ?_) (fun _ hp => ?_), hframe, hf, fun j => ?_⟩
    · rw [hmod] at hj
      exact (List.mem_cons.1 hj).symm.imp_right fun he => (congrArg (Fetched s') he).mpr hf
    · rw [hmod]
      exact hplan hp
    · rw [← mem_modified, ← mem_modified, hmod, List.mem_cons]
      exact or_comm
  readNode_zero := by
    intro s k leaf hz
    exact Run.of_ok (a := none) (t := s) (congrArg Except.ok (readNode_isZero hz leaf leaf)) ⟨rfl, rfl⟩
  readCached := by
    intro s m k h hc
    obtain ⟨node, hm, hn⟩ := h.cached hc
    exact Run.of_ok (readCached_eq (h.mid.wf hm).2.1 hn) ⟨rfl, rfl⟩
  deref := by
    intro s m k node h hc hk
    obtain ⟨node', hm, hn⟩ := h.cached hc
    obtain rfl := Option.some.inj (hk.symm.trans hm)
    exact Run.of_ok (deref_eq hn) ⟨rfl, rfl⟩
  assign := by
    intro s m k node f h hc hk hkey hpos
    obtain ⟨node', hm, hn⟩ := h.cached hc
    obtain rfl := Option.some.inj (hk.symm.trans hm)
    have hset : s.setNode k f = s.putNode k (f node) := get?_setNode s hn f
    have hframe : Frame 0 s (s.setNode k f) := by
      rw [hset]
      refine frame_putNode s fun old ho => ?_
      obtain rfl := Option.some.inj (hn.symm.trans ho)
      exact hpos
    have hsame : (s.setNode k f).leafList = s.leafList ∧ (s.setNode k f).modified = s.modified ∧
        (s.setNode k f).readviewmap = s.readviewmap ∧
        ∀ j, ((s.setNode k f).cache.get? j).isSome = (s.cache.get? j).isSome := by
      rw [hset]
      refine ⟨rfl, rfl, rfl, fun j => ?_⟩
      rw [get?_putNode]
      split_ifs with hj
      · rw [hj, hn]
        rfl
      · rfl
    have hleaves : KeepLeaves m (Function.update m k (some (f node))) := .update hk hpos
    refine Run.of_ok (assign_eq hn f)
      ⟨h.next hframe (h.mid.setNode hn hkey hpos) hleaves (fun j hj => ?_) (fun j hj => ?_) (fun _ hp => ?_), hframe,
        fun j => ?_⟩
    · by_cases he : j = k
      · rw [he, hk]
        exact Or.inl rfl
      · rw [Function.update_of_ne he] at hj
        exact Or.inl hj
    · exact Or.inl (hsame.2.1 ▸ hj)
    · rw [hsame.2.1]
      exact hp.congr (fun l => by rw [hsame.1]) hsame.2.2.1 fun j _ => hsame.2.2.2 j
    · rw [← mem_modified, ← mem_modified, hsame.2.1]
  writeNode_cached := by
    intro s m k node h hc
    obtain ⟨node', hm, hn⟩ := h.cached hc
    have hsome : (s.cache.get? k).isSome = true := by
      rw [hn]
      rfl
    refine Run.of_ok (a := node.pos) (t := s.touch k) (h.mid.writeNode_cached hsome node)
      ⟨h.next (frame_touch s k) (h.mid.touch hsome) (.refl m) (fun _ => Or.inl) (fun j hj => ?_) (fun _ hp => h.touch hc hp),
        frame_touch s k, fun j => ?_⟩
    · exact (List.mem_cons.1 hj).symm.imp_right fun he => (congrArg (Fetched _) he).mpr ((frame_touch s k).fetched hc)
    · show j ∈ k :: s.modified ↔ _
      rw [List.mem_cons]
      exact or_comm
  writeNode_new := by
    intro s m node h hnew hz hleaf
    rcases h.mid.writeNode_new hnew hz hleaf with herr | ⟨s', heq, hmid, hframe, hc, hmod, -, hleafs, hbatch⟩
    · exact Run.of_error herr hE
    · have hf : Fetched s' node.key := ⟨node, hc, (hleafs _).2 (Or.inr rfl)⟩
      -- the key is neither stored nor touched
      have hnone : ∀ {P : Prop}, (m node.key).isSome = true → P := fun hsome => by
        rw [hnew] at hsome
        cases hsome
      refine Run.of_ok (a := node.pos) (t := s') heq
        ⟨rfl, h.next hframe hmid (.insert hnew node) (fun j hj => ?_) (fun j hj => ?_) (fun hb hp => ?_), hframe, hf,
          fun j => ?_⟩
      · by_cases he : j = node.key
        · rw [hmod, he]
          exact Or.inr List.mem_cons_self
        · rw [Function.update_of_ne he] at hj
          exact Or.inl hj
      · rw [hmod] at hj
        exact (List.mem_cons.1 hj).symm.imp_right fun he => (congrArg (Fetched s') he).mpr hf
      · rw [hmod, planOf_touch fun hk => hnone (h.isSome hk)]
        obtain ⟨hreads, hcache⟩ := hbatch hb
        refine hp.give (fun hk => hnone (h.there _ hk)) (fun l => ?_) hreads fun j hj => ?_
        · rw [hleafs, leafOf, Function.update_self]
          rfl
        · rw [hcache j fun he => hnone (h.there _ (he ▸ hj))]
      · rw [← mem_modified, ← mem_modified, hmod, List.mem_cons]
        exact or_comm
  writeNode_zero := by
    intro s node hz he
    refine Run.of_error (e := .idNotSet) ?_ he
    show s.writeNode depth node.key node = _
    unfold Oram.writeNode
    rw [if_pos hz]
  randomPath := by
    intro s m h
    have hmid := h.mid
    refine Run.of_ok (a := s.rnd s.drawn) (t := { s with drawn := s.drawn + 1 }) rfl
      ⟨rfl, hmid.draws s.drawn, h.next (frame_randomPath s) ⟨hmid.holds, hmid.drained, hmid.seen, hmid.leafs,
        hmid.unwritten, hmid.touched, hmid.draws, hmid.covered⟩ (.refl m) (fun _ => Or.inl) (fun j hj => Or.inl hj)
        (fun _ hp => ⟨hp.leafs, hp.reads, hp.held⟩), frame_randomPath s, fun j => Iff.rfl⟩

end

end Oram

/-! ## The end of an operation -/

section

variable {n depth : Nat} {m m' : Bid n → Option (Node n)} {modified : List (Bid n)} {cached : Bid n → Prop}

theorem Same.childID {node node' : Node n} (h : Oram.Same node node') (d : Side) : node'.childID d = node.childID d := by
  cases d
  · exact h.leftID
  · exact h.rightID

/-- The leaf kept for a child of a cached node is copied, on either side. -/
theorem Settled.child (hs : Oram.Settled depth modified cached m m') {k : Bid n} {node node' c c' : Node n} (d : Side)
    (hc : cached k) (hk : m k = some node) (hk' : m' k = some node') (hh : node.height ≤ depth + 2)
    (hz : (node.childID d).isZero = false) (hm : m (node.childID d) = some c) (hm' : m' (node.childID d) = some c')
    (hlt : c.height < node.height) (hcur : node.childPos d = c.pos) : node'.childPos d = c'.pos := by
  cases d
  · exact hs.left k node node' c c' hc hk hk' hh hz hm hm' hlt hcur
  · exact hs.right k node node' c c' hc hk hk' hh hz hm hm' hlt hcur

/-- A child is followed from its parent after `finilize` as before. -/
theorem Settled.repr_child (hs : Oram.Settled depth modified cached m m') (hwf : ∀ k node, m k = some node → k.isZero = false)
    (hcached : ∀ j ∈ modified, cached j) {k : Bid n} {node node' : Node n} {d : Side} {a : Tree n} (hk : m k = some node)
    (hk' : m' k = some node') (hh : node.height ≤ depth + 2) (hlt : a.height < node.height)
    (hclosed : k ∈ modified ∨ ∀ j ∈ a.keys, j ∉ modified) (ha : Repr m (node.childID d) (node.childPos d) a)
    (ih : Repr m' (node.childID d) (leafOf m' (node.childID d)) a) : Repr m' (node'.childID d) (node'.childPos d) a := by
  obtain ⟨node₁, h1, hsame, -, hun⟩ := hs.entry k node hk
  obtain rfl := Option.some.inj (h1.symm.trans hk')
  rw [Same.childID hsame d]
  cases a with
  | nil => exact ih
  | node l j v r =>
    obtain ⟨hj, c, hc, hcp, -, hch, -⟩ := ha
    rw [← hj] at hc
    obtain ⟨c', hc', -, hpos, -⟩ := hs.entry _ c hc
    have hcopy : node₁.childPos d = c'.pos := by
      by_cases hck : cached k
      · exact Settled.child hs d hck hk hk' hh (hwf _ _ hc) hc hc' (by omega) hcp.symm
      · -- neither the node nor its child was touched
        have hnot : node.childID d ∉ modified := by
          rcases hclosed with hmod | hall
          · exact absurd (hcached k hmod) hck
          · exact hall _ (AvlTree.mem_keys_node.2 (Or.inr (Or.inl hj)))
        rw [hun hck, ← hcp, hpos hnot]
    rw [hcopy, show c'.pos = leafOf m' (node.childID d) by rw [leafOf, hc']; rfl]
    exact ih

/-- **`finilize` keeps the tree**, if it is not too high for the position loop. -/
theorem Repr.settled {t : Tree n} {k : Bid n} {p : Nat} (h : Repr m k p t) (hs : Oram.Settled depth modified cached m m')
    (hwf : ∀ k node, m k = some node → k.isZero = false) (hcached : ∀ j ∈ modified, cached j)
    (hclosed : Closed (· ∈ modified) t) (hh : t.height ≤ depth + 2) : Repr m' k (leafOf m' k) t := by
  induction t generalizing k p with
  | nil => exact h
  | node l k' v r ihl ihr =>
    obtain ⟨rfl, node, hk, -, hv, hheight, hl, hr⟩ := h
    obtain ⟨node', hk', hsame, -⟩ := hs.entry k node hk
    obtain ⟨hroot, hcl, hcr⟩ := hclosed
    simp only [AvlTree.height] at hh hheight
    refine ⟨rfl, node', hk', by rw [leafOf, hk']; rfl, hsame.value.trans hv, hsame.height.trans hheight, ?_, ?_⟩
    · exact Settled.repr_child hs hwf hcached (d := .left) hk hk' (by omega) (by omega)
        (hroot.imp_right fun hall j hj => hall j (Or.inl hj)) hl (ihl hl hcl (by omega))
    · exact Settled.repr_child hs hwf hcached (d := .right) hk hk' (by omega) (by omega)
        (hroot.imp_right fun hall j hj => hall j (Or.inr hj)) hr (ihr hr hcr (by omega))

/-! ## One operation -/

theorem Repr.isSome {t : Tree n} {k : Bid n} {p : Nat} (h : Repr m k p t) {j : Bid n} (hj : j ∈ t.keys) : (m j).isSome = true := by
  induction t generalizing k p with
  | nil => cases hj
  | node l k' v r ihl ihr =>
    obtain ⟨rfl, node, hk, -, -, -, hl, hr⟩ := h
    rcases AvlTree.mem_keys_node.1 hj with hj | rfl | hj
    · exact ihl hl hj
    · rw [hk]
      rfl
    · exact ihr hr hj

/-- Between operations: the blocks are the nodes of the tree `t`, and the leaves kept for them are their own. -/
structure Kept (depth : Nat) (s : Oram n) (m : Bid n → Option (Node n)) (o : OMap n) (t : Tree n) : Prop where
  rest : Oram.Rest depth s m
  repr : Repr m o.rootKey o.rootPos t
  ordered : t.Ordered
  bal : t.Bal
  only : ∀ j, j ∉ t.keys → m j = none

/-- After an operation: the blocks are the nodes of the tree, and if it is not too high it is kept. -/
structure Ended (depth : Nat) (s : Oram n) (m : Bid n → Option (Node n)) (o : OMap n) (t : Tree n) : Prop where
  rest : Oram.Rest depth s m
  root : ∀ k, t.root? = some k → k = o.rootKey ∧ ∃ node, m k = some node ∧ node.height = t.height
  kept : t.height ≤ depth + 2 → Kept depth s m o t

variable {s : Oram n} {o : OMap n} {t : Tree n} {E : Err → Prop} {hE : E .noSpace} {s₀ : Oram n} {stored : List (Bid n)}

theorem kept_new {rnd : Nat → Nat} (h : ∀ i, rnd i < 2 ^ depth) :
    Kept depth (Oram.new depth rnd) (fun _ => none) (OMap.new : OMap n) .nil :=
  ⟨Oram.rest_new h, isZero_zero, List.Pairwise.nil, trivial, fun _ _ => rfl⟩

/-- `start`: the nodes of the tree are stored. -/
theorem Kept.start (h : Kept depth s m o t) (hE : E .noSpace) (batchWrite : Bool) :
    Stored (Oram.laws depth hE s t.keys) (s.start batchWrite) m (o.rootKey, o.rootPos) t where
  abs := by
    have hmod : (s.start batchWrite).modified = [] := h.rest.untouched
    refine ⟨h.rest.start batchWrite, fun k hk => h.repr.isSome hk, fun k hk => ?_, fun k hk => ?_, rfl, fun _ => ?_⟩
    · refine Or.inl ?_
      by_contra hnot
      rw [h.only k hnot] at hk
      cases hk
    · rw [hmod] at hk
      cases hk
    · rw [hmod]
      refine ⟨fun l => ?_, fun i => ?_, fun k _ => ?_⟩
      · show l ∈ s.leafList ↔ _
        rw [h.rest.leafs]
        simp [Oram.planOf]
      · show i ∈ [] ↔ _
        simp [Oram.planOf, nodes]
      · show (s.cache.get? k).isSome = true ↔ _
        simp [Oram.planOf, Oram.Held, nodes]
  repr := h.repr
  ordered := h.ordered
  bal := h.bal
  closed := closed_of_untouched (T := fun j => j ∈ (s.start batchWrite).modified) (fun j => by
    show j ∉ s.modified
    rw [h.rest.untouched]
    exact List.not_mem_nil) t
  only := h.only

/-- `finilize`. -/
theorem Stored.finilize {q : Bid n × Nat} (h : Stored (Oram.laws depth hE s₀ stored) s m q t)
    (hspare : s.batchWrite = true → Oram.Spare depth s) (find : Bool) :
    ∃ m', Ended depth (s.finilize depth find q.1 q.2).2 m' ⟨q.1, (s.finilize depth find q.1 q.2).1⟩ t := by
  have hmid : Oram.Mid depth s m := h.abs.mid
  obtain ⟨m', cached, hrest, hset, hcached, hpos, -, hout⟩ := hmid.finilize hspare find q.1 q.2
  refine ⟨m', hrest, fun k hk => ?_, fun hh => ⟨hrest, ?_, h.ordered, h.bal, fun j hj => hset.absent j (h.only j hj)⟩⟩
  · obtain ⟨rfl, node, hm, -, hheight⟩ := h.repr.root hk
    obtain ⟨node', hm', hsame, -⟩ := hset.entry _ node hm
    exact ⟨rfl, node', hm', hsame.height.trans hheight⟩
  · have hrepr := Repr.settled h.repr hset (fun k node hk => (hmid.wf hk).2.1)
      (fun j hj => hcached j (hmid.touched j hj)) h.closed hh
    cases t with
    | nil => exact hrepr
    | node l k v r =>
      obtain ⟨rfl, node, hm, hp, -⟩ := h.repr
      obtain ⟨node', hm', -, -, hun⟩ := hset.entry _ node hm
      have hroot : (s.finilize depth find q.1 q.2).1 = leafOf m' q.1 := by
        rw [leafOf, hm']
        by_cases hc : cached q.1
        · exact hpos node' hc hm'
        · rw [hout hc, hun hc, ← hp]
          rfl
      show Repr m' q.1 (s.finilize depth find q.1 q.2).1 _
      rw [hroot]
      exact hrepr

/-- The call of `AVLTree::insert` in the middle of an operation. -/
theorem Stored.insertNode {q : Bid n × Nat} (h : Stored (Oram.laws depth hE s₀ stored) s m q t) {fuel : Nat} (hf : t.height < fuel)
    {key : Bid n} (hkey : key.isZero = false ∨ E .idNotSet) (value : Str) :
    Run E (OMap.insertNode (Oram.treeStore depth) fuel q key value) s fun q' s' =>
      ∃ m', Stored (Oram.laws depth hE s₀ stored) s' m' q' (t.insert key (padTo 16 value)) ∧
        Inserted (Oram.laws depth hE s₀ stored) key (padTo 16 value) s m t s' m' := by
  have hq : Stored (Oram.laws depth hE s₀ stored) s m (if q.1.isZero then Bid.zero else q.1, q.2) t := by
    by_cases hz : q.1.isZero = true
    · rw [if_pos hz]
      refine ⟨h.abs, ?_, h.ordered, h.bal, h.closed, h.only⟩
      cases t with
      | nil => exact isZero_zero
      | node l k v r =>
        obtain ⟨hk, node, hm, -⟩ := h.repr
        rw [hk, ((Oram.laws depth hE s₀ stored).wf h.abs hm).2] at hz
        cases hz
    · rw [if_neg hz]
      exact h
  exact hq.insert hf hkey

/-- **`OMAP::insert`.** -/
theorem Kept.insert (h : Kept depth s m o t) (hE : E .noSpace) {fuel : Nat} (hf : t.height < fuel) {key : Bid n}
    (hkey : key.isZero = false ∨ E .idNotSet) (value : Str) :
    Run E (o.insert (Oram.treeStore depth) fuel key value) s fun o' s' =>
      ∃ m', Ended depth s' m' o' (t.insert key (padTo 16 value)) := by
  unfold OMap.insert
  refine Run.bind (P := fun _ s' => s' = s.start false) (Run.of_ok (a := ()) rfl rfl) ?_
  rintro - _ rfl
  refine Run.bind ((h.start hE false).insertNode hf hkey value) ?_
  rintro q s1 ⟨m1, hs1, hins⟩
  have hbatch : s1.batchWrite = false := hins.le.batch
  obtain ⟨m', hend⟩ := hs1.finilize (fun hb => by rw [hbatch] at hb; cases hb) false
  exact Run.of_ok rfl ⟨m', hend⟩

/-- A search leaves the tree as it is. -/
theorem Stored.visited {q : Bid n × Nat} {s' : Oram n} (h : Stored (Oram.laws depth hE s₀ stored) s m q t)
    (hv : Visited (Oram.laws depth hE s₀ stored).reads s m t s') : Stored (Oram.laws depth hE s₀ stored) s' m q t :=
  ⟨hv.abs, h.repr, h.ordered, h.bal, hv.closed, h.only⟩

/-- What a search starts from. -/
theorem Stored.headOf (h : Stored (Oram.laws depth hE s₀ stored) s m (o.rootKey, o.rootPos) t) :
    HeadOf (Oram.laws depth hE s₀ stored).reads.At m (some o.head) t :=
  h.repr.linked fun _ _ hk => (Oram.laws depth hE s₀ stored).wf h.abs hk

/-- **`OMAP::find`.** -/
theorem Kept.find (h : Kept depth s m o t) (hE : E .noSpace) {fuel : Nat} (hf : t.height < fuel) (key : Bid n) :
    Run E (o.find (Oram.treeStore depth) fuel key) s fun r s' =>
      r.2 = ((t.get? key).map cStr).getD [] ∧ ∃ m', Ended depth s' m' r.1 t := by
  unfold OMap.find
  cases t with
  | nil =>
    rw [if_pos (show o.rootKey.isZero = true from h.repr)]
    exact Run.pure ⟨rfl, m, h.rest, fun k hk => (nomatch hk), fun _ => h⟩
  | node l k v r =>
    have hz : ¬ o.rootKey.isZero = true := by
      obtain ⟨hk, node, hm, -⟩ := h.repr
      rw [hk, (h.rest.start false).wf hm |>.2.1]
      exact Bool.false_ne_true
    rw [if_neg hz]
    refine Run.bind (P := fun _ s' => s' = s.start false) (Run.of_ok (a := ()) rfl rfl) ?_
    rintro - _ rfl
    have hstart := h.start hE false
    refine Run.bind (search_spec hf hstart.abs hstart.headOf h.ordered.nodup hstart.closed key) ?_
    rintro res s1 ⟨hans, hvis⟩
    have hbatch : s1.batchWrite = false := hvis.le.batch
    obtain ⟨m', hend⟩ := (hstart.visited hvis).finilize (fun hb => by rw [hbatch] at hb; cases hb) true
    refine Run.of_ok rfl ⟨?_, m', hend⟩
    unfold Answers at hans
    cases hget : (AvlTree.node l k v r).get? key with
    | some w =>
      rw [hget] at hans
      obtain ⟨nd, rfl, -, rfl⟩ := hans
      rfl
    | none =>
      rw [hget] at hans
      obtain rfl := hans.resolve_right fun hc => nomatch hc.1
      rfl

/-- **`OMAP::batchSearch`.** -/
theorem Kept.batchSearch (h : Kept depth s m o t) (hE : E .noSpace) {fuel : Nat} (hf : t.height < fuel)
    (keys : List (Bid n)) :
    Run E (o.batchSearch (Oram.treeStore depth) fuel keys) s fun r s' =>
      r.2.map some = (t.hits keys).map t.get? ∧ ∃ m', Ended depth s' m' r.1 t := by
  unfold OMap.batchSearch
  refine Run.bind (P := fun _ s' => s' = s.start false) (Run.of_ok (a := ()) rfl rfl) ?_
  rintro - _ rfl
  have hstart := h.start hE false
  refine Run.bind (batchSearch_spec hf hstart.abs hstart.headOf h.ordered.nodup hstart.closed keys []) ?_
  rintro _ s1 ⟨rfl, hc, hvis⟩
  have hlinked : Linked (Oram.laws depth hE s t.keys).reads.At m o.rootKey o.rootPos t :=
    h.repr.linked fun _ _ hk => (Oram.laws depth hE s t.keys).wf hstart.abs hk
  rw [List.nil_append]
  refine Run.bind (derefs_spec (t := t) hvis.abs fun j hj =>
    ⟨hc j hj, hlinked.value h.ordered (AvlTree.mem_keys_of_mem_hits hj)⟩) ?_
  rintro result s2 ⟨hres, rfl⟩
  have hbatch : s2.batchWrite = false := hvis.le.batch
  obtain ⟨m', hend⟩ := (hstart.visited hvis).finilize (fun hb => by rw [hbatch] at hb; cases hb) true
  exact Run.of_ok rfl ⟨hres, m', hend⟩

end

end Sse.Omap
