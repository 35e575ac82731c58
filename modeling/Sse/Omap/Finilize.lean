import Sse.Omap.Oram

/-!
# The end of an ORAM operation

`finilize` moves the nodes in the order of their heights: a node gets its new leaf before
its parent copies it, as long as the parent is higher, is in the cache, and is within the
loop's bound `depth + 2`.

    the position loop                                     (moved_moveNodes)
    copies of leaves that were current stay current       (settled_moveNodes)
    after the write-back the buckets hold the blocks      (Mid.finilize)
-/

namespace Sse.Omap

open PathOram

namespace Oram

section

variable {n depth : Nat} {s : Oram n} {m : Bid n → Option (Node n)}

/-! ## The position loop -/

/-- Same node, up to the leaves. -/
structure Same (node node' : Node n) : Prop where
  key : node'.key = node.key
  value : node'.value = node.value
  leftID : node'.leftID = node.leftID
  rightID : node'.rightID = node.rightID
  height : node'.height = node.height

theorem Same.refl (node : Node n) : Same node node := ⟨rfl, rfl, rfl, rfl, rfl⟩

theorem Same.trans {a b c : Node n} (h : Same a b) (h' : Same b c) : Same a c :=
  ⟨h'.key.trans h.key, h'.value.trans h.value, h'.leftID.trans h.leftID, h'.rightID.trans h.rightID,
    h'.height.trans h.height⟩

/-- The leaf that is copied for a child: that of the cached node, or the old one. -/
def childPos (s : Oram n) (id : Bid n) (old : Nat) : Nat :=
  if id.isZero then old
  else match s.cache.get? id with
    | some node => node.pos
    | none => old

/-- An entry with the same leaf gives its parents the same copy. -/
theorem childPos_putNode (s : Oram n) {k : Bid n} {a b : Node n} (h : a.pos = b.pos) (id : Bid n) (old : Nat) :
    childPos (s.putNode k a) id old = childPos (s.putNode k b) id old := by
  unfold childPos
  rw [get?_putNode, get?_putNode]
  by_cases he : id = k
  · simp only [he, if_true, h]
  · simp only [he, if_false]

/-- What the loop does to an entry of the right height. -/
theorem moveNode_eq {i : Nat} {k : Bid n} {tmp : Node n} (hk : s.cache.get? k = some tmp) (hi : tmp.height = i) :
    ∃ p d, (p = tmp.pos ∨ (tmp.key ∈ s.modified ∧ ∃ j, p = s.rnd j)) ∧
      moveNode i s k = { s.putNode k { tmp with
        pos := p
        leftPos := childPos (s.putNode k { tmp with pos := p }) tmp.leftID tmp.leftPos
        rightPos := childPos (s.putNode k { tmp with pos := p }) tmp.rightID tmp.rightPos } with drawn := d } := by
  -- after the first assignment
  obtain ⟨p, d, hp, h1⟩ : ∃ p d, (p = tmp.pos ∨ (tmp.key ∈ s.modified ∧ ∃ j, p = s.rnd j)) ∧
      (if tmp.key ∈ s.modified then (s.randomPath.2).setNode k (fun tmp => { tmp with pos := s.randomPath.1 }) else s) =
        { s.putNode k { tmp with pos := p } with drawn := d } := by
    by_cases hm : tmp.key ∈ s.modified
    · refine ⟨s.rnd s.drawn, s.drawn + 1, Or.inr ⟨hm, s.drawn, rfl⟩, ?_⟩
      rw [if_pos hm, get?_setNode _ (show (s.randomPath.2).cache.get? k = some tmp from hk)]
      rfl
    · refine ⟨tmp.pos, s.drawn, Or.inl rfl, ?_⟩
      rw [if_neg hm]
      exact (putNode_self s hk).symm
  refine ⟨p, d, hp, ?_⟩
  -- the two copies look up the cache as that assignment left it
  have hcopy : ∀ (node : Node n) (id : Bid n) (old : Nat) (f : Nat → Node n → Node n), node.pos = p → f old node = node →
      copyPos { s.putNode k node with drawn := d } k id f =
        { s.putNode k (f (childPos (s.putNode k { tmp with pos := p }) id old) node) with drawn := d } := by
    intro node id old f hpos hold
    rw [← childPos_putNode s (show node.pos = ({ tmp with pos := p } : Node n).pos from hpos)]
    have hentry : ({ s.putNode k node with drawn := d } : Oram n).cache.get? k = some node := by
      show (s.putNode k node).cache.get? k = some node
      rw [get?_putNode, if_pos rfl]
    unfold copyPos childPos
    by_cases hz : id.isZero = true
    · rw [if_pos hz, if_pos hz, hold]
    · rw [if_neg hz, if_neg hz]
      cases hc : (s.putNode k node).cache.get? id with
      | none =>
        rw [show ({ s.putNode k node with drawn := d } : Oram n).cache.get? id = none from hc]
        simp only [hold]
      | some c =>
        rw [show ({ s.putNode k node with drawn := d } : Oram n).cache.get? id = some c from hc]
        dsimp only
        rw [get?_setNode _ hentry]
        unfold putNode
        simp only [SortedMap.insert_insert]
  unfold moveNode
  rw [hk]
  dsimp only
  rw [if_pos hi, h1, hcopy { tmp with pos := p } tmp.leftID tmp.leftPos (fun x t => { t with leftPos := x }) rfl rfl]
  dsimp only
  rw [hcopy _ tmp.rightID tmp.rightPos (fun x t => { t with rightPos := x }) rfl rfl]

theorem moveNode_of_none {i : Nat} {k : Bid n} (hk : s.cache.get? k = none) : moveNode i s k = s := by
  unfold moveNode
  rw [hk]

theorem moveNode_of_ne {i : Nat} {k : Bid n} {tmp : Node n} (hk : s.cache.get? k = some tmp) (hi : tmp.height ≠ i) :
    moveNode i s k = s := by
  unfold moveNode
  rw [hk]
  dsimp only
  rw [if_neg hi]

/-- The copy of a child's leaf is current, if the child was stored at a lower height. -/
def Copied (s₀ s : Oram n) (node₀ : Node n) (id : Bid n) (old copy : Nat) : Prop :=
  ((id.isZero = true ∨ s₀.cache.get? id = none) → copy = old) ∧
    ∀ c₀, id.isZero = false → s₀.cache.get? id = some c₀ → c₀.height < node₀.height →
      ∃ c, s.cache.get? id = some c ∧ copy = c.pos

/-- How far the position loop is: `done` are the entries it has moved. -/
structure Moved (s₀ s : Oram n) (done : Bid n → Prop) : Prop where
  rest : s = { s₀ with store := { s₀.store with stash := s.cache }, drawn := s.drawn }
  absent : ∀ k, s₀.cache.get? k = none → s.cache.get? k = none
  entry : ∀ k node₀, s₀.cache.get? k = some node₀ → ∃ node, s.cache.get? k = some node ∧ Same node₀ node ∧
    (node₀.key ∉ s₀.modified → node.pos = node₀.pos) ∧ (¬ done k → node = node₀) ∧
    (done k → Copied s₀ s node₀ node₀.leftID node₀.leftPos node.leftPos ∧
      Copied s₀ s node₀ node₀.rightID node₀.rightPos node.rightPos)

theorem moved_start (s : Oram n) : Moved s s fun _ => False :=
  ⟨rfl, fun _ h => h, fun _ node h => ⟨node, h, Same.refl node, fun _ => rfl, fun _ => rfl, False.elim⟩⟩

theorem Moved.congr {s₀ s : Oram n} {done done' : Bid n → Prop} (h : Moved s₀ s done)
    (hd : ∀ k node, s₀.cache.get? k = some node → (done' k ↔ done k)) : Moved s₀ s done' := by
  refine ⟨h.rest, h.absent, fun k node hk => ?_⟩
  obtain ⟨node', h1, h2, h3, h4, h5⟩ := h.entry k node hk
  exact ⟨node', h1, h2, h3, fun hn => h4 fun hd' => hn ((hd k node hk).2 hd'), fun hd' => h5 ((hd k node hk).1 hd')⟩

/-- **One turn of the position loop**, in the order of the heights. -/
theorem Moved.step {s₀ s : Oram n} {done : Bid n → Prop} (h : Moved s₀ s done) {i : Nat} {k : Bid n} {node₀ : Node n}
    (hk : s₀.cache.get? k = some node₀) (hi : node₀.height = i) (hnew : ¬ done k)
    (hhigh : ∀ j c, s₀.cache.get? j = some c → done j → c.height ≤ i) :
    Moved s₀ (moveNode i s k) fun j => done j ∨ j = k := by
  obtain ⟨node, hn, hsame, hpos, hold, -⟩ := h.entry k node₀ hk
  obtain rfl := hold hnew
  obtain ⟨p, d, hp, heq⟩ := moveNode_eq hn hi
  have hget : ∀ j, (moveNode i s k).cache.get? j = if j = k then some { node with
      pos := p
      leftPos := childPos (s.putNode k { node with pos := p }) node.leftID node.leftPos
      rightPos := childPos (s.putNode k { node with pos := p }) node.rightID node.rightPos } else s.cache.get? j := by
    intro j
    rw [heq]
    exact get?_putNode s k j _
  have hmod : s.modified = s₀.modified := by rw [h.rest]
  -- the copies that the entry takes of its children's leaves
  have hchild : ∀ id old, Copied s₀ (moveNode i s k) node id old (childPos (s.putNode k { node with pos := p }) id old) := by
    intro id old
    refine ⟨fun hz => ?_, fun c₀ hz hc₀ hlt => ?_⟩
    · unfold childPos
      rcases hz with hz | hz
      · rw [if_pos hz]
      · have hne : id ≠ k := by
          rintro rfl
          rw [hk] at hz
          cases hz
        rw [get?_putNode, if_neg hne, h.absent id hz]
        simp
    · have hne : id ≠ k := by
        rintro rfl
        rw [hk] at hc₀
        rw [Option.some.inj hc₀] at hlt
        omega
      obtain ⟨c, hc, -⟩ := h.entry id c₀ hc₀
      refine ⟨c, by rw [hget, if_neg hne, hc], ?_⟩
      unfold childPos
      rw [hz, if_neg Bool.false_ne_true, get?_putNode, if_neg hne, hc]
  -- the copies taken before: their entries are lower, so they are not moved again
  have hkeep : ∀ j c₀ id old copy, s₀.cache.get? j = some c₀ → done j → Copied s₀ s c₀ id old copy →
      Copied s₀ (moveNode i s k) c₀ id old copy := by
    intro j c₀ id old copy hj hd hc
    refine ⟨hc.1, fun a₀ hz ha₀ hlt => ?_⟩
    obtain ⟨a, ha, hcopy⟩ := hc.2 a₀ hz ha₀ hlt
    have hne : id ≠ k := by
      rintro rfl
      have := hhigh j c₀ hj hd
      rw [hk] at ha₀
      rw [← Option.some.inj ha₀] at hlt
      omega
    exact ⟨a, by rw [hget, if_neg hne, ha], hcopy⟩
  refine ⟨?_, fun j hj => ?_, fun j c₀ hj => ?_⟩
  · rw [heq]
    conv_lhs => rw [h.rest]
    rfl
  · have hne : j ≠ k := by
      rintro rfl
      rw [hk] at hj
      cases hj
    rw [hget, if_neg hne]
    exact h.absent j hj
  · by_cases he : j = k
    · subst he
      rw [hk] at hj
      obtain rfl := Option.some.inj hj
      refine ⟨_, (hget j).trans (if_pos rfl), ⟨rfl, rfl, rfl, rfl, rfl⟩, fun hnm => ?_, fun hn' => absurd (Or.inr rfl) hn',
        fun _ => ⟨hchild _ _, hchild _ _⟩⟩
      rcases hp with hp | ⟨hm, -⟩
      · exact hp
      · rw [hmod] at hm
        exact absurd hm hnm
    · obtain ⟨c, hc, h2, h3, h4, h5⟩ := h.entry j c₀ hj
      refine ⟨c, by rw [hget, if_neg he, hc], h2, h3, fun hn' => h4 fun hd => hn' (Or.inl hd), fun hd => ?_⟩
      have hdone := hd.resolve_right he
      exact ⟨hkeep j c₀ _ _ _ hj hdone (h5 hdone).1, hkeep j c₀ _ _ _ hj hdone (h5 hdone).2⟩

/-- **One pass of the position loop.** -/
theorem Moved.pass {s₀ s : Oram n} {i : Nat}
    (h : Moved s₀ s fun j => ∃ c, s₀.cache.get? j = some c ∧ c.height < i) {ks : List (Bid n)} (hks : ks.Nodup) :
    Moved s₀ (ks.foldl (moveNode i) s) fun j => ∃ c, s₀.cache.get? j = some c ∧
      (c.height < i ∨ (c.height = i ∧ j ∈ ks)) := by
  induction ks using List.reverseRecOn with
  | nil => exact h.congr fun k node hk => by simp
  | append_singleton ks k ih =>
    obtain ⟨hnd, -, hdis⟩ := List.nodup_append.1 hks
    have hk : k ∉ ks := fun hk => hdis k hk k (List.mem_singleton.2 rfl) rfl
    have ih := ih hnd
    rw [List.foldl_append, List.foldl_cons, List.foldl_nil]
    cases hc : s₀.cache.get? k with
    | none =>
      rw [moveNode_of_none (ih.absent k hc)]
      refine ih.congr fun j c hj => ?_
      have hne : j ≠ k := by
        rintro rfl
        rw [hc] at hj
        cases hj
      simp [hne]
    | some node₀ =>
      by_cases hi : node₀.height = i
      · have hstep := ih.step hc hi (by
          rintro ⟨c, hc', hlt⟩
          rw [hc] at hc'
          obtain rfl := Option.some.inj hc'
          rcases hlt with hlt | ⟨-, hmem⟩
          · omega
          · exact hk hmem) (by
          rintro j c hj ⟨c', hj', hle⟩
          rw [hj] at hj'
          obtain rfl := Option.some.inj hj'
          omega)
        refine hstep.congr fun j c hj => ?_
        constructor
        · rintro ⟨c', hj', hle⟩
          rcases hle with hlt | ⟨he, hmem⟩
          · exact Or.inl ⟨c', hj', Or.inl hlt⟩
          · rcases List.mem_append.1 hmem with hmem | hmem
            · exact Or.inl ⟨c', hj', Or.inr ⟨he, hmem⟩⟩
            · exact Or.inr (List.mem_singleton.1 hmem)
        · rintro (⟨c', hj', hle⟩ | rfl)
          · exact ⟨c', hj', hle.imp_right fun hh => ⟨hh.1, List.mem_append_left _ hh.2⟩⟩
          · exact ⟨node₀, hc, Or.inr ⟨hi, List.mem_append_right _ (List.mem_singleton.2 rfl)⟩⟩
      · obtain ⟨node, hn, hsame, -⟩ := ih.entry k node₀ hc
        rw [moveNode_of_ne hn (by rw [hsame.height]; exact hi)]
        refine ih.congr fun j c hj => ?_
        constructor
        · rintro ⟨c', hj', hle⟩
          refine ⟨c', hj', hle.imp_right fun hh => ⟨hh.1, ?_⟩⟩
          rcases List.mem_append.1 hh.2 with hmem | hmem
          · exact hmem
          · obtain rfl := List.mem_singleton.1 hmem
            rw [hc] at hj'
            obtain rfl := Option.some.inj hj'
            exact absurd hh.1 hi
        · rintro ⟨c', hj', hle⟩
          exact ⟨c', hj', hle.imp_right fun hh => ⟨hh.1, List.mem_append_left _ hh.2⟩⟩

theorem Moved.isSome {s₀ s : Oram n} {done : Bid n → Prop} (h : Moved s₀ s done) (k : Bid n) :
    (s.cache.get? k).isSome = (s₀.cache.get? k).isSome := by
  cases hk : s₀.cache.get? k with
  | none => rw [h.absent k hk]
  | some node =>
    obtain ⟨node', hn, -⟩ := h.entry k node hk
    rw [hn]
    rfl

/-- **The position loop** moves all the entries of height up to `depth + 2`. -/
theorem moved_moveNodes (depth : Nat) (s : Oram n) :
    Moved s (moveNodes depth s) fun j => ∃ c, s.cache.get? j = some c ∧ c.height < depth + 3 := by
  unfold moveNodes
  generalize depth + 3 = h
  induction h with
  | zero => exact (moved_start s).congr fun k node _ => by simp
  | succ i ih =>
    rw [List.range_succ, List.foldl_append, List.foldl_cons, List.foldl_nil]
    generalize (List.range i).foldl (fun s i => (s.cache.entries.map Prod.fst).foldl (moveNode i) s) s = s' at ih ⊢
    have hkeys : s'.cache.entries.map Prod.fst = s.cache.entries.map Prod.fst := SortedMap.keys_eq ih.isSome
    have hnodup : (s.cache.entries.map Prod.fst).Nodup := by
      refine List.pairwise_map.2 (s.cache.sorted.imp fun {a b} hlt he => ?_)
      rw [he] at hlt
      exact Std.lt_irrefl hlt
    rw [hkeys]
    refine (ih.pass hnodup).congr fun k node hk => ?_
    have hmem : k ∈ s.cache.entries.map Prod.fst := by
      rw [SortedMap.mem_keys, hk]
      rfl
    constructor
    · rintro ⟨c, hc, hlt⟩
      exact ⟨c, hc, by
        by_cases he : c.height = i
        · exact Or.inr ⟨he, hmem⟩
        · exact Or.inl (by omega)⟩
    · rintro ⟨c, hc, hlt⟩
      exact ⟨c, hc, by omega⟩

/-! ## `finilize` -/

/-- The blocks of `m`, with the entries of the cache as they are now. -/
def overlay (s : Oram n) (m : Bid n → Option (Node n)) (k : Bid n) : Option (Node n) :=
  match s.cache.get? k with
  | some node => some node
  | none => m k

theorem Mid.overlay_self (h : Mid depth s m) : overlay s m = m := by
  funext k
  unfold overlay
  cases hc : s.cache.get? k with
  | none => rfl
  | some node => exact (h.of_cache hc).symm

theorem Mid.moveNode (h : Mid depth s (overlay s m)) (i : Nat) (k : Bid n) :
    Mid depth (moveNode i s k) (overlay (moveNode i s k) m) := by
  cases hc : s.cache.get? k with
  | none =>
    rw [moveNode_of_none hc]
    exact h
  | some tmp =>
    by_cases hi : tmp.height = i
    · obtain ⟨p, d, hp, heq⟩ := moveNode_eq hc hi
      obtain ⟨rfl, hz, hpos⟩ := h.wf (h.of_cache hc)
      have hlt : p < 2 ^ depth := by
        rcases hp with rfl | ⟨-, j, rfl⟩
        · exact hpos
        · exact h.draws j
      rw [heq]
      generalize childPos (s.putNode tmp.key { tmp with pos := p }) tmp.leftID tmp.leftPos = lp
      generalize childPos (s.putNode tmp.key { tmp with pos := p }) tmp.rightID tmp.rightPos = rp
      have hput := h.putNode { tmp with pos := p, leftPos := lp, rightPos := rp } hz hlt
        (Or.inr (by show (s.cache.get? tmp.key).isSome = true; rw [hc]; rfl))
      have hover : Function.update (overlay s m) tmp.key (some { tmp with pos := p, leftPos := lp, rightPos := rp }) =
          overlay (s.putNode tmp.key { tmp with pos := p, leftPos := lp, rightPos := rp }) m := by
        funext j
        unfold overlay
        rw [get?_putNode]
        by_cases he : j = tmp.key
        · rw [he, Function.update_self, if_pos rfl]
        · rw [Function.update_of_ne he, if_neg he]
      rw [hover] at hput
      exact ⟨hput.holds, hput.drained, hput.seen, hput.leafs, hput.unwritten, hput.touched, hput.draws, hput.covered⟩
    · rw [moveNode_of_ne hc hi]
      exact h

theorem Mid.moveNodes (h : Mid depth s m) : Mid depth (moveNodes depth s) (overlay (moveNodes depth s) m) := by
  have hpass : ∀ (ks : List (Bid n)) (i : Nat) (s : Oram n), Mid depth s (overlay s m) →
      Mid depth (ks.foldl (Oram.moveNode i) s) (overlay (ks.foldl (Oram.moveNode i) s) m) := by
    intro ks i
    induction ks with
    | nil => exact fun s hs => hs
    | cons k ks ih => exact fun s hs => ih _ (hs.moveNode i k)
  unfold Oram.moveNodes
  generalize List.range (depth + 3) = is
  have hstart : Mid depth s (overlay s m) := by
    rw [h.overlay_self]
    exact h
  clear h
  induction is generalizing s with
  | nil => exact hstart
  | cons i is ih => exact ih (hpass _ i s hstart)

theorem Mid.fakeReads (h : Mid depth s m) (k : Nat) :
    Mid depth (fakeReads depth k s) m ∧ Frame k s (fakeReads depth k s) ∧
      (fakeReads depth k s).modified = s.modified ∧ (fakeReads depth k s).emptyNodes = s.emptyNodes := by
  induction k generalizing s with
  | zero => exact ⟨h, Frame.refl s, rfl, rfl⟩
  | succ k ih =>
    have hnext : Mid depth { s with drawn := s.drawn + 1 } m :=
      ⟨h.holds, h.drained, h.seen, h.leafs, h.unwritten, h.touched, h.draws, h.covered⟩
    have heq : fakeRead depth s =
        (fetchPath depth { s with drawn := s.drawn + 1 } (s.rnd s.drawn)).pushLeaf (s.rnd s.drawn) :=
      fetchPath_pushLeaf _ _ _
    obtain ⟨h1, h2, h3, h4⟩ := ih (s := fakeRead depth s) (by rw [heq]; exact (hnext.visit (h.draws s.drawn)).1)
    have hframe : Frame 1 s (fakeRead depth s) := by
      rw [heq]
      exact ((frame_randomPath s).trans (frame_fetchPath _ _)).trans (frame_pushLeaf _ _)
    have hall : Frame (1 + k) s (fakeReads depth k (fakeRead depth s)) := hframe.trans h2
    rw [Nat.add_comm] at hall
    refine ⟨h1, hall, h3.trans ?_, h4.trans ?_⟩
    · rw [heq, pushLeaf_modified]
      rfl
    · rw [heq, pushLeaf_emptyNodes]
      rfl

/-- A bucket that is written back was read, or holds no block. -/
def Spare (depth : Nat) (s : Oram n) : Prop :=
  ∀ i ∈ nodes depth s.leafList, i ∈ s.readviewmap ∨ ∀ b ∈ s.store.bucket i, b.key.isZero = true

/-- **Writing back** what was read. -/
theorem Mid.writePaths (h : Mid depth s m) (hs : Spare depth s) :
    Holds (layout depth) ∅ (writePaths depth s).store m := by
  have hlt : ∀ i ∈ nodes depth s.leafList, i < (layout depth : Layout (Bid n) (Node n)).size := by
    intro i hi
    obtain ⟨l, hl, hp⟩ := mem_nodes.1 hi
    exact lt_size_of_mem_path (L := layout depth) (h.leafs l hl) hp
  have hall : Holds (layout depth) (nodes depth s.leafList) s.store m := by
    have hbury := h.holds.buryAll (E := nodes depth s.leafList \ s.readviewmap.toFinset)
      (fun i hi => hlt i (Finset.mem_sdiff.1 hi).1) (fun i hi b hb => by
        obtain ⟨hi1, hi2⟩ := Finset.mem_sdiff.1 hi
        rw [List.mem_toFinset] at hi2
        show (!b.key.isZero) = false
        rw [(hs i hi1).resolve_left hi2 b hb]
        rfl)
    have hset : s.readviewmap.toFinset ∪ nodes depth s.leafList \ s.readviewmap.toFinset = nodes depth s.leafList := by
      rw [Finset.union_sdiff_of_subset]
      intro i hi
      exact h.seen i (List.mem_toFinset.1 hi)
    rwa [hset] at hbury
  unfold Oram.writePaths
  rw [h.unwritten]
  exact Holds.writeBack h.leafs hall

/-- How `finilize` changes the blocks: new leaves for the nodes that were touched, and new copies of their
leaves in the parents that are cached. -/
structure Settled (depth : Nat) (modified : List (Bid n)) (cached : Bid n → Prop)
    (m m' : Bid n → Option (Node n)) : Prop where
  absent : ∀ k, m k = none → m' k = none
  entry : ∀ k node, m k = some node → ∃ node', m' k = some node' ∧ Same node node' ∧
    (k ∉ modified → node'.pos = node.pos) ∧ (¬ cached k → node' = node)
  left : ∀ k node node' c c', cached k → m k = some node → m' k = some node' → node.height ≤ depth + 2 →
    node.leftID.isZero = false → m node.leftID = some c → m' node.leftID = some c' → c.height < node.height →
    node.leftPos = c.pos → node'.leftPos = c'.pos
  right : ∀ k node node' c c', cached k → m k = some node → m' k = some node' → node.height ≤ depth + 2 →
    node.rightID.isZero = false → m node.rightID = some c → m' node.rightID = some c' → c.height < node.height →
    node.rightPos = c.pos → node'.rightPos = c'.pos

/-- A copy of a child's leaf that was current is current after the loop. -/
theorem Copied.current {s₀ s' : Oram n} (h : Mid depth s₀ m) (hmv : ∀ k, s₀.cache.get? k = none → s'.cache.get? k = none)
    {node₀ c c' : Node n} {id : Bid n} {old copy : Nat} (hcop : Copied s₀ s' node₀ id old copy)
    (hz : id.isZero = false) (hc : m id = some c) (hc' : overlay s' m id = some c') (hlt : c.height < node₀.height)
    (hold : old = c.pos) : copy = c'.pos := by
  cases hcache : s₀.cache.get? id with
  | none =>
    rw [hcop.1 (Or.inr hcache), hold]
    unfold overlay at hc'
    rw [hmv id hcache] at hc'
    dsimp only at hc'
    rw [hc] at hc'
    rw [Option.some.inj hc']
  | some c₀ =>
    have he : c₀ = c := by
      have := h.of_cache hcache
      rw [hc] at this
      exact (Option.some.inj this).symm
    obtain ⟨c₁, hc₁, hcopy⟩ := hcop.2 c₀ hz hcache (he ▸ hlt)
    unfold overlay at hc'
    rw [hc₁] at hc'
    rw [hcopy, Option.some.inj hc']

theorem settled_moveNodes (h : Mid depth s m) :
    Settled depth s.modified (fun k => (s.cache.get? k).isSome = true) m (overlay (Oram.moveNodes depth s) m) := by
  have hmv := moved_moveNodes depth s
  -- the entry of a cached block, before and after
  have hentry : ∀ k node, (s.cache.get? k).isSome = true → m k = some node →
      s.cache.get? k = some node ∧ node.key = k := by
    intro k node hc hk
    obtain ⟨node₀, hm, hn⟩ := h.cached hc
    rw [hk] at hm
    obtain rfl := Option.some.inj hm
    exact ⟨hn, (h.wf hk).1⟩
  refine ⟨fun k hk => ?_, fun k node hk => ?_, ?_, ?_⟩
  · have hnone : s.cache.get? k = none := by
      cases hc : s.cache.get? k with
      | none => rfl
      | some node =>
        rw [h.of_cache hc] at hk
        cases hk
    unfold overlay
    rw [hmv.absent k hnone]
    exact hk
  · cases hc : s.cache.get? k with
    | none =>
      refine ⟨node, ?_, Same.refl node, fun _ => rfl, fun _ => rfl⟩
      unfold overlay
      rw [hmv.absent k hc]
      exact hk
    | some node₀ =>
      obtain ⟨hn, hkey⟩ := hentry k node (by rw [hc]; rfl) hk
      obtain ⟨node', h1, h2, h3, -⟩ := hmv.entry k node hn
      refine ⟨node', ?_, h2, fun hnm => h3 (by rwa [hkey]), fun hnc => ?_⟩
      · unfold overlay
        rw [h1]
      · simp at hnc
  · intro k node node' c c' hc hk hk' hh hz hl hl' hlt hcur
    obtain ⟨hn, -⟩ := hentry k node hc hk
    obtain ⟨node₁, h1, -, -, -, h5⟩ := hmv.entry k node hn
    unfold overlay at hk'
    rw [h1] at hk'
    obtain rfl := Option.some.inj hk'
    exact (h5 ⟨node, hn, by omega⟩).1.current h hmv.absent hz hl hl' hlt hcur
  · intro k node node' c c' hc hk hk' hh hz hl hl' hlt hcur
    obtain ⟨hn, -⟩ := hentry k node hc hk
    obtain ⟨node₁, h1, -, -, -, h5⟩ := hmv.entry k node hn
    unfold overlay at hk'
    rw [h1] at hk'
    obtain rfl := Option.some.inj hk'
    exact (h5 ⟨node, hn, by omega⟩).2.current h hmv.absent hz hl hl' hlt hcur

/-- **`finilize`.** -/
theorem Mid.finilize (h : Mid depth s m) (hspare : s.batchWrite = true → Spare depth s) (find : Bool)
    (rootKey : Bid n) (rootPos : Nat) :
    ∃ m' cached, Rest depth (s.finilize depth find rootKey rootPos).2 m' ∧ Settled depth s.modified cached m m' ∧
      (∀ k, (s.cache.get? k).isSome = true → cached k) ∧
      (∀ root, cached rootKey → m' rootKey = some root → (s.finilize depth find rootKey rootPos).1 = root.pos) ∧
      (s.finilize depth find rootKey rootPos).2.emptyNodes = s.emptyNodes ∧
      (¬ cached rootKey → (s.finilize depth find rootKey rootPos).1 = rootPos) := by
  obtain ⟨s1, hs1, hmid, ⟨d, hframe⟩, hmod, hempty, hcov⟩ : ∃ s1,
      (if s.batchWrite then s else padding depth s find) = s1 ∧ Mid depth s1 m ∧ (∃ d, Frame d s s1) ∧
        s1.modified = s.modified ∧ s1.emptyNodes = s.emptyNodes ∧ Spare depth s1 := by
    cases hb : s.batchWrite with
    | true => exact ⟨s, rfl, h, ⟨0, Frame.refl s⟩, rfl, rfl, hspare hb⟩
    | false =>
      obtain ⟨h1, h2, h3, h4⟩ := h.fakeReads (((if find then 145 else 435) * depth + 99) / 100 - s.readCnt)
      refine ⟨padding depth s find, rfl, h1, ⟨_, h2⟩, h3, h4, fun i hi => Or.inl ?_⟩
      exact h1.covered (h2.batch.trans hb) i hi
  have hmv := moved_moveNodes depth s1
  have hspare2 : Spare depth (Oram.moveNodes depth s1) := by
    rw [hmv.rest]
    exact hcov
  refine ⟨overlay (Oram.moveNodes depth s1) m, fun k => (s1.cache.get? k).isSome = true, ⟨?_, rfl, rfl, ?_⟩, ?_,
    fun k => hframe.cached, fun root hc hroot => ?_, ?_, fun hc => ?_⟩
  · unfold Oram.finilize
    rw [hs1]
    exact hmid.moveNodes.writePaths hspare2
  · unfold Oram.finilize
    rw [hs1]
    exact hmid.moveNodes.draws
  · rw [← hmod]
    exact settled_moveNodes hmid
  · unfold Oram.finilize
    rw [hs1]
    replace hc : (s1.cache.get? rootKey).isSome = true := hc
    rw [← hmv.isSome rootKey] at hc
    obtain ⟨root', hr⟩ := Option.isSome_iff_exists.1 hc
    unfold overlay at hroot
    rw [hr] at hroot
    dsimp only
    rw [hr, Option.some.inj hroot]
  · unfold Oram.finilize
    rw [hs1]
    show (Oram.moveNodes depth s1).emptyNodes = s.emptyNodes
    rw [hmv.rest]
    exact hempty
  · unfold Oram.finilize
    rw [hs1]
    replace hc : ¬ (s1.cache.get? rootKey).isSome = true := hc
    rw [← hmv.isSome rootKey, Option.not_isSome_iff_eq_none] at hc
    dsimp only
    rw [hc]

end

end Oram

end Sse.Omap
