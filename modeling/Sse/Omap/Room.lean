import Sse.Omap.Parametric

/-!
# Room in the ORAM

`WriteData` throws when the counter of the `RAMStore` is down to zero.  The roomy store is the
ORAM with a counter that goes up instead: it is lawful and never throws (`roomyLaws`).  As long
as it counts no more than there were empty nodes, the ORAM does the same (`roomy_metered`), so
it does not throw either.
-/

namespace Sse.Omap

open Wp PathOram

namespace Oram

/-! ## Whatever the counter says -/

section

variable {n : Nat} {depth : Nat} {α : Type}

/-- The same ORAM with another counter. -/
def withEmpty (s : Oram n) (e : Nat) : Oram n := { s with emptyNodes := e }

@[simp] theorem withEmpty_emptyNodes (s : Oram n) (e : Nat) : (s.withEmpty e).emptyNodes = e := rfl

@[simp] theorem withEmpty_withEmpty (s : Oram n) (e e' : Nat) : (s.withEmpty e).withEmpty e' = s.withEmpty e' := rfl

@[simp] theorem withEmpty_cache (s : Oram n) (e : Nat) : (s.withEmpty e).cache = s.cache := rfl

theorem withEmpty_self (s : Oram n) : s.withEmpty s.emptyNodes = s := rfl

/-- A step that neither reads nor changes the counter. -/
def Blind (f : Oram n → α × Oram n) : Prop := ∀ s e, f (s.withEmpty e) = ((f s).1, (f s).2.withEmpty e)

theorem Blind.emptyNodes {f : Oram n → α × Oram n} (h : Blind f) (s : Oram n) : (f s).2.emptyNodes = s.emptyNodes :=
  congrArg (fun r => r.2.emptyNodes) (h s s.emptyNodes)

theorem pushLeaf_withEmpty (s : Oram n) (leaf e : Nat) : (s.withEmpty e).pushLeaf leaf = (s.pushLeaf leaf).withEmpty e := by
  unfold pushLeaf
  by_cases hl : leaf ∈ s.leafList
  · rw [if_pos hl, if_pos (show leaf ∈ (s.withEmpty e).leafList from hl)]
  · rw [if_neg hl, if_neg (show leaf ∉ (s.withEmpty e).leafList from hl)]
    rfl

theorem setNode_withEmpty (s : Oram n) (k : Bid n) (f : Node n → Node n) (e : Nat) :
    (s.withEmpty e).setNode k f = (s.setNode k f).withEmpty e := by
  unfold setNode
  rw [withEmpty_cache]
  cases s.cache.get? k <;> rfl

theorem blind_accessRead (bid : Bid n) (a b : Nat) : Blind fun s => accessRead depth s bid a b := by
  intro s e
  show accessRead depth (s.withEmpty e) bid a b = ((accessRead depth s bid a b).1, (accessRead depth s bid a b).2.withEmpty e)
  unfold accessRead
  rw [show fetchPath depth (s.withEmpty e) a = (fetchPath depth s a).withEmpty e from rfl]
  dsimp only
  rw [withEmpty_cache]
  cases (fetchPath depth s a).cache.get? bid with
  | none => rfl
  | some node => exact congrArg (Prod.mk _) (pushLeaf_withEmpty ((fetchPath depth s a).putNode bid _) a e)

theorem blind_readNode (bid : Bid n) (a b : Nat) : Blind fun s => readNode depth s bid a b := by
  intro s e
  show readNode depth (s.withEmpty e) bid a b = ((readNode depth s bid a b).1, (readNode depth s bid a b).2.withEmpty e)
  unfold readNode
  by_cases hz : bid.isZero = true
  · rw [if_pos hz, if_pos hz]
  · rw [if_neg hz, if_neg hz, withEmpty_cache]
    by_cases hc : s.cache.get? bid = none ∨ a ∉ s.leafList
    · rw [if_pos hc, if_pos (show _ ∨ a ∉ (s.withEmpty e).leafList from hc)]
      have hacc : accessRead depth (s.withEmpty e) bid a b =
          ((accessRead depth s bid a b).1, (accessRead depth s bid a b).2.withEmpty e) := blind_accessRead bid a b s e
      rw [hacc]
      cases hr : (accessRead depth s bid a b).1 with
      | none =>
        simp only [hr]
      | some k =>
        simp only [hr]
        rfl
    · rw [if_neg hc, if_neg (show ¬(_ ∨ a ∉ (s.withEmpty e).leafList) from hc)]
      exact congrArg (Prod.mk _) (setNode_withEmpty (s.touch bid) bid _ e)

theorem blind_fakeReads (k : Nat) (s : Oram n) (e : Nat) :
    fakeReads depth k (s.withEmpty e) = (fakeReads depth k s).withEmpty e := by
  induction k generalizing s with
  | zero => rfl
  | succ k ih =>
    have hone : fakeRead depth (s.withEmpty e) = (fakeRead depth s).withEmpty e :=
      congrArg (fun s' => fetchPath depth s' (s.rnd s.drawn)) (pushLeaf_withEmpty s.randomPath.2 (s.rnd s.drawn) e)
    rw [fakeReads, fakeReads, hone, ih]

theorem copyPos_withEmpty (s : Oram n) (k id : Bid n) (f : Nat → Node n → Node n) (e : Nat) :
    (s.withEmpty e).copyPos k id f = (s.copyPos k id f).withEmpty e := by
  unfold copyPos
  rw [withEmpty_cache]
  split_ifs
  · rfl
  · cases s.cache.get? id with
    | none => rfl
    | some c => exact setNode_withEmpty s k (f c.pos) e

theorem moveNode_withEmpty (i : Nat) (s : Oram n) (k : Bid n) (e : Nat) :
    moveNode i (s.withEmpty e) k = (moveNode i s k).withEmpty e := by
  unfold moveNode
  rw [withEmpty_cache]
  cases s.cache.get? k with
  | none => rfl
  | some tmp =>
    dsimp only
    split_ifs with hh hmod hmod' hmod'
    · rw [show (s.withEmpty e).randomPath.2 = s.randomPath.2.withEmpty e from rfl, setNode_withEmpty, copyPos_withEmpty,
        copyPos_withEmpty]
      rfl
    · exact absurd hmod hmod'
    · exact absurd hmod' hmod
    · rw [copyPos_withEmpty, copyPos_withEmpty]
    · rfl

theorem moveNodes_withEmpty (s : Oram n) (e : Nat) : moveNodes depth (s.withEmpty e) = (moveNodes depth s).withEmpty e := by
  unfold moveNodes
  refine (List.foldl_hom (fun s : Oram n => s.withEmpty e) fun s i => ?_)
  exact List.foldl_hom (fun s : Oram n => s.withEmpty e) fun s k => moveNode_withEmpty i s k e

theorem blind_finilize (find : Bool) (rootKey : Bid n) (rootPos : Nat) :
    Blind fun s => finilize depth s find rootKey rootPos := by
  intro s e
  have hpad : (if (s.withEmpty e).batchWrite then s.withEmpty e else padding depth (s.withEmpty e) find) =
      (if s.batchWrite then s else padding depth s find).withEmpty e := by
    show (if s.batchWrite then s.withEmpty e else padding depth (s.withEmpty e) find) = _
    split_ifs
    · rfl
    · exact blind_fakeReads _ s e
  show finilize depth (s.withEmpty e) find rootKey rootPos = ((finilize depth s find rootKey rootPos).1,
    (finilize depth s find rootKey rootPos).2.withEmpty e)
  unfold finilize
  dsimp only
  rw [hpad, moveNodes_withEmpty]
  rfl

/-! ## The roomy store -/

variable (depth)

/-- `WriteNode` with room for one node; if it is taken, one more node is counted. -/
def roomyWrite (s : Oram n) (bid : Bid n) (node : Node n) : Except Err (Nat × Oram n) := do
  let (pos, s') ← (s.withEmpty 1).writeNode depth bid node
  return (pos, s'.withEmpty (s.emptyNodes + (1 - s'.emptyNodes)))

/-- The calls of `AVLTree` on an ORAM that counts its nodes and is never full. -/
def roomyNodes : NodeStore n (Oram n) :=
  { nodeStore depth with writeNode := fun bid node s => s.roomyWrite depth bid node }

def roomy : TreeStore n (Oram n) where
  toNodeStore := roomyNodes depth
  start := (treeStore depth).start
  finilize := (treeStore depth).finilize

/-- With the counter that runs down from `cap`. -/
def emptied (cap : Nat) (s : Oram n) : Oram n := s.withEmpty (cap - s.emptyNodes)

@[simp] theorem emptied_cache (cap : Nat) (s : Oram n) : (emptied cap s).cache = s.cache := rfl

/-- The three ways `WriteNode` goes, whatever the counter says. -/
theorem writeNode_withEmpty (s : Oram n) (bid : Bid n) (node : Node n) :
    (∀ e, (s.withEmpty e).writeNode depth bid node = .error .idNotSet) ∨
      (∃ s' : Oram n, ∀ e, (s.withEmpty e).writeNode depth bid node = .ok (node.pos, s'.withEmpty e)) ∨
      ∃ s' : Oram n, ∀ e, (s.withEmpty e).writeNode depth bid node =
        if 0 < e then .ok (node.pos, s'.withEmpty (e - 1)) else .error .noSpace := by
  unfold writeNode
  by_cases hz : bid.isZero = true
  · left
    exact fun e => if_pos hz
  · right
    by_cases hc : s.cache.get? bid = none
    · right
      let x := if (s.touch bid).batchWrite then s.touch bid else fetchPath depth (s.touch bid) node.pos
      have hx : ∀ e, (if ((s.withEmpty e).touch bid).batchWrite then (s.withEmpty e).touch bid
          else fetchPath depth ((s.withEmpty e).touch bid) node.pos) = x.withEmpty e := by
        intro e
        show (if (s.touch bid).batchWrite then (s.touch bid).withEmpty e
          else (fetchPath depth (s.touch bid) node.pos).withEmpty e) = _
        exact (apply_ite (fun s : Oram n => s.withEmpty e) _ _ _).symm
      refine ⟨(x.putNode bid node).pushLeaf node.pos, fun e => ?_⟩
      rw [if_neg hz, if_pos (show (s.withEmpty e).cache.get? bid = none from hc)]
      unfold accessWrite writeData
      dsimp only
      rw [hx e, withEmpty_emptyNodes]
      split_ifs with he
      · exact congrArg (fun s => Except.ok (node.pos, s)) (pushLeaf_withEmpty (x.putNode bid node) node.pos (e - 1))
      · rfl
    · left
      refine ⟨s.touch bid, fun e => ?_⟩
      rw [if_neg hz, if_neg (show ¬ (s.withEmpty e).cache.get? bid = none from hc)]
      rfl

/-- `roomyWrite` of a node that is not in the cache counts one more. -/
theorem roomyWrite_eq (s : Oram n) (bid : Bid n) (node : Node n) :
    (s.roomyWrite depth bid node = .error .idNotSet ∧
      ∀ e, (s.withEmpty e).writeNode depth bid node = .error .idNotSet) ∨
      (∃ s' : Oram n, s.roomyWrite depth bid node = .ok (node.pos, s'.withEmpty s.emptyNodes) ∧
        ∀ e, (s.withEmpty e).writeNode depth bid node = .ok (node.pos, s'.withEmpty e)) ∨
      ∃ s' : Oram n, s.roomyWrite depth bid node = .ok (node.pos, s'.withEmpty (s.emptyNodes + 1)) ∧
        ∀ e, (s.withEmpty e).writeNode depth bid node =
          if 0 < e then .ok (node.pos, s'.withEmpty (e - 1)) else .error .noSpace := by
  unfold roomyWrite
  rcases writeNode_withEmpty depth s bid node with h | ⟨s', h⟩ | ⟨s', h⟩
  · exact Or.inl ⟨by rw [h 1]; rfl, h⟩
  · exact Or.inr (Or.inl ⟨s', by rw [h 1]; rfl, h⟩)
  · exact Or.inr (Or.inr ⟨s', by rw [h 1]; rfl, h⟩)

/-! ## As long as there is room -/

variable {depth}

/-- What the roomy store does within `cap`, the ORAM does with a counter that runs down. -/
abbrev room (cap : Nat) : Sim (Oram n) (Oram n) Err := Sim.metered (emptied cap) emptyNodes cap

theorem Blind.rel {f : Oram n → α × Oram n} (h : Blind f) (cap : Nat) :
    (room cap).Rel (fun s => .ok (f s)) fun s => .ok (f s) := by
  intro s a s' hok
  have hs' : f s = (a, s') := Except.ok.inj hok
  have he : s'.emptyNodes = s.emptyNodes := by
    have := h.emptyNodes s
    rwa [hs'] at this
  refine ⟨he.ge, fun _ => congrArg Except.ok ?_⟩
  rw [emptied, h, hs', emptied, he]

/-- **The ORAM does what the roomy store does**, while there is room. -/
theorem roomy_metered (cap : Nat) : TreeSim (room cap) (roomy depth : TreeStore n (Oram n)) (treeStore depth) where
  readNode k leaf := (blind_readNode k leaf leaf).rel cap
  readCached k := by
    intro s a s' hok
    have hok' : (s.readCached k).map (fun k => (k, s)) = .ok (a, s') := hok
    cases hr : s.readCached k with
    | error e =>
      rw [hr] at hok'
      cases hok'
    | ok k' =>
      rw [hr] at hok'
      obtain ⟨rfl, rfl⟩ := Prod.mk.inj (Except.ok.inj hok')
      refine ⟨Nat.le_refl _, fun _ => ?_⟩
      show ((emptied cap s).readCached k).map _ = _
      rw [show (emptied cap s).readCached k = s.readCached k from rfl, hr]
      rfl
  writeNode k node := by
    intro s a s' hok
    have hok' : s.roomyWrite depth k node = .ok (a, s') := hok
    show _ ∧ (_ → (emptied cap s).writeNode depth k node = _)
    rcases roomyWrite_eq depth s k node with ⟨hw, -⟩ | ⟨s1, hw, h⟩ | ⟨s1, hw, h⟩
    · rw [hw] at hok'
      cases hok'
    · rw [hw] at hok'
      obtain ⟨rfl, rfl⟩ := Prod.mk.inj (Except.ok.inj hok')
      exact ⟨Nat.le_refl _, fun _ => h _⟩
    · rw [hw] at hok'
      obtain ⟨rfl, rfl⟩ := Prod.mk.inj (Except.ok.inj hok')
      refine ⟨Nat.le_succ _, fun hlim => ?_⟩
      rw [withEmpty_emptyNodes] at hlim
      rw [emptied, h, if_pos (by omega)]
      rfl
  deref k := by
    intro s a s' hok
    have hok' : (nodeStore depth).deref k s = .ok (a, s') := hok
    show _ ∧ (_ → (nodeStore depth).deref k (emptied cap s) = _)
    simp only [nodeStore, emptied_cache] at hok' ⊢
    cases hc : s.cache.get? k with
    | none =>
      rw [hc] at hok'
      cases hok'
    | some node =>
      rw [hc] at hok'
      obtain ⟨rfl, rfl⟩ := Prod.mk.inj (Except.ok.inj hok')
      exact ⟨Nat.le_refl _, fun _ => rfl⟩
  assign k f := by
    intro s a s' hok
    have hok' : (nodeStore depth).assign k f s = .ok (a, s') := hok
    show _ ∧ (_ → (nodeStore depth).assign k f (emptied cap s) = _)
    simp only [nodeStore, emptied_cache] at hok' ⊢
    cases hc : s.cache.get? k with
    | none =>
      rw [hc] at hok'
      cases hok'
    | some node =>
      rw [hc] at hok'
      obtain ⟨-, rfl⟩ := Prod.mk.inj (Except.ok.inj hok')
      have hblind : Blind fun s : Oram n => ((), s.setNode k f) := fun s e => congrArg _ (setNode_withEmpty s k f e)
      exact hblind.rel cap s () _ rfl
  randomPath := Blind.rel (f := fun s => s.randomPath) (fun _ _ => rfl) cap
  start batchWrite := Blind.rel (f := fun s => ((), s.start batchWrite)) (fun _ _ => rfl) cap
  finilize find rootKey rootPos := (blind_finilize find rootKey rootPos).rel cap

/-! ## What the roomy store counts -/

variable {s s' : Oram n} {m : Bid n → Option (Node n)}

/-- The counter is the number of nodes. -/
def Counted (s : Oram n) (m : Bid n → Option (Node n)) : Prop :=
  ∃ K : Finset (Bid n), K.card = s.emptyNodes ∧ ∀ k, k ∈ K ↔ (m k).isSome = true

theorem Counted.congr (h : Counted s m) (he : s'.emptyNodes = s.emptyNodes) : Counted s' m := by
  obtain ⟨K, hcard, hmem⟩ := h
  exact ⟨K, hcard.trans he.symm, hmem⟩

theorem Counted.update (h : Counted s m) {k : Bid n} (hk : (m k).isSome = true) (he : s'.emptyNodes = s.emptyNodes)
    (node : Node n) : Counted s' (Function.update m k (some node)) := by
  obtain ⟨K, hcard, hmem⟩ := h
  refine ⟨K, hcard.trans he.symm, fun j => ?_⟩
  by_cases hj : j = k
  · rw [hj, Function.update_self, hmem, hk]
    exact ⟨fun _ => rfl, fun _ => rfl⟩
  · rw [Function.update_of_ne hj, hmem]

theorem Counted.insert (h : Counted s m) {k : Bid n} (hk : m k = none) (he : s'.emptyNodes = s.emptyNodes + 1)
    (node : Node n) : Counted s' (Function.update m k (some node)) := by
  obtain ⟨K, hcard, hmem⟩ := h
  have hnot : k ∉ K := by
    rw [hmem, hk]
    exact Bool.false_ne_true
  refine ⟨Insert.insert k K, by rw [Finset.card_insert_of_notMem hnot, hcard, he], fun j => ?_⟩
  rw [Finset.mem_insert]
  by_cases hj : j = k
  · rw [hj, Function.update_self]
    exact ⟨fun _ => rfl, fun _ => Or.inl rfl⟩
  · rw [Function.update_of_ne hj, hmem]
    exact ⟨fun h => h.resolve_left hj, Or.inr⟩

theorem Mid.withEmpty (h : Mid depth s m) (e : Nat) : Mid depth (s.withEmpty e) m :=
  ⟨h.holds, h.drained, h.seen, h.leafs, h.unwritten, h.touched, h.draws, h.covered⟩

theorem Mid.roomyWrite_cached (h : Mid depth s m) {k : Bid n} (hc : (s.cache.get? k).isSome = true) (node : Node n) :
    s.roomyWrite depth k node = .ok (node.pos, s.touch k) := by
  unfold roomyWrite
  rw [(h.withEmpty 1).writeNode_cached hc node]
  rfl

theorem Mid.roomyWrite_new (h : Mid depth s m) {node : Node n} (hm : m node.key = none)
    (hz : node.key.isZero = false) (hp : node.pos < 2 ^ depth) :
    ∃ s', s.roomyWrite depth node.key node = .ok (node.pos, s') ∧
      Mid depth s' (Function.update m node.key (some node)) ∧ Frame 0 s s' ∧ s'.cache.get? node.key = some node ∧
      s'.modified = node.key :: s.modified ∧ s'.emptyNodes = s.emptyNodes + 1 := by
  rcases (h.withEmpty 1).writeNode_new hm hz hp with herr | ⟨s1, heq, hmid, hframe, hc, hmod, hempty, -⟩
  · rcases writeNode_withEmpty depth s node.key node with hw | ⟨s1, hw⟩ | ⟨s1, hw⟩
    · cases (hw 1).symm.trans herr
    · cases (hw 1).symm.trans herr
    · cases (hw 1).symm.trans herr
  · have hzero : s1.emptyNodes = 0 := Nat.succ.inj hempty
    refine ⟨s1.withEmpty (s.emptyNodes + 1), ?_, hmid.withEmpty _, ⟨hframe.kept, hframe.reads, hframe.leafs,
      hframe.touches, hframe.bucket, hframe.batch, hframe.rnd, hframe.drawn⟩, hc, hmod, rfl⟩
    unfold roomyWrite
    rw [heq, show s.emptyNodes + 1 = s.emptyNodes + (1 - s1.emptyNodes) by rw [hzero]]
    rfl

variable (depth)

/-- **The roomy store is lawful and never throws**, and counts its nodes. -/
def roomyLaws : Laws (roomyNodes depth : NodeStore n (Oram n)) fun _ => False where
  Abs s m := Mid depth s m ∧ Counted s m
  cached s k := (s.cache.get? k).isSome = true
  touched := Touched
  log := modified
  Leaf leaf := leaf < 2 ^ depth
  next s := s.rnd s.drawn
  Le := Frame
  le_refl := Frame.refl
  le_trans := Frame.trans
  le_cached h hk := h.cached hk
  le_next := @Frame.next n
  le_log h := h.touches
  mem_log := @mem_modified n
  wf h hk := ⟨(h.1.wf hk).1, (h.1.wf hk).2.1⟩
  readNode := by
    intro s m k node h hk
    obtain ⟨s', heq, hmid, hframe, hc, hmod, hempty, -⟩ := h.1.readNode hk
    refine Run.of_ok (a := some k) (t := s') (congrArg Except.ok heq)
      ⟨rfl, ⟨hmid, h.2.congr hempty⟩, hframe, by rw [hc]; rfl, fun j => ?_⟩
    rw [← mem_modified, ← mem_modified, hmod, List.mem_cons]
    exact or_comm
  readNode_zero := by
    intro s k leaf hz
    exact Run.of_ok (a := none) (t := s) (congrArg Except.ok (readNode_isZero hz leaf leaf)) ⟨rfl, rfl⟩
  readCached := by
    intro s m k h hc
    obtain ⟨node, hm, hn⟩ := h.1.cached hc
    have heq : (roomyNodes depth : NodeStore n (Oram n)).readCached k s = .ok (k, s) :=
      @readCached_eq n depth s k node (h.1.wf hm).2.1 hn
    exact Run.of_ok heq ⟨rfl, rfl⟩
  deref := by
    intro s m k node h hc hk
    obtain ⟨node', hm, hn⟩ := h.1.cached hc
    obtain rfl := Option.some.inj (hk.symm.trans hm)
    have heq : (roomyNodes depth : NodeStore n (Oram n)).deref k s = .ok (node, s) := @deref_eq n depth s k node hn
    exact Run.of_ok heq ⟨rfl, rfl⟩
  assign := by
    intro s m k node f h hc hk hkey hpos
    obtain ⟨node', hm, hn⟩ := h.1.cached hc
    obtain rfl := Option.some.inj (hk.symm.trans hm)
    have hset : s.setNode k f = s.putNode k (f node) := get?_setNode s hn f
    have heq : (roomyNodes depth : NodeStore n (Oram n)).assign k f s = .ok ((), s.setNode k f) :=
      @assign_eq n depth s k node hn f
    refine Run.of_ok heq ⟨⟨h.1.setNode hn hkey hpos, ?_⟩, ?_, fun j => ?_⟩
    · exact h.2.update (by rw [hk]; rfl) (by rw [hset]; rfl) (f node)
    · rw [hset]
      refine frame_putNode s fun old ho => ?_
      obtain rfl := Option.some.inj (hn.symm.trans ho)
      exact hpos
    · rw [hset]
      exact Iff.rfl
  writeNode_cached := by
    intro s m k node h hc
    refine Run.of_ok (a := node.pos) (t := s.touch k) (h.1.roomyWrite_cached hc node)
      ⟨⟨h.1.touch hc, h.2.congr rfl⟩, frame_touch s k, fun j => ?_⟩
    show j ∈ k :: s.modified ↔ _
    rw [List.mem_cons]
    exact or_comm
  writeNode_new := by
    intro s m node h hnew hz hleaf
    obtain ⟨s', heq, hmid, hframe, hc, hmod, hempty⟩ := h.1.roomyWrite_new hnew hz hleaf
    refine Run.of_ok (a := node.pos) (t := s') heq
      ⟨rfl, ⟨hmid, h.2.insert hnew hempty node⟩, hframe, by rw [hc]; rfl, fun j => ?_⟩
    rw [← mem_modified, ← mem_modified, hmod, List.mem_cons]
    exact or_comm
  writeNode_zero _ he := he.elim
  randomPath := by
    intro s m h
    refine Run.of_ok (a := s.rnd s.drawn) (t := { s with drawn := s.drawn + 1 }) rfl
      ⟨rfl, h.1.draws s.drawn, ⟨⟨h.1.holds, h.1.drained, h.1.seen, h.1.leafs, h.1.unwritten, h.1.touched, h.1.draws,
        h.1.covered⟩, h.2.congr rfl⟩, frame_randomPath s, fun j => Iff.rfl⟩

end

end Oram

end Sse.Omap
