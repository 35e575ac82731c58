import Sse.Omap.Room

/-!
# The places an operation takes

What an operation takes from the counter of the `RAMStore`, in any state: nodes may be lost
and the leaves and heights that are kept may be wrong.  `WriteNode` takes a place for a node
that is not in the cache, and all but the new node of an insertion are there, because the
tree has followed pointers to them.

    find      takes no place                                      (Filed.find)
    insert    takes one at most, and does not throw if there is one   (Filed.insert)
-/

namespace Sse.Omap

open Wp PathOram

namespace Oram

/-! ## Steps that take no place -/

section

variable {n depth : Nat} {s s' s'' : Oram n}

/-- The entries of the cache are filed under their keys. -/
def Filed (s : Oram n) : Prop := ∀ k node, s.cache.get? k = some node → node.key = k

def Cached (s : Oram n) (k : Bid n) : Prop := (s.cache.get? k).isSome = true

/-- The cache has grown, and no place was taken. -/
structure Quiet (s s' : Oram n) : Prop where
  filed : Filed s'
  cached : ∀ k, Cached s k → Cached s' k
  empty : s'.emptyNodes = s.emptyNodes

theorem Filed.quiet (h : Filed s) : Quiet s s := ⟨h, fun _ hk => hk, rfl⟩

theorem Quiet.trans (h : Quiet s s') (h' : Quiet s' s'') : Quiet s s'' :=
  ⟨h'.filed, fun k hk => h'.cached k (h.cached k hk), h'.empty.trans h.empty⟩

/-- At most one place was taken. -/
structure Took (s s' : Oram n) : Prop where
  filed : Filed s'
  cached : ∀ k, Cached s k → Cached s' k
  empty : s.emptyNodes ≤ s'.emptyNodes + 1

theorem Quiet.took (h : Quiet s s') : Took s s' := ⟨h.filed, h.cached, by rw [h.empty]; omega⟩

theorem Took.after (h : Took s' s'') (h' : Quiet s s') : Took s s'' :=
  ⟨h.filed, fun k hk => h.cached k (h'.cached k hk), by rw [← h'.empty]; exact h.empty⟩

theorem Took.before (h : Took s s') (h' : Quiet s' s'') : Took s s'' :=
  ⟨h'.filed, fun k hk => h'.cached k (h.cached k hk), by rw [h'.empty]; exact h.empty⟩

theorem filed_new (depth : Nat) (rnd : Nat → Nat) : Filed (new depth rnd : Oram n) := by
  intro k node hk
  cases hk

theorem Filed.fetchPath (h : Filed s) (leaf : Nat) : Filed (Oram.fetchPath depth s leaf) :=
  PathOram.Filed.fetchesOnce (L := layout depth) (s := (s.store, s.readviewmap)) h _

theorem Filed.pushLeaf (h : Filed s) (leaf : Nat) : Filed (s.pushLeaf leaf) := by
  intro k node hk
  rw [cache_pushLeaf] at hk
  exact h k node hk

theorem Filed.putNode (h : Filed s) {k : Bid n} {node : Node n} (hk : node.key = k) : Filed (s.putNode k node) := by
  intro j node' hj
  rw [get?_putNode] at hj
  split_ifs at hj with he
  · obtain rfl := Option.some.inj hj
    exact hk.trans he.symm
  · exact h j node' hj

theorem Filed.setNode (h : Filed s) (k : Bid n) {f : Node n → Node n} (hf : ∀ node, (f node).key = node.key) :
    Filed (s.setNode k f) := by
  cases hc : s.cache.get? k with
  | none =>
    unfold Oram.setNode
    rw [hc]
    exact h
  | some node =>
    rw [get?_setNode s hc]
    exact h.putNode ((hf node).trans (h k node hc))

theorem cached_setNode {k : Bid n} (f : Node n → Node n) {j : Bid n} (hj : Cached s j) : Cached (s.setNode k f) j := by
  cases hc : s.cache.get? k with
  | none =>
    unfold Oram.setNode
    rw [hc]
    exact hj
  | some node =>
    rw [get?_setNode s hc]
    unfold Cached
    rw [get?_putNode]
    split_ifs
    · rfl
    · exact hj

theorem setNode_emptyNodes (s : Oram n) (k : Bid n) (f : Node n → Node n) : (s.setNode k f).emptyNodes = s.emptyNodes := by
  unfold Oram.setNode
  split <;> rfl

theorem Filed.quiet_setNode (h : Filed s) (k : Bid n) {f : Node n → Node n} (hf : ∀ node, (f node).key = node.key) :
    Quiet s (s.setNode k f) := ⟨h.setNode k hf, fun _ hj => cached_setNode f hj, setNode_emptyNodes s k f⟩

theorem Filed.quiet_touch (h : Filed s) (k : Bid n) : Quiet s (s.touch k) := ⟨h, fun _ hj => hj, rfl⟩

theorem Filed.quiet_fetchPath (h : Filed s) (leaf : Nat) : Quiet s (Oram.fetchPath depth s leaf) :=
  ⟨h.fetchPath leaf, fun _ hj => (frame_fetchPath s leaf).cached hj, rfl⟩

theorem Filed.quiet_pushLeaf (h : Filed s) (leaf : Nat) : Quiet s (s.pushLeaf leaf) :=
  ⟨h.pushLeaf leaf, fun _ hj => (frame_pushLeaf s leaf).cached hj, pushLeaf_emptyNodes s leaf⟩

theorem Filed.accessRead (h : Filed s) (k : Bid n) (a b : Nat) :
    Quiet s (Oram.accessRead depth s k a b).2 ∧
      ∀ j, (Oram.accessRead depth s k a b).1 = some j → j = k ∧ Cached (Oram.accessRead depth s k a b).2 j := by
  have hfetch : Quiet s (Oram.fetchPath depth s a) := h.quiet_fetchPath a
  unfold Oram.accessRead
  cases hc : (Oram.fetchPath depth s a).cache.get? k with
  | none =>
    simp only [hc]
    exact ⟨hfetch, fun j hj => by cases hj⟩
  | some node =>
    simp only [hc]
    have hput : Quiet (Oram.fetchPath depth s a) ((Oram.fetchPath depth s a).setNode k fun node => { node with pos := b }) :=
      hfetch.filed.quiet_setNode k fun _ => rfl
    rw [get?_setNode _ hc] at hput
    have hall := hput.trans (hput.filed.quiet_pushLeaf a)
    have hcached : Cached (Oram.fetchPath depth s a) k := by rw [Cached, hc]; rfl
    refine ⟨hfetch.trans hall, fun j hj => ?_⟩
    obtain rfl := Option.some.inj hj
    exact ⟨rfl, hall.cached k hcached⟩

end

/-! ## The calls of the tree -/

section

variable {n depth : Nat} {s : Oram n}

theorem Filed.runReadNode (h : Filed s) (k : Bid n) (leaf : Nat) :
    Run (· ≠ Err.noSpace) ((nodeStore depth).readNode k leaf) s fun p s' =>
      Quiet s s' ∧ ∀ j, p = some j → j = k ∧ Cached s' j := by
  refine Run.of_ok (a := (s.readNode depth k leaf leaf).1) (t := (s.readNode depth k leaf leaf).2) rfl ?_
  unfold Oram.readNode
  by_cases hz : k.isZero = true
  · rw [if_pos hz]
    exact ⟨h.quiet, fun j hj => by cases hj⟩
  · rw [if_neg hz]
    by_cases hc : s.cache.get? k = none ∨ leaf ∉ s.leafList
    · rw [if_pos hc]
      obtain ⟨hq, hcached⟩ := @Filed.accessRead n depth s h k leaf leaf
      cases hr : (Oram.accessRead depth s k leaf leaf).1 with
      | none =>
        simp only [hr]
        exact ⟨hq, fun j hj => by cases hj⟩
      | some j =>
        simp only [hr]
        exact ⟨hq.trans (hq.filed.quiet_touch k), fun i hi => hcached i (hr.trans hi)⟩
    · rw [if_neg hc]
      rw [not_or] at hc
      have hq := (h.quiet_touch k).trans
        ((h.quiet_touch k).filed.quiet_setNode k (f := fun node => { node with pos := leaf }) fun _ => rfl)
      refine ⟨hq, fun j hj => ?_⟩
      obtain rfl := Option.some.inj hj
      exact ⟨rfl, hq.cached k (Option.isSome_iff_ne_none.2 hc.1)⟩

theorem runReadCached (s : Oram n) (k : Bid n) :
    Run (· ≠ Err.noSpace) ((nodeStore depth).readCached k) s fun j s' => s' = s ∧ j = k ∧ Cached s k := by
  by_cases hz : k.isZero = true
  · refine Run.of_error (e := .idNotSet) ?_ (by simp)
    show (s.readCached k).map _ = _
    unfold Oram.readCached
    rw [if_pos hz]
    rfl
  · by_cases hc : s.cache.get? k = none
    · refine Run.of_error (e := .notInCache) ?_ (by simp)
      show (s.readCached k).map _ = _
      unfold Oram.readCached
      rw [if_neg hz, if_pos hc]
      rfl
    · refine Run.of_ok (a := k) (t := s) ?_ ⟨rfl, rfl, Option.isSome_iff_ne_none.2 hc⟩
      show (s.readCached k).map _ = _
      unfold Oram.readCached
      rw [if_neg hz, if_neg hc]
      rfl

theorem Filed.runDeref (h : Filed s) (k : Bid n) :
    Run (· ≠ Err.noSpace) ((nodeStore depth).deref k) s fun node s' => s' = s ∧ node.key = k ∧ Cached s k := by
  cases hc : s.cache.get? k with
  | none =>
    exact Run.of_error (e := .nullNode) (by simp only [nodeStore, hc]) (by simp)
  | some node =>
    exact Run.of_ok (deref_eq hc) ⟨rfl, h k node hc, by rw [Cached, hc]; rfl⟩

theorem Filed.runAssign (h : Filed s) (k : Bid n) {f : Node n → Node n} (hf : ∀ node, (f node).key = node.key) :
    Run (· ≠ Err.noSpace) ((nodeStore depth).assign k f) s fun _ s' => Quiet s s' := by
  cases hc : s.cache.get? k with
  | none =>
    exact Run.of_error (e := .nullNode) (by simp only [nodeStore, hc]) (by simp)
  | some node =>
    exact Run.of_ok (assign_eq hc f) (h.quiet_setNode k hf)

theorem Filed.runWriteCached (h : Filed s) {k : Bid n} (hk : Cached s k) (node : Node n) :
    Run (· ≠ Err.noSpace) ((nodeStore depth).writeNode k node) s fun _ s' => Quiet s s' := by
  have hc : ¬ s.cache.get? k = none := Option.isSome_iff_ne_none.1 hk
  by_cases hz : k.isZero = true
  · refine Run.of_error (e := .idNotSet) ?_ (by simp)
    show s.writeNode depth k node = _
    unfold Oram.writeNode
    rw [if_pos hz]
  · refine Run.of_ok (a := node.pos) (t := s.touch k) ?_ (h.quiet_touch k)
    show s.writeNode depth k node = _
    unfold Oram.writeNode
    rw [if_neg hz, if_neg hc]

/-- **A new node** takes one place. -/
theorem Filed.runWriteNew (h : Filed s) (hroom : 0 < s.emptyNodes) (node : Node n) :
    Run (· ≠ Err.noSpace) ((nodeStore depth).writeNode node.key node) s fun _ s' => Took s s' := by
  by_cases hc : s.cache.get? node.key = none
  · by_cases hz : node.key.isZero = true
    · refine Run.of_error (e := .idNotSet) ?_ (by simp)
      show s.writeNode depth node.key node = _
      unfold Oram.writeNode
      rw [if_pos hz]
    · have hread : Quiet (s.touch node.key) (if (s.touch node.key).batchWrite then s.touch node.key
          else Oram.fetchPath depth (s.touch node.key) node.pos) := by
        split_ifs
        · exact Filed.quiet h
        · exact Filed.quiet_fetchPath (s := s.touch node.key) h node.pos
      generalize hx : (if (s.touch node.key).batchWrite then s.touch node.key
          else Oram.fetchPath depth (s.touch node.key) node.pos) = x at hread
      have hempty : x.emptyNodes = s.emptyNodes := hread.empty
      have hput : Filed (x.putNode node.key node) := hread.filed.putNode rfl
      refine Run.of_ok (a := node.pos)
        (t := ({ x.putNode node.key node with emptyNodes := x.emptyNodes - 1 } : Oram n).pushLeaf node.pos) ?_ ⟨?_, ?_, ?_⟩
      · show s.writeNode depth node.key node = _
        unfold Oram.writeNode Oram.accessWrite Oram.writeData
        dsimp only
        rw [if_neg hz, if_pos hc, hx, if_pos (by rw [hempty]; exact hroom)]
        rfl
      · exact Filed.pushLeaf (s := { x.putNode node.key node with emptyNodes := x.emptyNodes - 1 }) hput node.pos
      · intro j hj
        rw [Cached, cache_pushLeaf]
        show ((x.putNode node.key node).cache.get? j).isSome = true
        rw [get?_putNode]
        split_ifs
        · rfl
        · exact hread.cached j hj
      · rw [pushLeaf_emptyNodes]
        show s.emptyNodes ≤ x.emptyNodes - 1 + 1
        omega
  · exact (h.runWriteCached (Option.isSome_iff_ne_none.2 hc) node).mono fun _ _ hq => hq.took

theorem Filed.runDerefOpt (h : Filed s) (p : Option (Bid n)) :
    Run (· ≠ Err.noSpace) (derefOpt (nodeStore depth) p) s fun _ s' => s' = s := by
  cases p with
  | none => exact Run.pure rfl
  | some p =>
    refine Run.bind (h.runDeref p) ?_
    rintro node s1 ⟨rfl, -⟩
    exact Run.pure rfl

theorem Filed.runRandomPath (h : Filed s) :
    Run (· ≠ Err.noSpace) (nodeStore depth).randomPath s fun _ s' => Quiet s s' :=
  Run.of_ok (a := s.rnd s.drawn) (t := { s with drawn := s.drawn + 1 }) rfl ⟨h, fun _ hj => hj, rfl⟩

/-! ## The functions of the tree -/

theorem Filed.runHeight (h : Filed s) (k : Bid n) (leaf : Nat) :
    Run (· ≠ Err.noSpace) (height (nodeStore depth) k leaf) s fun _ s' => Quiet s s' := by
  unfold height
  split_ifs
  · exact Run.pure h.quiet
  · refine Run.bind (h.runReadNode k leaf) ?_
    rintro p s1 ⟨hq, -⟩
    cases p with
    | none => exact Run.throw (by simp)
    | some j =>
      refine Run.bind (hq.filed.runDeref j) ?_
      rintro node s2 ⟨rfl, -⟩
      exact Run.pure hq

theorem Filed.runUpdateHeight (h : Filed s) (y : Bid n) :
    Run (· ≠ Err.noSpace) (updateHeight (nodeStore depth) y) s fun _ s' => Quiet s s' := by
  unfold updateHeight
  refine Run.bind (h.runDeref y) ?_
  rintro node s1 ⟨rfl, -⟩
  refine Run.bind (h.runHeight _ _) ?_
  rintro a s2 h2
  refine Run.bind (h2.filed.runHeight _ _) ?_
  rintro b s3 h3
  refine (h3.filed.runAssign y (f := fun node => { node with height := max a b + 1 }) fun _ => rfl).mono ?_
  rintro - s4 h4
  exact (h2.trans h3).trans h4

theorem Filed.runGetBalance (h : Filed s) (k : Bid n) :
    Run (· ≠ Err.noSpace) (getBalance (nodeStore depth) k) s fun _ s' => Quiet s s' := by
  unfold getBalance
  refine Run.bind (h.runDeref k) ?_
  rintro node s1 ⟨rfl, -⟩
  refine Run.bind (h.runHeight _ _) ?_
  rintro a s2 h2
  refine Run.bind (h2.filed.runHeight _ _) ?_
  rintro b s3 h3
  exact Run.pure (h2.trans h3)

theorem Filed.runMiddle (h : Filed s) (id : Bid n) :
    Run (· ≠ Err.noSpace) (middle (nodeStore depth) id) s fun _ s' => Quiet s s' := by
  unfold middle
  split_ifs
  · unfold newNode
    refine Run.bind h.runRandomPath ?_
    rintro p s1 h1
    exact Run.pure h1
  · refine Run.bind (runReadCached s id) ?_
    rintro p s1 ⟨rfl, -⟩
    refine (h.runDeref p).mono ?_
    rintro node s2 ⟨rfl, -⟩
    exact h.quiet

/-- The end of a rotation for one of its nodes. -/
theorem Filed.runSettle (h : Filed s) {k : Bid n} (hk : Cached s k) {α : Type} {f : Prog (Oram n) α} {Q : α → Oram n → Prop}
    (hf : ∀ s', Quiet s s' → Run (· ≠ Err.noSpace) f s' Q) :
    Run (· ≠ Err.noSpace) (do
      updateHeight (nodeStore depth) k
      let node ← (nodeStore depth).deref k
      let _ ← (nodeStore depth).writeNode k node
      f) s Q := by
  refine Run.bind (h.runUpdateHeight k) ?_
  rintro - s1 h1
  refine Run.bind (h1.filed.runDeref k) ?_
  rintro node s2 ⟨rfl, -⟩
  refine Run.bind (h1.filed.runWriteCached (h1.cached k hk) node) ?_
  rintro - s3 h3
  exact hf s3 (h1.trans h3)

theorem Filed.runRotate (h : Filed s) (d : Side) (y : Bid n) :
    Run (· ≠ Err.noSpace) (rotate (nodeStore depth) d y) s fun x s' => Quiet s s' ∧ Cached s' x := by
  unfold rotate
  refine Run.bind (h.runDeref y) ?_
  rintro yn s1 ⟨rfl, hykey, hy⟩
  refine Run.bind (runReadCached s1 _) ?_
  rintro x s2 ⟨rfl, hchild, hx⟩
  rw [← hchild] at hx
  refine Run.bind (h.runDeref x) ?_
  rintro xn s3 ⟨rfl, hxkey, -⟩
  refine Run.bind (h.runMiddle _) ?_
  rintro T2 s4 h4
  refine Run.bind (h4.filed.runAssign x fun _ => setChild_key ..) ?_
  rintro - s5 h5
  refine Run.bind (h5.filed.runAssign y fun _ => setChild_key ..) ?_
  rintro - s6 h6
  have hall := (h4.trans h5).trans h6
  rw [hykey, hxkey]
  refine hall.filed.runSettle (hall.cached y hy) fun s7 h7 => ?_
  have hall := hall.trans h7
  refine hall.filed.runSettle (hall.cached x hx) fun s8 h8 => ?_
  have hall := hall.trans h8
  exact Run.pure ⟨hall, hall.cached x hx⟩

theorem Filed.runRotated (h : Filed s) (d : Side) (y : Bid n) :
    Run (· ≠ Err.noSpace) (rotated (nodeStore depth) d y) s fun _ s' => Quiet s s' := by
  unfold rotated
  refine Run.bind (h.runRotate d y) ?_
  rintro x s1 ⟨h1, -⟩
  refine Run.bind (h1.filed.runDeref x) ?_
  rintro node s2 ⟨rfl, -⟩
  exact Run.pure h1

theorem Filed.runRotatedTwice (h : Filed s) (d : Side) {node : Bid n} (hn : Cached s node) {nd : Node n}
    (hkey : nd.key = node) : Run (· ≠ Err.noSpace) (rotatedTwice (nodeStore depth) d node nd) s fun _ s' => Quiet s s' := by
  unfold rotatedTwice
  refine Run.bind (runReadCached s _) ?_
  rintro child s1 ⟨rfl, -⟩
  refine Run.bind (h.runRotated _ _) ?_
  rintro q s2 h2
  refine Run.bind (h2.filed.runAssign node fun _ => setChild_key ..) ?_
  rintro - s3 h3
  have hall := h2.trans h3
  refine Run.bind (hall.filed.runDeref node) ?_
  rintro nd' s4 ⟨rfl, -⟩
  rw [hkey]
  refine Run.bind (hall.filed.runWriteCached (hall.cached node hn) nd') ?_
  rintro - s5 h5
  refine (h5.filed.runRotated _ _).mono ?_
  rintro - s6 h6
  exact (hall.trans h5).trans h6

theorem Filed.runChildTest (h : Filed s) (cond : Bool) (id : Bid n) (test : Bid n → Bool) :
    Run (· ≠ Err.noSpace) (childTest (nodeStore depth) cond id test) s fun _ s' => s' = s := by
  unfold childTest
  split_ifs
  · refine Run.bind (runReadCached s id) ?_
    rintro p s1 ⟨rfl, -⟩
    refine Run.bind (h.runDeref p) ?_
    rintro node s2 ⟨rfl, -⟩
    exact Run.pure rfl
  · exact Run.pure rfl

theorem Filed.runRebalance (h : Filed s) {node : Bid n} (hn : Cached s node) (pos : Nat) (key : Bid n) :
    Run (· ≠ Err.noSpace) (rebalance (nodeStore depth) node pos key) s fun _ s' => Quiet s s' := by
  unfold rebalance
  refine Run.bind (h.runUpdateHeight node) ?_
  rintro - s1 h1
  refine Run.bind (h1.filed.runGetBalance node) ?_
  rintro bal s2 h2
  have hall := h1.trans h2
  refine Run.bind (hall.filed.runDeref node) ?_
  rintro nd s3 ⟨rfl, hkey, -⟩
  -- in every case no node is written but those in the cache
  have hone : ∀ d : Side, Run (· ≠ Err.noSpace) (rotated (nodeStore depth) d node) s3 fun _ s' => Quiet s s' := fun d =>
    (hall.filed.runRotated d node).mono fun _ _ hq => hall.trans hq
  have htwo : ∀ d : Side, Run (· ≠ Err.noSpace) (rotatedTwice (nodeStore depth) d node nd) s3 fun _ s' => Quiet s s' :=
    fun d => (hall.filed.runRotatedTwice d (hall.cached node hn) hkey).mono fun _ _ hq => hall.trans hq
  have htest : ∀ {α : Type} {cond : Bool} {id : Bid n} {test : Bid n → Bool} {f : Bool → Prog (Oram n) α}
      {Q : α → Oram n → Prop}, (∀ b, Run (· ≠ Err.noSpace) (f b) s3 Q) →
      Run (· ≠ Err.noSpace) (childTest (nodeStore depth) cond id test >>= f) s3 Q := by
    intro α cond id test f Q hf
    refine Run.bind (hall.filed.runChildTest cond id test) ?_
    rintro b s' rfl
    exact hf b
  refine htest fun b1 => ?_
  split_ifs
  · exact hone .left
  refine htest fun b2 => ?_
  split_ifs
  · exact hone .right
  refine htest fun b3 => ?_
  split_ifs
  · exact htwo .left
  refine htest fun b4 => ?_
  split_ifs
  · exact htwo .right
  refine Run.bind (hall.filed.runDeref node) ?_
  rintro nd' s4 ⟨rfl, -⟩
  rw [hkey]
  refine Run.bind (hall.filed.runWriteCached (hall.cached node hn) nd') ?_
  rintro - s5 h5
  exact Run.pure (hall.trans h5)

/-- **`AVLTree::insert`** takes one place at most.  By induction on the fuel: only the end of the way down writes a
node that is new. -/
theorem Filed.runInsert (h : Filed s) (hroom : 0 < s.emptyNodes) (fuel : Nat) (rootKey : Bid n) (pos : Nat)
    (key : Bid n) (value : Str) :
    Run (· ≠ Err.noSpace) (insert (nodeStore depth) fuel rootKey pos key value) s fun _ s' => Took s s' := by
  induction fuel generalizing s rootKey pos with
  | zero => exact Run.throw (by simp)
  | succ fuel ih =>
    unfold insert
    split_ifs
    · unfold newNode
      refine Run.bind (P := fun node s1 => node.key = key ∧ Quiet s s1)
        (Run.bind h.runRandomPath fun p s1 h1 => Run.pure ⟨rfl, h1⟩) ?_
      rintro nnode s1 ⟨hkey, h1⟩
      have hroom1 : 0 < s1.emptyNodes := by rw [h1.empty]; exact hroom
      refine Run.bind (P := fun _ s' => Took s s') ?_ fun pos s2 h2 => Run.pure h2
      rw [← hkey]
      refine (h1.filed.runWriteNew hroom1 nnode).mono ?_
      rintro - s2 h2
      exact h2.after h1
    · refine Run.bind (h.runReadNode rootKey pos) ?_
      rintro p s1 ⟨h1, hcached⟩
      cases p with
      | none => exact Run.throw (by simp)
      | some node =>
        obtain ⟨rfl, hn⟩ := hcached node rfl
        have hroom1 : 0 < s1.emptyNodes := by rw [h1.empty]; exact hroom
        refine Run.bind (h1.filed.runDeref node) ?_
        rintro nd s2 ⟨rfl, hkey, -⟩
        have hdown : ∀ (id : Bid n) (p : Nat) (d : Side), Run (· ≠ Err.noSpace) (do
            let q ← insert (nodeStore depth) fuel id p key value
            (nodeStore depth).assign node fun nd => nd.setChild d q.1 q.2
            rebalance (nodeStore depth) node pos key) s2 fun _ s' => Took s s' := by
          intro id p d
          refine Run.bind (ih h1.filed hroom1 id p) ?_
          rintro q s3 h3
          refine Run.bind (h3.filed.runAssign node fun _ => setChild_key ..) ?_
          rintro - s4 h4
          refine (h4.filed.runRebalance (h4.cached node (h3.cached node hn)) pos key).mono ?_
          rintro - s5 h5
          exact (h3.after h1).before (h4.trans h5)
        split_ifs
        · exact hdown _ _ .left
        · exact hdown _ _ .right
        · refine Run.bind (h1.filed.runAssign node fun _ => rfl) ?_
          rintro - s3 h3
          have hall := h1.trans h3
          refine Run.bind (hall.filed.runDeref node) ?_
          rintro nd' s4 ⟨rfl, -⟩
          refine Run.bind (hall.filed.runWriteCached (h3.cached node hn) nd') ?_
          rintro - s5 h5
          exact Run.pure (hall.trans h5).took

/-- **`AVLTree::search`** takes no place. -/
theorem Filed.runSearch (h : Filed s) (fuel : Nat) (head : Option (Node n)) (key : Bid n) :
    Run (· ≠ Err.noSpace) (search (nodeStore depth) fuel head key) s fun _ s' => Quiet s s' := by
  induction fuel generalizing s head with
  | zero =>
    unfold search
    exact Run.throw (by simp)
  | succ fuel ih =>
    cases head with
    | none =>
      unfold search
      exact Run.pure h.quiet
    | some head =>
      unfold search
      split_ifs
      · exact Run.pure h.quiet
      refine Run.bind (h.runReadNode head.key head.pos) ?_
      rintro p s1 ⟨h1, -⟩
      cases p with
      | none => exact Run.throw (by simp)
      | some p =>
        refine Run.bind (h1.filed.runDeref p) ?_
        rintro node s2 ⟨rfl, -⟩
        have hdown : ∀ (id : Bid n) (leaf : Nat), Run (· ≠ Err.noSpace) (do
            let child ← derefOpt (nodeStore depth) (← (nodeStore depth).readNode id leaf)
            search (nodeStore depth) fuel child key) s2 fun _ s' => Quiet s s' := by
          intro id leaf
          refine Run.bind (h1.filed.runReadNode id leaf) ?_
          rintro q s3 ⟨h3, -⟩
          refine Run.bind (h3.filed.runDerefOpt q) ?_
          rintro child s4 rfl
          refine (ih h3.filed child).mono ?_
          rintro - s5 h5
          exact (h1.trans h3).trans h5
        split_ifs
        · exact hdown _ _
        · exact hdown _ _
        · exact Run.pure h1

/-! ## The end of an operation -/

theorem Filed.padding (h : Filed s) (find : Bool) : Filed (Oram.padding depth s find) := by
  unfold Oram.padding
  generalize ((if find then 145 else 435) * depth + 99) / 100 - s.readCnt = k
  induction k generalizing s with
  | zero => exact h
  | succ k ih =>
    refine ih (s := fakeRead depth s) ?_
    exact Filed.fetchPath (Filed.pushLeaf (s := { s with drawn := s.drawn + 1 }) h _) _

theorem Filed.moveNodes (h : Filed s) : Filed (Oram.moveNodes depth s) := by
  have hmoved := moved_moveNodes depth s
  intro k node hk
  have hsome : (s.cache.get? k).isSome = true := by
    rw [← hmoved.isSome k, hk]
    rfl
  obtain ⟨old, hold⟩ := Option.isSome_iff_exists.1 hsome
  obtain ⟨node', hn, hsame, -⟩ := hmoved.entry k old hold
  obtain rfl := Option.some.inj (hk.symm.trans hn)
  exact hsame.key.trans (h k old hold)

theorem Filed.finilize (h : Filed s) (find : Bool) (rootKey : Bid n) (rootPos : Nat) :
    Filed (s.finilize depth find rootKey rootPos).2 := by
  have hpad : Filed (if s.batchWrite then s else Oram.padding depth s find) := by
    split_ifs
    · exact h
    · exact h.padding find
  exact PathOram.Filed.writeBack (L := layout depth) (s := (_, _)) hpad.moveNodes _

theorem Filed.runFinilize (h : Filed s) (find : Bool) (rootKey : Bid n) (rootPos : Nat) :
    Run (· ≠ Err.noSpace) ((treeStore depth).finilize find rootKey rootPos) s fun _ s' =>
      Filed s' ∧ s'.emptyNodes = s.emptyNodes :=
  Run.of_ok rfl ⟨h.finilize find rootKey rootPos, (blind_finilize find rootKey rootPos).emptyNodes s⟩

/-! ## The map -/

/-- **`OMAP::find`** takes no place. -/
theorem Filed.find (h : Filed s) (o : OMap n) (fuel : Nat) (key : Bid n) :
    Run (· ≠ Err.noSpace) (o.find (treeStore depth) fuel key) s fun _ s' =>
      Filed s' ∧ s'.emptyNodes = s.emptyNodes := by
  unfold OMap.find
  split_ifs
  · exact Run.pure ⟨h, rfl⟩
  refine Run.bind (Run.modify (s := s) (Q := fun _ s' => s' = s.start false) rfl) ?_
  rintro - s1 rfl
  refine Run.bind (Filed.runSearch (s := s.start false) h fuel _ key) ?_
  rintro res s2 h2
  refine Run.bind (h2.filed.runFinilize true _ _) ?_
  rintro rootPos s3 ⟨h3, he⟩
  exact Run.pure ⟨h3, he.trans h2.empty⟩

/-- **`OMAP::insert`** takes one place at most. -/
theorem Filed.insert (h : Filed s) (hroom : 0 < s.emptyNodes) (o : OMap n) (fuel : Nat) (key : Bid n) (value : Str) :
    Run (· ≠ Err.noSpace) (o.insert (treeStore depth) fuel key value) s fun _ s' =>
      Filed s' ∧ s.emptyNodes ≤ s'.emptyNodes + 1 := by
  unfold OMap.insert OMap.insertNode
  refine Run.bind (Run.modify (s := s) (Q := fun _ s' => s' = s.start false) rfl) ?_
  rintro - s1 rfl
  refine Run.bind (Filed.runInsert (s := s.start false) h hroom fuel _ _ key value) ?_
  rintro q s2 h2
  refine Run.bind (h2.filed.runFinilize false _ _) ?_
  rintro rootPos s3 ⟨h3, he⟩
  exact Run.pure ⟨h3, by rw [he]; exact h2.empty⟩

end

end Oram

end Sse.Omap
