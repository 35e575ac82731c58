import Sse.Omap.Batch

/-!
# Runs of OMAP calls

A run starts from an empty map over an empty ORAM; a call that throws ends it.  The calls
also build an AVL tree of the keys they insert (`treeOf`), which says what they answer.

    no node taller than depth + 2 → the leaves kept for the nodes are theirs          (positions_exact)
    tree not higher than depth + 2 → find returns the value inserted last             (omap_finite_map)
    batchInsert that spares the nodes → the same map as single insertions             (batchInsert_agrees)
-/

namespace Sse.Omap

open Wp PathOram

/-! ## Runs -/

/-- A call on an `OMAP`. -/
inductive OmapCall (n : Nat) where
  | insert (key : Bid n) (value : Str)
  | find (key : Bid n)
  | batchSearch (keys : List (Bid n))
  | batchInsert (pairs : SortedMap (Bid n) Str)

section

variable {n : Nat} {σ : Type}

/-- One call, with the strings it returns. -/
def OMap.call (S : TreeStore n σ) (fuel : Nat) (o : OMap n) : OmapCall n → Prog σ (OMap n × List Str)
  | .insert key value => do return (← o.insert S fuel key value, [])
  | .find key => do
    let (o, res) ← o.find S fuel key
    return (o, [res])
  | .batchSearch keys => o.batchSearch S fuel keys
  | .batchInsert pairs => do return (← o.batchInsert S fuel pairs, [])

/-- One call on an `OMAP` over its `ORAM`; a call that throws ends the run. -/
def omapStep (depth fuel : Nat) (x : OMap n × Oram n) (c : OmapCall n) : Option ((OMap n × Oram n) × List Str) :=
  match x.1.call (Oram.treeStore depth) fuel c x.2 with
  | .ok ((o, out), s) => some ((o, s), out)
  | .error _ => none

/-- What a call does to the tree. -/
def OmapCall.grow (t : Tree n) : OmapCall n → Tree n
  | .insert key value => t.insert key (padTo 16 value)
  | .batchInsert pairs => pairs.entries.foldl (fun t e => t.insert e.1 (padTo 16 e.2)) t
  | _ => t

/-- What a call answers, over the tree it is made on. -/
def OmapCall.Answers (t : Tree n) (out : List Str) : OmapCall n → Prop
  | .find key => out = [((t.get? key).map cStr).getD []]
  | .batchSearch keys => out.map some = (t.hits keys).map t.get?
  | _ => out = []

/-- The number of insertions. -/
def OmapCall.inserts : OmapCall n → Nat
  | .insert _ _ => 1
  | .batchInsert pairs => pairs.entries.length
  | _ => 0

/-- No zero key is inserted. -/
def OmapCall.NonZero : OmapCall n → Prop
  | .insert key _ => key.isZero = false
  | .batchInsert pairs => ∀ e ∈ pairs.entries, e.1.isZero = false
  | _ => True

/-- A `batchInsert` spares the nodes that it does not read, on a map with the tree `t`.  On a map that is not empty it
has pairs to insert: without any, `cache[rootKey]` would make a `NULL` entry for the root. -/
def OmapCall.Spares (depth : Nat) (t : Tree n) (x : OMap n × Oram n) : OmapCall n → Prop
  | .batchInsert pairs => (pairs.entries = [] → x.1.rootKey.isZero = true) ∧ x.2.Spares depth t pairs.entries
  | _ => True

instance (depth : Nat) (t : Tree n) (x : OMap n × Oram n) (c : OmapCall n) : Decidable (c.Spares depth t x) :=
  match c with
  | .insert _ _ => inferInstanceAs (Decidable True)
  | .find _ => inferInstanceAs (Decidable True)
  | .batchSearch _ => inferInstanceAs (Decidable True)
  | .batchInsert _ => inferInstanceAs (Decidable ((_ → _) ∧ _))

variable {depth fuel : Nat} {s : Oram n} {m : Bid n → Option (Node n)} {o : OMap n} {t : Tree n} {E : Err → Prop}

/-- **One call** of any kind. -/
theorem Kept.call (h : Kept depth s m o t) (hE : E .noSpace) {c : OmapCall n} (hf : t.height + c.inserts < fuel)
    (hkeys : c.NonZero ∨ E .idNotSet) (hspare : c.Spares depth t (o, s)) :
    Run E (o.call (Oram.treeStore depth) fuel c) s fun r s' =>
      c.Answers t r.2 ∧ ∃ m', Ended depth s' m' r.1 (c.grow t) := by
  cases c with
  | insert key value =>
    simp only [OmapCall.inserts] at hf
    refine Run.bind (h.insert hE (by omega) hkeys value) ?_
    rintro o' s' hend
    exact Run.pure ⟨rfl, hend⟩
  | find key =>
    simp only [OmapCall.inserts] at hf
    refine Run.bind (h.find hE (by omega) key) ?_
    rintro ⟨o', res⟩ s' ⟨hres, hend⟩
    exact Run.pure ⟨congrArg (fun v => [v]) hres, hend⟩
  | batchSearch keys =>
    simp only [OmapCall.inserts] at hf
    exact h.batchSearch hE (by omega) keys
  | batchInsert pairs =>
    simp only [OmapCall.inserts] at hf
    have hk : ∀ e ∈ pairs.entries, e.1.isZero = false ∨ E .idNotSet := fun e he => hkeys.imp_left fun hk => hk e he
    refine Run.bind (h.batchInsert hE (by omega) hk hspare.2) ?_
    rintro o' s' hend
    exact Run.pure ⟨rfl, hend⟩

/-- The tree that the calls build out of `t`. -/
def treeOf (t : Tree n) (cs : List (OmapCall n)) : Tree n := cs.foldl OmapCall.grow t

theorem treeOf_append (t : Tree n) (cs cs' : List (OmapCall n)) : treeOf t (cs ++ cs') = treeOf (treeOf t cs) cs' :=
  List.foldl_append

theorem treeOf_concat (t : Tree n) (cs : List (OmapCall n)) (c : OmapCall n) :
    treeOf t (cs ++ [c]) = c.grow (treeOf t cs) := treeOf_append t cs [c]

theorem grow_insert (h : t.Ordered ∧ t.Bal) (key : Bid n) (value : List UInt8) :
    ((t.insert key value).Ordered ∧ (t.insert key value).Bal) ∧ t.height ≤ (t.insert key value).height ∧
      (t.insert key value).height ≤ t.height + 1 := by
  obtain ⟨hbal, hge, hle, -⟩ := AvlTree.bal_insert h.2 key value
  exact ⟨⟨AvlTree.ordered_insert h.1 key value, hbal⟩, hge, hle⟩

theorem grow_spec (h : t.Ordered ∧ t.Bal) (c : OmapCall n) :
    ((c.grow t).Ordered ∧ (c.grow t).Bal) ∧ t.height ≤ (c.grow t).height ∧ (c.grow t).height ≤ t.height + c.inserts := by
  cases c with
  | insert key value => exact grow_insert h key _
  | find key => exact ⟨h, Nat.le_refl _, Nat.le_refl _⟩
  | batchSearch keys => exact ⟨h, Nat.le_refl _, Nat.le_refl _⟩
  | batchInsert pairs =>
    rw [OmapCall.grow, OmapCall.inserts]
    generalize pairs.entries = es
    induction es generalizing t with
    | nil => exact ⟨h, Nat.le_refl _, Nat.le_refl _⟩
    | cons e es ih =>
      obtain ⟨hu, hge, hle⟩ := grow_insert h e.1 (padTo 16 e.2)
      obtain ⟨hu', hge', hle'⟩ := ih hu
      refine ⟨hu', hge.trans hge', ?_⟩
      rw [List.length_cons]
      exact hle'.trans (by omega)

/-- The tree stays ordered and balanced, and grows by at most one level with each insertion. -/
theorem treeOf_spec (h : t.Ordered ∧ t.Bal) (cs : List (OmapCall n)) :
    ((treeOf t cs).Ordered ∧ (treeOf t cs).Bal) ∧ t.height ≤ (treeOf t cs).height ∧
      (treeOf t cs).height ≤ t.height + (cs.map OmapCall.inserts).sum := by
  induction cs generalizing t with
  | nil => exact ⟨h, Nat.le_refl _, Nat.le_refl _⟩
  | cons c cs ih =>
    obtain ⟨hg, hge, hle⟩ := grow_spec h c
    obtain ⟨hg', hge', hle'⟩ := ih hg
    refine ⟨hg', hge.trans hge', hle'.trans ?_⟩
    rw [List.map_cons, List.sum_cons]
    omega

theorem treeOf_height_mono (h : t.Ordered ∧ t.Bal) (pre post : List (OmapCall n)) :
    (treeOf t pre).height ≤ (treeOf t (pre ++ post)).height := by
  rw [treeOf_append]
  exact (treeOf_spec (treeOf_spec h pre).1 post).2.1

/-- Every `batchInsert` spares the nodes, from a map with the tree `t`. -/
def Sparing (depth fuel : Nat) (t : Tree n) (x₀ : OMap n × Oram n) (cs : List (OmapCall n)) : Prop :=
  ∀ pre c post, cs = pre ++ c :: post → ∀ x outs, Runs.run (omapStep depth fuel) x₀ pre = some (x, outs) →
    c.Spares depth (treeOf t pre) x

theorem sparing_of_single {x₀ : OMap n × Oram n} {cs : List (OmapCall n)}
    (h : ∀ pairs, OmapCall.batchInsert pairs ∉ cs) : Sparing depth fuel t x₀ cs := by
  intro pre c post he x outs _
  cases c with
  | batchInsert pairs => exact absurd (by rw [he]; exact List.mem_append_right _ List.mem_cons_self) (h pairs)
  | insert key value => trivial
  | find key => trivial
  | batchSearch keys => trivial

theorem sparing_cons {x₀ : OMap n × Oram n} {c : OmapCall n} {cs : List (OmapCall n)} :
    Sparing depth fuel t x₀ (c :: cs) ↔
      c.Spares depth t x₀ ∧ ∀ r ∈ omapStep depth fuel x₀ c, Sparing depth fuel (c.grow t) r.1 cs := by
  constructor
  · refine fun h => ⟨h [] c cs rfl x₀ [] rfl, fun r hr pre c' post he y outs hrun => ?_⟩
    exact h (c :: pre) c' post (by rw [he]; rfl) y (r.2 :: outs) (Runs.run_cons_eq_some.2 ⟨r.1, r.2, outs, hr, hrun, rfl⟩)
  · rintro ⟨hc, hcs⟩ pre c' post he y outs hrun
    cases pre with
    | nil =>
      obtain ⟨rfl, -⟩ := List.cons.inj he
      obtain ⟨rfl, -⟩ := Prod.mk.inj (Option.some.inj hrun)
      exact hc
    | cons d pre =>
      obtain ⟨rfl, he'⟩ := List.cons.inj he
      obtain ⟨x, out, outs', hstep, hrest, -⟩ := Runs.run_cons_eq_some.1 hrun
      exact hcs (x, out) hstep pre c' post he' y outs' hrest

instance decidableSparing (depth fuel : Nat) :
    (t : Tree n) → (x₀ : OMap n × Oram n) → (cs : List (OmapCall n)) → Decidable (Sparing depth fuel t x₀ cs)
  | _, _, [] => isTrue (sparing_of_single fun _ => List.not_mem_nil)
  | t, _, c :: cs =>
    have : DecidablePred fun r : (OMap n × Oram n) × List Str => Sparing depth fuel (c.grow t) r.1 cs :=
      fun r => decidableSparing depth fuel (c.grow t) r.1 cs
    decidable_of_iff' _ sparing_cons

/-- **Fair calls**, from a tree `t`: no tree on the way is too high, and every `batchInsert` spares the nodes. -/
structure Fair (depth fuel : Nat) (t : Tree n) (x₀ : OMap n × Oram n) (cs : List (OmapCall n)) : Prop where
  enough : t.height + (cs.map OmapCall.inserts).sum < fuel
  spares : Sparing depth fuel t x₀ cs
  low : ∀ pre post, cs = pre ++ post → ∀ x outs m, Runs.run (omapStep depth fuel) x₀ pre = some (x, outs) →
    Ended depth x.2 m x.1 (treeOf t pre) → (treeOf t pre).height ≤ depth + 2

theorem Fair.of_append {x₀ : OMap n × Oram n} {pre post : List (OmapCall n)} (h : Fair depth fuel t x₀ (pre ++ post)) :
    Fair depth fuel t x₀ pre where
  enough := by
    have hall := h.enough
    rw [List.map_append, List.sum_append] at hall
    omega
  spares l c r he := h.spares l c (r ++ post) (by rw [he, List.append_assoc, List.cons_append])
  low l r he := h.low l (r ++ post) (by rw [he, List.append_assoc])

theorem Fair.of_height {x₀ : OMap n × Oram n} {cs : List (OmapCall n)} (ht : t.Ordered ∧ t.Bal)
    (henough : t.height + (cs.map OmapCall.inserts).sum < fuel) (hspares : Sparing depth fuel t x₀ cs)
    (hlow : (treeOf t cs).height ≤ depth + 2) : Fair depth fuel t x₀ cs := by
  refine ⟨henough, hspares, ?_⟩
  rintro pre post rfl - - - - -
  exact (treeOf_height_mono ht pre post).trans hlow

/-- A call that returns has made its step. -/
theorem omapStep_eq_some {x x' : OMap n × Oram n} {c : OmapCall n} {out : List Str}
    (h : omapStep depth fuel x c = some (x', out)) :
    x.1.call (Oram.treeStore depth) fuel c x.2 = .ok ((x'.1, out), x'.2) := by
  unfold omapStep at h
  split at h
  · next o out' s hok =>
    obtain ⟨rfl, rfl⟩ := Prod.mk.inj (Option.some.inj h)
    exact hok
  · cases h

/-- **The tree is kept** by fair calls. -/
theorem Kept.run (h : Kept depth s m o t) {cs : List (OmapCall n)} {x : OMap n × Oram n} {outs : List (List Str)}
    (hfair : Fair depth fuel t (o, s) cs) (hrun : Runs.run (omapStep depth fuel) (o, s) cs = some (x, outs)) :
    ∃ m', Kept depth x.2 m' x.1 (treeOf t cs) := by
  induction cs using List.reverseRecOn generalizing x outs with
  | nil =>
    obtain ⟨rfl, -⟩ := Prod.mk.inj (Option.some.inj hrun)
    exact ⟨m, h⟩
  | append_singleton cs c ih =>
    obtain ⟨x1, outs1, out, hpre, hstep, -⟩ := Runs.run_concat.1 hrun
    obtain ⟨m1, hkept⟩ := ih hfair.of_append hpre
    have henough := hfair.enough
    rw [List.map_append, List.sum_append, List.map_singleton, List.sum_singleton] at henough
    have hheight := (treeOf_spec ⟨h.ordered, h.bal⟩ cs).2.2
    have hf : (treeOf t cs).height + c.inserts < fuel := by omega
    have hcall := hkept.call (E := fun _ => True) trivial hf (Or.inr trivial) (hfair.spares cs c [] rfl x1 outs1 hpre)
    obtain ⟨-, m', hend⟩ := hcall.ok (omapStep_eq_some hstep)
    rw [← treeOf_concat] at hend
    exact ⟨m', hend.kept (hfair.low (cs ++ [c]) [] (List.append_nil _).symm x outs m' hrun hend)⟩

/-! ## Leaves -/

/-- No stored node is taller than the position loop of `finilize` goes. -/
def Oram.Low (depth : Nat) (s : Oram n) : Prop :=
  ∀ bid node, bid.isZero = false → s.current depth bid = some node → node.height ≤ depth + 2

/-- If no stored node is too tall, nor is the tree: its root is stored with its height. -/
theorem Ended.height_le (h : Ended depth s m o t) (hlow : Oram.Low depth s) : t.height ≤ depth + 2 := by
  cases t with
  | nil => exact Nat.zero_le _
  | node l k v r =>
    obtain ⟨-, node, hk, hheight⟩ := h.root k rfl
    obtain ⟨-, hz, -⟩ := (h.rest.start false).wf hk
    rw [← hheight]
    exact hlow k node hz ((h.rest.current hz).trans hk)

theorem Kept.ended (h : Kept depth s m o t) : Ended depth s m o t := by
  refine ⟨h.rest, fun k hk => ?_, fun _ => h⟩
  obtain ⟨rfl, node, hm, -, hheight⟩ := h.repr.root hk
  exact ⟨rfl, node, hm, hheight⟩

/-- No node is taller than its tree. -/
theorem Repr.height_le {k : Bid n} {p : Nat} (h : Repr m k p t) {j : Bid n} {node : Node n} (hj : j ∈ t.keys)
    (hm : m j = some node) : node.height ≤ t.height := by
  induction t generalizing k p with
  | nil => cases hj
  | node l k' v r ihl ihr =>
    obtain ⟨rfl, node', hk, -, -, hheight, hl, hr⟩ := h
    have hnode : (AvlTree.node l k v r).height = max l.height r.height + 1 := rfl
    rcases AvlTree.mem_keys_node.1 hj with hj | rfl | hj
    · have := ihl hl hj
      omega
    · obtain rfl := Option.some.inj (hk.symm.trans hm)
      omega
    · have := ihr hr hj
      omega

theorem Kept.low (h : Kept depth s m o t) (hh : t.height ≤ depth + 2) : Oram.Low depth s := by
  intro bid node hz hs
  have hm : m bid = some node := (h.rest.current hz).symm.trans hs
  by_cases hj : bid ∈ t.keys
  · exact (h.repr.height_le hj hm).trans hh
  · rw [h.only bid hj] at hm
    cases hm

/-- In every state that the calls pass no stored node is too tall. -/
def NeverTall (depth fuel : Nat) (x₀ : OMap n × Oram n) (cs : List (OmapCall n)) : Prop :=
  ∀ pre post, cs = pre ++ post → ∀ x outs, Runs.run (omapStep depth fuel) x₀ pre = some (x, outs) → Oram.Low depth x.2

/-- The stored nodes are never too tall if the tree at the end is not. -/
theorem Kept.neverTall (h : Kept depth s m o t) {cs : List (OmapCall n)}
    (henough : t.height + (cs.map OmapCall.inserts).sum < fuel) (hspares : Sparing depth fuel t (o, s) cs)
    (hlow : (treeOf t cs).height ≤ depth + 2) : NeverTall depth fuel (o, s) cs := by
  rintro pre post rfl x outs hrun
  have hpre := (treeOf_height_mono ⟨h.ordered, h.bal⟩ pre post).trans hlow
  obtain ⟨m', hkept⟩ := h.run (Fair.of_height ⟨h.ordered, h.bal⟩ henough hspares hlow).of_append hrun
  exact hkept.low hpre

/-- Few insertions do not make a tree too high. -/
theorem treeOf_few {cs : List (OmapCall n)} (h : (cs.map OmapCall.inserts).sum ≤ depth + 2) :
    (treeOf (.nil : Tree n) cs).height ≤ depth + 2 := by
  have hle := (treeOf_spec (t := (.nil : Tree n)) ⟨List.Pairwise.nil, trivial⟩ cs).2.2
  rw [AvlTree.height] at hle
  omega

theorem Repr.root_leaf {k : Bid n} {p : Nat} (h : Repr m k p t) (hz : k.isZero = false) :
    ∃ root, m k = some root ∧ root.pos = p := by
  cases t with
  | nil =>
    rw [show k.isZero = true from h] at hz
    cases hz
  | node l k' v r =>
    obtain ⟨rfl, root, hk, hp, -⟩ := h
    exact ⟨root, hk, hp⟩

/-- The leaf that a node keeps for a child is the child's. -/
theorem Repr.leaves {k : Bid n} {p : Nat} (h : Repr m k p t) {j : Bid n} {node : Node n} (hj : j ∈ t.keys)
    (hm : m j = some node) (d : Side) (hz : (node.childID d).isZero = false) :
    ∃ c, m (node.childID d) = some c ∧ c.pos = node.childPos d := by
  induction t generalizing k p with
  | nil => cases hj
  | node l k' v r ihl ihr =>
    obtain ⟨rfl, node', hk, -, -, -, hl, hr⟩ := h
    rcases AvlTree.mem_keys_node.1 hj with hj | rfl | hj
    · exact ihl hl hj
    · obtain rfl := Option.some.inj (hk.symm.trans hm)
      cases d with
      | left => exact hl.root_leaf hz
      | right => exact hr.root_leaf hz
    · exact ihr hr hj

/-- **Leaves are exact.**  In a run of single insertions and of searches that throws nothing, on a fresh map, as
long as no stored node is ever taller than `depth + 2`: `rootPos` is the leaf of the root, and the leaves that a
stored node keeps for its children are theirs. -/
theorem positions_exact (depth : Nat) (rnd : Nat → Nat) (hrnd : ∀ i, rnd i < 2 ^ depth) (cs : List (OmapCall n))
    (hcs : ∀ pairs, OmapCall.batchInsert pairs ∉ cs) (fuel : Nat) (hf : (cs.map OmapCall.inserts).sum < fuel)
    (hlow : NeverTall depth fuel (OMap.new, Oram.new depth rnd) cs) (o : OMap n) (s : Oram n) (outs : List (List Str))
    (h : Runs.run (omapStep depth fuel) (OMap.new, Oram.new depth rnd) cs = some ((o, s), outs)) :
    (o.rootKey.isZero = false → ∃ root, s.current depth o.rootKey = some root ∧ root.pos = o.rootPos) ∧
      ∀ bid node, bid.isZero = false → s.current depth bid = some node →
        (node.leftID.isZero = false → ∃ c, s.current depth node.leftID = some c ∧ c.pos = node.leftPos) ∧
        (node.rightID.isZero = false → ∃ c, s.current depth node.rightID = some c ∧ c.pos = node.rightPos) := by
  have hfair : Fair depth fuel .nil (OMap.new, Oram.new depth rnd) cs := by
    refine ⟨?_, sparing_of_single hcs, fun pre post he x outs m' hrun hend => ?_⟩
    · rw [AvlTree.height, Nat.zero_add]
      exact hf
    · exact hend.height_le (hlow pre post he x outs hrun)
  obtain ⟨m, hkept⟩ := (kept_new hrnd).run hfair h
  have hcur : ∀ {bid : Bid n} {node : Node n}, bid.isZero = false → m bid = some node → s.current depth bid = some node :=
    fun hz hm => (hkept.rest.current hz).trans hm
  have hwf : ∀ {bid : Bid n} {node : Node n}, m bid = some node → bid.isZero = false :=
    fun hm => ((hkept.rest.start false).wf hm).2.1
  constructor
  · intro hz
    obtain ⟨root, hm, hp⟩ := hkept.repr.root_leaf hz
    exact ⟨root, hcur hz hm, hp⟩
  · intro bid node hz hs
    have hm : m bid = some node := (hkept.rest.current hz).symm.trans hs
    have hj : bid ∈ (treeOf .nil cs).keys := by
      by_contra hj
      rw [hkept.only bid hj] at hm
      cases hm
    have hchild : ∀ d : Side, (node.childID d).isZero = false →
        ∃ c, s.current depth (node.childID d) = some c ∧ c.pos = node.childPos d := by
      intro d hd
      obtain ⟨c, hc, hp⟩ := hkept.repr.leaves hj hm d hd
      exact ⟨c, hcur hd hc, hp⟩
    exact ⟨hchild .left, hchild .right⟩

/-- Three insertions, with a rotation, and two searches. -/
def threeInserts : List (OmapCall 16) :=
  [.insert (Bid.ofInt 1) [97], .insert (Bid.ofInt 2) [98], .insert (Bid.ofInt 3) [99], .find (Bid.ofInt 1),
    .batchSearch [Bid.ofInt 3, Bid.ofInt 2]]

theorem positions_exact_three_inserts :
    ∃ o s outs, Runs.run (omapStep 2 8) (OMap.new, Oram.new 2 fun i => i % 3) threeInserts = some ((o, s), outs) ∧
      ∃ root, s.current 2 o.rootKey = some root ∧ root.pos = o.rootPos := by
  have hrnd : ∀ i, i % 3 < 2 ^ 2 := fun i => (Nat.mod_lt i (by decide)).trans (by decide)
  have hroot : (Runs.run (omapStep 2 8) (OMap.new, Oram.new 2 fun i => i % 3) threeInserts).map
      (fun r => r.1.1.rootKey.isZero) = some false := by decide +kernel
  obtain ⟨⟨⟨o, s⟩, outs⟩, hrun, hz⟩ := Option.map_eq_some_iff.1 hroot
  have hcs : ∀ pairs, OmapCall.batchInsert pairs ∉ threeInserts := by
    intro pairs hp
    simp [threeInserts] at hp
  have hlow : NeverTall 2 8 (OMap.new, Oram.new 2 fun i => i % 3) threeInserts :=
    (kept_new hrnd).neverTall (by decide) (sparing_of_single hcs) (treeOf_few (by decide))
  exact ⟨o, s, outs, hrun, (positions_exact 2 _ hrnd threeInserts hcs 8 (by decide) hlow o s outs hrun).1 hz⟩

/-! ## A finite map -/

/-- What a call does to a map from keys to values. -/
def OmapCall.update (f : Bid n → Str) : OmapCall n → Bid n → Str
  | .insert key value => Function.update f key value
  | _ => f

/-- What the calls so far have left under each key: the value last inserted, or `""`. -/
def lastValue (cs : List (OmapCall n)) : Bid n → Str := cs.foldl OmapCall.update fun _ => []

theorem lastValue_concat (cs : List (OmapCall n)) (c : OmapCall n) : lastValue (cs ++ [c]) = c.update (lastValue cs) :=
  List.foldl_append

/-- An `insert` of a value that fits, or a `find`; the first four bytes of the key are not all zero. -/
def OmapCall.Plain : OmapCall n → Prop
  | .insert key value => key.isZero = false ∧ NulFree value ∧ value.length ≤ 16
  | .find key => key.isZero = false
  | _ => False

instance (c : OmapCall n) : Decidable c.Plain :=
  match c with
  | .insert _ _ => inferInstanceAs (Decidable (_ ∧ _ ∧ _))
  | .find _ => inferInstanceAs (Decidable (_ = _))
  | .batchSearch _ => inferInstanceAs (Decidable False)
  | .batchInsert _ => inferInstanceAs (Decidable False)

theorem get?_insert (h : t.Ordered) (key k : Bid n) (value : List UInt8) :
    (t.insert key value).get? k = if k = key then some value else t.get? k := by
  rw [AvlTree.get?_eq_lookup (AvlTree.ordered_insert h key value), AvlTree.toList_insert h,
    SortedMap.lookup_insertEntries, ← AvlTree.get?_eq_lookup h]

/-- **What the tree answers** is what was inserted last. -/
theorem get?_treeOf {cs : List (OmapCall n)} (hcs : ∀ c ∈ cs, c.Plain) (key : Bid n) :
    (((treeOf (.nil : Tree n) cs).get? key).map cStr).getD [] = lastValue cs key := by
  induction cs using List.reverseRecOn with
  | nil => rfl
  | append_singleton cs c ih =>
    have hpre : ∀ c ∈ cs, c.Plain := fun c hc => hcs c (List.mem_append_left _ hc)
    have hc : c.Plain := hcs c (List.mem_append_right _ List.mem_cons_self)
    have hord := (treeOf_spec (t := (.nil : Tree n)) ⟨List.Pairwise.nil, trivial⟩ cs).1.1
    rw [treeOf_concat, lastValue_concat]
    cases c with
    | insert k value =>
      obtain ⟨-, hnul, hlen⟩ := hc
      show (((AvlTree.insert k (padTo 16 value) (treeOf .nil cs)).get? key).map cStr).getD [] =
        Function.update (lastValue cs) k value key
      rw [get?_insert hord]
      by_cases hk : key = k
      · rw [if_pos hk, hk, Function.update_self]
        exact cStr_padTo hnul hlen
      · rw [if_neg hk, Function.update_of_ne hk]
        exact ih hpre
    | find k => exact ih hpre
    | batchSearch keys => exact hc.elim
    | batchInsert pairs => exact hc.elim

/-- **`OMAP` is a finite map** as long as the AVL tree of the keys inserted so far is not higher than `depth + 2`:
then every `insert` and `find` returns, and `find` the value inserted last, or the ORAM is full. -/
theorem omap_finite_map (depth : Nat) (rnd : Nat → Nat) (hrnd : ∀ i, rnd i < 2 ^ depth) (cs : List (OmapCall n))
    (hcs : ∀ c ∈ cs, c.Plain) (hlow : (treeOf (.nil : Tree n) cs).height ≤ depth + 2) (fuel : Nat)
    (hf : (cs.map OmapCall.inserts).sum + 1 < fuel) (o : OMap n) (s : Oram n) (outs : List (List Str))
    (h : Runs.run (omapStep depth fuel) (OMap.new, Oram.new depth rnd) cs = some ((o, s), outs))
    (c : OmapCall n) (hc : c.Plain) :
    (∃ o' out s', o.call (Oram.treeStore depth) fuel c s = .ok ((o', out), s') ∧
        ∀ key, c = .find key → out = [lastValue cs key]) ∨
      o.call (Oram.treeStore depth) fuel c s = .error .noSpace := by
  have hnot : ∀ pairs, OmapCall.batchInsert pairs ∉ cs := fun pairs hp => (hcs _ hp).elim
  have hnil : (.nil : Tree n).height = 0 := rfl
  have hempty : (.nil : Tree n).Ordered ∧ (.nil : Tree n).Bal := ⟨List.Pairwise.nil, trivial⟩
  have hheight := (treeOf_spec hempty cs).2.2
  have hfair : Fair depth fuel .nil (OMap.new, Oram.new depth rnd) cs :=
    .of_height hempty (by omega) (sparing_of_single hnot) hlow
  obtain ⟨m, hkept⟩ := (kept_new hrnd).run hfair h
  have hone : c.inserts ≤ 1 ∧ c.NonZero ∧ c.Spares depth (treeOf .nil cs) (o, s) := by
    cases c with
    | insert key value => exact ⟨Nat.le_refl _, hc.1, trivial⟩
    | find key => exact ⟨Nat.zero_le _, trivial, trivial⟩
    | batchSearch keys => exact hc.elim
    | batchInsert pairs => exact hc.elim
  obtain ⟨hins, hzero, hspare⟩ := hone
  have henough : (treeOf (.nil : Tree n) cs).height + c.inserts < fuel := by omega
  have hcall := hkept.call (E := (· = .noSpace)) rfl henough (Or.inl hzero) hspare
  rcases hcall.cases with ⟨⟨o', out⟩, s', hok, hans, -⟩ | ⟨e, herr, rfl⟩
  · refine Or.inl ⟨o', out, s', hok, ?_⟩
    rintro key rfl
    rw [← get?_treeOf hcs key]
    exact hans
  · exact Or.inr herr

/-- The keys of the lowest AVL tree of height 5, and of none higher. -/
def tallInserts : List (OmapCall 16) :=
  ([8, 5, 11, 3, 7, 10, 12, 2, 4, 6, 9, 1].map Bid.ofInt).map fun key => .insert key [97]

/-- Leaves that both generators can draw: one in `q` is 1. -/
def mostlyZero (q i : Nat) : Nat := if i % q = 0 then 1 else 0

theorem mostlyZero_lt (q i : Nat) : mostlyZero q i < 2 ^ 2 := by
  unfold mostlyZero
  split <;> decide

/-- The third key is found after the first four insertions. -/
theorem omap_finite_map_four :
    ∃ o s outs, Runs.run (omapStep 2 20) (OMap.new, Oram.new 2 (mostlyZero 7)) (tallInserts.take 4) =
        some ((o, s), outs) ∧
      ((∃ o' s', o.call (Oram.treeStore 2) 20 (.find (Bid.ofInt 11)) s = .ok ((o', [[97]]), s')) ∨
        o.call (Oram.treeStore 2) 20 (.find (Bid.ofInt 11)) s = .error .noSpace) := by
  have hsome : (Runs.run (omapStep 2 20) (OMap.new, Oram.new 2 (mostlyZero 7)) (tallInserts.take 4)).isSome = true := by
    decide +kernel
  obtain ⟨⟨⟨o, s⟩, outs⟩, hrun⟩ := Option.isSome_iff_exists.1 hsome
  have hlast : lastValue (tallInserts.take 4) (Bid.ofInt 11) = [97] := by decide +kernel
  refine ⟨o, s, outs, hrun, ?_⟩
  rcases omap_finite_map 2 _ (mostlyZero_lt 7) _ (by decide +kernel) (treeOf_few (by decide)) 20 (by decide) o s outs
    hrun (.find (Bid.ofInt 11)) (by decide +kernel) with ⟨o', out, s', hok, hout⟩ | herr
  · have hval : out = [[97]] := (hout _ rfl).trans (congrArg (fun v => [v]) hlast)
    subst hval
    exact Or.inl ⟨o', s', hok⟩
  · exact Or.inr herr

/-- With a tree of height 5 over buckets of depth 2, a key that was inserted is not found. -/
theorem tall_tree_loses_key :
    ∃ x outs, Runs.run (omapStep 2 20) (OMap.new, Oram.new 2 (mostlyZero 7))
        (tallInserts ++ [.find (Bid.ofInt 1)]) = some (x, outs ++ [[[]]]) ∧
      (∀ c ∈ tallInserts, c.Plain) ∧ lastValue tallInserts (Bid.ofInt 1) = [97] := by
  have hout : (Runs.run (omapStep 2 20) (OMap.new, Oram.new 2 (mostlyZero 7))
      (tallInserts ++ [.find (Bid.ofInt 1)])).map Prod.snd = some (List.replicate 12 [] ++ [[[]]]) := by decide +kernel
  obtain ⟨⟨x, outs⟩, hrun, rfl⟩ := Option.map_eq_some_iff.1 hout
  exact ⟨x, List.replicate 12 [], hrun, by decide +kernel, by decide +kernel⟩

/-! ## Batches -/

/-- After insertions under distinct keys, each has its value; the others are as before. -/
theorem get?_inserts (h : t.Ordered ∧ t.Bal) {es : List (Bid n × Str)} (hnodup : (es.map Prod.fst).Nodup) (k : Bid n) :
    (∀ v, (k, v) ∈ es → (treeOf t (es.map fun e => .insert e.1 e.2)).get? k = some (padTo 16 v)) ∧
      (k ∉ es.map Prod.fst → (treeOf t (es.map fun e => .insert e.1 e.2)).get? k = t.get? k) := by
  induction es generalizing t with
  | nil => exact ⟨fun v hv => (nomatch hv), fun _ => rfl⟩
  | cons e es ih =>
    obtain ⟨hnot, hnodup'⟩ := List.nodup_cons.1 hnodup
    obtain ⟨hin, hout⟩ := ih (grow_insert h e.1 (padTo 16 e.2)).1 hnodup'
    constructor
    · intro v hv
      rcases List.mem_cons.1 hv with rfl | hv
      · refine (hout hnot).trans ?_
        rw [get?_insert h.1, if_pos rfl]
      · exact hin v hv
    · intro hk
      rw [List.map_cons, List.mem_cons, not_or] at hk
      refine (hout hk.2).trans ?_
      rw [get?_insert h.1, if_neg hk.1]

/-- The order of insertions under distinct keys does not matter. -/
theorem get?_inserts_perm (h : t.Ordered ∧ t.Bal) {es es' : List (Bid n × Str)} (hperm : es.Perm es')
    (hnodup : (es.map Prod.fst).Nodup) (k : Bid n) :
    (treeOf t (es.map fun e => .insert e.1 e.2)).get? k = (treeOf t (es'.map fun e => .insert e.1 e.2)).get? k := by
  obtain ⟨hin, hout⟩ := get?_inserts h hnodup k
  obtain ⟨hin', hout'⟩ := get?_inserts h ((hperm.map Prod.fst).nodup_iff.1 hnodup) k
  by_cases hk : k ∈ es.map Prod.fst
  · obtain ⟨⟨k, v⟩, hmem, rfl⟩ := List.mem_map.1 hk
    rw [hin v hmem, hin' v (hperm.mem_iff.1 hmem)]
  · rw [hout hk, hout' fun hk' => hk ((hperm.map Prod.fst).mem_iff.2 hk')]

theorem treeOf_batchInsert (t : Tree n) (pairs : SortedMap (Bid n) Str) :
    treeOf t [.batchInsert pairs] = treeOf t (pairs.entries.map fun e => .insert e.1 e.2) := by
  show pairs.entries.foldl _ t = _
  rw [treeOf, List.foldl_map]
  rfl

/-- The leaves still to be drawn do not matter. -/
theorem Kept.redraw (h : Kept depth s m o t) {rnd : Nat → Nat} (hrnd : ∀ i, rnd i < 2 ^ depth) :
    Kept depth { s with rnd := rnd } m o t :=
  ⟨{ h.rest with draws := hrnd }, h.repr, h.ordered, h.bal, h.only⟩

theorem sum_inserts_singles (es : List (Bid n × Str)) :
    ((es.map fun e => OmapCall.insert e.1 e.2).map OmapCall.inserts).sum = es.length := by
  induction es with
  | nil => rfl
  | cons e es ih =>
    rw [List.map_cons, List.map_cons, List.sum_cons, ih, List.length_cons, OmapCall.inserts, Nat.add_comm]

/-- A call that keeps the error it ends with. -/
def omapTry (depth fuel : Nat) (c : OmapCall n) : StateT (OMap n × Oram n) (Except Err) (List Str) := fun x =>
  (x.1.call (Oram.treeStore depth) fuel c x.2).map fun r => (r.1.2, (r.1.1, r.2))

/-- What a run of calls answers. -/
def Answered (t : Tree n) : List (OmapCall n) → List (List Str) → Prop
  | [], outs => outs = []
  | c :: cs, outs => ∃ out rest, outs = out :: rest ∧ c.Answers t out ∧ Answered (c.grow t) cs rest

/-- What calls may throw: that the ORAM is full, or that a key is zero. -/
def Throws (cs : List (OmapCall n)) (e : Err) : Prop := e = .noSpace ∨ e = .idNotSet ∧ ∃ c ∈ cs, ¬ c.NonZero

/-- **One call** keeps the tree, if it does not get too high. -/
theorem Kept.try (h : Kept depth s m o t) (hE : E .noSpace) {c : OmapCall n} (hf : t.height + c.inserts < fuel)
    (hkeys : c.NonZero ∨ E .idNotSet) (hspare : c.Spares depth t (o, s)) :
    Run E (omapTry depth fuel c) (o, s) fun out x =>
      omapStep depth fuel (o, s) c = some (x, out) ∧ c.Answers t out ∧ ∃ m', Ended depth x.2 m' x.1 (c.grow t) := by
  rcases (h.call hE hf hkeys hspare).cases with ⟨⟨o', out⟩, s', hok, hans, hend⟩ | ⟨e, herr, he⟩
  · refine Run.of_ok (a := out) (t := (o', s')) ?_ ⟨?_, hans, hend⟩
    · show (o.call (Oram.treeStore depth) fuel c s).map _ = _
      rw [hok]
      rfl
    · unfold omapStep
      rw [hok]
  · refine Run.of_error (e := e) ?_ he
    show (o.call (Oram.treeStore depth) fuel c s).map _ = _
    rw [herr]
    rfl

theorem Fair.of_cons {x x' : OMap n × Oram n} {c : OmapCall n} {out : List Str} {cs : List (OmapCall n)}
    (ht : t.Ordered ∧ t.Bal) (h : Fair depth fuel t x (c :: cs)) (hstep : omapStep depth fuel x c = some (x', out)) :
    Fair depth fuel (c.grow t) x' cs := by
  refine ⟨?_, (sparing_cons.1 h.spares).2 _ hstep, fun pre post he y outs m' hrun hend => ?_⟩
  · have henough := h.enough
    have hgrow := (grow_spec ht c).2.2
    rw [List.map_cons, List.sum_cons] at henough
    omega
  · exact h.low (c :: pre) post (by rw [he]; rfl) y (out :: outs) m'
      (Runs.run_cons_eq_some.2 ⟨x', out, outs, hstep, hrun, rfl⟩) hend

/-- **Fair calls** return and keep the tree, or throw. -/
theorem Kept.tries (h : Kept depth s m o t) (hE : E .noSpace) {cs : List (OmapCall n)}
    (hkeys : ∀ c ∈ cs, c.NonZero ∨ E .idNotSet) (hfair : Fair depth fuel t (o, s) cs) :
    Run E (cs.mapM (omapTry depth fuel)) (o, s) fun outs x => Runs.run (omapStep depth fuel) (o, s) cs = some (x, outs) ∧
      Answered t cs outs ∧ ∃ m', Kept depth x.2 m' x.1 (treeOf t cs) := by
  induction cs generalizing o s m t with
  | nil =>
    rw [List.mapM_nil]
    exact Run.pure ⟨rfl, rfl, m, h⟩
  | cons c cs ih =>
    have henough := hfair.enough
    rw [List.map_cons, List.sum_cons] at henough
    rw [List.mapM_cons]
    refine Run.bind (h.try hE (by omega) (hkeys c List.mem_cons_self) (hfair.spares [] c cs rfl _ [] rfl)) ?_
    rintro out ⟨o', s'⟩ ⟨hstep, hans, m', hend⟩
    have hlow := hfair.low [c] cs rfl (o', s') [out] m' (Runs.run_cons_eq_some.2 ⟨_, out, [], hstep, rfl, rfl⟩) hend
    refine Run.bind (ih (hend.kept hlow) (fun c' hc' => hkeys c' (List.mem_cons_of_mem _ hc'))
      (hfair.of_cons ⟨h.ordered, h.bal⟩ hstep)) ?_
    rintro outs x ⟨hrun, hans', hkept⟩
    exact Run.pure ⟨Runs.run_cons_eq_some.2 ⟨_, out, outs, hstep, hrun, rfl⟩, ⟨out, outs, rfl, hans, hans'⟩, hkept⟩

/-- Searches leave the tree as it is. -/
theorem treeOf_finds (t : Tree n) (keys : List (Bid n)) : treeOf t (keys.map .find) = t := by
  rw [treeOf, List.foldl_map]
  exact List.foldl_fixed keys

theorem sum_inserts_finds (keys : List (Bid n)) : ((keys.map OmapCall.find).map OmapCall.inserts).sum = 0 := by
  rw [List.map_map, List.sum_eq_zero]
  intro i hi
  obtain ⟨k, -, rfl⟩ := List.mem_map.1 hi
  rfl

theorem Fair.finds (ht : t.Ordered ∧ t.Bal) (hf : t.height < fuel) (hlow : t.height ≤ depth + 2) (x : OMap n × Oram n)
    (keys : List (Bid n)) : Fair depth fuel t x (keys.map .find) := by
  refine .of_height ht ?_ (sparing_of_single fun pairs hp => ?_) ?_
  · rw [sum_inserts_finds]
    exact hf
  · obtain ⟨k, -, hk⟩ := List.mem_map.1 hp
    cases hk
  · rw [treeOf_finds]
    exact hlow

theorem Answered.finds {keys : List (Bid n)} {outs : List (List Str)} (h : Answered t (keys.map OmapCall.find) outs) :
    outs = keys.map fun k => [((t.get? k).map cStr).getD []] := by
  induction keys generalizing outs with
  | nil => exact h
  | cons k keys ih =>
    obtain ⟨out, rest, rfl, hout, hrest⟩ := h
    rw [List.map_cons, ih hrest, show out = _ from hout]

theorem Answered.inserts {es : List (Bid n × Str)} {outs : List (List Str)}
    (h : Answered t (es.map fun e => .insert e.1 e.2) outs) : outs = es.map fun _ => [] := by
  induction es generalizing t outs with
  | nil => exact h
  | cons e es ih =>
    obtain ⟨out, rest, rfl, hout, hrest⟩ := h
    rw [List.map_cons, ih hrest, show out = [] from hout]

/-- Calls that keep the tree low, and searches afterwards. -/
theorem Kept.triesThenFinds (h : Kept depth s m o t) (hE : E .noSpace) {cs : List (OmapCall n)}
    (hkeys : ∀ c ∈ cs, c.NonZero ∨ E .idNotSet) (hfair : Fair depth fuel t (o, s) cs) (keys : List (Bid n)) :
    Run E ((cs ++ keys.map OmapCall.find).mapM (omapTry depth fuel)) (o, s) fun outs _ => ∃ pre, Answered t cs pre ∧
      outs = pre ++ keys.map fun k => [(((treeOf t cs).get? k).map cStr).getD []] := by
  rw [List.mapM_append]
  refine Run.bind (h.tries hE hkeys hfair) ?_
  rintro outs ⟨o', s'⟩ ⟨hrun, hans, m', hkept⟩
  have hheight := (treeOf_spec ⟨h.ordered, h.bal⟩ cs).2.2
  have henough := hfair.enough
  have hlow := hfair.low cs [] (List.append_nil _).symm _ outs m' hrun hkept.ended
  have hf : (treeOf t cs).height < fuel := by omega
  have hfinds := Fair.finds ⟨hkept.ordered, hkept.bal⟩ hf hlow (o', s') keys
  refine Run.bind (hkept.tries hE (fun c hc => ?_) hfinds) ?_
  · obtain ⟨k, -, rfl⟩ := List.mem_map.1 hc
    exact Or.inl trivial
  · rintro outs' x ⟨-, hans', -⟩
    exact Run.pure ⟨outs, hans, by rw [hans'.finds]⟩

/-- **A batch agrees with single insertions.**  Take calls of any kind on a fresh map and a last batch, such that each
batch spares the nodes of the map it is made on, and no stored node is ever too tall.  The calls return, or one throws.
In the state they lead to, whatever leaves are drawn from then on: the batch and all searches after it return or throw,
the insertions of the same pairs in any order and these searches return or throw, and where they return the searches
give the same. -/
theorem batchInsert_agrees (depth : Nat) (rnd rnd' : Nat → Nat) (hrnd : ∀ i, rnd i < 2 ^ depth)
    (hrnd' : ∀ i, rnd' i < 2 ^ depth) (cs : List (OmapCall n)) (pairs : SortedMap (Bid n) Str)
    (es : List (Bid n × Str)) (hes : es.Perm pairs.entries) (keys : List (Bid n)) (fuel : Nat)
    (hf : (cs.map OmapCall.inserts).sum + pairs.entries.length < fuel)
    (hspares : Sparing depth fuel .nil (OMap.new, Oram.new depth rnd) (cs ++ [.batchInsert pairs]))
    (hlow : NeverTall depth fuel (OMap.new, Oram.new depth rnd) (cs ++ [.batchInsert pairs])) :
    Run (Throws (cs ++ [.batchInsert pairs])) (cs.mapM (omapTry depth fuel)) (OMap.new, Oram.new depth rnd) fun _ x =>
      ∃ found : List (List Str),
        Run (Throws (cs ++ [.batchInsert pairs]))
          (([OmapCall.batchInsert pairs] ++ keys.map OmapCall.find).mapM (omapTry depth fuel)) x
          (fun outs _ => outs = [[]] ++ found) ∧
        (NeverTall depth fuel (x.1, { x.2 with rnd := rnd' }) (es.map fun e => .insert e.1 e.2) →
          Run (Throws (cs ++ [.batchInsert pairs]))
            ((es.map (fun e => OmapCall.insert e.1 e.2) ++ keys.map OmapCall.find).mapM (omapTry depth fuel))
            (x.1, { x.2 with rnd := rnd' }) (fun outs _ => outs = es.map (fun _ => []) ++ found)) := by
  have hE : Throws (cs ++ [.batchInsert pairs]) .noSpace := Or.inl rfl
  have hzero : ∀ c ∈ cs ++ [.batchInsert pairs], c.NonZero ∨ Throws (cs ++ [.batchInsert pairs]) .idNotSet := by
    intro c hc
    by_cases hz : c.NonZero
    · exact Or.inl hz
    · exact Or.inr (Or.inr ⟨rfl, c, hc, hz⟩)
  have hempty : (.nil : Tree n).Ordered ∧ (.nil : Tree n).Bal := ⟨List.Pairwise.nil, trivial⟩
  have hnil : (.nil : Tree n).height = 0 := rfl
  have hlen : es.length = pairs.entries.length := hes.length_eq
  have hfair : Fair depth fuel .nil (OMap.new, Oram.new depth rnd) (cs ++ [.batchInsert pairs]) := by
    refine ⟨?_, hspares, fun pre post he x outs m' hrun hend => hend.height_le (hlow pre post he x outs hrun)⟩
    rw [List.map_append, List.sum_append, List.map_singleton, List.sum_singleton, OmapCall.inserts]
    omega
  refine ((kept_new hrnd).tries hE (fun c hc => hzero c (List.mem_append_left _ hc)) hfair.of_append).mono ?_
  rintro outs ⟨o, s⟩ ⟨hrun, -, m, hkept⟩
  have hspec := (treeOf_spec hempty cs).2.2
  refine ⟨keys.map fun k => [(((treeOf (treeOf .nil cs) [.batchInsert pairs]).get? k).map cStr).getD []], ?_, fun hlow' => ?_⟩
  · -- the batch
    have hfair1 : Fair depth fuel (treeOf .nil cs) (o, s) [.batchInsert pairs] := by
      refine ⟨?_, fun pre c post he x outs' hrun' => ?_, fun pre post he x outs' m' hrun' hend => ?_⟩
      · rw [List.map_singleton, List.sum_singleton, OmapCall.inserts]
        omega
      · rw [← treeOf_append]
        exact hspares (cs ++ pre) c post (by rw [he, List.append_assoc]) x (outs ++ outs')
          (Runs.run_append.2 ⟨_, outs, outs', hrun, hrun', rfl⟩)
      · exact hend.height_le (hlow (cs ++ pre) post (by rw [he, List.append_assoc]) x (outs ++ outs')
          (Runs.run_append.2 ⟨_, outs, outs', hrun, hrun', rfl⟩))
    refine (hkept.triesThenFinds hE (fun c hc => hzero c (List.mem_append_right _ hc)) hfair1 keys).mono ?_
    rintro outs' x ⟨pre, ⟨out, rest, rfl, hout, rfl⟩, rfl⟩
    rw [show out = [] from hout]
  · -- the single insertions
    have hkeys : ∀ c ∈ es.map fun e => OmapCall.insert e.1 e.2,
        c.NonZero ∨ Throws (cs ++ [.batchInsert pairs]) .idNotSet := by
      intro c hc
      obtain ⟨e, he, rfl⟩ := List.mem_map.1 hc
      exact (hzero _ (List.mem_append_right _ List.mem_cons_self)).imp_left fun hz => hz e (hes.mem_iff.1 he)
    have hfair2 : Fair depth fuel (treeOf .nil cs) (o, { s with rnd := rnd' }) (es.map fun e => .insert e.1 e.2) := by
      refine ⟨?_, sparing_of_single fun pairs' hp => ?_, fun pre post he x outs' m' hrun' hend =>
        hend.height_le (hlow' pre post he x outs' hrun')⟩
      · rw [sum_inserts_singles]
        omega
      · obtain ⟨e, -, he⟩ := List.mem_map.1 hp
        cases he
    have hnodup : (es.map Prod.fst).Nodup := by
      refine (hes.map Prod.fst).nodup_iff.2 (List.pairwise_map.2 (pairs.sorted.imp fun hlt he => ?_))
      rw [he] at hlt
      exact Std.lt_irrefl hlt
    refine ((hkept.redraw hrnd').triesThenFinds hE hkeys hfair2 keys).mono ?_
    rintro outs' x ⟨pre, hans, rfl⟩
    rw [hans.inserts, treeOf_batchInsert]
    refine congrArg (_ ++ ·) (List.map_congr_left fun k _ => ?_)
    rw [get?_inserts_perm ⟨hkept.ordered, hkept.bal⟩ hes hnodup k]

theorem exists_ok {ε α : Type} {x : Except ε α} (h : x.toOption.isSome = true) : ∃ a, x = .ok a := by
  cases x with
  | ok a => exact ⟨a, rfl⟩
  | error e => cases h

/-- Two keys in a batch, one more after it, and a search. -/
def lastPairs : SortedMap (Bid 16) Str := (SortedMap.empty.insert (Bid.ofInt 2) [97]).insert (Bid.ofInt 5) [101]

def firstBatch : List (OmapCall 16) := [.batchInsert lastPairs, .insert (Bid.ofInt 3) [100], .find (Bid.ofInt 5)]

/-- A key that is there and one that is not. -/
def pairOfPairs : SortedMap (Bid 16) Str := (SortedMap.empty.insert (Bid.ofInt 1) [98]).insert (Bid.ofInt 3) [99]

def someKeys : List (Bid 16) := [Bid.ofInt 1, Bid.ofInt 2, Bid.ofInt 3, Bid.ofInt 7]

/-- A second batch, whose new node gets a leaf that is not read; the single insertions come in the other order, with
another leaf. -/
theorem batchInsert_agrees_two_batches :
    ∃ outs x found y y',
      firstBatch.mapM (omapTry 2 20) (OMap.new, Oram.new 2 fun i => i % 4) = .ok (outs, x) ∧
      ([OmapCall.batchInsert pairOfPairs] ++ someKeys.map OmapCall.find).mapM (omapTry 2 20) x = .ok ([[]] ++ found, y) ∧
      (pairOfPairs.entries.reverse.map (fun e => OmapCall.insert e.1 e.2) ++ someKeys.map OmapCall.find).mapM
        (omapTry 2 20) (x.1, { x.2 with rnd := fun _ => 3 }) =
          .ok (pairOfPairs.entries.reverse.map (fun _ => []) ++ found, y') := by
  have hrnd : ∀ i : Nat, i % 4 < 2 ^ 2 := fun i => Nat.mod_lt i (by decide)
  have hrnd' : ∀ i : Nat, 3 < 2 ^ 2 := fun _ => by decide
  have hspare : Sparing 2 20 .nil (OMap.new, Oram.new 2 fun i => i % 4) (firstBatch ++ [.batchInsert pairOfPairs]) := by
    decide +kernel
  have hlow : NeverTall 2 20 (OMap.new, Oram.new 2 fun i => i % 4) (firstBatch ++ [.batchInsert pairOfPairs]) :=
    (kept_new hrnd).neverTall (by decide +kernel) hspare (by decide +kernel)
  -- nothing throws
  have hsome : (firstBatch.mapM (omapTry 2 20) (OMap.new, Oram.new 2 fun i => i % 4)).toOption.isSome = true := by
    decide +kernel
  have hsome' : ((firstBatch.mapM (omapTry 2 20) (OMap.new, Oram.new 2 fun i => i % 4)).toOption.all fun r =>
      (([OmapCall.batchInsert pairOfPairs] ++ someKeys.map OmapCall.find).mapM (omapTry 2 20) r.2).toOption.isSome &&
      ((pairOfPairs.entries.reverse.map (fun e => OmapCall.insert e.1 e.2) ++ someKeys.map OmapCall.find).mapM
        (omapTry 2 20) (r.2.1, { r.2.2 with rnd := fun _ => 3 })).toOption.isSome) = true := by decide +kernel
  obtain ⟨⟨outs, o, s⟩, hcs⟩ := exists_ok hsome
  rw [hcs] at hsome'
  obtain ⟨hbatch, hsingles⟩ := Bool.and_eq_true_iff.1 (show (_ && _) = true from hsome')
  obtain ⟨⟨outs1, y⟩, hy⟩ := exists_ok hbatch
  obtain ⟨⟨outs2, y'⟩, hy'⟩ := exists_ok hsingles
  -- nor is a node too tall
  have hempty : (.nil : Tree 16).Ordered ∧ (.nil : Tree 16).Bal := ⟨List.Pairwise.nil, trivial⟩
  obtain ⟨-, -, m, hkept⟩ := ((kept_new hrnd).tries (E := fun _ => True) trivial (fun _ _ => Or.inr trivial)
    (.of_height hempty (by decide +kernel) (by decide +kernel) (by decide +kernel))).ok hcs
  have hlow' : NeverTall 2 20 (o, { s with rnd := fun _ => 3 }) (pairOfPairs.entries.reverse.map fun e =>
      .insert e.1 e.2) :=
    (hkept.redraw hrnd').neverTall (by decide +kernel) (sparing_of_single (by
      intro pairs hp
      simp at hp)) (by decide +kernel)
  obtain ⟨found, h1, h2⟩ := (batchInsert_agrees 2 _ _ hrnd hrnd' firstBatch pairOfPairs _ (List.reverse_perm _) someKeys 20
    (by decide +kernel) hspare hlow).ok hcs
  refine ⟨outs, (o, s), found, y, y', hcs, ?_, ?_⟩
  · rw [hy, h1.ok hy]
  · rw [hy', (h2 hlow').ok hy']

/-- A bucket that was not read is written back over its node. -/
def fourInserts : List (OmapCall 16) := ([3, 2, 4, 5].map Bid.ofInt).map fun key => .insert key [97]

theorem batchInsert_overwrites :
    (Runs.run (omapStep 2 20) (OMap.new, Oram.new 2 (mostlyZero 3)) (fourInserts ++
        [.batchInsert (SortedMap.empty.insert (Bid.ofInt 1) [98]), .find (Bid.ofInt 5)])).map Prod.snd =
      some (List.replicate 5 [] ++ [[[]]]) ∧
    (Runs.run (omapStep 2 20) (OMap.new, Oram.new 2 (mostlyZero 3)) (fourInserts ++
        [.insert (Bid.ofInt 1) [98], .find (Bid.ofInt 5)])).map Prod.snd =
      some (List.replicate 5 [] ++ [[[97]]]) ∧
    (treeOf .nil (fourInserts ++ [.insert (Bid.ofInt 1) [98]])).height ≤ 4 := by
  refine ⟨?_, ?_, ?_⟩ <;> decide +kernel

end

end Sse.Omap
