import Sse.Omap.Avl

/-!
# AVLTree over a lawful store

`Repr m k p t`: followed from the key `k` and the leaf `p`, the nodes of `m` form the tree
`t`, with exact heights and exact leaves.  Over a store that behaves as `Laws` say, `insert`
turns the tree into `t.insert key value`, and every single-argument `ReadNode` it makes
names a node that earlier calls have brought into the cache.

The nodes touched by an operation are closed upwards (`Closed`): with a node its parent is
touched.  `finilize` relies on that.
-/

namespace Sse.Omap

open Wp

/-- The trees that are stored. -/
abbrev Tree (n : Nat) := AvlTree (Bid n) (List UInt8)

/-! ## Lawful stores -/

/-- How a store of nodes behaves.  `Abs s m`: it holds the nodes `m`; `cached`: the nodes a pointer may
point to; `touched`: those read or written in this operation, `log`: the same, the last one first; `next`: the leaf
that is drawn next; `Le d`: what grows, while `d` leaves are drawn. -/
structure Laws {n : Nat} {σ : Type} (S : NodeStore n σ) (E : Err → Prop) where
  Abs : σ → (Bid n → Option (Node n)) → Prop
  cached : σ → Bid n → Prop
  touched : σ → Bid n → Prop
  log : σ → List (Bid n)
  Leaf : Nat → Prop
  next : σ → Nat
  Le : Nat → σ → σ → Prop
  le_refl : ∀ s, Le 0 s s
  le_trans : ∀ {d e s s' s''}, Le d s s' → Le e s' s'' → Le (d + e) s s''
  le_cached : ∀ {d s s' k}, Le d s s' → cached s k → cached s' k
  le_next : ∀ {s s'}, Le 0 s s' → next s' = next s
  le_log : ∀ {d s s'}, Le d s s' → log s <:+ log s'
  mem_log : ∀ {s k}, k ∈ log s ↔ touched s k
  wf : ∀ {s m k node}, Abs s m → m k = some node → node.key = k ∧ k.isZero = false
  readNode : ∀ {s m k node}, Abs s m → m k = some node → Run E (S.readNode k node.pos) s fun p s' =>
    p = some k ∧ Abs s' m ∧ Le 0 s s' ∧ cached s' k ∧ ∀ j, touched s' j ↔ touched s j ∨ j = k
  readNode_zero : ∀ {s k} (leaf), k.isZero = true → Run E (S.readNode k leaf) s fun p s' => p = none ∧ s' = s
  readCached : ∀ {s m k}, Abs s m → cached s k → Run E (S.readCached k) s fun p s' => p = k ∧ s' = s
  deref : ∀ {s m k node}, Abs s m → cached s k → m k = some node → Run E (S.deref k) s fun a s' => a = node ∧ s' = s
  assign : ∀ {s m k node} {f : Node n → Node n}, Abs s m → cached s k → m k = some node → (f node).key = node.key →
    (f node).pos = node.pos → Run E (S.assign k f) s fun _ s' =>
      Abs s' (Function.update m k (some (f node))) ∧ Le 0 s s' ∧ ∀ j, touched s' j ↔ touched s j
  writeNode_cached : ∀ {s m k} (node), Abs s m → cached s k → Run E (S.writeNode k node) s fun _ s' =>
    Abs s' m ∧ Le 0 s s' ∧ ∀ j, touched s' j ↔ touched s j ∨ j = k
  writeNode_new : ∀ {s m} {node : Node n}, Abs s m → m node.key = none → node.key.isZero = false → Leaf node.pos →
    Run E (S.writeNode node.key node) s fun p s' => p = node.pos ∧ Abs s' (Function.update m node.key (some node)) ∧
      Le 0 s s' ∧ cached s' node.key ∧ ∀ j, touched s' j ↔ touched s j ∨ j = node.key
  writeNode_zero : ∀ {s} {node : Node n}, node.key.isZero = true → E .idNotSet →
    Run E (S.writeNode node.key node) s fun _ _ => False
  randomPath : ∀ {s m}, Abs s m → Run E S.randomPath s fun p s' =>
    p = next s ∧ Leaf p ∧ Abs s' m ∧ Le 1 s s' ∧ ∀ j, touched s' j ↔ touched s j

/-- A list that has grown at its head by one element at most, as far as its elements go. -/
theorem dedup_of_suffix {κ : Type} [DecidableEq κ] {ks ks' : List κ} {o : Option κ} (h : ks <:+ ks')
    (hks : ∀ k, k ∈ ks' ↔ k ∈ ks ∨ o = some k) : ks'.dedup = (o.toList ++ ks).dedup := by
  obtain ⟨new, rfl⟩ := h
  -- the part at the head, from its end on: its first element that is new is the one in `o`
  have hpart : ∀ as : List κ, (∀ k ∈ as, k ∈ ks ∨ o = some k) →
      (as ++ ks).dedup = ks.dedup ∨ ∃ k, o = some k ∧ k ∈ as ∧ (as ++ ks).dedup = (k :: ks).dedup := by
    intro as has
    induction as with
    | nil => exact Or.inl rfl
    | cons a as ih =>
      have ih := ih fun k hk => has k (List.mem_cons_of_mem a hk)
      by_cases ha : a ∈ as ++ ks
      · rw [List.cons_append, List.dedup_cons_of_mem ha]
        exact ih.imp_right fun ⟨k, ho, hk, he⟩ => ⟨k, ho, List.mem_cons_of_mem a hk, he⟩
      · have hnot := fun hk => ha (List.mem_append_right as hk)
        have ho := (has a List.mem_cons_self).resolve_left hnot
        refine Or.inr ⟨a, ho, List.mem_cons_self, ?_⟩
        rw [List.cons_append, List.dedup_cons_of_notMem ha, List.dedup_cons_of_notMem hnot]
        rcases ih with he | ⟨k, ho', hk, -⟩
        · rw [he]
        · rw [ho] at ho'
          exact absurd (List.mem_append_left ks (Option.some.inj ho' ▸ hk)) ha
  rcases hpart new fun k hk => (hks k).1 (List.mem_append_left ks hk) with he | ⟨k, rfl, -, he⟩
  · cases o with
    | none => exact he
    | some k =>
      rw [he]
      have hk : k ∈ ks := List.mem_dedup.1 (he ▸ List.mem_dedup.2 ((hks k).2 (Or.inr rfl)))
      exact (List.dedup_cons_of_mem hk).symm
  · exact he

theorem Laws.le_touched {n : Nat} {σ : Type} {S : NodeStore n σ} {E : Err → Prop} (L : Laws S E) {d : Nat} {s s' : σ}
    (h : L.Le d s s') {k : Bid n} (hk : L.touched s k) : L.touched s' k :=
  L.mem_log.1 ((L.le_log h).subset (L.mem_log.2 hk))

theorem Laws.dedup_log {n : Nat} {σ : Type} {S : NodeStore n σ} {E : Err → Prop} (L : Laws S E) {d : Nat} {s s' : σ}
    (h : L.Le d s s') {o : Option (Bid n)} (ht : ∀ j, L.touched s' j ↔ L.touched s j ∨ o = some j) :
    (L.log s').dedup = (o.toList ++ L.log s).dedup :=
  dedup_of_suffix (L.le_log h) fun k => by rw [L.mem_log, L.mem_log, ht]

/-! ## Trees in a store -/

section

variable {n : Nat} {m m' : Bid n → Option (Node n)}

/-- The tree that is followed from a key and a leaf. -/
def Repr (m : Bid n → Option (Node n)) : Bid n → Nat → Tree n → Prop
  | k, _, .nil => k.isZero = true
  | k, p, .node l k' v r => k = k' ∧ ∃ node, m k' = some node ∧ node.pos = p ∧ node.value = v ∧
      node.height = (AvlTree.node l k' v r).height ∧ Repr m node.leftID node.leftPos l ∧ Repr m node.rightID node.rightPos r

theorem Repr.congr {t : Tree n} {k : Bid n} {p : Nat} (h : Repr m k p t) (he : ∀ j ∈ t.keys, m' j = m j) :
    Repr m' k p t := by
  induction t generalizing k p with
  | nil => exact h
  | node l k' v r ihl ihr =>
    obtain ⟨rfl, node, hk, h1, h2, h3, hl, hr⟩ := h
    refine ⟨rfl, node, ?_, h1, h2, h3, ihl hl fun j hj => he j ?_, ihr hr fun j hj => he j ?_⟩
    · rw [he k (AvlTree.mem_keys_node.2 (Or.inr (Or.inl rfl))), hk]
    · exact AvlTree.mem_keys_node.2 (Or.inl hj)
    · exact AvlTree.mem_keys_node.2 (Or.inr (Or.inr hj))

theorem Repr.update {t : Tree n} {k x : Bid n} {p : Nat} (h : Repr m k p t) (hx : x ∉ t.keys) (node : Node n) :
    Repr (Function.update m x (some node)) k p t :=
  h.congr fun j hj => Function.update_of_ne (fun he => hx (by rw [← he]; exact hj)) ..

/-- The root of a tree is a node of the store. -/
theorem Repr.root {t : Tree n} {k j : Bid n} {p : Nat} (h : Repr m k p t) (hj : t.root? = some j) :
    j = k ∧ ∃ node, m k = some node ∧ node.pos = p ∧ node.height = t.height := by
  cases t with
  | nil => cases hj
  | node l k' v r =>
    obtain ⟨rfl, node, hk, h1, -, h3, -⟩ := h
    exact ⟨(Option.some.inj hj).symm, node, hk, h1, h3⟩

/-! ## Either side -/

/-- The tree with `a` on the side `d` and `b` on the other. -/
def mk (d : Side) (a : Tree n) (k : Bid n) (v : List UInt8) (b : Tree n) : Tree n :=
  match d with
  | .left => .node a k v b
  | .right => .node b k v a

theorem height_mk (d : Side) (a b : Tree n) (k : Bid n) (v : List UInt8) :
    (mk d a k v b).height = max a.height b.height + 1 := by
  cases d with
  | left => rfl
  | right =>
    simp only [mk, AvlTree.height]
    omega

theorem mem_keys_mk {d : Side} {a b : Tree n} {k j : Bid n} {v : List UInt8} :
    j ∈ (mk d a k v b).keys ↔ j ∈ a.keys ∨ j = k ∨ j ∈ b.keys := by
  cases d with
  | left => exact AvlTree.mem_keys_node
  | right =>
    rw [mk, AvlTree.mem_keys_node]
    grind

theorem root?_mk (d : Side) (a b : Tree n) (k : Bid n) (v : List UInt8) : (mk d a k v b).root? = some k := by
  cases d <;> rfl

theorem repr_mk {d : Side} {a b : Tree n} {k j : Bid n} {v : List UInt8} {p : Nat} :
    Repr m j p (mk d a k v b) ↔ j = k ∧ ∃ node, m k = some node ∧ node.pos = p ∧ node.value = v ∧
      node.height = max a.height b.height + 1 ∧ Repr m (node.childID d) (node.childPos d) a ∧
      Repr m (node.childID d.other) (node.childPos d.other) b := by
  cases d with
  | left => exact Iff.rfl
  | right =>
    refine and_congr_right fun _ => exists_congr fun node => and_congr_right fun _ => and_congr_right fun _ =>
      and_congr_right fun _ => ?_
    rw [AvlTree.height, max_comm]
    exact and_congr_right fun _ => and_comm

theorem mk_other (d : Side) (a b : Tree n) (k : Bid n) (v : List UInt8) : mk d.other a k v b = mk d b k v a := by
  cases d <;> rfl

/-- Rotating a child does not change the order of the keys. -/
theorem keys_mk_rotate (d : Side) (a b b' c : Tree n) (x y z : Bid n) (u v w : List UInt8) :
    (mk d (mk d (mk d a z w b) x u b') y v c).keys = (mk d (mk d a z w (mk d b x u b')) y v c).keys := by
  cases d <;> simp [mk, AvlTree.keys, AvlTree.toList]

theorem nodup_mk {d : Side} {a b : Tree n} {k : Bid n} {v : List UInt8} (h : (mk d a k v b).keys.Nodup) :
    k ∉ a.keys ∧ k ∉ b.keys ∧ a.keys.Nodup ∧ b.keys.Nodup ∧ ∀ j ∈ a.keys, j ∉ b.keys := by
  cases d with
  | left =>
    simp only [mk, AvlTree.keys, AvlTree.toList, List.map_append, List.map_cons] at h
    obtain ⟨h1, h2, h3⟩ := List.nodup_append.1 h
    obtain ⟨h4, h5⟩ := List.nodup_cons.1 h2
    exact ⟨fun hk => h3 k hk k List.mem_cons_self rfl, h4, h1, h5,
      fun j hj hj' => h3 j hj j (List.mem_cons_of_mem _ hj') rfl⟩
  | right =>
    simp only [mk, AvlTree.keys, AvlTree.toList, List.map_append, List.map_cons] at h
    obtain ⟨h1, h2, h3⟩ := List.nodup_append.1 h
    obtain ⟨h4, h5⟩ := List.nodup_cons.1 h2
    exact ⟨h4, fun hk => h3 k hk k List.mem_cons_self rfl, h5, h1,
      fun j hj hj' => h3 j hj' j (List.mem_cons_of_mem _ hj) rfl⟩

@[simp] theorem childID_setChild (node : Node n) (d : Side) (id : Bid n) (pos : Nat) :
    (node.setChild d id pos).childID d = id := by
  cases d <;> rfl

@[simp] theorem childPos_setChild (node : Node n) (d : Side) (id : Bid n) (pos : Nat) :
    (node.setChild d id pos).childPos d = pos := by
  cases d <;> rfl

@[simp] theorem childID_setChild_other (node : Node n) (d : Side) (id : Bid n) (pos : Nat) :
    (node.setChild d id pos).childID d.other = node.childID d.other := by
  cases d <;> rfl

@[simp] theorem childPos_setChild_other (node : Node n) (d : Side) (id : Bid n) (pos : Nat) :
    (node.setChild d id pos).childPos d.other = node.childPos d.other := by
  cases d <;> rfl

@[simp] theorem childID_setChild_opposite (node : Node n) (d : Side) (id : Bid n) (pos : Nat) :
    (node.setChild d.other id pos).childID d = node.childID d := by
  cases d <;> rfl

@[simp] theorem childPos_setChild_opposite (node : Node n) (d : Side) (id : Bid n) (pos : Nat) :
    (node.setChild d.other id pos).childPos d = node.childPos d := by
  cases d <;> rfl

@[simp] theorem childID_setHeight (node : Node n) (d : Side) (h : Nat) :
    ({ node with height := h } : Node n).childID d = node.childID d := by
  cases d <;> rfl

@[simp] theorem childPos_setHeight (node : Node n) (d : Side) (h : Nat) :
    ({ node with height := h } : Node n).childPos d = node.childPos d := by
  cases d <;> rfl

@[simp] theorem other_other (d : Side) : d.other.other = d := by
  cases d <;> rfl

@[simp] theorem setChild_key (node : Node n) (d : Side) (id : Bid n) (pos : Nat) :
    (node.setChild d id pos).key = node.key := by
  cases d <;> rfl

@[simp] theorem setChild_pos (node : Node n) (d : Side) (id : Bid n) (pos : Nat) :
    (node.setChild d id pos).pos = node.pos := by
  cases d <;> rfl

@[simp] theorem setChild_value (node : Node n) (d : Side) (id : Bid n) (pos : Nat) :
    (node.setChild d id pos).value = node.value := by
  cases d <;> rfl

end

/-! ## Touched nodes -/

section

variable {n : Nat}

/-- With a node of the tree its parent is in `T`. -/
def Closed (T : Bid n → Prop) : Tree n → Prop
  | .nil => True
  | .node l k _ r => (T k ∨ ∀ j, j ∈ l.keys ∨ j ∈ r.keys → ¬ T j) ∧ Closed T l ∧ Closed T r

theorem Closed.mk {T : Bid n → Prop} {d : Side} {a b : Tree n} {k : Bid n} {v : List UInt8} (hk : T k)
    (ha : Closed T a) (hb : Closed T b) : Closed T (mk d a k v b) := by
  cases d with
  | left => exact ⟨Or.inl hk, ha, hb⟩
  | right => exact ⟨Or.inl hk, hb, ha⟩

theorem Closed.of_mk {T : Bid n → Prop} {d : Side} {a b : Tree n} {k : Bid n} {v : List UInt8}
    (h : Closed T (Sse.Omap.mk d a k v b)) : Closed T a ∧ Closed T b := by
  cases d with
  | left => exact h.2
  | right => exact ⟨h.2.2, h.2.1⟩

theorem Closed.congr {T T' : Bid n → Prop} {t : Tree n} (h : Closed T t) (he : ∀ j ∈ t.keys, (T' j ↔ T j)) :
    Closed T' t := by
  induction t with
  | nil => trivial
  | node l k v r ihl ihr =>
    obtain ⟨hk, hl, hr⟩ := h
    refine ⟨hk.imp (he k (AvlTree.mem_keys_node.2 (Or.inr (Or.inl rfl)))).2 fun hn j hj => ?_,
      ihl hl fun j hj => he j (AvlTree.mem_keys_node.2 (Or.inl hj)),
      ihr hr fun j hj => he j (AvlTree.mem_keys_node.2 (Or.inr (Or.inr hj)))⟩
    rw [he j (AvlTree.mem_keys_node.2 (hj.imp_right Or.inr))]
    exact hn j hj

/-- Touching the root keeps it so. -/
theorem Closed.touch {T T' : Bid n → Prop} {t : Tree n} (h : Closed T t) (hnd : t.keys.Nodup)
    (he : ∀ j ∈ t.keys, (T' j ↔ T j ∨ t.root? = some j)) : Closed T' t := by
  cases t with
  | nil => trivial
  | node l k v r =>
    obtain ⟨hkl, hkr, -⟩ := nodup_mk (d := .left) hnd
    obtain ⟨-, hl, hr⟩ := h
    refine ⟨Or.inl ((he k (AvlTree.mem_keys_node.2 (Or.inr (Or.inl rfl)))).2 (Or.inr rfl)), hl.congr fun j hj => ?_,
      hr.congr fun j hj => ?_⟩
    · rw [he j (AvlTree.mem_keys_node.2 (Or.inl hj))]
      refine or_iff_left fun hroot => ?_
      rw [Option.some.inj hroot] at hkl
      exact hkl hj
    · rw [he j (AvlTree.mem_keys_node.2 (Or.inr (Or.inr hj)))]
      refine or_iff_left fun hroot => ?_
      rw [Option.some.inj hroot] at hkr
      exact hkr hj

end

/-! ## What an insertion reads and draws -/

section

variable {n : Nat}

/-- The node `T2` of a rotation is a dummy, with a leaf of its own, where the middle subtree is empty. -/
def gap : Tree n → Nat
  | .nil => 1
  | .node .. => 0

/-- The gaps of two rotations, in the two subtrees of the inner grandchild. -/
def innerGaps : Tree n → Nat
  | .nil => 0
  | .node a _ _ b => gap a + gap b

theorem innerGaps_mk (d : Side) (a b : Tree n) (k : Bid n) (v : List UInt8) :
    innerGaps (mk d a k v b) = gap a + gap b := by
  cases d
  · rfl
  · exact Nat.add_comm _ _

/-- The leaves drawn by the rotations of a left subtree that is too high. -/
def leftDraws (x : Bid n) : Tree n → Nat
  | .nil => 0
  | .node _ k _ r => if x < k then gap r else if k < x then innerGaps r else 0

/-- The leaves drawn by the rotations of a right subtree that is too high. -/
def rightDraws (x : Bid n) : Tree n → Nat
  | .nil => 0
  | .node l k _ _ => if k < x then gap l else if x < k then innerGaps l else 0

/-- The leaves drawn while the balance is restored after an insertion of `x` below. -/
def balanceDraws (x : Bid n) (l r : Tree n) : Nat :=
  if r.height + 1 < l.height then leftDraws x l
  else if l.height + 1 < r.height then rightDraws x r
  else 0

/-- The leaves drawn by an insertion; the first one is that of the new node. -/
def draws (x : Bid n) (v : List UInt8) : Tree n → Nat
  | .nil => 1
  | .node l k _ r =>
    if x < k then draws x v l + balanceDraws x (l.insert x v) r
    else if k < x then draws x v r + balanceDraws x l (r.insert x v)
    else 0

/-- The nodes an insertion touches, the last one first: those on the way down with the new node at its end, and on the
way back their other children, which are read for their heights. -/
def visits (x : Bid n) : Tree n → List (Bid n)
  | .nil => [x]
  | .node l k _ r =>
    if x < k then r.root?.toList ++ visits x l ++ [k]
    else if k < x then l.root?.toList ++ visits x r ++ [k]
    else [k]

/-- Every node has kept its leaf. -/
def KeepLeaves (m m' : Bid n → Option (Node n)) : Prop :=
  ∀ j node, m j = some node → ∃ node', m' j = some node' ∧ node'.pos = node.pos

variable {m m' m'' : Bid n → Option (Node n)}

theorem KeepLeaves.refl (m : Bid n → Option (Node n)) : KeepLeaves m m := fun _ node hj => ⟨node, hj, rfl⟩

theorem KeepLeaves.trans (h : KeepLeaves m m') (h' : KeepLeaves m' m'') : KeepLeaves m m'' := by
  intro j node hj
  obtain ⟨node', hj', hp⟩ := h j node hj
  obtain ⟨node'', hj'', hp'⟩ := h' j node' hj'
  exact ⟨node'', hj'', hp'.trans hp⟩

theorem KeepLeaves.update {k : Bid n} {node new : Node n} (hk : m k = some node) (hp : new.pos = node.pos) :
    KeepLeaves m (Function.update m k (some new)) := by
  intro j node' hj
  by_cases he : j = k
  · subst he
    obtain rfl := Option.some.inj (hk.symm.trans hj)
    exact ⟨new, Function.update_self .., hp⟩
  · exact ⟨node', (Function.update_of_ne he ..).trans hj, rfl⟩

theorem KeepLeaves.insert {k : Bid n} (hk : m k = none) (new : Node n) :
    KeepLeaves m (Function.update m k (some new)) := by
  intro j node hj
  have he : j ≠ k := fun he => by
    rw [he, hk] at hj
    cases hj
  exact ⟨node, (Function.update_of_ne he ..).trans hj, rfl⟩

end

/-! ## The small functions -/

section

variable {n : Nat} {σ : Type} {S : NodeStore n σ} {E : Err → Prop} (L : Laws S E)
variable {s : σ} {m : Bid n → Option (Node n)}

include L

theorem deref_bind {α : Type} {f : Node n → Prog σ α} {Q : α → σ → Prop} (habs : L.Abs s m) {k : Bid n} {node : Node n}
    (hc : L.cached s k) (hk : m k = some node) (h : Run E (f node) s Q) : Run E (S.deref k >>= f) s Q := by
  refine Run.bind (L.deref habs hc hk) ?_
  rintro a s' ⟨rfl, rfl⟩
  exact h

theorem readCached_bind {α : Type} {f : Bid n → Prog σ α} {Q : α → σ → Prop} (habs : L.Abs s m) {k : Bid n}
    (hc : L.cached s k) (h : Run E (f k) s Q) : Run E (S.readCached k >>= f) s Q := by
  refine Run.bind (L.readCached habs hc) ?_
  rintro a s' ⟨rfl, rfl⟩
  exact h

/-- `height` reads the root of a subtree. -/
theorem height_spec (habs : L.Abs s m) {k : Bid n} {p : Nat} {t : Tree n} (ht : Repr m k p t) :
    Run E (height S k p) s fun h s' => h = t.height ∧ L.Abs s' m ∧ L.Le 0 s s' ∧
      (∀ j, t.root? = some j → L.cached s' j) ∧ ∀ j, L.touched s' j ↔ L.touched s j ∨ t.root? = some j := by
  cases t with
  | nil =>
    unfold height
    rw [if_pos (show k.isZero = true from ht)]
    exact Run.pure ⟨rfl, habs, L.le_refl s, fun j hj => (nomatch hj), fun j => by simp [AvlTree.root?]⟩
  | node l k' v r =>
    obtain ⟨rfl, node, hk, rfl, -, hh, -⟩ := ht
    unfold height
    rw [if_neg (by rw [(L.wf habs hk).2]; exact Bool.false_ne_true)]
    refine Run.bind (L.readNode habs hk) ?_
    rintro p s1 ⟨rfl, habs1, hle, hc, ht⟩
    refine deref_bind L habs1 hc hk ?_
    refine Run.pure ⟨hh, habs1, hle, fun j hj => ?_, fun j => ?_⟩
    · rw [← Option.some.inj hj]
      exact hc
    · rw [ht, AvlTree.root?, Option.some.injEq]
      exact or_congr_right eq_comm

/-- `updateHeight` sets the height from the two subtrees. -/
theorem updateHeight_spec (habs : L.Abs s m) {k : Bid n} {node : Node n} {d : Side} {a b : Tree n} (hc : L.cached s k)
    (hk : m k = some node) (ha : Repr m (node.childID d) (node.childPos d) a)
    (hb : Repr m (node.childID d.other) (node.childPos d.other) b) :
    Run E (updateHeight S k) s fun _ s' =>
      L.Abs s' (Function.update m k (some { node with height := max a.height b.height + 1 })) ∧ L.Le 0 s s' ∧
      (∀ j, a.root? = some j ∨ b.root? = some j → L.cached s' j) ∧
      ∀ j, L.touched s' j ↔ L.touched s j ∨ a.root? = some j ∨ b.root? = some j := by
  obtain ⟨l, r, hl, hr, hmax, hroots⟩ : ∃ l r : Tree n, Repr m node.leftID node.leftPos l ∧
      Repr m node.rightID node.rightPos r ∧ max l.height r.height = max a.height b.height ∧
      ∀ j, (l.root? = some j ∨ r.root? = some j) ↔ (a.root? = some j ∨ b.root? = some j) := by
    cases d with
    | left => exact ⟨a, b, ha, hb, rfl, fun j => Iff.rfl⟩
    | right => exact ⟨b, a, hb, ha, max_comm _ _, fun j => or_comm⟩
  unfold updateHeight
  refine deref_bind L habs hc hk ?_
  refine Run.bind (height_spec L habs hl) ?_
  rintro hL s2 ⟨rfl, habs2, hle2, hcl, htl⟩
  refine Run.bind (height_spec L habs2 hr) ?_
  rintro hR s3 ⟨rfl, habs3, hle3, hcr, htr⟩
  have hc3 := L.le_cached hle3 (L.le_cached hle2 hc)
  refine (L.assign (f := fun node => { node with height := max l.height r.height + 1 }) habs3 hc3 hk rfl rfl).mono ?_
  rintro - s4 ⟨habs4, hle4, ht4⟩
  rw [hmax] at habs4
  refine ⟨habs4, L.le_trans (L.le_trans hle2 hle3) hle4, fun j hj => ?_, fun j => ?_⟩
  · rcases (hroots j).2 hj with hj | hj
    · exact L.le_cached hle4 (L.le_cached hle3 (hcl j hj))
    · exact L.le_cached hle4 (hcr j hj)
  · rw [ht4, htr, htl, or_assoc, hroots]

theorem newNode_spec (habs : L.Abs s m) (key : Bid n) (value : Str) :
    Run E (newNode S key value) s fun node s' => node.key = key ∧ node.value = padTo 16 value ∧ node.height = 1 ∧
      node.leftID = Bid.zero ∧ node.rightID = Bid.zero ∧ node.pos = L.next s ∧ L.Leaf node.pos ∧ L.Abs s' m ∧
      L.Le 1 s s' ∧ ∀ j, L.touched s' j ↔ L.touched s j := by
  unfold newNode
  refine Run.bind (L.randomPath habs) ?_
  rintro p s1 ⟨hnext, hp, habs1, hle, ht⟩
  exact Run.pure ⟨rfl, rfl, rfl, rfl, rfl, hnext, hp, habs1, hle, ht⟩

/-- The node `T2` of a rotation is the root of the middle subtree, or a dummy. -/
theorem middle_spec (habs : L.Abs s m) {k : Bid n} {p : Nat} {b : Tree n} (hb : Repr m k p b)
    (hcb : ∀ j, b.root? = some j → L.cached s j) :
    Run E (middle S k) s fun T2 s' => Repr m T2.key T2.pos b ∧ L.Abs s' m ∧ L.Le (gap b) s s' ∧
      ∀ j, L.touched s' j ↔ L.touched s j := by
  unfold middle
  cases b with
  | nil =>
    rw [if_pos (show k.isZero = true from hb)]
    refine (newNode_spec L habs Bid.zero []).mono ?_
    rintro node s' ⟨hkey, -, -, -, -, -, -, habs', hle, ht⟩
    refine ⟨?_, habs', hle, ht⟩
    show node.key.isZero = true
    rw [hkey]
    exact isZero_zero
  | node l k' v r =>
    obtain ⟨rfl, node, hk, hp, hrest⟩ := id hb
    obtain ⟨hkey, hz⟩ := L.wf habs hk
    rw [if_neg (by rw [hz]; exact Bool.false_ne_true)]
    have hc := hcb k rfl
    refine readCached_bind L habs hc ?_
    refine (L.deref habs hc hk).mono ?_
    rintro a s' ⟨rfl, rfl⟩
    rw [hkey, hp]
    exact ⟨hb, habs, L.le_refl _, fun j => Iff.rfl⟩

/-- The last steps of a rotation for one of its two nodes: its height, and `WriteNode`. -/
theorem settle_spec {α : Type} {f : Prog σ α} {Q : α → σ → Prop} (habs : L.Abs s m) {k : Bid n} {node : Node n}
    {d : Side} {a b : Tree n} (hc : L.cached s k) (hk : m k = some node)
    (ha : Repr m (node.childID d) (node.childPos d) a) (hb : Repr m (node.childID d.other) (node.childPos d.other) b)
    (h : ∀ s', L.Abs s' (Function.update m k (some { node with height := max a.height b.height + 1 })) → L.Le 0 s s' →
      (∀ j, a.root? = some j ∨ b.root? = some j → L.cached s' j) →
      (∀ j, L.touched s' j ↔ L.touched s j ∨ j = k ∨ a.root? = some j ∨ b.root? = some j) → Run E f s' Q) :
    Run E (do
      updateHeight S k
      let node ← S.deref k
      let _ ← S.writeNode k node
      f) s Q := by
  refine Run.bind (updateHeight_spec L habs hc hk ha hb) ?_
  rintro - s1 ⟨habs1, hle1, hc1, ht1⟩
  have hck := L.le_cached hle1 hc
  refine deref_bind L habs1 hck (Function.update_self ..) ?_
  refine Run.bind (L.writeNode_cached _ habs1 hck) ?_
  rintro - s2 ⟨habs2, hle2, ht2⟩
  refine h s2 habs2 (L.le_trans hle1 hle2) (fun j hj => L.le_cached hle2 (hc1 j hj)) fun j => ?_
  rw [ht2, ht1]
  grind

/-- **A rotation**: the child of `y` on the side `d` comes up. -/
theorem rotate_spec (habs : L.Abs s m) {d : Side} {x y : Bid n} {xn yn : Node n} {a b c : Tree n} (hcx : L.cached s x)
    (hcy : L.cached s y) (hx : m x = some xn) (hy : m y = some yn) (hyx : yn.childID d = x)
    (ha : Repr m (xn.childID d) (xn.childPos d) a) (hb : Repr m (xn.childID d.other) (xn.childPos d.other) b)
    (hc : Repr m (yn.childID d.other) (yn.childPos d.other) c) (hcb : ∀ j, b.root? = some j → L.cached s j)
    (hnd : (mk d (mk d a x xn.value b) y yn.value c).keys.Nodup) :
    Run E (rotate S d y) s fun p s' => p = x ∧ ∃ m', L.Abs s' m' ∧ (∀ j, j ≠ x → j ≠ y → m' j = m j) ∧
      KeepLeaves m m' ∧ Repr m' x xn.pos (mk d a x xn.value (mk d b y yn.value c)) ∧ L.Le (gap b) s s' ∧
      (∀ j, j = y ∨ a.root? = some j ∨ b.root? = some j ∨ c.root? = some j → L.cached s' j) ∧
      ∀ j, L.touched s' j ↔ L.touched s j ∨ j = x ∨ j = y ∨ a.root? = some j ∨ b.root? = some j ∨ c.root? = some j := by
  obtain ⟨hyab, hyc, hab, -, -⟩ := nodup_mk hnd
  obtain ⟨hxa, hxb, -, -, -⟩ := nodup_mk hab
  have hya : y ∉ a.keys := fun h => hyab (mem_keys_mk.2 (Or.inl h))
  have hyb : y ∉ b.keys := fun h => hyab (mem_keys_mk.2 (Or.inr (Or.inr h)))
  have hne : y ≠ x := fun h => hyab (mem_keys_mk.2 (Or.inr (Or.inl h)))
  have hxc : x ∉ c.keys := fun h => (nodup_mk hnd).2.2.2.2 x (mem_keys_mk.2 (Or.inr (Or.inl rfl))) h
  obtain ⟨hxkey, -⟩ := L.wf habs hx
  obtain ⟨hykey, -⟩ := L.wf habs hy
  unfold rotate
  refine deref_bind L habs hcy hy ?_
  rw [hyx]
  refine readCached_bind L habs hcx ?_
  refine deref_bind L habs hcx hx ?_
  refine Run.bind (middle_spec L habs hb hcb) ?_
  rintro T2 s1 ⟨hT2, habs1, hle1, ht1⟩
  rw [hxkey, hykey]
  -- the two assignments
  refine Run.bind (L.assign habs1 (L.le_cached hle1 hcx) hx (setChild_key ..) (setChild_pos ..)) ?_
  rintro - s2 ⟨habs2, hle2, ht2⟩
  have hle2 := L.le_trans hle1 hle2
  refine Run.bind (L.assign habs2 (L.le_cached hle2 hcy) ((Function.update_of_ne hne ..).trans hy)
    (setChild_key ..) (setChild_pos ..)) ?_
  rintro - s3 ⟨habs3, hle3, ht3⟩
  have hle3 := L.le_trans hle2 hle3
  have hgetx : Function.update (Function.update m x (some (xn.setChild d.other y yn.pos))) y
      (some (yn.setChild d T2.key T2.pos)) x = some (xn.setChild d.other y yn.pos) := by
    rw [Function.update_of_ne hne.symm, Function.update_self]
  generalize hm3 : Function.update (Function.update m x (some (xn.setChild d.other y yn.pos))) y
      (some (yn.setChild d T2.key T2.pos)) = m3 at habs3 hgetx
  have hgety : m3 y = some (yn.setChild d T2.key T2.pos) := by rw [← hm3, Function.update_self]
  have hframe3 : ∀ j, j ≠ x → j ≠ y → m3 j = m j := by
    intro j hjx hjy
    rw [← hm3, Function.update_of_ne hjy, Function.update_of_ne hjx]
  have hkeep : ∀ {t : Tree n} {k : Bid n} {p : Nat} {m' : Bid n → Option (Node n)},
      (∀ j, j ≠ x → j ≠ y → m' j = m j) → x ∉ t.keys → y ∉ t.keys → Repr m k p t → Repr m' k p t :=
    fun hm' hxt hyt ht => ht.congr fun j hj => hm' j (fun he => hxt (he ▸ hj)) (fun he => hyt (he ▸ hj))
  -- the height of `y`, then that of `x`
  refine settle_spec L habs3 (L.le_cached hle3 hcy) hgety (d := d) (a := b) (b := c)
    (by rw [childID_setChild, childPos_setChild]; exact hkeep hframe3 hxb hyb hT2)
    (by rw [childID_setChild_other, childPos_setChild_other]; exact hkeep hframe3 hxc hyc hc) ?_
  intro s4 habs4 hle4 hc4 ht4
  have hle4' := L.le_trans hle3 hle4
  have hgetx4 := (Function.update_of_ne hne.symm (some { yn.setChild d T2.key T2.pos with
    height := max b.height c.height + 1 }) m3).trans hgetx
  have hgety4 := Function.update_self y (some { yn.setChild d T2.key T2.pos with
    height := max b.height c.height + 1 }) m3
  have hframe4 : ∀ j, j ≠ x → j ≠ y → Function.update m3 y (some { yn.setChild d T2.key T2.pos with
      height := max b.height c.height + 1 }) j = m j := by
    intro j hjx hjy
    rw [Function.update_of_ne hjy, hframe3 j hjx hjy]
  generalize Function.update m3 y (some { yn.setChild d T2.key T2.pos with
    height := max b.height c.height + 1 }) = m4 at habs4 hgetx4 hgety4 hframe4
  have hrY : ∀ m' : Bid n → Option (Node n), m' y = m4 y → (∀ j, j ≠ x → j ≠ y → m' j = m j) →
      Repr m' y yn.pos (mk d b y yn.value c) := by
    intro m' hmy hm'
    refine repr_mk.2 ⟨rfl, _, hmy.trans hgety4, setChild_pos .., setChild_value .., rfl, ?_, ?_⟩
    · rw [childID_setHeight, childPos_setHeight, childID_setChild, childPos_setChild]
      exact hkeep hm' hxb hyb hT2
    · rw [childID_setHeight, childPos_setHeight, childID_setChild_other, childPos_setChild_other]
      exact hkeep hm' hxc hyc hc
  refine settle_spec L habs4 (L.le_cached hle4' hcx) hgetx4 (d := d) (a := a) (b := mk d b y yn.value c)
    (by rw [childID_setChild_opposite, childPos_setChild_opposite]; exact hkeep hframe4 hxa hya ha)
    (by rw [childID_setChild, childPos_setChild]; exact hrY m4 rfl hframe4) ?_
  intro s5 habs5 hle5 hc5 ht5
  refine Run.pure ⟨rfl, _, habs5, fun j hjx hjy => ?_, fun j node hj => ?_, ?_, L.le_trans hle4' hle5,
    fun j hj => ?_, fun j => ?_⟩
  · rw [Function.update_of_ne hjx, hframe4 j hjx hjy]
  · by_cases hjx : j = x
    · subst hjx
      obtain rfl := Option.some.inj (hx.symm.trans hj)
      exact ⟨_, Function.update_self .., setChild_pos ..⟩
    · by_cases hjy : j = y
      · subst hjy
        obtain rfl := Option.some.inj (hy.symm.trans hj)
        exact ⟨_, (Function.update_of_ne hne ..).trans hgety4, setChild_pos ..⟩
      · exact ⟨node, (Function.update_of_ne hjx ..).trans ((hframe4 j hjx hjy).trans hj), rfl⟩
  · have hframe5 : ∀ j, j ≠ x → j ≠ y → Function.update m4 x (some { xn.setChild d.other y yn.pos with
        height := max a.height (mk d b y yn.value c).height + 1 }) j = m j := by
      intro j hjx hjy
      rw [Function.update_of_ne hjx, hframe4 j hjx hjy]
    refine repr_mk.2 ⟨rfl, _, Function.update_self .., setChild_pos .., setChild_value .., rfl, ?_, ?_⟩
    · rw [childID_setHeight, childPos_setHeight, childID_setChild_opposite, childPos_setChild_opposite]
      exact hkeep hframe5 hxa hya ha
    · rw [childID_setHeight, childPos_setHeight, childID_setChild, childPos_setChild]
      exact hrY _ (Function.update_of_ne hne ..) hframe5
  · rcases hj with rfl | hj | hj | hj
    · exact L.le_cached (L.le_trans hle4' hle5) hcy
    · exact hc5 j (Or.inl hj)
    · exact L.le_cached hle5 (hc4 j (Or.inl hj))
    · exact L.le_cached hle5 (hc4 j (Or.inr hj))
  · rw [ht5, ht4, ht3, ht2, ht1, root?_mk, Option.some.injEq]
    grind

/-! ## Insertion -/

omit L in
/-- How a function that gives back a subtree leaves the store: it has become `t`, other nodes are as before, and
`d` leaves were drawn. -/
structure Post (L : Laws S E) (d : Nat) (s : σ) (m : Bid n → Option (Node n)) (t : Tree n) (q : Bid n × Nat) (s' : σ)
    (m' : Bid n → Option (Node n)) : Prop where
  abs : L.Abs s' m'
  repr : Repr m' q.1 q.2 t
  frame : ∀ j, j ∉ t.keys → m' j = m j
  leaves : KeepLeaves m m'
  le : L.Le d s s'
  closed : Closed (L.touched s') t
  touched : ∀ j, L.touched s' j → L.touched s j ∨ j ∈ t.keys
  mono : ∀ j, L.touched s j → L.touched s' j
  root : L.touched s' q.1 ∧ L.cached s' q.1

/-- **One rotation** and the new root. -/
theorem rotated_spec (habs : L.Abs s m) {d : Side} {x y : Bid n} {xn yn : Node n} {a b c : Tree n} (hcx : L.cached s x)
    (hcy : L.cached s y) (hx : m x = some xn) (hy : m y = some yn) (hyx : yn.childID d = x)
    (ha : Repr m (xn.childID d) (xn.childPos d) a) (hb : Repr m (xn.childID d.other) (xn.childPos d.other) b)
    (hc : Repr m (yn.childID d.other) (yn.childPos d.other) c) (hcb : ∀ j, b.root? = some j → L.cached s j)
    (hnd : (mk d (mk d a x xn.value b) y yn.value c).keys.Nodup) (hka : Closed (L.touched s) a)
    (hkb : Closed (L.touched s) b) (hkc : Closed (L.touched s) c) :
    Run E (rotated S d y) s fun q s' =>
      q = (x, xn.pos) ∧ (∀ j, L.touched s' j →
        L.touched s j ∨ j = x ∨ j = y ∨ a.root? = some j ∨ b.root? = some j ∨ c.root? = some j) ∧
        ∃ m', Post L (gap b) s m (mk d a x xn.value (mk d b y yn.value c)) q s' m' := by
  unfold rotated
  refine Run.bind (rotate_spec L habs hcx hcy hx hy hyx ha hb hc hcb hnd) ?_
  rintro p s' ⟨hp, m', habs', hframe, hleaves, hrepr, hle, -, ht⟩
  rw [hp]
  obtain ⟨-, node, hk, hpos, -⟩ := repr_mk.1 hrepr
  refine deref_bind L habs' (L.le_cached hle hcx) hk ?_
  rw [(L.wf habs' hk).1, hpos]
  refine Run.pure ?_
  obtain ⟨hyab, hyc, hab, hcn, habc⟩ := nodup_mk hnd
  obtain ⟨hxa, hxb, han, hbn, hdisj⟩ := nodup_mk hab
  have hmem : ∀ j, j ∈ (mk d a x xn.value (mk d b y yn.value c)).keys ↔
      j ∈ a.keys ∨ j = x ∨ j ∈ b.keys ∨ j = y ∨ j ∈ c.keys := by
    intro j
    rw [mem_keys_mk, mem_keys_mk]
  -- a key of one subtree is neither of the two nodes nor the root of another subtree
  have hA : ∀ j ∈ a.keys, j ≠ x ∧ j ≠ y ∧ j ∉ b.keys ∧ j ∉ c.keys := fun j hj =>
    ⟨fun h => hxa (h ▸ hj), fun h => hyab (mem_keys_mk.2 (Or.inl (h ▸ hj))), hdisj j hj,
      habc j (mem_keys_mk.2 (Or.inl hj))⟩
  have hB : ∀ j ∈ b.keys, j ≠ x ∧ j ≠ y ∧ j ∉ a.keys ∧ j ∉ c.keys := fun j hj =>
    ⟨fun h => hxb (h ▸ hj), fun h => hyab (mem_keys_mk.2 (Or.inr (Or.inr (h ▸ hj)))), fun h => hdisj j h hj,
      habc j (mem_keys_mk.2 (Or.inr (Or.inr hj)))⟩
  have hC : ∀ j ∈ c.keys, j ≠ x ∧ j ≠ y ∧ j ∉ a.keys ∧ j ∉ b.keys := fun j hj =>
    ⟨fun h => habc j (mem_keys_mk.2 (Or.inr (Or.inl h))) hj, fun h => hyc (h ▸ hj),
      fun h => habc j (mem_keys_mk.2 (Or.inl h)) hj, fun h => habc j (mem_keys_mk.2 (Or.inr (Or.inr h))) hj⟩
  have hroot : ∀ {t : Tree n} {j : Bid n}, j ∉ t.keys → t.root? ≠ some j := fun hj h => hj (AvlTree.root?_mem_keys h)
  refine ⟨rfl, fun j => (ht j).1, m', habs', hrepr, fun j hj => ?_, hleaves, hle, ?_, fun j hj => ?_,
    fun j hj => (ht j).2 (Or.inl hj), (ht _).2 (Or.inr (Or.inl rfl)), L.le_cached hle hcx⟩
  · rw [hmem] at hj
    exact hframe j (fun h => hj (Or.inr (Or.inl h))) fun h => hj (Or.inr (Or.inr (Or.inr (Or.inl h))))
  · refine Closed.mk ((ht _).2 (Or.inr (Or.inl rfl))) (hka.touch han fun j hj => ?_)
      (Closed.mk ((ht _).2 (Or.inr (Or.inr (Or.inl rfl)))) (hkb.touch hbn fun j hj => ?_) (hkc.touch hcn fun j hj => ?_))
    · obtain ⟨h1, h2, h3, h4⟩ := hA j hj
      rw [ht]
      simp [h1, h2, hroot h3, hroot h4]
    · obtain ⟨h1, h2, h3, h4⟩ := hB j hj
      rw [ht]
      simp [h1, h2, hroot h3, hroot h4]
    · obtain ⟨h1, h2, h3, h4⟩ := hC j hj
      rw [ht]
      simp [h1, h2, hroot h3, hroot h4]
  · rw [hmem]
    rcases (ht j).1 hj with hj | hj | hj | hj | hj | hj
    · exact Or.inl hj
    · exact Or.inr (Or.inr (Or.inl hj))
    · exact Or.inr (Or.inr (Or.inr (Or.inr (Or.inl hj))))
    · exact Or.inr (Or.inl (AvlTree.root?_mem_keys hj))
    · exact Or.inr (Or.inr (Or.inr (Or.inl (AvlTree.root?_mem_keys hj))))
    · exact Or.inr (Or.inr (Or.inr (Or.inr (Or.inr (AvlTree.root?_mem_keys hj)))))

/-- **Two rotations**: the inner grandchild of `y` comes up. -/
theorem rotatedTwice_spec (habs : L.Abs s m) {d : Side} {x y z : Bid n} {xn yn zn : Node n} {a b b' c : Tree n}
    (hcx : L.cached s x) (hcy : L.cached s y) (hcz : L.cached s z) (hx : m x = some xn) (hy : m y = some yn)
    (hz : m z = some zn) (hyz : yn.childID d = z) (hzx : zn.childID d.other = x)
    (ha : Repr m (zn.childID d) (zn.childPos d) a) (hb : Repr m (xn.childID d) (xn.childPos d) b)
    (hb' : Repr m (xn.childID d.other) (xn.childPos d.other) b')
    (hc : Repr m (yn.childID d.other) (yn.childPos d.other) c) (hcb : ∀ j, b.root? = some j → L.cached s j)
    (hcb' : ∀ j, b'.root? = some j → L.cached s j)
    (hnd : (mk d (mk d a z zn.value (mk d b x xn.value b')) y yn.value c).keys.Nodup) (hka : Closed (L.touched s) a)
    (hkb : Closed (L.touched s) b) (hkb' : Closed (L.touched s) b') (hkc : Closed (L.touched s) c) :
    Run E (rotatedTwice S d y yn) s fun q s' => (∀ j, L.touched s' j → L.touched s j ∨ j = x ∨ j = y ∨ j = z ∨
        a.root? = some j ∨ b.root? = some j ∨ b'.root? = some j ∨ c.root? = some j) ∧
      ∃ m', Post L (gap b + gap b') s m (mk d (mk d a z zn.value b) x xn.value (mk d b' y yn.value c)) q s' m' := by
  obtain ⟨hykey, -⟩ := L.wf habs hy
  have hnd' : (mk d (mk d (mk d a z zn.value b) x xn.value b') y yn.value c).keys.Nodup := by
    rw [keys_mk_rotate]
    exact hnd
  obtain ⟨hyT, hyc, hTn, -, hTc⟩ := nodup_mk hnd'
  have hyA : y ∉ (mk d a z zn.value b).keys := fun h => hyT (mem_keys_mk.2 (Or.inl h))
  have hyb' : y ∉ b'.keys := fun h => hyT (mem_keys_mk.2 (Or.inr (Or.inr h)))
  unfold rotatedTwice
  rw [hyz]
  refine readCached_bind L habs hcz ?_
  -- the first rotation, on the other side
  have hrot := rotated_spec L habs (d := d.other) (a := b') (b := b) (c := a) hcx hcz hx hz hzx hb'
    (by rw [other_other]; exact hb) (by rw [other_other]; exact ha) hcb
    (by rw [mk_other, mk_other]; exact (nodup_mk hnd).2.2.1) hkb' hkb hka
  rw [mk_other, mk_other] at hrot
  refine Run.bind hrot ?_
  rintro q s1 ⟨rfl, hlast1, m1, h1⟩
  have hy1 : m1 y = some yn := (h1.frame y hyT).trans hy
  have hcy1 := L.le_cached h1.le hcy
  -- the node takes the new child
  refine Run.bind (L.assign (f := fun nd => nd.setChild d x xn.pos) h1.abs hcy1 hy1 (setChild_key ..) (setChild_pos ..)) ?_
  rintro - s2 ⟨habs2, hle2, ht2⟩
  have hcy2 := L.le_cached hle2 hcy1
  refine deref_bind L habs2 hcy2 (Function.update_self ..) ?_
  rw [hykey]
  refine Run.bind (L.writeNode_cached _ habs2 hcy2) ?_
  rintro - s3 ⟨habs3, hle3, ht3⟩
  have hle3' := L.le_trans hle2 hle3
  have hle := L.le_trans h1.le hle3'
  have ht : ∀ j, j ≠ y → (L.touched s3 j ↔ L.touched s1 j) := by
    intro j hj
    rw [ht3, ht2]
    exact or_iff_left hj
  -- the second rotation
  obtain ⟨-, xn1, hx1, hxpos, hxval, -, hrA, hrb'⟩ := repr_mk.1 (h1.repr.update hyT (yn.setChild d x xn.pos))
  have hm2 : ∀ j, j ≠ y → Function.update m1 y (some (yn.setChild d x xn.pos)) j = m1 j :=
    fun j hj => Function.update_of_ne hj ..
  have hrc : Repr (Function.update m1 y (some (yn.setChild d x xn.pos))) (yn.childID d.other) (yn.childPos d.other) c :=
    hc.congr fun j hj => by
      rw [hm2 j fun he => hyc (he ▸ hj)]
      exact h1.frame j fun hT => hTc j hT hj
  obtain ⟨hkA, hkB⟩ := h1.closed.of_mk
  have hkc1 : Closed (L.touched s3) c := hkc.congr fun j hj => by
    rw [ht j fun he => hyc (he ▸ hj)]
    exact ⟨fun h => (h1.touched j h).resolve_right fun hT => hTc j hT hj, h1.mono j⟩
  have hrot2 := rotated_spec L habs3 (d := d) (a := mk d a z zn.value b) (b := b') (c := c)
    (L.le_cached hle hcx) (L.le_cached hle hcy) hx1 (Function.update_self ..)
    (childID_setChild ..) hrA hrb' (by rw [childID_setChild_other, childPos_setChild_other]; exact hrc)
    (fun j hj => L.le_cached hle (hcb' j hj)) (by rw [hxval, setChild_value]; exact hnd')
    (hkA.congr fun j hj => ht j fun he => hyA (he ▸ hj)) (hkB.congr fun j hj => ht j fun he => hyb' (he ▸ hj)) hkc1
  rw [hxval, setChild_value] at hrot2
  refine hrot2.mono ?_
  rintro q s' ⟨-, hlast2, m', h2⟩
  have hsub : ∀ j, j ∈ (mk d (mk d a z zn.value b) x xn.value b').keys →
      j ∈ (mk d (mk d a z zn.value b) x xn.value (mk d b' y yn.value c)).keys := by
    intro j hj
    rw [mem_keys_mk] at hj ⊢
    exact hj.imp_right fun h => h.imp_right fun h => mem_keys_mk.2 (Or.inl h)
  have hyK : y ∈ (mk d (mk d a z zn.value b) x xn.value (mk d b' y yn.value c)).keys :=
    mem_keys_mk.2 (Or.inr (Or.inr (mem_keys_mk.2 (Or.inr (Or.inl rfl)))))
  refine ⟨fun j hj => ?_, m', h2.abs, h2.repr, fun j hj => ?_,
    (h1.leaves.trans (.update hy1 (setChild_pos ..))).trans h2.leaves, L.le_trans hle h2.le, h2.closed, fun j hj => ?_,
    fun j hj => ?_, h2.root⟩
  · by_cases he : j = y
    · exact Or.inr (Or.inr (Or.inl he))
    · have h2 := hlast2 j hj
      rw [ht j he, root?_mk, Option.some.injEq] at h2
      rcases h2 with h1 | h | h | h | h | h
      · have := hlast1 j h1
        tauto
      all_goals
        first
        | exact absurd h he
        | grind
  · rw [h2.frame j hj, hm2 j fun he => hj (he ▸ hyK)]
    exact h1.frame j fun h => hj (hsub j h)
  · rcases h2.touched j hj with hj | hj
    · by_cases he : j = y
      · exact Or.inr (he ▸ hyK)
      · exact (h1.touched j ((ht j he).1 hj)).imp_right (hsub j)
    · exact Or.inr hj
  · refine h2.mono j ?_
    rw [ht3, ht2]
    exact Or.inl (h1.mono j hj)

theorem getBalance_spec (habs : L.Abs s m) {k : Bid n} {node : Node n} {l r : Tree n} (hc : L.cached s k)
    (hk : m k = some node) (hl : Repr m node.leftID node.leftPos l) (hr : Repr m node.rightID node.rightPos r) :
    Run E (getBalance S k) s fun b s' => b = (l.height : Int) - r.height ∧ L.Abs s' m ∧ L.Le 0 s s' ∧
      ∀ j, L.touched s' j ↔ L.touched s j ∨ l.root? = some j ∨ r.root? = some j := by
  unfold getBalance
  refine deref_bind L habs hc hk ?_
  refine Run.bind (height_spec L habs hl) ?_
  rintro a s1 ⟨rfl, habs1, hle1, -, ht1⟩
  refine Run.bind (height_spec L habs1 hr) ?_
  rintro b s2 ⟨rfl, habs2, hle2, -, ht2⟩
  refine Run.pure ⟨rfl, habs2, L.le_trans hle1 hle2, fun j => ?_⟩
  rw [ht2, ht1, or_assoc]

theorem childTest_bind {α : Type} {cond : Bool} {id : Bid n} {test : Bid n → Bool} {f : Bool → Prog σ α}
    {Q : α → σ → Prop} (habs : L.Abs s m) {c : Bool}
    (hc : cond = true → L.cached s id ∧ ∃ node, m id = some node) (hv : c = (cond && test id))
    (h : Run E (f c) s Q) : Run E (childTest S cond id test >>= f) s Q := by
  unfold childTest
  cases hcond : cond with
  | false =>
    rw [if_neg Bool.false_ne_true]
    rw [hv, hcond, Bool.false_and] at h
    exact Run.bind (Run.pure (Q := fun b s' => b = false ∧ s' = s) ⟨rfl, rfl⟩) (by rintro b s' ⟨rfl, rfl⟩; exact h)
  | true =>
    obtain ⟨hcid, node, hk⟩ := hc hcond
    rw [if_pos rfl]
    rw [hv, hcond, Bool.true_and] at h
    have hrun : Run E (do
        let p ← S.readCached id
        return test (← S.deref p).key) s fun b s' => b = test id ∧ s' = s := by
      refine readCached_bind L habs hcid ?_
      refine deref_bind L habs hcid hk ?_
      rw [(L.wf habs hk).1]
      exact Run.pure ⟨rfl, rfl⟩
    refine Run.bind hrun ?_
    rintro b s' ⟨rfl, rfl⟩
    exact h

omit L in
/-- What was done before counts too. -/
theorem Post.after {L : Laws S E} {d e : Nat} {s1 : σ} {m1 : Bid n → Option (Node n)} {t : Tree n} {q : Bid n × Nat}
    {s' : σ} {m' : Bid n → Option (Node n)} (h : Post L d s1 m1 t q s' m') (hle : L.Le e s s1)
    (hm : ∀ j, j ∉ t.keys → m1 j = m j) (hl : KeepLeaves m m1)
    (ht : ∀ j, L.touched s1 j → L.touched s j ∨ j ∈ t.keys) (hmono : ∀ j, L.touched s j → L.touched s1 j) :
    Post L (e + d) s m t q s' m' :=
  ⟨h.abs, h.repr, fun j hj => (h.frame j hj).trans (hm j hj), hl.trans h.leaves, L.le_trans hle h.le, h.closed,
    fun j hj => (h.touched j hj).elim (ht j) Or.inr, fun j hj => h.mono j (hmono j hj), h.root⟩

omit L in
/-- The roots of the two subtrees are cached, and were touched. -/
def RootsCached (L : Laws S E) (s : σ) : Tree n → Prop
  | .nil => True
  | .node l _ _ r => ∀ j, l.root? = some j ∨ r.root? = some j → L.cached s j ∧ L.touched s j

omit L in
/-- A subtree that grew when `x` was inserted: it leans to `x`, and what a rotation reads is cached. -/
structure Ready (L : Laws S E) (x : Bid n) (s : σ) (t : Tree n) : Prop where
  leans : t.Leans x
  roots : RootsCached L s t
  inner : ∀ l k v r, t = .node l k v r → (x < k → RootsCached L s l) ∧ (k < x → RootsCached L s r)

omit L in
theorem RootsCached.mono {L : Laws S E} {d : Nat} {s' : σ} {t : Tree n} (h : RootsCached L s t) (hle : L.Le d s s') :
    RootsCached L s' t := by
  cases t with
  | nil => trivial
  | node l k v r => exact fun j hj => ⟨L.le_cached hle (h j hj).1, L.le_touched hle (h j hj).2⟩

omit L in
theorem Ready.mono {L : Laws S E} {d : Nat} {s' : σ} {x : Bid n} {t : Tree n} (h : Ready L x s t) (hle : L.Le d s s') :
    Ready L x s' t :=
  ⟨h.leans, h.roots.mono hle, fun l k v r he =>
    ⟨fun hx => ((h.inner l k v r he).1 hx).mono hle, fun hx => ((h.inner l k v r he).2 hx).mono hle⟩⟩

omit L in
theorem mem_keys_balance {x k j : Bid n} {l r : Tree n} {v : List UInt8} :
    j ∈ (AvlTree.balance x l k v r).keys ↔ j ∈ l.keys ∨ j = k ∨ j ∈ r.keys := by
  rw [AvlTree.keys, AvlTree.toList_balance]
  exact AvlTree.mem_keys_node

omit L in
/-- `a` comes before `b`, seen from the side `d`. -/
def Before (d : Side) (a b : Bid n) : Prop :=
  match d with
  | .left => a < b
  | .right => b < a

omit L in
theorem exists_mk (d : Side) {t : Tree n} (h : 0 < t.height) : ∃ a k v b, t = mk d a k v b := by
  cases t with
  | nil => exact absurd h (Nat.lt_irrefl 0)
  | node l k v r =>
    cases d with
    | left => exact ⟨l, k, v, r, rfl⟩
    | right => exact ⟨r, k, v, l, rfl⟩

omit L in
theorem leans_mk {d : Side} {a b : Tree n} {x k : Bid n} {v : List UInt8} (h : (mk d a k v b).Leans x) :
    (Before d k x → b.height = a.height + 1) ∧ (x = k → a.height = 0 ∧ b.height = 0) := by
  cases d with
  | left => exact h.2
  | right => exact ⟨h.1, fun he => (h.2.2 he).symm⟩

omit L in
theorem rootsCached_mk {L : Laws S E} {d : Side} {a b : Tree n} {k : Bid n} {v : List UInt8}
    (h : RootsCached L s (mk d a k v b)) :
    ∀ j, a.root? = some j ∨ b.root? = some j → L.cached s j ∧ L.touched s j := by
  cases d with
  | left => exact h
  | right => exact fun j hj => h j hj.symm

omit L in
theorem ready_inner {L : Laws S E} {d : Side} {a b : Tree n} {x k : Bid n} {v : List UInt8}
    (h : Ready L x s (mk d a k v b)) (hx : Before d k x) : RootsCached L s b := by
  cases d with
  | left => exact (h.inner a k v b rfl).2 hx
  | right => exact (h.inner b k v a rfl).1 hx

/-- **The rotations of a subtree that is too high**, on either side. -/
theorem tooHigh_spec (habs : L.Abs s m) {d : Side} {x y z : Bid n} {yn : Node n} {w : List UInt8} {a b c : Tree n}
    (hcy : L.cached s y) (hy : m y = some yn) (ht : Repr m (yn.childID d) (yn.childPos d) (mk d a z w b))
    (hc : Repr m (yn.childID d.other) (yn.childPos d.other) c) (hh : c.height + 1 < (mk d a z w b).height)
    (hready : Ready L x s (mk d a z w b)) (hcz : L.cached s z) (hty : L.touched s y) (htz : L.touched s z)
    (hnd : (mk d (mk d a z w b) y yn.value c).keys.Nodup) (hkt : Closed (L.touched s) (mk d a z w b))
    (hkc : Closed (L.touched s) c) :
    x ≠ z ∧
      (Run E (rotated S d y) s fun q s' => (∀ j, L.touched s' j → L.touched s j ∨ c.root? = some j) ∧
        ∃ m', Post L (gap b) s m (mk d a z w (mk d b y yn.value c)) q s' m') ∧
      (Before d z x → ∃ e u v e', b = mk d e u v e' ∧ Run E (rotatedTwice S d y yn) s fun q s' =>
        (∀ j, L.touched s' j → L.touched s j ∨ c.root? = some j) ∧
        ∃ m', Post L (innerGaps b) s m (mk d (mk d a z w e) u v (mk d e' y yn.value c)) q s' m') := by
  rw [height_mk] at hh
  obtain ⟨hinner, hleaf⟩ := leans_mk hready.leans
  obtain ⟨hyz, zn, hz, -, rfl, -, hra, hrb⟩ := repr_mk.1 ht
  obtain ⟨hka, hkb⟩ := hkt.of_mk
  have hroots := rootsCached_mk hready.roots
  refine ⟨fun he => ?_, ?_, fun hx => ?_⟩
  · obtain ⟨h1, h2⟩ := hleaf he
    omega
  · refine (rotated_spec L habs hcz hcy hz hy hyz hra hrb hc (fun j hj => (hroots j (Or.inr hj)).1) hnd hka hkb hkc).mono ?_
    rintro q s' ⟨-, hlast, h⟩
    refine ⟨fun j hj => ?_, h⟩
    rcases hlast j hj with hj | rfl | rfl | hj | hj | hj
    · exact Or.inl hj
    · exact Or.inl htz
    · exact Or.inl hty
    · exact Or.inl (hroots j (Or.inl hj)).2
    · exact Or.inl (hroots j (Or.inr hj)).2
    · exact Or.inr hj
  · have hbh := hinner hx
    obtain ⟨e, u, v, e', rfl⟩ := exists_mk d (show 0 < b.height by omega)
    obtain ⟨hzu, un, hu, -, rfl, -, hre, hre'⟩ := repr_mk.1 hrb
    obtain ⟨hke, hke'⟩ := hkb.of_mk
    have hroots' := rootsCached_mk (ready_inner hready hx)
    refine ⟨e, u, un.value, e', rfl, ?_⟩
    rw [innerGaps_mk]
    obtain ⟨hcu, htu⟩ := hroots u (Or.inr (root?_mk ..))
    refine (rotatedTwice_spec L habs hcu hcy hcz hu hy hz hyz hzu hra hre hre' hc
      (fun j hj => (hroots' j (Or.inl hj)).1) (fun j hj => (hroots' j (Or.inr hj)).1) hnd hka hke hke' hkc).mono ?_
    rintro q s' ⟨hlast, h⟩
    refine ⟨fun j hj => ?_, h⟩
    rcases hlast j hj with hj | rfl | rfl | rfl | hj | hj | hj | hj
    · exact Or.inl hj
    · exact Or.inl htu
    · exact Or.inl hty
    · exact Or.inl htz
    · exact Or.inl (hroots j (Or.inl hj)).2
    · exact Or.inl (hroots' j (Or.inl hj)).2
    · exact Or.inl (hroots' j (Or.inr hj)).2
    · exact Or.inr hj

/-- **The second half of `insert`** restores the balance as the tree's `balance` does. -/
theorem rebalance_spec (habs : L.Abs s m) {x k : Bid n} {nd : Node n} {l r : Tree n} (hc : L.cached s k)
    (htk : L.touched s k) (hk : m k = some nd) (hl : Repr m nd.leftID nd.leftPos l) (hr : Repr m nd.rightID nd.rightPos r)
    (hnd : (AvlTree.node l k nd.value r).keys.Nodup) (hL : r.height + 1 < l.height → Ready L x s l)
    (hR : l.height + 1 < r.height → Ready L x s r) (hkl : Closed (L.touched s) l) (hkr : Closed (L.touched s) r) :
    Run E (rebalance S k nd.pos x) s fun q s' =>
      ((∃ m', Post L (balanceDraws x l r) s m (AvlTree.balance x l k nd.value r) q s' m') ∧
        ∀ j, L.touched s' j ↔ L.touched s j ∨ l.root? = some j ∨ r.root? = some j) ∧
        (l.height ≤ r.height + 1 → r.height ≤ l.height + 1 →
          ∀ j, l.root? = some j ∨ r.root? = some j → L.cached s' j) := by
  obtain ⟨hkey, -⟩ := L.wf habs hk
  obtain ⟨hkl', hkr', hln, hrn, hlr⟩ := nodup_mk (d := .left) hnd
  unfold rebalance
  -- the height of the node
  refine Run.bind (updateHeight_spec L habs (d := .left) hc hk hl hr) ?_
  rintro - s1 ⟨habs1, hle1, hc1, ht1⟩
  have hget1 := Function.update_self k (some { nd with height := max l.height r.height + 1 }) m
  have hl1 := hl.update hkl' { nd with height := max l.height r.height + 1 }
  have hr1 := hr.update hkr' { nd with height := max l.height r.height + 1 }
  have hframe1 : ∀ j, j ∉ (AvlTree.balance x l k nd.value r).keys →
      Function.update m k (some { nd with height := max l.height r.height + 1 }) j = m j := by
    intro j hj
    exact Function.update_of_ne (fun he => hj (mem_keys_balance.2 (Or.inr (Or.inl he)))) ..
  have hleaves1 : KeepLeaves m (Function.update m k (some { nd with height := max l.height r.height + 1 })) :=
    .update hk rfl
  generalize Function.update m k (some { nd with height := max l.height r.height + 1 }) = m1
    at habs1 hget1 hl1 hr1 hframe1 hleaves1
  -- its balance
  refine Run.bind (getBalance_spec L habs1 (L.le_cached hle1 hc) hget1 hl1 hr1) ?_
  rintro bal s2 ⟨rfl, habs2, hle2, ht2⟩
  have hle := L.le_trans hle1 hle2
  have hck := L.le_cached hle hc
  have hcroots : ∀ j, l.root? = some j ∨ r.root? = some j → L.cached s2 j := fun j hj => L.le_cached hle2 (hc1 j hj)
  have ht : ∀ j, L.touched s2 j ↔ L.touched s j ∨ l.root? = some j ∨ r.root? = some j := by
    intro j
    rw [ht2, ht1]
    grind
  have htk2 : L.touched s2 k := (ht k).2 (Or.inl htk)
  have htouched : ∀ j, L.touched s2 j → L.touched s j ∨ j ∈ (AvlTree.balance x l k nd.value r).keys := by
    intro j hj
    rw [mem_keys_balance]
    rcases (ht j).1 hj with hj | hj | hj
    · exact Or.inl hj
    · exact Or.inr (Or.inl (AvlTree.root?_mem_keys hj))
    · exact Or.inr (Or.inr (Or.inr (AvlTree.root?_mem_keys hj)))
  have hkl2 : Closed (L.touched s2) l := hkl.touch hln fun j hj => by
    rw [ht]
    have : r.root? ≠ some j := fun h => hlr j hj (AvlTree.root?_mem_keys h)
    simp [this]
  have hkr2 : Closed (L.touched s2) r := hkr.touch hrn fun j hj => by
    rw [ht]
    have : l.root? ≠ some j := fun h => hlr j (AvlTree.root?_mem_keys h) hj
    simp [this]
  refine deref_bind L habs2 hck hget1 ?_
  have hafter : ∀ {q s'}, (∀ j, L.touched s' j → L.touched s2 j ∨ l.root? = some j ∨ r.root? = some j) →
      (∃ m', Post L (balanceDraws x l r) s2 m1 (AvlTree.balance x l k nd.value r) q s' m') →
      (∃ m', Post L (balanceDraws x l r) s m (AvlTree.balance x l k nd.value r) q s' m') ∧
        ∀ j, L.touched s' j ↔ L.touched s j ∨ l.root? = some j ∨ r.root? = some j := by
    rintro q s' hlast ⟨m', h⟩
    refine ⟨⟨m', ?_⟩, fun j => ⟨fun hj => (hlast j hj).elim (ht j).1 Or.inr, fun hj => h.mono j ((ht j).2 hj)⟩⟩
    have hall := h.after hle hframe1 hleaves1 htouched fun j hj => (ht j).2 (Or.inl hj)
    rwa [Nat.add_zero, Nat.zero_add] at hall
  have hstored : ∀ {d : Side} {a b : Tree n} {z id : Bid n} {w : List UInt8} {p : Nat}, Repr m1 id p (mk d a z w b) →
      L.cached s2 z → L.cached s2 id ∧ ∃ node, m1 id = some node := by
    intro d a b z id w p hrep hz
    obtain ⟨rfl, node, hn, -⟩ := repr_mk.1 hrep
    exact ⟨hz, node, hn⟩
  by_cases hLh : r.height + 1 < l.height
  · -- the left subtree is too high
    obtain ⟨a, z, w, b, rfl⟩ := exists_mk .left (show 0 < l.height by omega)
    have hcz := hcroots z (Or.inl (root?_mk ..))
    obtain ⟨hne, hone, htwo⟩ := tooHigh_spec L habs2 (d := .left) hck hget1 hl1 hr1 hLh ((hL hLh).mono hle) hcz htk2
      ((ht z).2 (Or.inr (Or.inl (root?_mk ..)))) hnd hkl2 hkr2
    have hid : nd.leftID = z := hl1.1
    have hb1 : decide ((1 : Int) < ((mk .left a z w b).height : Int) - r.height) = true := by
      rw [decide_eq_true_iff]
      omega
    have hb2 : decide (((mk .left a z w b).height : Int) - r.height < -1) = false := by
      rw [decide_eq_false_iff_not]
      omega
    have hno : ∀ q : Bid n × Nat, ∀ s' : σ, (mk .left a z w b).height ≤ r.height + 1 → r.height ≤ (mk .left a z w b).height + 1 →
        ∀ j, (mk .left a z w b).root? = some j ∨ r.root? = some j → L.cached s' j := by
      intro q s' h1
      omega
    by_cases hx : x < z
    · refine childTest_bind L habs2 (c := true) (fun _ => hstored hl1 hcz) (by simp only [hb1, hid, hx]; rfl) ?_
      rw [if_pos rfl]
      refine hone.mono fun q s' h => ⟨hafter (fun j hj => (h.1 j hj).imp_right Or.inr) ?_, hno q s'⟩
      rw [AvlTree.balance, balanceDraws, if_pos hLh, if_pos hLh]
      show ∃ m', Post L (if x < z then gap b else _) s2 m1 (if x < z then _ else _) q s' m'
      rw [if_pos hx, if_pos hx]
      exact h.2
    · have hzx : z < x := Std.lt_of_le_of_ne (Std.not_lt.1 hx) hne.symm
      obtain ⟨e, u, v, e', rfl, hrun⟩ := htwo hzx
      refine childTest_bind L habs2 (c := false) (fun _ => hstored hl1 hcz) (by simp only [hb1, hid, hx]; rfl) ?_
      rw [if_neg Bool.false_ne_true]
      refine childTest_bind L habs2 (c := false) (fun h => by rw [hb2] at h; cases h) (by rw [hb2, Bool.false_and]) ?_
      rw [if_neg Bool.false_ne_true]
      refine childTest_bind L habs2 (c := true) (fun _ => hstored hl1 hcz) (by simp only [hb1, hid, hzx]; rfl) ?_
      rw [if_pos rfl]
      refine hrun.mono fun q s' h => ⟨hafter (fun j hj => (h.1 j hj).imp_right Or.inr) ?_, hno q s'⟩
      rw [AvlTree.balance, balanceDraws, if_pos hLh, if_pos hLh]
      show ∃ m', Post L (if x < z then _ else if z < x then innerGaps (mk .left e u v e') else _) s2 m1
        (if x < z then _ else if z < x then _ else _) q s' m'
      rw [if_neg hx, if_neg hx, if_pos hzx, if_pos hzx]
      exact h.2
  · by_cases hRh : l.height + 1 < r.height
    · -- the right subtree is too high
      obtain ⟨a, z, w, b, rfl⟩ := exists_mk .right (show 0 < r.height by omega)
      have hcz := hcroots z (Or.inr (root?_mk ..))
      obtain ⟨hne, hone, htwo⟩ := tooHigh_spec L habs2 (d := .right) hck hget1 hr1 hl1 hRh ((hR hRh).mono hle) hcz htk2
        ((ht z).2 (Or.inr (Or.inr (root?_mk ..)))) hnd hkr2 hkl2
      have hid : nd.rightID = z := hr1.1
      have hb1 : decide ((1 : Int) < (l.height : Int) - (mk .right a z w b).height) = false := by
        rw [decide_eq_false_iff_not]
        omega
      have hb2 : decide ((l.height : Int) - (mk .right a z w b).height < -1) = true := by
        rw [decide_eq_true_iff]
        omega
      have hno : ∀ q : Bid n × Nat, ∀ s' : σ, l.height ≤ (mk .right a z w b).height + 1 →
          (mk .right a z w b).height ≤ l.height + 1 →
          ∀ j, l.root? = some j ∨ (mk .right a z w b).root? = some j → L.cached s' j := by
        intro q s' h1 h2
        omega
      refine childTest_bind L habs2 (c := false) (fun h => by rw [hb1] at h; cases h) (by rw [hb1, Bool.false_and]) ?_
      rw [if_neg Bool.false_ne_true]
      by_cases hx : z < x
      · refine childTest_bind L habs2 (c := true) (fun _ => hstored hr1 hcz) (by simp only [hb2, hid, hx]; rfl) ?_
        rw [if_pos rfl]
        refine hone.mono fun q s' h => ⟨hafter (fun j hj => (h.1 j hj).imp_right Or.inl) ?_, hno q s'⟩
        rw [AvlTree.balance, balanceDraws, if_neg hLh, if_neg hLh, if_pos hRh, if_pos hRh]
        show ∃ m', Post L (if z < x then gap b else _) s2 m1 (if z < x then _ else _) q s' m'
        rw [if_pos hx, if_pos hx]
        exact h.2
      · have hxz : x < z := Std.lt_of_le_of_ne (Std.not_lt.1 hx) hne
        obtain ⟨e, u, v, e', rfl, hrun⟩ := htwo hxz
        refine childTest_bind L habs2 (c := false) (fun _ => hstored hr1 hcz) (by simp only [hb2, hid, hx]; rfl) ?_
        rw [if_neg Bool.false_ne_true]
        refine childTest_bind L habs2 (c := false) (fun h => by rw [hb1] at h; cases h) (by rw [hb1, Bool.false_and]) ?_
        rw [if_neg Bool.false_ne_true]
        refine childTest_bind L habs2 (c := true) (fun _ => hstored hr1 hcz) (by simp only [hb2, hid, hxz]; rfl) ?_
        rw [if_pos rfl]
        refine hrun.mono fun q s' h => ⟨hafter (fun j hj => (h.1 j hj).imp_right Or.inl) ?_, hno q s'⟩
        rw [AvlTree.balance, balanceDraws, if_neg hLh, if_neg hLh, if_pos hRh, if_pos hRh]
        show ∃ m', Post L (if z < x then _ else if x < z then innerGaps (mk .right e u v e') else _) s2 m1
          (if z < x then _ else if x < z then _ else _) q s' m'
        rw [if_neg hx, if_neg hx, if_pos hxz, if_pos hxz]
        exact h.2
    · -- no rotation
      have hb1 : decide ((1 : Int) < (l.height : Int) - r.height) = false := by
        rw [decide_eq_false_iff_not]
        omega
      have hb2 : decide ((l.height : Int) - r.height < -1) = false := by
        rw [decide_eq_false_iff_not]
        omega
      have hskip : ∀ {α : Type} {id : Bid n} {test : Bid n → Bool} {cond : Bool} {f : Bool → Prog σ α} {Q : α → σ → Prop},
          cond = false → Run E (f false) s2 Q → Run E (childTest S cond id test >>= f) s2 Q := by
        rintro α id test cond f Q rfl h
        exact childTest_bind L habs2 (fun h => by cases h) rfl h
      refine hskip hb1 ?_
      rw [if_neg Bool.false_ne_true]
      refine hskip hb2 ?_
      rw [if_neg Bool.false_ne_true]
      refine hskip hb1 ?_
      rw [if_neg Bool.false_ne_true]
      refine hskip hb2 ?_
      rw [if_neg Bool.false_ne_true]
      refine deref_bind L habs2 hck hget1 ?_
      rw [hkey]
      refine Run.bind (L.writeNode_cached _ habs2 hck) ?_
      rintro - s3 ⟨habs3, hle3, ht3⟩
      refine Run.pure ⟨hafter (fun j hj => ?_) ?_, fun _ _ j hj => L.le_cached hle3 (hcroots j hj)⟩
      · exact Or.inl (((ht3 j).1 hj).elim id fun he => he ▸ htk2)
      rw [AvlTree.balance, balanceDraws, if_neg hLh, if_neg hLh, if_neg hRh, if_neg hRh]
      refine ⟨m1, habs3, ⟨rfl, _, hget1, rfl, rfl, rfl, hl1, hr1⟩, fun j _ => rfl, .refl m1, hle3, ?_, fun j hj => ?_,
        fun j hj => (ht3 j).2 (Or.inl hj), (ht3 k).2 (Or.inr rfl), L.le_cached hle3 hck⟩
      · refine ⟨Or.inl ((ht3 k).2 (Or.inr rfl)), hkl2.congr fun j hj => ?_, hkr2.congr fun j hj => ?_⟩
        · rw [ht3]
          exact or_iff_left fun he => hkl' (he ▸ hj)
        · rw [ht3]
          exact or_iff_left fun he => hkr' (he ▸ hj)
      · rcases (ht3 j).1 hj with hj | hj
        · exact Or.inl hj
        · exact Or.inr (AvlTree.mem_keys_node.2 (Or.inr (Or.inl hj)))

/-- A new leaf. -/
theorem insert_nil_spec (habs : L.Abs s m) {x : Bid n} {v : Str} (hx : x.isZero = false ∨ E .idNotSet)
    (hnew : m x = none) :
    Run E (do
      let nnode ← newNode S x v
      let pos ← S.writeNode x nnode
      return (nnode.key, pos)) s fun q s' =>
        (∃ m', Post L 1 s m (AvlTree.node .nil x (padTo 16 v) .nil) q s' m' ∧
          ∃ node, m' x = some node ∧ node.pos = L.next s) ∧
          Ready L x s' (AvlTree.node .nil x (padTo 16 v) .nil) ∧
          (L.log s').dedup = (x :: L.log s).dedup := by
  refine Run.bind (newNode_spec L habs x v) ?_
  rintro node s1 ⟨rfl, hval, hheight, hleft, hright, hnext, hleaf, habs1, hle1, ht1⟩
  cases hz : node.key.isZero with
  | true =>
    rcases hx with hx | hx
    · rw [hz] at hx
      cases hx
    · exact Run.bind (L.writeNode_zero hz hx) fun _ _ h => h.elim
  | false =>
    refine Run.bind (L.writeNode_new habs1 hnew hz hleaf) ?_
    rintro pos s2 ⟨rfl, habs2, hle2, hc2, ht2⟩
    have ht : ∀ j, L.touched s2 j ↔ L.touched s j ∨ j = node.key := by
      intro j
      rw [ht2, ht1]
    have hmem : ∀ j, j ∈ (AvlTree.node .nil node.key (padTo 16 v) .nil : Tree n).keys ↔ j = node.key := by
      intro j
      simp [AvlTree.keys, AvlTree.toList]
    refine Run.pure ⟨⟨_, ⟨habs2, ⟨rfl, node, Function.update_self .., rfl, hval, hheight, ?_, ?_⟩, fun j hj => ?_,
      .insert hnew node, L.le_trans hle1 hle2, ⟨Or.inl ((ht _).2 (Or.inr rfl)), trivial, trivial⟩, fun j hj => ?_,
      fun j hj => (ht j).2 (Or.inl hj), (ht _).2 (Or.inr rfl), hc2⟩, node, Function.update_self .., hnext⟩, ⟨?_, ?_, ?_⟩,
      L.dedup_log (o := some node.key) (L.le_trans hle1 hle2) fun j => by rw [ht, Option.some.injEq, eq_comm]⟩
    · show node.leftID.isZero = true
      rw [hleft]
      exact isZero_zero
    · show node.rightID.isZero = true
      rw [hright]
      exact isZero_zero
    · exact Function.update_of_ne (fun he => hj ((hmem j).2 he)) ..
    · rw [hmem]
      exact (ht j).1 hj
    · exact ⟨fun h => absurd h Std.lt_irrefl, fun h => absurd h Std.lt_irrefl, fun _ => ⟨rfl, rfl⟩⟩
    · rintro j (hj | hj)
      · cases hj
      · cases hj
    · rintro l k w r he
      obtain ⟨rfl, -, -, rfl⟩ := AvlTree.node.inj he
      exact ⟨fun _ => trivial, fun _ => trivial⟩

/-- What a subtree's insertion and its assignment leave of the node above it and of its other subtree. -/
theorem descend_frame {d : Side} {k : Bid n} {nd : Node n} {w : List UInt8} {a' b : Tree n} {q : Bid n × Nat}
    {s1 s2 s3 : σ} {m2 : Bid n → Option (Node n)} {e : Nat} (h2 : Post L e s1 m a' q s2 m2)
    (ht1 : ∀ j, L.touched s1 j ↔ L.touched s j ∨ j = k) (ht3 : ∀ j, L.touched s3 j ↔ L.touched s2 j)
    (hnd : (mk d a' k w b).keys.Nodup)
    (hb : Repr m (nd.childID d.other) (nd.childPos d.other) b) (hkb : Closed (L.touched s) b) :
    Repr (Function.update m2 k (some (nd.setChild d q.1 q.2))) q.1 q.2 a' ∧
      Repr (Function.update m2 k (some (nd.setChild d q.1 q.2))) (nd.childID d.other) (nd.childPos d.other) b ∧
      Closed (L.touched s3) a' ∧ Closed (L.touched s3) b ∧
      (∀ j, j ∉ (mk d a' k w b).keys → Function.update m2 k (some (nd.setChild d q.1 q.2)) j = m j) ∧
      (∀ j, L.touched s3 j → L.touched s j ∨ j ∈ (mk d a' k w b).keys) ∧ ∀ j, L.touched s j → L.touched s3 j := by
  obtain ⟨hka, hkb', -, -, hdisj⟩ := nodup_mk hnd
  refine ⟨h2.repr.update hka _, hb.congr fun j hj => ?_, h2.closed.congr fun j _ => ht3 j, hkb.congr fun j hj => ?_,
    fun j hj => ?_, fun j hj => ?_, fun j hj => ?_⟩
  · rw [Function.update_of_ne (fun he : j = k => hkb' (he ▸ hj))]
    exact h2.frame j fun ha => hdisj j ha hj
  · rw [ht3]
    constructor
    · intro h
      rcases (ht1 j).1 ((h2.touched j h).resolve_right fun ha => hdisj j ha hj) with h | h
      · exact h
      · exact absurd (h ▸ hj) hkb'
    · exact fun h => h2.mono j ((ht1 j).2 (Or.inl h))
  · rw [mem_keys_mk, not_or, not_or] at hj
    rw [Function.update_of_ne hj.2.1]
    exact h2.frame j hj.1
  · rw [mem_keys_mk]
    rcases h2.touched j ((ht3 j).1 hj) with h | h
    · exact ((ht1 j).1 h).imp_right fun he => Or.inr (Or.inl he)
    · exact Or.inr (Or.inl h)
  · exact (ht3 j).2 (h2.mono j ((ht1 j).2 (Or.inl hj)))

omit L in
/-- The root of a subtree is touched already, so that only the other subtree's root may be new. -/
theorem Post.dedup_log {L : Laws S E} {d e : Nat} {a b : Tree n} {q : Bid n × Nat} {s1 s2 s' : σ} {m' : Bid n → Option (Node n)}
    (h : Post L d s1 m a q s2 m') (hle : L.Le e s2 s')
    (ht : ∀ j, L.touched s' j ↔ L.touched s2 j ∨ a.root? = some j ∨ b.root? = some j) :
    (L.log s').dedup = (b.root?.toList ++ L.log s2).dedup := by
  refine L.dedup_log hle fun j => (ht j).trans ⟨?_, fun hj => hj.imp_right Or.inr⟩
  rintro (hj | hj | hj)
  · exact Or.inl hj
  · rw [(h.repr.root hj).1]
    exact Or.inl h.root.1
  · exact Or.inr hj

omit L in
/-- What an insertion has touched for the first time: the root, then what it touches in a subtree, and last the other
subtree's root. -/
theorem dedup_visits {L : Laws S E} {d : Side} {a b : Tree n} {x k : Bid n} {v : List UInt8} {s1 s2 s' : σ}
    (h1 : (L.log s1).dedup = (k :: L.log s).dedup) (h2 : (L.log s2).dedup = (visits x a ++ L.log s1).dedup)
    (h' : (L.log s').dedup = (b.root?.toList ++ L.log s2).dedup) (hx : Before d x k) (hne : ¬ Before d.other x k) :
    (L.log s').dedup = (visits x (Sse.Omap.mk d a k v b) ++ L.log s).dedup := by
  have hv : visits x (Sse.Omap.mk d a k v b) = b.root?.toList ++ visits x a ++ [k] := by
    cases d with
    | left => exact if_pos hx
    | right => exact (if_neg hne).trans (if_pos hx)
  rw [hv, h', List.append_assoc, List.append_assoc, List.dedup_append, h2, List.dedup_append _ (L.log s1), h1,
    List.dedup_append b.root?.toList, List.dedup_append (visits x a)]
  rfl

/-- **`insert`** turns the tree `t` into `t.insert`, and a new node gets the next leaf. -/
theorem insert_spec {t : Tree n} {fuel : Nat} (hf : t.height < fuel) (habs : L.Abs s m) {k : Bid n} {p : Nat}
    (ht : Repr m k p t) (hord : t.Ordered) (hbal : t.Bal) {x : Bid n} {v : Str} (hx : x.isZero = false ∨ E .idNotSet)
    (hnew : x ∉ t.keys → m x = none) (hkt : Closed (L.touched s) t) :
    Run E (insert S fuel k p x v) s fun q s' =>
      (∃ m', Post L (draws x (padTo 16 v) t) s m (t.insert x (padTo 16 v)) q s' m' ∧
        (x ∉ t.keys → ∃ node, m' x = some node ∧ node.pos = L.next s)) ∧
      ((t.insert x (padTo 16 v)).height = t.height + 1 → Ready L x s' (t.insert x (padTo 16 v))) ∧
      (L.log s').dedup = (visits x t ++ L.log s).dedup := by
  induction t generalizing fuel s m k p with
  | nil =>
    obtain ⟨fuel, rfl⟩ : ∃ f, fuel = f + 1 := ⟨fuel - 1, by omega⟩
    unfold insert
    rw [if_pos (show k.isZero = true from ht)]
    refine (insert_nil_spec L habs hx (hnew ?_)).mono ?_
    · simp [AvlTree.keys, AvlTree.toList]
    · rintro q s' ⟨⟨m', hpost, hleaf⟩, hready, hlog⟩
      exact ⟨⟨m', hpost, fun _ => hleaf⟩, fun _ => hready, hlog⟩
  | node l k' w r ihl ihr =>
    obtain ⟨fuel, rfl⟩ : ∃ f, fuel = f + 1 := ⟨fuel - 1, by omega⟩
    obtain ⟨rfl, nd, hk, rfl, rfl, hheight, hl, hr⟩ := ht
    obtain ⟨hkey, hz⟩ := L.wf habs hk
    obtain ⟨hlo, hro, hlk, hkr⟩ := AvlTree.ordered_node hord
    obtain ⟨-, hkl, hkr'⟩ := hkt
    rw [AvlTree.height] at hf
    unfold insert
    rw [if_neg (by rw [hz]; exact Bool.false_ne_true)]
    refine Run.bind (L.readNode habs hk) ?_
    rintro _ s1 ⟨rfl, habs1, hle1, hc1, ht1⟩
    dsimp only
    refine deref_bind L habs1 hc1 hk ?_
    rw [hkey]
    have hkl1 : ∀ {u : Tree n}, k ∉ u.keys → Closed (L.touched s) u → Closed (L.touched s1) u := fun hu h =>
      h.congr fun j hj => by
        rw [ht1]
        exact or_iff_left fun he => hu (he ▸ hj)
    obtain ⟨hknl, hknr, -⟩ := nodup_mk (d := .left) hord.nodup
    by_cases hxk : x < k
    · -- into the left subtree
      rw [if_pos hxk]
      have hord' := AvlTree.ordered_insert hord x (padTo 16 v)
      have hins : (AvlTree.node l k nd.value r).insert x (padTo 16 v) =
          AvlTree.balance x (l.insert x (padTo 16 v)) k nd.value r := by rw [AvlTree.insert, if_pos hxk]
      have hnd' : (mk .left (l.insert x (padTo 16 v)) k nd.value r).keys.Nodup := by
        have := hord'.nodup
        rw [hins, AvlTree.keys, AvlTree.toList_balance] at this
        exact this
      have hxnew : x ∉ l.keys → m x = none := fun hxl => hnew fun hmem => by
        rcases AvlTree.mem_keys_node.1 hmem with h | h | h
        · exact hxl h
        · exact Std.lt_irrefl (h ▸ hxk)
        · obtain ⟨e, he, rfl⟩ := List.mem_map.1 h
          exact Std.lt_irrefl (Std.lt_trans hxk (hkr e he))
      refine Run.bind (ihl (by omega) habs1 hl hlo hbal.2.2.1 hxnew (hkl1 hknl hkl)) ?_
      rintro q s2 ⟨⟨m2, h2, hleaf2⟩, hready, hlog⟩
      obtain ⟨hkl', -⟩ := nodup_mk hnd'
      have hk2 : m2 k = some nd := (h2.frame k hkl').trans hk
      have hleaves3 : KeepLeaves m2 (Function.update m2 k (some (nd.setChild .left q.1 q.2))) := .update hk2 (setChild_pos ..)
      have hc2 := L.le_cached h2.le hc1
      refine Run.bind (L.assign (f := fun nd => nd.setChild .left q.1 q.2) h2.abs hc2 hk2 rfl rfl) ?_
      rintro - s3 ⟨habs3, hle3, ht3⟩
      obtain ⟨hrl, hrr, hkl3, hkr3, hframe3, htouched3, hmono3⟩ := descend_frame L h2 ht1 ht3 hnd' hr hkr'
      obtain ⟨-, hge, hle, -⟩ := AvlTree.bal_insert hbal.2.2.1 x (padTo 16 v)
      have htk3 := L.le_touched (L.le_trans h2.le hle3) ((ht1 k).2 (Or.inr rfl))
      have hreb := rebalance_spec L habs3 (x := x) (L.le_cached hle3 hc2) htk3 (Function.update_self ..) hrl hrr hnd'
        (fun hh => (hready (by have := hbal.1; omega)).mono hle3)
        (fun hh => by have := hbal.2.1; omega) hkl3 hkr3
      refine hreb.mono ?_
      rintro q' s' ⟨⟨⟨m', h⟩, hlast⟩, hroots⟩
      have hmem : ∀ j, j ∉ (AvlTree.balance x (l.insert x (padTo 16 v)) k nd.value r).keys →
          j ∉ (mk .left (l.insert x (padTo 16 v)) k nd.value r).keys := fun j hj h => hj (mem_keys_balance.2 (mem_keys_mk.1 h))
      refine ⟨?_, ?_, ?_⟩
      · have hall := h.after (L.le_trans (L.le_trans hle1 h2.le) hle3) (fun j hj => hframe3 j (hmem j hj))
          (h2.leaves.trans hleaves3)
          (fun j hj => (htouched3 j hj).imp_right fun hj => mem_keys_balance.2 (mem_keys_mk.1 hj)) hmono3
        rw [Nat.zero_add, Nat.add_zero] at hall
        rw [hins, draws, if_pos hxk]
        refine ⟨m', hall, fun hnot => ?_⟩
        obtain ⟨node, hm, hp⟩ := hleaf2 fun hmem => hnot (AvlTree.mem_keys_node.2 (Or.inl hmem))
        obtain ⟨node', hm', hp'⟩ := (hleaves3.trans h.leaves) x node hm
        exact ⟨node', hm', hp'.trans (hp.trans (L.le_next hle1))⟩
      · intro hg
        obtain ⟨heq, hgl, hb1, hb2⟩ := AvlTree.insert_grows_left hbal hxk hg
        refine ⟨(AvlTree.bal_insert hbal x (padTo 16 v)).2.2.2 hg, ?_, ?_⟩
        · rw [heq]
          exact fun j hj => ⟨hroots hb1 hb2 j hj, (hlast j).2 (Or.inr hj)⟩
        · rintro l' k' v' r' he
          rw [heq] at he
          obtain ⟨rfl, rfl, -, -⟩ := AvlTree.node.inj he
          exact ⟨fun _ => (hready hgl).roots.mono (L.le_trans hle3 h.le), fun hk' => absurd (Std.lt_trans hxk hk') Std.lt_irrefl⟩
      · have hlog' := h2.dedup_log (L.le_trans hle3 h.le) (b := r) fun j => by rw [hlast, ht3]
        refine dedup_visits (d := .left) (L.dedup_log (o := some k) hle1 fun j => ?_) hlog hlog' hxk
          fun hk' => Std.lt_irrefl (Std.lt_trans hxk hk')
        rw [ht1, Option.some.injEq, eq_comm]
    · rw [if_neg hxk]
      by_cases hkx : k < x
      · -- into the right subtree
        rw [if_pos hkx]
        have hord' := AvlTree.ordered_insert hord x (padTo 16 v)
        have hins : (AvlTree.node l k nd.value r).insert x (padTo 16 v) =
            AvlTree.balance x l k nd.value (r.insert x (padTo 16 v)) := by rw [AvlTree.insert, if_neg hxk, if_pos hkx]
        have hnd' : (mk .right (r.insert x (padTo 16 v)) k nd.value l).keys.Nodup := by
          have := hord'.nodup
          rw [hins, AvlTree.keys, AvlTree.toList_balance] at this
          exact this
        have hxnew : x ∉ r.keys → m x = none := fun hxr => hnew fun hmem => by
          rcases AvlTree.mem_keys_node.1 hmem with h | h | h
          · obtain ⟨e, he, rfl⟩ := List.mem_map.1 h
            exact Std.lt_irrefl (Std.lt_trans hkx (hlk e he))
          · exact Std.lt_irrefl (h ▸ hkx)
          · exact hxr h
        refine Run.bind (ihr (by omega) habs1 hr hro hbal.2.2.2 hxnew (hkl1 hknr hkr')) ?_
        rintro q s2 ⟨⟨m2, h2, hleaf2⟩, hready, hlog⟩
        obtain ⟨hkr'', -⟩ := nodup_mk hnd'
        have hk2 : m2 k = some nd := (h2.frame k hkr'').trans hk
        have hleaves3 : KeepLeaves m2 (Function.update m2 k (some (nd.setChild .right q.1 q.2))) :=
          .update hk2 (setChild_pos ..)
        have hc2 := L.le_cached h2.le hc1
        refine Run.bind (L.assign (f := fun nd => nd.setChild .right q.1 q.2) h2.abs hc2 hk2 rfl rfl) ?_
        rintro - s3 ⟨habs3, hle3, ht3⟩
        obtain ⟨hrr, hrl, hkr3, hkl3, hframe3, htouched3, hmono3⟩ := descend_frame L h2 ht1 ht3 hnd' hl hkl
        obtain ⟨-, hge, hle, -⟩ := AvlTree.bal_insert hbal.2.2.2 x (padTo 16 v)
        have htk3 := L.le_touched (L.le_trans h2.le hle3) ((ht1 k).2 (Or.inr rfl))
        have hreb := rebalance_spec L habs3 (x := x) (L.le_cached hle3 hc2) htk3 (Function.update_self ..) hrl hrr hnd'
          (fun hh => by have := hbal.1; omega)
          (fun hh => (hready (by have := hbal.2.1; omega)).mono hle3) hkl3 hkr3
        refine hreb.mono ?_
        rintro q' s' ⟨⟨⟨m', h⟩, hlast⟩, hroots⟩
        have hswap : ∀ j, j ∈ (AvlTree.balance x l k nd.value (r.insert x (padTo 16 v))).keys ↔
            j ∈ (mk .right (r.insert x (padTo 16 v)) k nd.value l).keys := fun j => by
          rw [mem_keys_balance]
          exact AvlTree.mem_keys_node.symm
        refine ⟨?_, ?_, ?_⟩
        · have hall := h.after (L.le_trans (L.le_trans hle1 h2.le) hle3)
            (fun j hj => hframe3 j fun hj' => hj ((hswap j).2 hj')) (h2.leaves.trans hleaves3)
            (fun j hj => (htouched3 j hj).imp_right (hswap j).2) hmono3
          rw [Nat.zero_add, Nat.add_zero] at hall
          rw [hins, draws, if_neg hxk, if_pos hkx]
          refine ⟨m', hall, fun hnot => ?_⟩
          obtain ⟨node, hm, hp⟩ := hleaf2 fun hmem => hnot (AvlTree.mem_keys_node.2 (Or.inr (Or.inr hmem)))
          obtain ⟨node', hm', hp'⟩ := (hleaves3.trans h.leaves) x node hm
          exact ⟨node', hm', hp'.trans (hp.trans (L.le_next hle1))⟩
        · intro hg
          obtain ⟨heq, hgr, hb1, hb2⟩ := AvlTree.insert_grows_right hbal hxk hkx hg
          refine ⟨(AvlTree.bal_insert hbal x (padTo 16 v)).2.2.2 hg, ?_, ?_⟩
          · rw [heq]
            exact fun j hj => ⟨hroots hb2 hb1 j hj, (hlast j).2 (Or.inr hj)⟩
          · rintro l' k' v' r' he
            rw [heq] at he
            obtain ⟨-, rfl, -, rfl⟩ := AvlTree.node.inj he
            exact ⟨fun hk' => absurd hk' hxk, fun _ => (hready hgr).roots.mono (L.le_trans hle3 h.le)⟩
        · have hlog' := h2.dedup_log (L.le_trans hle3 h.le) (b := l) fun j => by rw [hlast, ht3, or_comm (b := l.root? = some j)]
          refine dedup_visits (d := .right) (L.dedup_log (o := some k) hle1 fun j => ?_) hlog hlog' hkx hxk
          rw [ht1, Option.some.injEq, eq_comm]
      · -- the key is there: only its value changes
        have hxe : x = k := Std.le_antisymm (Std.not_lt.1 hkx) (Std.not_lt.1 hxk)
        subst hxe
        rw [if_neg hkx]
        refine Run.bind (L.assign (f := fun nd => { nd with value := padTo 16 v }) habs1 hc1 hk rfl rfl) ?_
        rintro - s2 ⟨habs2, hle2, ht2⟩
        have hc2 := L.le_cached hle2 hc1
        refine deref_bind L habs2 hc2 (Function.update_self ..) ?_
        refine Run.bind (L.writeNode_cached _ habs2 hc2) ?_
        rintro - s3 ⟨habs3, hle3, ht3⟩
        have hins : (AvlTree.node l x nd.value r).insert x (padTo 16 v) = AvlTree.node l x (padTo 16 v) r := by
          rw [AvlTree.insert, if_neg hxk, if_neg hxk]
        have ht' : ∀ j, L.touched s3 j ↔ L.touched s j ∨ j = x := by
          intro j
          rw [ht3, ht2, ht1]
          grind
        have hle := L.le_trans (L.le_trans hle1 hle2) hle3
        rw [hins, draws, if_neg hxk, if_neg hxk]
        refine Run.pure ⟨⟨_, ⟨habs3, ⟨rfl, _, Function.update_self .., rfl, rfl, hheight, hl.update hknl _, hr.update hknr _⟩,
          fun j hj => ?_, .update hk rfl, hle, ⟨Or.inl ((ht' x).2 (Or.inr rfl)), ?_, ?_⟩, fun j hj => ?_,
          fun j hj => (ht' j).2 (Or.inl hj), (ht' x).2 (Or.inr rfl), L.le_cached hle3 hc2⟩, fun hnot => ?_⟩, fun hg => ?_, ?_⟩
        · exact Function.update_of_ne (fun he => hj (AvlTree.mem_keys_node.2 (Or.inr (Or.inl he)))) ..
        · exact hkl.congr fun j hj => by
            rw [ht']
            exact or_iff_left fun he => hknl (he ▸ hj)
        · exact hkr'.congr fun j hj => by
            rw [ht']
            exact or_iff_left fun he => hknr (he ▸ hj)
        · exact ((ht' j).1 hj).imp_right fun he => AvlTree.mem_keys_node.2 (Or.inr (Or.inl he))
        · exact absurd (AvlTree.mem_keys_node.2 (Or.inr (Or.inl rfl))) hnot
        · simp only [AvlTree.height] at hg
          omega
        · rw [visits, if_neg hxk, if_neg hxk]
          exact L.dedup_log (o := some x) hle fun j => by rw [ht', Option.some.injEq, eq_comm]

end

end Sse.Omap
