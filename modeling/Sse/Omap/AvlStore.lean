import Sse.Omap.AvlSpec

/-!
# The tree over a plain store

`Shelf` is a store without paths and leaves: `ReadNode` gives the node last written under a
key.  Its cache has only the nodes that the operation itself has read or written, so that a
single-argument `ReadNode` fails as soon as anything else would have to be there.

    every sequence of insertions keeps an AVL search tree of the last values    (avl_search_tree)
-/

namespace Sse.Omap

open Wp

/-! ## A tree in a store -/

section

variable {n : Nat} {σ : Type} {S : NodeStore n σ} {E : Err → Prop}

/-- The store holds the nodes of `t` and no others; `q` is the root with its leaf. -/
structure Stored (L : Laws S E) (s : σ) (m : Bid n → Option (Node n)) (q : Bid n × Nat) (t : Tree n) : Prop where
  abs : L.Abs s m
  repr : Repr m q.1 q.2 t
  ordered : t.Ordered
  bal : t.Bal
  closed : Closed (L.touched s) t
  only : ∀ j, j ∉ t.keys → m j = none

/-- What an insertion reads and draws, besides what it does to the tree. -/
structure Inserted (L : Laws S E) (x : Bid n) (v : List UInt8) (s : σ) (m : Bid n → Option (Node n)) (t : Tree n) (s' : σ)
    (m' : Bid n → Option (Node n)) : Prop where
  le : L.Le (draws x v t) s s'
  leaves : KeepLeaves m m'
  leaf : x ∉ t.keys → ∃ node, m' x = some node ∧ node.pos = L.next s
  log : (L.log s').dedup = (visits x t ++ L.log s).dedup

/-- **An insertion** keeps the tree and its order and balance. -/
theorem Stored.insert {L : Laws S E} {s : σ} {m : Bid n → Option (Node n)} {q : Bid n × Nat} {t : Tree n}
    (h : Stored L s m q t) {fuel : Nat} (hf : t.height < fuel) {x : Bid n} {v : Str}
    (hx : x.isZero = false ∨ E .idNotSet) :
    Run E (insert S fuel q.1 q.2 x v) s fun q' s' =>
      ∃ m', Stored L s' m' q' (t.insert x (padTo 16 v)) ∧ Inserted L x (padTo 16 v) s m t s' m' := by
  refine (insert_spec L hf h.abs h.repr h.ordered h.bal hx (h.only x) h.closed).mono ?_
  rintro q' s' ⟨⟨m', hpost, hleaf⟩, -, hlog⟩
  refine ⟨m', ⟨hpost.abs, hpost.repr, AvlTree.ordered_insert h.ordered x _, (AvlTree.bal_insert h.bal x _).1,
    hpost.closed, fun j hj => ?_⟩, hpost.le, hpost.leaves, hleaf, hlog⟩
  rw [hpost.frame j hj]
  apply h.only
  intro hmem
  exact hj ((AvlTree.mem_keys_insert h.ordered).2 (Or.inr hmem))

end

/-! ## The plain store -/

/-- The nodes by key, and the keys of the nodes read or written since `start`. -/
structure Shelf (n : Nat) where
  nodes : Bid n → Option (Node n)
  cache : List (Bid n)
  rnd : Nat → Nat
  drawn : Nat

namespace Shelf

section

variable {n : Nat}

def new (rnd : Nat → Nat) : Shelf n := ⟨fun _ => none, [], rnd, 0⟩

/-- A new operation: nothing is in the cache. -/
def start (s : Shelf n) : Shelf n := { s with cache := [] }

def put (s : Shelf n) (bid : Bid n) (node : Node n) : Shelf n :=
  { s with nodes := Function.update s.nodes bid (some node), cache := bid :: s.cache }

/-- The calls of `AVLTree` on the plain store; the guards and errors are those of `ORAM`. -/
def store : NodeStore n (Shelf n) where
  readNode bid leaf := fun s =>
    if bid.isZero then .ok (none, s)
    else match s.nodes bid with
      | some node => .ok (some bid, s.put bid { node with pos := leaf })
      | none => .ok (none, s)
  readCached bid := fun s =>
    if bid.isZero then .error .idNotSet
    else if bid ∈ s.cache then .ok (bid, s)
    else .error .notInCache
  writeNode bid node := fun s =>
    if bid.isZero then .error .idNotSet
    else if bid ∈ s.cache then .ok (node.pos, s)
    else .ok (node.pos, s.put bid node)
  deref bid := fun s =>
    match s.nodes bid with
    | some node => .ok (node, s)
    | none => .error .nullNode
  assign bid f := fun s =>
    match s.nodes bid with
    | some node => .ok ((), { s with nodes := Function.update s.nodes bid (some (f node)) })
    | none => .error .nullNode
  randomPath := fun s => .ok (s.rnd s.drawn, { s with drawn := s.drawn + 1 })

/-- The nodes are filed under their keys. -/
structure Filed (s : Shelf n) : Prop where
  key : ∀ k node, s.nodes k = some node → node.key = k ∧ k.isZero = false
  cache : ∀ k ∈ s.cache, (s.nodes k).isSome = true

theorem Filed.update {s : Shelf n} (h : Filed s) {node : Node n} (hz : node.key.isZero = false) (cache : List (Bid n))
    (hc : ∀ k ∈ cache, k = node.key ∨ k ∈ s.cache) :
    Filed { s with nodes := Function.update s.nodes node.key (some node), cache := cache } := by
  constructor
  · intro k node' hk
    replace hk : Function.update s.nodes node.key (some node) k = some node' := hk
    by_cases he : k = node.key
    · subst he
      rw [Function.update_self] at hk
      obtain rfl := Option.some.inj hk
      exact ⟨rfl, hz⟩
    · rw [Function.update_of_ne he] at hk
      exact h.key k node' hk
  · intro k hk
    show (Function.update s.nodes node.key (some node) k).isSome = true
    by_cases he : k = node.key
    · rw [he, Function.update_self]
      rfl
    · rw [Function.update_of_ne he]
      exact h.cache k ((hc k hk).resolve_left he)

/-- The cache has grown, and `d` leaves were drawn. -/
structure Grown (d : Nat) (s s' : Shelf n) : Prop where
  cache : s.cache <:+ s'.cache
  rnd : s'.rnd = s.rnd
  drawn : s'.drawn = s.drawn + d

theorem Grown.trans {d e : Nat} {s s' s'' : Shelf n} (h : Grown d s s') (h' : Grown e s' s'') : Grown (d + e) s s'' :=
  ⟨h.cache.trans h'.cache, h'.rnd.trans h.rnd, by rw [h'.drawn, h.drawn, Nat.add_assoc]⟩

/-- Nothing is read under a zero identifier. -/
theorem run_readNode_zero {E : Err → Prop} {s : Shelf n} {k : Bid n} (leaf : Nat) (hz : k.isZero = true) :
    Run E (store.readNode k leaf) s fun p s' => p = none ∧ s' = s := by
  refine Run.of_ok (a := none) (t := s) ?_ ⟨rfl, rfl⟩
  show (if k.isZero then _ else _) = _
  rw [if_pos hz]

/-- **The plain store is lawful**, whatever it may end with. -/
def laws (E : Err → Prop) : Laws (store : NodeStore n (Shelf n)) E where
  Abs s m := Filed s ∧ m = s.nodes
  cached s k := k ∈ s.cache
  touched s k := k ∈ s.cache
  log := cache
  Leaf _ := True
  next s := s.rnd s.drawn
  Le := Grown
  le_refl s := ⟨List.suffix_rfl, rfl, rfl⟩
  le_trans h h' := h.trans h'
  le_cached h hk := h.cache.subset hk
  le_log h := h.cache
  mem_log := Iff.rfl
  le_next h := by rw [h.rnd, h.drawn, Nat.add_zero]
  wf := by
    rintro s m k node ⟨hs, rfl⟩ hk
    exact hs.key k node hk
  readNode := by
    rintro s m k node ⟨hs, rfl⟩ hk
    obtain ⟨rfl, hz⟩ := hs.key k node hk
    have hself : Function.update s.nodes node.key (some node) = s.nodes := by rw [← hk, Function.update_eq_self]
    refine Run.of_ok (t := s.put node.key node) ?_ ⟨rfl, ⟨?_, hself.symm⟩,
      ⟨List.suffix_cons .., rfl, rfl⟩, List.mem_cons_self, fun j => ?_⟩
    · show (if node.key.isZero then _ else _) = _
      rw [hz, if_neg Bool.false_ne_true, hk]
    · exact hs.update hz _ fun j hj => List.mem_cons.1 hj
    · show j ∈ node.key :: s.cache ↔ _
      rw [List.mem_cons]
      exact or_comm
  readNode_zero := @run_readNode_zero n E
  readCached := by
    rintro s m k ⟨hs, rfl⟩ hc
    obtain ⟨node, hk⟩ := Option.isSome_iff_exists.1 (hs.cache k hc)
    refine Run.of_ok (a := k) (t := s) ?_ ⟨rfl, rfl⟩
    show (if k.isZero then _ else _) = _
    rw [(hs.key k node hk).2, if_neg Bool.false_ne_true, if_pos hc]
  deref := by
    rintro s m k node ⟨hs, rfl⟩ - hk
    refine Run.of_ok (a := node) (t := s) ?_ ⟨rfl, rfl⟩
    show (match s.nodes k with | some node => _ | none => _) = _
    rw [hk]
  assign := by
    rintro s m k node f ⟨hs, rfl⟩ hc hk hkey -
    obtain ⟨rfl, hz⟩ := hs.key k node hk
    refine Run.of_ok (a := ()) (t := { s with nodes := Function.update s.nodes node.key (some (f node)) }) ?_
      ⟨⟨?_, rfl⟩, ⟨List.suffix_rfl, rfl, rfl⟩, fun j => Iff.rfl⟩
    · show (match s.nodes node.key with | some node => _ | none => _) = _
      rw [hk]
    · have := hs.update (show (f node).key.isZero = false by rw [hkey]; exact hz) s.cache fun j hj => Or.inr hj
      rwa [hkey] at this
  writeNode_cached := by
    rintro s m k node ⟨hs, rfl⟩ hc
    obtain ⟨node', hk⟩ := Option.isSome_iff_exists.1 (hs.cache k hc)
    refine Run.of_ok (a := node.pos) (t := s) ?_ ⟨⟨hs, rfl⟩, ⟨List.suffix_rfl, rfl, rfl⟩, fun j => ?_⟩
    · show (if k.isZero then _ else _) = _
      rw [(hs.key k node' hk).2, if_neg Bool.false_ne_true, if_pos hc]
    · constructor
      · exact Or.inl
      · rintro (hj | rfl)
        · exact hj
        · exact hc
  writeNode_new := by
    rintro s m node ⟨hs, rfl⟩ hnew hz -
    have hc : node.key ∉ s.cache := by
      intro hc
      have := hs.cache node.key hc
      rw [hnew] at this
      cases this
    refine Run.of_ok (a := node.pos) (t := s.put node.key node) ?_ ⟨rfl, ⟨?_, rfl⟩,
      ⟨List.suffix_cons .., rfl, rfl⟩, List.mem_cons_self, fun j => ?_⟩
    · show (if node.key.isZero then _ else _) = _
      rw [hz, if_neg Bool.false_ne_true, if_neg hc]
    · exact hs.update hz _ fun j hj => List.mem_cons.1 hj
    · show j ∈ node.key :: s.cache ↔ _
      rw [List.mem_cons]
      exact or_comm
  writeNode_zero := by
    intro s node hz he
    refine Run.of_error (e := .idNotSet) ?_ he
    show (if node.key.isZero then _ else _) = _
    rw [if_pos hz]
  randomPath := by
    rintro s m ⟨hs, rfl⟩
    exact Run.of_ok (a := s.rnd s.drawn) (t := { s with drawn := s.drawn + 1 }) rfl
      ⟨rfl, trivial, ⟨⟨hs.key, hs.cache⟩, rfl⟩, ⟨List.suffix_rfl, rfl, rfl⟩, fun j => Iff.rfl⟩

end

end Shelf

/-! ## Sequences of insertions -/

/-- What is called on the tree: an insertion, or the start of a new operation. -/
inductive TreeCall (n : Nat) where
  | start
  | insert (key : Bid n) (value : Str)

section

variable {n : Nat}

/-- A sequence of calls from the root `q`; `insert` gets the root that the call before it has returned. -/
def runCalls (fuel : Nat) : List (TreeCall n) → Bid n × Nat → Prog (Shelf n) (Bid n × Nat)
  | [], q => pure q
  | .start :: cs, q => do
    modify Shelf.start
    runCalls fuel cs q
  | .insert key value :: cs, q => do
    let q ← insert Shelf.store fuel q.1 q.2 key value
    runCalls fuel cs q

/-- The last value of every key. -/
def lastValues (cs : List (TreeCall n)) (m : SortedMap (Bid n) (List UInt8)) : SortedMap (Bid n) (List UInt8) :=
  cs.foldl (fun m c => match c with
    | .start => m
    | .insert key value => m.insert key (padTo 16 value)) m

/-- In a new operation nothing is touched yet. -/
theorem closed_of_untouched {T : Bid n → Prop} (h : ∀ j, ¬ T j) (t : Tree n) : Closed T t := by
  induction t with
  | nil => trivial
  | node l k v r ihl ihr => exact ⟨Or.inr fun j _ => h j, ihl, ihr⟩

theorem runCalls_spec {E : Err → Prop} {cs : List (TreeCall n)}
    (hE : ∀ k v, TreeCall.insert k v ∈ cs → k.isZero = false ∨ E .idNotSet) {fuel : Nat} {s : Shelf n}
    {m : Bid n → Option (Node n)} {q : Bid n × Nat} {t : Tree n} (h : Stored (Shelf.laws E) s m q t)
    (hf : t.height + cs.length < fuel) {M : SortedMap (Bid n) (List UInt8)} (hM : t.toList = M.entries) :
    Run E (runCalls fuel cs q) s fun q' s' => ∃ m' t', Stored (Shelf.laws E) s' m' q' t' ∧
      t'.toList = (lastValues cs M).entries := by
  induction cs generalizing s m q t M with
  | nil => exact Run.pure ⟨m, t, h, hM⟩
  | cons c cs ih =>
    rw [List.length_cons] at hf
    cases c with
    | start =>
      refine Run.bind (P := fun _ s' => s' = s.start) (Run.of_ok (a := ()) rfl rfl) ?_
      rintro - s' rfl
      have hnone : Closed (fun j => j ∈ s.start.cache) t := closed_of_untouched (fun j => List.not_mem_nil) t
      refine ih (fun k v hk => hE k v (List.mem_cons_of_mem _ hk)) (s := s.start)
        ⟨⟨⟨h.abs.1.key, fun k hk => absurd hk List.not_mem_nil⟩, h.abs.2⟩, h.repr, h.ordered, h.bal, hnone, h.only⟩
        (by omega) hM
    | insert key value =>
      have hx := hE key value List.mem_cons_self
      refine Run.bind (h.insert (by omega) hx) ?_
      rintro q' s' ⟨m', hs', -⟩
      have hgrow := (AvlTree.bal_insert h.bal key (padTo 16 value)).2.2.1
      refine ih (fun k v hk => hE k v (List.mem_cons_of_mem _ hk)) hs' (by omega) ?_
      rw [AvlTree.toList_insert h.ordered, hM]
      rfl

/-- **The tree is an AVL search tree** after every sequence of insertions: from the root that is returned
`leftID` and `rightID` lead to a tree `t` with exact heights (`Repr`), in strict order, balanced, of exactly the
last values of the keys.  Nothing is thrown but by a zero key, so every node that is expected in the cache is
there. -/
theorem avl_search_tree (rnd : Nat → Nat) (cs : List (TreeCall n)) (pos fuel : Nat) (hf : cs.length < fuel) :
    Run (fun e => e = .idNotSet ∧ ∃ k v, TreeCall.insert k v ∈ cs ∧ k.isZero = true) (runCalls fuel cs (Bid.zero, pos))
      (Shelf.new rnd) fun q s => ∃ t : Tree n, Repr s.nodes q.1 q.2 t ∧ t.Ordered ∧ t.Bal ∧
        t.toList = (lastValues cs SortedMap.empty).entries := by
  have hE : ∀ k v, TreeCall.insert k v ∈ cs → k.isZero = false ∨
      (Err.idNotSet = .idNotSet ∧ ∃ k v, TreeCall.insert k v ∈ cs ∧ k.isZero = true) := by
    intro k v hk
    cases hz : k.isZero with
    | false => exact Or.inl rfl
    | true => exact Or.inr ⟨rfl, k, v, hk, hz⟩
  have hnew : Stored (Shelf.laws fun e => e = .idNotSet ∧ ∃ k v, TreeCall.insert k v ∈ cs ∧ k.isZero = true)
      (Shelf.new rnd) (fun _ => none) ((Bid.zero : Bid n), pos) .nil :=
    ⟨⟨⟨fun k node hk => (nomatch hk), fun k hk => absurd hk List.not_mem_nil⟩, rfl⟩, isZero_zero, List.Pairwise.nil,
      trivial, trivial, fun _ _ => rfl⟩
  refine (runCalls_spec hE hnew (by simpa [AvlTree.height] using hf) (M := SortedMap.empty) rfl).mono ?_
  rintro q s ⟨m, t, hs, hlist⟩
  refine ⟨t, ?_, hs.ordered, hs.bal, hlist⟩
  rw [← hs.abs.2]
  exact hs.repr

/-- Three keys in descending order, which makes one rotation; then a new operation and one of them again. -/
def descending : List (TreeCall 4) :=
  [.insert (.ofInt 3) [97], .insert (.ofInt 2) [98], .insert (.ofInt 1) [99], .start, .insert (.ofInt 3) [100]]

theorem avl_search_tree_descending :
    ∃ q s, runCalls 6 descending (Bid.zero, 0) (Shelf.new fun i => i) = .ok (q, s) ∧ ∃ t : Tree 4,
      Repr s.nodes q.1 q.2 t ∧ t.Ordered ∧ t.Bal ∧ t.toList = (lastValues descending SortedMap.empty).entries := by
  refine (avl_search_tree (fun i => i) descending 0 6 (by decide)).cases.resolve_right ?_
  rintro ⟨e, -, -, k, v, hk, hz⟩
  simp only [descending, List.mem_cons, TreeCall.insert.injEq, List.not_mem_nil, or_false, reduceCtorEq,
    false_or] at hk
  rcases hk with ⟨rfl, -⟩ | ⟨rfl, -⟩ | ⟨rfl, -⟩ | ⟨rfl, -⟩ <;> exact absurd hz (by decide +kernel)

end

end Sse.Omap
