import Sse.Omap.AvlSpec

/-!
# Searching in the tree

`search` follows one path, `batchSearch` divides the list of keys at every node.  Neither
changes a node.  What they need of the store is less than an insertion does: a search tree
with its children's leaves, of any heights (`Linked`, `Reads`).

    search key                 = the node of the key, if it is in the tree       (search_spec)
    batchSearch keys           = the pointers to `t.hits keys`                   (batchSearch_spec)

The nodes touched stay closed upwards (`Visited`).
-/

namespace Sse.Omap

open Wp

/-! ## Stores that can be read -/

/-- A node up to its own leaf. -/
def Node.unplaced {n : Nat} (node : Node n) : Node n := { node with pos := 0 }

/-- How a store of nodes is read.  `At node p`: the node is found when `p` is taken for its leaf. -/
structure Reads {n : Nat} {σ : Type} (S : NodeStore n σ) (E : Err → Prop) where
  Abs : σ → (Bid n → Option (Node n)) → Prop
  cached : σ → Bid n → Prop
  touched : σ → Bid n → Prop
  At : Node n → Nat → Prop
  Le : σ → σ → Prop
  le_refl : ∀ s, Le s s
  le_trans : ∀ {s s' s''}, Le s s' → Le s' s'' → Le s s''
  le_cached : ∀ {s s' k}, Le s s' → cached s k → cached s' k
  readNode : ∀ {s m k node leaf}, Abs s m → m k = some node → k.isZero = false → At node leaf →
    Run E (S.readNode k leaf) s fun p s' =>
      p = some k ∧ Abs s' m ∧ Le s s' ∧ cached s' k ∧ ∀ j, touched s' j ↔ touched s j ∨ j = k
  readNode_zero : ∀ {s k} (leaf), k.isZero = true → Run E (S.readNode k leaf) s fun p s' => p = none ∧ s' = s
  deref : ∀ {s m k node}, Abs s m → cached s k → m k = some node →
    Run E (S.deref k) s fun a s' => a.unplaced = node.unplaced ∧ At node a.pos ∧ s' = s

/-- A lawful store can be read: a node is found at its own leaf. -/
def Laws.reads {n : Nat} {σ : Type} {S : NodeStore n σ} {E : Err → Prop} (L : Laws S E) : Reads S E where
  Abs := L.Abs
  cached := L.cached
  touched := L.touched
  At node leaf := node.pos = leaf
  Le := L.Le 0
  le_refl := L.le_refl
  le_trans h h' := L.le_trans h h'
  le_cached := L.le_cached
  readNode := by
    rintro s m k node leaf habs hk - rfl
    exact L.readNode habs hk
  readNode_zero := L.readNode_zero
  deref := by
    intro s m k node habs hc hk
    refine (L.deref habs hc hk).mono ?_
    rintro a s' ⟨rfl, rfl⟩
    exact ⟨rfl, rfl, rfl⟩

section

variable {n : Nat} {At : Node n → Nat → Prop} {m : Bid n → Option (Node n)}

/-- The tree that is followed from a key and a leaf, whatever its heights. -/
def Linked (At : Node n → Nat → Prop) (m : Bid n → Option (Node n)) : Bid n → Nat → Tree n → Prop
  | k, _, .nil => k.isZero = true
  | k, p, .node l k' v r => k = k' ∧ k'.isZero = false ∧ ∃ node, m k' = some node ∧ node.key = k' ∧ At node p ∧
      node.value = v ∧ Linked At m node.leftID node.leftPos l ∧ Linked At m node.rightID node.rightPos r

/-- What the pointer to a tree gives: `NULL`, or a node from which it is followed. -/
def HeadOf (At : Node n → Nat → Prop) (m : Bid n → Option (Node n)) : Option (Node n) → Tree n → Prop
  | none, t => t = .nil
  | some head, t => Linked At m head.key head.pos t

theorem Repr.linked {k : Bid n} {p : Nat} {t : Tree n} (h : Repr m k p t)
    (hwf : ∀ k node, m k = some node → node.key = k ∧ k.isZero = false) :
    Linked (fun node leaf => node.pos = leaf) m k p t := by
  induction t generalizing k p with
  | nil => exact h
  | node l k' v r ihl ihr =>
    obtain ⟨rfl, node, hk, hp, hv, -, hl, hr⟩ := h
    obtain ⟨hkey, hz⟩ := hwf k node hk
    exact ⟨rfl, hz, node, hk, hkey, hp, hv, ihl hl, ihr hr⟩

/-- Nodes that agree up to their own leaf agree in all that a search looks at. -/
theorem unplaced_eq {a b : Node n} (h : a.unplaced = b.unplaced) :
    a.key = b.key ∧ a.value = b.value ∧ a.leftID = b.leftID ∧ a.leftPos = b.leftPos ∧ a.rightID = b.rightID ∧
      a.rightPos = b.rightPos := by
  obtain ⟨h1, h2, -, h3, h4, h5, h6, -⟩ := Node.mk.inj h
  exact ⟨h1, h2, h3, h4, h5, h6⟩

end

/-! ## What a search leaves behind -/

section

variable {n : Nat} {σ : Type} {S : NodeStore n σ} {E : Err → Prop} (R : Reads S E)
variable {s : σ} {m : Bid n → Option (Node n)}

/-- After some nodes of `t`, its root among them, were read: the same nodes, touched with their parents. -/
structure Visited (s : σ) (m : Bid n → Option (Node n)) (t : Tree n) (s' : σ) : Prop where
  abs : R.Abs s' m
  le : R.Le s s'
  closed : Closed (R.touched s') t
  touched : ∀ j, R.touched s' j → R.touched s j ∨ j ∈ t.keys
  mono : ∀ j, R.touched s j → R.touched s' j
  root : ∀ j, t.root? = some j → R.touched s' j ∧ R.cached s' j

variable {R}

theorem Visited.trans {t : Tree n} {s' s'' : σ} (h : Visited R s m t s') (h' : Visited R s' m t s'') :
    Visited R s m t s'' where
  abs := h'.abs
  le := R.le_trans h.le h'.le
  closed := h'.closed
  touched j hj := (h'.touched j hj).elim (h.touched j) Or.inr
  mono j hj := h'.mono j (h.mono j hj)
  root := h'.root

/-- Only the root was read. -/
theorem Visited.of_root {l r : Tree n} {k : Bid n} {v : List UInt8} {s' : σ} (habs : R.Abs s' m) (hle : R.Le s s')
    (hc : R.cached s' k) (ht : ∀ j, R.touched s' j ↔ R.touched s j ∨ j = k)
    (hclosed : Closed (R.touched s) (.node l k v r)) (hnd : (AvlTree.node l k v r).keys.Nodup) :
    Visited R s m (.node l k v r) s' where
  abs := habs
  le := hle
  closed := hclosed.touch hnd fun j _ => by
    rw [ht, AvlTree.root?, Option.some.injEq]
    exact or_congr_right eq_comm
  touched j hj := ((ht j).1 hj).imp_right fun he => AvlTree.mem_keys_node.2 (Or.inr (Or.inl he))
  mono j hj := (ht j).2 (Or.inl hj)
  root j hj := by
    obtain rfl := Option.some.inj hj
    exact ⟨(ht k).2 (Or.inr rfl), hc⟩

/-- After the root, its subtree on one side. -/
theorem Visited.of_child {d : Side} {a b : Tree n} {k : Bid n} {v : List UInt8} {s1 s2 s' : σ}
    (h1 : Visited R s m (Omap.mk d a k v b) s1) (hnd : (Omap.mk d a k v b).keys.Nodup) (hle : R.Le s1 s2)
    (ht : ∀ j, R.touched s2 j ↔ R.touched s1 j ∨ a.root? = some j) (h : Visited R s2 m a s') :
    Visited R s m (Omap.mk d a k v b) s' := by
  obtain ⟨-, hkb, -, -, hab⟩ := nodup_mk hnd
  have hmono : ∀ j, R.touched s1 j → R.touched s' j := fun j hj => h.mono j ((ht j).2 (Or.inl hj))
  -- nothing is touched on the other side
  have hother : ∀ j ∈ b.keys, (R.touched s' j ↔ R.touched s1 j) := by
    intro j hj
    refine ⟨fun hj' => ?_, hmono j⟩
    rcases h.touched j hj' with hj' | hj'
    · exact ((ht j).1 hj').resolve_right fun he => hab j (AvlTree.root?_mem_keys he) hj
    · exact absurd hj (hab j hj')
  refine h1.trans ⟨h.abs, R.le_trans hle h.le, ?_, fun j hj => ?_, hmono, fun j hj => ?_⟩
  · exact Closed.mk (hmono k (h1.root k (root?_mk ..)).1) h.closed (h1.closed.of_mk.2.congr hother)
  · rcases h.touched j hj with hj | hj
    · exact ((ht j).1 hj).imp_right fun he => mem_keys_mk.2 (Or.inl (AvlTree.root?_mem_keys he))
    · exact Or.inr (mem_keys_mk.2 (Or.inl hj))
  · obtain ⟨h2, h3⟩ := h1.root j hj
    exact ⟨hmono j h2, R.le_cached (R.le_trans hle h.le) h3⟩

/-! ## One node -/

/-- `ReadNode(head->leftID, head->leftPos, head->leftPos)` and the like, and what the pointer points to. -/
theorem child_bind {α : Type} {f : Option (Node n) → Prog σ α} {Q : α → σ → Prop} (habs : R.Abs s m) {id : Bid n}
    {leaf : Nat} {t : Tree n} (ht : Linked R.At m id leaf t)
    (h : ∀ child s', HeadOf R.At m child t → (t = .nil → child = none) → R.Abs s' m → R.Le s s' →
      (∀ j, R.touched s' j ↔ R.touched s j ∨ t.root? = some j) → Run E (f child) s' Q) :
    Run E (S.readNode id leaf >>= fun p => derefOpt S p >>= f) s Q := by
  cases t with
  | nil =>
    refine Run.bind (R.readNode_zero leaf ht) ?_
    rintro _ s1 ⟨rfl, rfl⟩
    refine Run.bind (P := fun c s' => c = none ∧ s' = s1) (Run.pure ⟨rfl, rfl⟩) ?_
    rintro _ s2 ⟨rfl, rfl⟩
    exact h none s2 rfl (fun _ => rfl) habs (R.le_refl s2) fun j => by simp [AvlTree.root?]
  | node l k v r =>
    obtain ⟨rfl, hz, node, hk, hkey, hat, rfl, hl, hr⟩ := ht
    refine Run.bind (R.readNode habs hk hz hat) ?_
    rintro _ s1 ⟨rfl, habs1, hle, hc, ht1⟩
    refine Run.bind (P := fun c s' => ∃ a, c = some a ∧ a.unplaced = node.unplaced ∧ R.At node a.pos ∧ s' = s1)
      (Run.bind (R.deref habs1 hc hk) ?_) ?_
    · rintro a s2 ⟨ha, hat', rfl⟩
      exact Run.pure ⟨a, rfl, ha, hat', rfl⟩
    · rintro _ s2 ⟨a, rfl, ha, hat', rfl⟩
      refine h (some a) s2 ⟨?_, hz, node, hk, hkey, hat', rfl, hl, hr⟩ (fun e => by cases e) habs1 hle fun j => ?_
      · rw [(unplaced_eq ha).1, hkey]
      · rw [ht1, AvlTree.root?, Option.some.injEq]
        exact or_congr_right eq_comm

/-- The node that a search starts from is read again. -/
theorem head_bind {α : Type} {f : Bid n → Node n → Prog σ α} {Q : α → σ → Prop} (habs : R.Abs s m) {head : Node n}
    {l r : Tree n} {k : Bid n} {v : List UInt8} (hh : HeadOf R.At m (some head) (.node l k v r))
    (hclosed : Closed (R.touched s) (.node l k v r)) (hnd : (AvlTree.node l k v r).keys.Nodup)
    (h : ∀ nd s', nd.key = k → nd.value = v → Linked R.At m nd.leftID nd.leftPos l →
      Linked R.At m nd.rightID nd.rightPos r → Visited R s m (.node l k v r) s' → Run E (f k nd) s' Q) :
    Run E (S.readNode head.key head.pos >>= fun p => match p with
      | none => throw .nullNode
      | some p => S.deref p >>= f p) s Q := by
  obtain ⟨rfl, hz, node, hk, hkey, hat, rfl, hl, hr⟩ := hh
  refine Run.bind (R.readNode habs hk hz hat) ?_
  rintro _ s1 ⟨rfl, habs1, hle, hc, ht⟩
  refine Run.bind (R.deref habs1 hc hk) ?_
  rintro nd s2 ⟨hnd', -, rfl⟩
  obtain ⟨h1, h2, h3, h4, h5, h6⟩ := unplaced_eq hnd'
  refine h nd s2 (h1.trans hkey) h2 ?_ ?_ (Visited.of_root habs1 hle hc ht hclosed hnd)
  · rw [h3, h4]
    exact hl
  · rw [h5, h6]
    exact hr

/-! ## The two searches -/

/-- The answer of `search`: the node of the key, or else `NULL`, or the head itself if that is no node. -/
def Answers (t : Tree n) (key : Bid n) (head res : Option (Node n)) : Prop :=
  match t.get? key with
  | some v => ∃ nd, res = some nd ∧ nd.key = key ∧ nd.value = v
  | none => res = none ∨ t = .nil ∧ res = head

/-- The answer for a subtree is that for the tree. -/
theorem Answers.of_child {t u : Tree n} {key : Bid n} {head child res : Option (Node n)} (h : Answers u key child res)
    (hget : t.get? key = u.get? key) (hnil : u = .nil → child = none) : Answers t key head res := by
  unfold Answers at h ⊢
  rw [hget]
  cases hu : u.get? key with
  | some v =>
    rw [hu] at h
    exact h
  | none =>
    rw [hu] at h
    rcases h with h | ⟨hu, h⟩
    · exact Or.inl h
    · exact Or.inl (h.trans (hnil hu))

/-- **`search`** finds the node of the key. -/
theorem search_spec {t : Tree n} {fuel : Nat} (hf : t.height < fuel) (habs : R.Abs s m) {head : Option (Node n)}
    (hh : HeadOf R.At m head t) (hnd : t.keys.Nodup) (hclosed : Closed (R.touched s) t) (key : Bid n) :
    Run E (search S fuel head key) s fun res s' => Answers t key head res ∧ Visited R s m t s' := by
  induction t generalizing fuel s head with
  | nil =>
    obtain ⟨fuel, rfl⟩ : ∃ f, fuel = f + 1 := ⟨fuel - 1, by omega⟩
    have hvis : Visited R s m .nil s :=
      ⟨habs, R.le_refl s, trivial, fun _ hj => Or.inl hj, fun _ hj => hj, fun _ hj => nomatch hj⟩
    cases head with
    | none =>
      unfold search
      exact Run.pure ⟨Or.inl rfl, hvis⟩
    | some head =>
      have hz : head.key.isZero = true := hh
      unfold search
      rw [if_pos hz]
      exact Run.pure ⟨Or.inr ⟨rfl, rfl⟩, hvis⟩
  | node l k v r ihl ihr =>
    obtain ⟨fuel, rfl⟩ : ∃ f, fuel = f + 1 := ⟨fuel - 1, by omega⟩
    rw [AvlTree.height] at hf
    cases head with
    | none => cases hh
    | some head =>
      have hz : ¬ head.key.isZero = true := by
        rw [hh.1, hh.2.1]
        exact Bool.false_ne_true
      unfold search
      rw [if_neg hz]
      refine head_bind habs hh hclosed hnd ?_
      rintro nd s1 hkey hval hl hr h1
      rw [hkey]
      by_cases hlt : key < k
      · rw [if_pos hlt]
        refine child_bind h1.abs hl ?_
        rintro child s2 hchild hnil habs2 hle2 ht2
        obtain ⟨-, -, hndl, -, -⟩ := nodup_mk (d := .left) hnd
        have hcl := h1.closed.2.1.touch hndl fun j _ => ht2 j
        refine (ihl (by omega) habs2 hchild hndl hcl).mono ?_
        rintro res s3 ⟨hans, h3⟩
        refine ⟨hans.of_child ?_ hnil, h1.of_child (d := .left) hnd hle2 ht2 h3⟩
        rw [AvlTree.get?, if_pos hlt]
      · rw [if_neg hlt]
        by_cases hgt : k < key
        · rw [if_pos hgt]
          refine child_bind h1.abs hr ?_
          rintro child s2 hchild hnil habs2 hle2 ht2
          obtain ⟨-, -, -, hndr, -⟩ := nodup_mk (d := .left) hnd
          have hcl := h1.closed.2.2.touch hndr fun j _ => ht2 j
          refine (ihr (by omega) habs2 hchild hndr hcl).mono ?_
          rintro res s3 ⟨hans, h3⟩
          refine ⟨hans.of_child ?_ hnil, h1.of_child (d := .right) hnd hle2 ht2 h3⟩
          rw [AvlTree.get?, if_neg hlt, if_pos hgt]
        · have he : key = k := Std.le_antisymm (Std.not_lt.1 hgt) (Std.not_lt.1 hlt)
          rw [if_neg hgt]
          refine Run.pure ⟨?_, h1⟩
          rw [Answers, AvlTree.get?, if_neg hlt, if_neg hgt]
          exact ⟨nd, rfl, hkey.trans he.symm, hval⟩

/-- **`batchSearch`** gives the pointers to the nodes of all the keys in the tree. -/
theorem batchSearch_spec {t : Tree n} {fuel : Nat} (hf : t.height < fuel) (habs : R.Abs s m) {head : Option (Node n)}
    (hh : HeadOf R.At m head t) (hnd : t.keys.Nodup) (hclosed : Closed (R.touched s) t) (keys results : List (Bid n)) :
    Run E (batchSearch S fuel head keys results) s fun res s' =>
      res = results ++ t.hits keys ∧ (∀ j ∈ t.hits keys, R.cached s' j) ∧ Visited R s m t s' := by
  induction t generalizing fuel s head keys results with
  | nil =>
    obtain ⟨fuel, rfl⟩ : ∃ f, fuel = f + 1 := ⟨fuel - 1, by omega⟩
    have hvis : Visited R s m .nil s :=
      ⟨habs, R.le_refl s, trivial, fun _ hj => Or.inl hj, fun _ hj => hj, fun _ hj => nomatch hj⟩
    have hpost : results = results ++ (AvlTree.nil : Tree n).hits keys ∧
        (∀ j ∈ (AvlTree.nil : Tree n).hits keys, R.cached s j) ∧ Visited R s m .nil s :=
      ⟨(List.append_nil results).symm, fun j hj => absurd hj List.not_mem_nil, hvis⟩
    cases head with
    | none =>
      unfold batchSearch
      exact Run.pure hpost
    | some head =>
      unfold batchSearch
      rw [if_pos (show head.key.isZero = true from hh)]
      exact Run.pure hpost
  | node l k v r ihl ihr =>
    obtain ⟨fuel, rfl⟩ : ∃ f, fuel = f + 1 := ⟨fuel - 1, by omega⟩
    rw [AvlTree.height] at hf
    obtain ⟨-, -, hndl, hndr, -⟩ := nodup_mk (d := .left) hnd
    cases head with
    | none => cases hh
    | some head =>
      have hz : ¬ head.key.isZero = true := by
        rw [hh.1, hh.2.1]
        exact Bool.false_ne_true
      unfold batchSearch
      rw [if_neg hz]
      refine head_bind habs hh hclosed hnd ?_
      rintro nd s1 hkey hval hl hr h1
      dsimp only
      rw [hkey]
      have hself : ((keys.filter (· = k)).map fun _ => k) = keys.filter (· = k) := by
        refine (List.map_congr_left fun j hj => ?_).trans (List.map_id _)
        exact (of_decide_eq_true (List.mem_filter.1 hj).2).symm
      have hroot : ∀ j ∈ keys.filter (· = k), ∀ s4, Visited R s m (.node l k v r) s4 → R.cached s4 j := by
        intro j hj s4 h4
        rw [show j = k from of_decide_eq_true (List.mem_filter.1 hj).2]
        exact (h4.root k rfl).2
      rw [hself]
      -- the keys of the right subtree come last
      have hrest : ∀ res s3, res = results ++ keys.filter (· = k) ++ l.hits (keys.filter (· < k)) ∧
          (∀ j ∈ l.hits (keys.filter (· < k)), R.cached s3 j) ∧ Visited R s m (.node l k v r) s3 →
          Run E (if keys.filter (k < ·) = [] then pure res
            else S.readNode nd.rightID nd.rightPos >>= fun p => derefOpt S p >>= fun child =>
              batchSearch S fuel child (keys.filter (k < ·)) res) s3 fun res s' =>
            res = results ++ (AvlTree.node l k v r).hits keys ∧
              (∀ j ∈ (AvlTree.node l k v r).hits keys, R.cached s' j) ∧ Visited R s m (.node l k v r) s' := by
        rintro res s3 ⟨rfl, hc3, h3⟩
        by_cases hempty : keys.filter (k < ·) = []
        · rw [if_pos hempty]
          refine Run.pure ⟨?_, fun j hj => ?_, h3⟩
          · rw [AvlTree.hits, hempty, AvlTree.hits_nil, List.append_nil, List.append_assoc]
          · rw [AvlTree.hits, hempty, AvlTree.hits_nil, List.append_nil, List.mem_append] at hj
            exact hj.elim (fun hj => hroot j hj s3 h3) (hc3 j)
        · rw [if_neg hempty]
          refine child_bind h3.abs hr ?_
          rintro child s4 hchild - habs4 hle4 ht4
          refine (ihr (by omega) habs4 hchild hndr (h3.closed.2.2.touch hndr fun j _ => ht4 j) _ _).mono ?_
          rintro res s5 ⟨hres, hc5, h5⟩
          have h6 := h3.of_child (d := .right) hnd hle4 ht4 h5
          refine ⟨?_, fun j hj => ?_, h6⟩
          · rw [hres, AvlTree.hits, List.append_assoc, List.append_assoc]
          · rw [AvlTree.hits, List.mem_append, List.mem_append] at hj
            rcases hj with hj | hj | hj
            · exact hroot j hj s5 h6
            · exact R.le_cached (R.le_trans hle4 h5.le) (hc3 j hj)
            · exact hc5 j hj
      by_cases hempty : keys.filter (· < k) = []
      · rw [if_pos hempty]
        refine Run.bind (Run.pure ⟨?_, fun j hj => ?_, h1⟩) hrest
        · rw [hempty, AvlTree.hits_nil, List.append_nil]
        · rw [hempty, AvlTree.hits_nil] at hj
          exact absurd hj List.not_mem_nil
      · rw [if_neg hempty]
        refine child_bind h1.abs hl ?_
        rintro child s2 hchild - habs2 hle2 ht2
        refine Run.bind (ihl (by omega) habs2 hchild hndl (h1.closed.2.1.touch hndl fun j _ => ht2 j) _ _) ?_
        rintro res s3 ⟨hres, hc3, h3⟩
        exact hrest res s3 ⟨hres, hc3, h1.of_child (d := .left) hnd hle2 ht2 h3⟩

end

end Sse.Omap
