import Sse.Omap.AvlSearch
import Sse.Omap.AvlStore

/-!
# OMAP

The oblivious map: the root of the tree and its leaf, and one `start` and `finilize` around
every call of the tree.  The functions are written over the calls that reach the `ORAM`
(`TreeStore`).

Over the plain store, where a node is read by its key alone:

    find key = the value of the key, up to its first zero byte                        (find_plain)
    batchSearch keys = the values of those keys that are in the tree, in any order    (batchSearch_agrees)

`find` gives a C string and `batchSearch` all sixteen bytes, so a value with a zero byte
inside comes back in two forms.
-/

namespace Sse.Omap

open Wp

/-- The calls of `AVLTree`, with the beginning and the end of an operation. -/
structure TreeStore (n : Nat) (σ : Type) extends NodeStore n σ where
  /-- `ORAM::start` -/
  start : Bool → Prog σ Unit
  /-- `ORAM::finilize`, with the new `rootPos` -/
  finilize : Bool → Bid n → Nat → Prog σ Nat

/-- The fields of an `OMAP`; an empty map has the root key zero. -/
structure OMap (n : Nat) where
  rootKey : Bid n
  rootPos : Nat
deriving DecidableEq

/-! ## Algorithm -/

namespace OMap

section

variable {n : Nat} {σ : Type} (S : TreeStore n σ) (fuel : Nat) (o : OMap n)

/-- `OMAP::OMAP`; `rootPos` is left unset. -/
def new : OMap n := ⟨Bid.zero, 0⟩

/-- `node->key = rootKey; node->pos = rootPos`, on a fresh node. -/
def head : Node n := { dummyNode with key := o.rootKey, pos := o.rootPos }

/-- `find`. -/
def find (key : Bid n) : Prog σ (OMap n × Str) :=
  if o.rootKey.isZero then pure (o, [])
  else do
    S.start false
    let resNode ← search S.toNodeStore fuel (some o.head) key
    let res := match resNode with
      | some node => cStr node.value
      | none => []
    let rootPos ← S.finilize true o.rootKey o.rootPos
    return (⟨o.rootKey, rootPos⟩, res)

/-- The call of `AVLTree::insert`, from the key zero on an empty map. -/
def insertNode (q : Bid n × Nat) (key : Bid n) (value : Str) : Prog σ (Bid n × Nat) :=
  Sse.Omap.insert S.toNodeStore fuel (if q.1.isZero then Bid.zero else q.1) q.2 key value

/-- `insert`. -/
def insert (key : Bid n) (value : Str) : Prog σ (OMap n) := do
  S.start false
  let (rootKey, rootPos) ← insertNode S fuel (o.rootKey, o.rootPos) key value
  let rootPos ← S.finilize false rootKey rootPos
  return ⟨rootKey, rootPos⟩

/-- `batchInsert`: one operation for all pairs, in the order of the keys. -/
def batchInsert (pairs : SortedMap (Bid n) Str) : Prog σ (OMap n) := do
  S.start true
  let (rootKey, rootPos) ← pairs.entries.foldlM (fun q pair => insertNode S fuel q pair.1 pair.2) (o.rootKey, o.rootPos)
  let rootPos ← S.finilize false rootKey rootPos
  return ⟨rootKey, rootPos⟩

/-- `batchSearch`; the pointers it is given are never `NULL`. -/
def batchSearch (keys : List (Bid n)) : Prog σ (OMap n × List Str) := do
  S.start false
  let resNodes ← Sse.Omap.batchSearch S.toNodeStore fuel (some o.head) keys []
  let result ← resNodes.mapM fun node => do
    return (← S.deref node).value
  let rootPos ← S.finilize true o.rootKey o.rootPos
  return (⟨o.rootKey, rootPos⟩, result)

/-- The string that `find` gives, if it gives one. -/
def found (s : σ) (key : Bid n) : Option Str :=
  match o.find S fuel key s with
  | .ok ((_, res), _) => some res
  | .error _ => none

end

end OMap

/-! ## Reading through pointers -/

section

variable {n : Nat} {σ : Type} {S : NodeStore n σ} {E : Err → Prop} {R : Reads S E}
variable {s : σ} {m : Bid n → Option (Node n)}

/-- The value of every key of a tree is that of its node. -/
theorem Linked.value {At : Node n → Nat → Prop} {t : Tree n} {k : Bid n} {p : Nat} (h : Linked At m k p t)
    (hord : t.Ordered) {j : Bid n} (hj : j ∈ t.keys) :
    ∃ node, m j = some node ∧ t.get? j = some node.value := by
  induction t generalizing k p with
  | nil => cases hj
  | node l k' v r ihl ihr =>
    obtain ⟨rfl, -, node, hk, -, -, rfl, hl, hr⟩ := h
    obtain ⟨hlo, hro, hlk, hkr⟩ := AvlTree.ordered_node hord
    rcases AvlTree.mem_keys_node.1 hj with hj | rfl | hj
    · obtain ⟨e, he, hje⟩ := List.mem_map.1 hj
      have hlt : j < k := hje ▸ hlk e he
      rw [AvlTree.get?, if_pos hlt]
      exact ihl hl hlo hj
    · refine ⟨node, hk, ?_⟩
      rw [AvlTree.get?, if_neg Std.lt_irrefl, if_neg Std.lt_irrefl]
    · obtain ⟨e, he, hje⟩ := List.mem_map.1 hj
      have hgt : k < j := hje ▸ hkr e he
      rw [AvlTree.get?, if_neg (fun hlt => Std.lt_irrefl (Std.lt_trans hlt hgt)), if_pos hgt]
      exact ihr hr hro hj

/-- The loop over `resNodes`. -/
theorem derefs_spec {t : Tree n} (habs : R.Abs s m) {ps : List (Bid n)} (hps : ∀ j ∈ ps, R.cached s j ∧
    ∃ node, m j = some node ∧ t.get? j = some node.value) :
    Run E (ps.mapM fun node => do return (← S.deref node).value) s fun res s' =>
      res.map some = ps.map t.get? ∧ s' = s := by
  induction ps with
  | nil => exact Run.pure ⟨rfl, rfl⟩
  | cons p ps ih =>
    obtain ⟨hc, node, hk, hv⟩ := hps p List.mem_cons_self
    rw [List.mapM_cons]
    refine Run.bind (P := fun v s' => v = node.value ∧ s' = s) (Run.bind (R.deref habs hc hk) ?_) ?_
    · rintro a s1 ⟨ha, -, rfl⟩
      exact Run.pure ⟨(unplaced_eq ha).2.1, rfl⟩
    · rintro _ s1 ⟨rfl, rfl⟩
      refine Run.bind (ih fun j hj => hps j (List.mem_cons_of_mem _ hj)) ?_
      rintro res s2 ⟨hres, rfl⟩
      refine Run.pure ⟨?_, rfl⟩
      rw [List.map_cons, List.map_cons, hres, hv]

end

/-! ## Over the plain store -/

namespace Shelf

section

variable {n : Nat}

/-- The plain store as it is seen by an `OMAP`: an operation starts with an empty cache, and nothing is moved at
its end. -/
def treeStore : TreeStore n (Shelf n) where
  toNodeStore := store
  start _ := modify Shelf.start
  finilize _ _ rootPos := pure rootPos

theorem cache_trans {s s' s'' : Shelf n} (h : ∀ k ∈ s.cache, k ∈ s'.cache) (h' : ∀ k ∈ s'.cache, k ∈ s''.cache) :
    ∀ k ∈ s.cache, k ∈ s''.cache := fun k hk => h' k (h k hk)

/-- A node is found whatever its leaf. -/
def reads (E : Err → Prop) : Reads (store : NodeStore n (Shelf n)) E where
  Abs s m := ∀ k, (s.nodes k).map Node.unplaced = (m k).map Node.unplaced
  cached s k := k ∈ s.cache
  touched s k := k ∈ s.cache
  At _ _ := True
  Le s s' := ∀ k ∈ s.cache, k ∈ s'.cache
  le_refl _ _ hk := hk
  le_trans := @cache_trans n
  le_cached h hk := h _ hk
  readNode := by
    rintro s m k node leaf habs hk hz -
    obtain ⟨node', hk', hsame⟩ := Option.map_eq_some_iff.1 ((habs k).trans (by rw [hk]; rfl))
    refine Run.of_ok (t := s.put k { node' with pos := leaf }) ?_ ⟨rfl, fun j => ?_, fun j hj => List.mem_cons_of_mem _ hj,
      List.mem_cons_self, fun j => ?_⟩
    · show (if k.isZero then _ else _) = _
      rw [hz, if_neg Bool.false_ne_true, hk']
    · show (Function.update s.nodes k _ j).map Node.unplaced = _
      by_cases hj : j = k
      · rw [hj, Function.update_self, hk, Option.map_some, Option.map_some, ← hsame]
        rfl
      · rw [Function.update_of_ne hj]
        exact habs j
    · show j ∈ k :: s.cache ↔ _
      rw [List.mem_cons]
      exact or_comm
  readNode_zero := @run_readNode_zero n E
  deref := by
    rintro s m k node habs - hk
    obtain ⟨node', hk', hsame⟩ := Option.map_eq_some_iff.1 ((habs k).trans (by rw [hk]; rfl))
    refine Run.of_ok (a := node') (t := s) ?_ ⟨hsame, trivial, rfl⟩
    show (match s.nodes k with | some node => _ | none => _) = _
    rw [hk']

/-- From the root of the map the nodes form the search tree `t`. -/
structure SearchTree (s : Shelf n) (o : OMap n) (t : Tree n) : Prop where
  linked : Linked (fun _ _ => True) s.nodes o.rootKey o.rootPos t
  ordered : t.Ordered

variable {s : Shelf n} {o : OMap n} {t : Tree n}

/-- The nodes are those of `s`, each up to its leaf. -/
def Unchanged (s s' : Shelf n) : Prop := ∀ k, (s'.nodes k).map Node.unplaced = (s.nodes k).map Node.unplaced

theorem start_spec (E : Err → Prop) (s : Shelf n) (batchWrite : Bool) :
    Run E ((treeStore : TreeStore n (Shelf n)).start batchWrite) s fun _ s' => s' = s.start :=
  Run.of_ok (a := ()) (t := s.start) rfl rfl

/-- What a search in a new operation starts from. -/
theorem SearchTree.ready (h : SearchTree s o t) (E : Err → Prop) :
    ((reads E : Reads (store : NodeStore n (Shelf n)) E).Abs s.start s.nodes ∧
      HeadOf (reads E : Reads (store : NodeStore n (Shelf n)) E).At s.nodes (some o.head) t) ∧
    Closed ((reads E : Reads (store : NodeStore n (Shelf n)) E).touched s.start) t ∧ t.keys.Nodup :=
  ⟨⟨fun _ => rfl, h.linked⟩,
    closed_of_untouched (T := fun j => j ∈ s.start.cache) (fun _ => List.not_mem_nil) t, h.ordered.nodup⟩

/-- Present keys have a value. -/
theorem SearchTree.isSome_get? (h : SearchTree s o t) (k : Bid n) : (t.get? k).isSome = true ↔ k ∈ t.keys := by
  constructor
  · intro hk
    have hmem : k ∈ t.hits [k] := (AvlTree.hits_perm t [k]).mem_iff.2 (by simpa using hk)
    exact AvlTree.mem_keys_of_mem_hits hmem
  · intro hk
    obtain ⟨node, -, hv⟩ := h.linked.value h.ordered hk
    rw [hv]
    rfl

/-- **`find`** gives the value of the key as a C string, and `""` for a key that is not in the tree. -/
theorem find_plain (h : SearchTree s o t) {fuel : Nat} (hf : t.height < fuel) (key : Bid n) :
    ∃ s', o.find treeStore fuel key s = .ok ((o, ((t.get? key).map cStr).getD []), s') ∧ Unchanged s s' := by
  have hrun : Run (fun _ => False) (o.find treeStore fuel key) s fun r s' =>
      r = (o, ((t.get? key).map cStr).getD []) ∧ Unchanged s s' := by
    unfold OMap.find
    cases t with
    | nil =>
      rw [if_pos (show o.rootKey.isZero = true from h.linked)]
      exact Run.pure ⟨rfl, fun _ => rfl⟩
    | node l k v r =>
      have hz : ¬ o.rootKey.isZero = true := by
        rw [h.linked.1, h.linked.2.1]
        exact Bool.false_ne_true
      rw [if_neg hz]
      refine Run.bind (start_spec _ s false) ?_
      rintro - _ rfl
      obtain ⟨⟨habs, hhead⟩, hclosed, hnd⟩ := h.ready fun _ => False
      refine Run.bind (search_spec hf habs hhead hnd hclosed key) ?_
      rintro res s1 ⟨hans, hvis⟩
      refine Run.bind (P := fun p s' => p = o.rootPos ∧ s' = s1) (Run.pure ⟨rfl, rfl⟩) ?_
      rintro _ _ ⟨rfl, rfl⟩
      refine Run.pure ⟨?_, hvis.abs⟩
      unfold Answers at hans
      cases hget : (AvlTree.node l k v r).get? key with
      | some w =>
        rw [hget] at hans
        obtain ⟨nd, rfl, -, rfl⟩ := hans
        rfl
      | none =>
        rw [hget] at hans
        obtain rfl := hans.resolve_right fun hc => nomatch hc.1
        rfl
  rcases hrun.cases with ⟨r, s', hok, rfl, hun⟩ | ⟨_, _, hfalse⟩
  · exact ⟨s', hok, hun⟩
  · exact hfalse.elim

/-- `batchSearch` gives the values of the keys that are in the tree. -/
theorem batchSearch_plain (h : SearchTree s o t) {fuel : Nat} (hf : t.height < fuel) (keys : List (Bid n)) :
    ∃ result s', o.batchSearch treeStore fuel keys s = .ok ((o, result), s') ∧
      result.map some = (t.hits keys).map t.get? ∧ Unchanged s s' := by
  have hrun : Run (fun _ => False) (o.batchSearch treeStore fuel keys) s fun r s' =>
      r.1 = o ∧ r.2.map some = (t.hits keys).map t.get? ∧ Unchanged s s' := by
    unfold OMap.batchSearch
    refine Run.bind (start_spec _ s false) ?_
    rintro - _ rfl
    obtain ⟨⟨habs, hhead⟩, hclosed, hnd⟩ := h.ready fun _ => False
    refine Run.bind (batchSearch_spec hf habs hhead hnd hclosed keys []) ?_
    rintro _ s1 ⟨rfl, hc, hvis⟩
    rw [List.nil_append]
    refine Run.bind (derefs_spec (t := t) hvis.abs fun j hj =>
      ⟨hc j hj, h.linked.value h.ordered (AvlTree.mem_keys_of_mem_hits hj)⟩) ?_
    rintro result s2 ⟨hres, rfl⟩
    refine Run.bind (P := fun p s' => p = o.rootPos ∧ s' = s2) (Run.pure ⟨rfl, rfl⟩) ?_
    rintro _ _ ⟨rfl, rfl⟩
    exact Run.pure ⟨rfl, hres, hvis.abs⟩
  rcases hrun.cases with ⟨⟨_, result⟩, s', hok, rfl, hres, hun⟩ | ⟨_, _, hfalse⟩
  · exact ⟨result, s', hok, hres, hun⟩
  · exact hfalse.elim

/-! ## The strings of a batch -/

/-- Without the zero bytes at the end. -/
def trimNul (v : List UInt8) : Str := v.rdropWhile (· = 0)

/-- A C string in its array: after the first zero byte there are only zero bytes. -/
def Padded (v : List UInt8) : Prop := ∀ b ∈ v.dropWhile (· ≠ 0), b = 0

theorem padded_padTo {w : Str} (hw : NulFree w) (hl : w.length ≤ 16) : Padded (padTo 16 w) := by
  intro b hb
  have hall : ∀ a ∈ w, decide (a ≠ 0) = true := fun a ha => by
    rw [decide_eq_true_eq]
    exact fun he => hw (he ▸ ha)
  rw [padTo_of_le hl, List.dropWhile_append_of_pos hall] at hb
  exact List.eq_of_mem_replicate ((List.dropWhile_suffix _).subset hb)

theorem trimNul_eq {v : List UInt8} (h : Padded v) : trimNul v = cStr v := by
  have hzeros : v.dropWhile (· ≠ 0) = List.replicate (v.dropWhile (· ≠ 0)).length 0 :=
    List.eq_replicate_iff.2 ⟨rfl, h⟩
  have hsplit : v = cStr v ++ v.dropWhile (· ≠ 0) := (List.takeWhile_append_dropWhile).symm
  have hlast : ∀ hl : cStr v ≠ [], ¬ decide ((cStr v).getLast hl = 0) = true := by
    intro hl hz
    have := List.mem_takeWhile_imp (List.getLast_mem hl)
    rw [decide_eq_true_eq] at this hz
    exact this hz
  have hdrop : ∀ (k : Nat) (w : Str), (w ++ List.replicate k (0 : UInt8)).rdropWhile (· = 0) = w.rdropWhile (· = 0) := by
    intro k w
    induction k with
    | zero => rw [List.replicate_zero, List.append_nil]
    | succ k ih => rw [List.replicate_succ', ← List.append_assoc, List.rdropWhile_concat_pos _ _ _ (by simp), ih]
  calc trimNul v = (cStr v ++ List.replicate (v.dropWhile (· ≠ 0)).length 0).rdropWhile (· = 0) := by
        rw [trimNul, ← hzeros, ← hsplit]
    _ = cStr v := by rw [hdrop, List.rdropWhile_eq_self_iff.2 hlast]

/-- **`batchSearch` against `find`.**  On every search tree, for all lists of keys: the strings of `batchSearch`,
up to their first zero byte, are those that `find` gives for the keys that are in the tree, each as often as it is
asked for.  Where the values are C strings, the zero bytes at the end are all that is cut off. -/
theorem batchSearch_agrees (s : Shelf n) (o : OMap n) (t : Tree n) (h : SearchTree s o t) (fuel : Nat)
    (hf : t.height < fuel) (keys : List (Bid n)) :
    ∃ result s', o.batchSearch treeStore fuel keys s = .ok ((o, result), s') ∧ Unchanged s s' ∧
      (result.map fun v => some (cStr v)).Perm ((keys.filter fun k => k ∈ t.keys).map (o.found treeStore fuel s)) ∧
      ((∀ e ∈ t.toList, Padded e.2) →
        (result.map fun v => some (trimNul v)).Perm ((keys.filter fun k => k ∈ t.keys).map (o.found treeStore fuel s))) := by
  obtain ⟨result, s', hok, hres, hun⟩ := batchSearch_plain h hf keys
  have hfound : ∀ k, o.found treeStore fuel s k = some (((t.get? k).map cStr).getD []) := by
    intro k
    obtain ⟨s1, hfind, -⟩ := find_plain h hf k
    rw [OMap.found, hfind]
  have hkeys : (t.hits keys).Perm (keys.filter fun k => k ∈ t.keys) := by
    refine (AvlTree.hits_perm t keys).trans (List.Perm.of_eq (List.filter_congr fun k _ => ?_))
    rw [Bool.eq_iff_iff, h.isSome_get?, decide_eq_true_eq]
  have hperm : (result.map fun v => some (cStr v)).Perm ((keys.filter fun k => k ∈ t.keys).map (o.found treeStore fuel s)) := by
    refine List.Perm.trans (List.Perm.of_eq ?_) (hkeys.map _)
    have hmap := congrArg (List.map fun v : Option Str => some ((v.map cStr).getD [])) hres
    rw [List.map_map, List.map_map] at hmap
    calc result.map (fun v => some (cStr v)) = (t.hits keys).map fun k => some (((t.get? k).map cStr).getD []) := hmap
      _ = (t.hits keys).map (o.found treeStore fuel s) := List.map_congr_left fun k _ => (hfound k).symm
  refine ⟨result, s', hok, hun, hperm, fun hpad => ?_⟩
  have htrim : result.map (fun v => some (trimNul v)) = result.map fun v => some (cStr v) := by
    refine List.map_congr_left fun v hv => ?_
    -- every string of the batch is a value of the tree
    have hv' : some v ∈ (t.hits keys).map t.get? := hres ▸ List.mem_map_of_mem hv
    obtain ⟨k, -, hk⟩ := List.mem_map.1 hv'
    rw [AvlTree.get?_eq_lookup h.ordered] at hk
    rw [trimNul_eq (hpad _ ((SortedMap.lookup_eq_some h.ordered).1 hk))]
  rw [htrim]
  exact hperm

/-- One entry, whose value has a zero byte inside. -/
def innerNulNode : Node 4 := ⟨Bid.ofInt 1, padTo 16 [97, 0, 98], 0, Bid.zero, 0, Bid.zero, 0, 1⟩

/-- The store after the insertion of that entry into an empty map. -/
def innerNul : Shelf 4 := ⟨Function.update (fun _ => none) (Bid.ofInt 1) (some innerNulNode), [Bid.ofInt 1], fun _ => 0, 1⟩

theorem innerNul_searchTree :
    SearchTree innerNul ⟨Bid.ofInt 1, 0⟩ (.node .nil (Bid.ofInt 1) (padTo 16 [97, 0, 98]) .nil) := by
  have hnode : innerNul.nodes (Bid.ofInt 1) = some innerNulNode := by
    unfold innerNul
    dsimp only
    rw [Function.update_self]
  exact ⟨⟨rfl, by decide, innerNulNode, hnode, rfl, trivial, rfl, isZero_zero, isZero_zero⟩, List.pairwise_singleton ..⟩

/-- Without its trailing zero bytes the string of `batchSearch` is not that of `find`. -/
theorem batchSearch_inner_nul :
    OMap.new.insert treeStore 2 (Bid.ofInt 1) [97, 0, 98] (Shelf.new fun _ => 0) = .ok (⟨Bid.ofInt 1, 0⟩, innerNul) ∧
      ∃ result s', OMap.batchSearch treeStore 2 ⟨Bid.ofInt 1, 0⟩ [Bid.ofInt 1] innerNul =
          .ok ((⟨Bid.ofInt 1, 0⟩, result), s') ∧ result.map trimNul = [[97, 0, 98]] ∧
        OMap.found treeStore 2 ⟨Bid.ofInt 1, 0⟩ innerNul (Bid.ofInt 1) = some [97] := by
  refine ⟨rfl, ?_⟩
  obtain ⟨result, s', hok, hres, -⟩ := batchSearch_plain innerNul_searchTree (Nat.lt_succ_self 1) [Bid.ofInt 1]
  obtain ⟨s1, hfind, -⟩ := find_plain innerNul_searchTree (Nat.lt_succ_self 1) (Bid.ofInt 1)
  have hval : result = [padTo 16 [97, 0, 98]] := by
    have : result.map some = [padTo 16 [97, 0, 98]].map some := hres.trans (by decide)
    exact List.map_injective_iff.2 (Option.some_injective _) this
  refine ⟨result, s', hok, ?_, ?_⟩
  · rw [hval]
    decide
  · rw [OMap.found, hfind]
    show some _ = some _
    exact congrArg some (by decide)

/-- Three keys, one of them twice and one that is not in the tree. -/
theorem batchSearch_agrees_inner_nul :
    ∃ result s', OMap.batchSearch treeStore 2 ⟨Bid.ofInt 1, 0⟩ [Bid.ofInt 1, Bid.ofInt 2, Bid.ofInt 1] innerNul =
        .ok ((⟨Bid.ofInt 1, 0⟩, result), s') ∧ Unchanged innerNul s' ∧
      (result.map fun v => some (cStr v)).Perm
        (([Bid.ofInt 1, Bid.ofInt 2, Bid.ofInt 1].filter fun k =>
            k ∈ (AvlTree.node .nil (Bid.ofInt 1) (padTo 16 [97, 0, 98]) .nil : Tree 4).keys).map
          (OMap.found treeStore 2 ⟨Bid.ofInt 1, 0⟩ innerNul)) := by
  obtain ⟨result, s', h1, h2, h3, -⟩ := batchSearch_agrees innerNul ⟨Bid.ofInt 1, 0⟩ _ innerNul_searchTree 2 (by decide)
    [Bid.ofInt 1, Bid.ofInt 2, Bid.ofInt 1]
  exact ⟨result, s', h1, h2, h3⟩

end

end Shelf

end Sse.Omap
