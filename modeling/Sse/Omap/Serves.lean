import Sse.Omap.Room

/-!
# A map within its capacity

Over the roomy store no call throws, and after every call the counter is the number of keys of
the tree (`Kept.roomyCall`).  So the ORAM has room for as many keys as it has nodes.  A balanced
tree of height `depth + 3` has at least `fib (depth + 5) - 1` keys, which is fewer than that.

    fewer keys than fib (depth + 5) - 1 → every call is served                        (omap_serves)
-/

namespace Sse.Omap

open Wp PathOram

/-! ## One operation over the roomy store -/

section

variable {n depth fuel : Nat} {m : Bid n → Option (Node n)} {s : Oram n} {o : OMap n} {t : Tree n} {q : Bid n × Nat}

/-- The nodes of a tree, counted. -/
theorem counted_iff (hrepr : Repr m q.1 q.2 t) (hord : t.Ordered) (honly : ∀ j, j ∉ t.keys → m j = none) :
    Oram.Counted s m ↔ s.emptyNodes = t.keys.length := by
  have hmem : ∀ k, k ∈ t.keys.toFinset ↔ (m k).isSome = true := by
    intro k
    rw [List.mem_toFinset]
    refine ⟨hrepr.isSome, fun hk => ?_⟩
    by_contra hnot
    rw [honly k hnot] at hk
    cases hk
  have hcard : t.keys.toFinset.card = t.keys.length := List.toFinset_card_of_nodup hord.nodup
  constructor
  · rintro ⟨K, hK, hmemK⟩
    have he : K = t.keys.toFinset := Finset.ext fun k => (hmemK k).trans (hmem k).symm
    rw [← hK, he, hcard]
  · intro he
    exact ⟨t.keys.toFinset, hcard.trans he.symm, hmem⟩

/-- In an operation over the roomy store the counter is the number of keys. -/
theorem Stored.counted (h : Stored (Oram.roomyLaws depth) s m q t) : s.emptyNodes = t.keys.length :=
  (counted_iff h.repr h.ordered h.only).1 h.abs.2

theorem Kept.roomyStart (h : Kept depth s m o t) (batchWrite : Bool) :
    Stored (Oram.roomyLaws depth) ((s.withEmpty t.keys.length).start batchWrite) m (o.rootKey, o.rootPos) t where
  abs := by
    refine ⟨(h.rest.start batchWrite).withEmpty t.keys.length, ?_⟩
    exact (counted_iff (q := (o.rootKey, o.rootPos)) h.repr h.ordered h.only).2 rfl
  repr := h.repr
  ordered := h.ordered
  bal := h.bal
  closed := (h.start (E := fun _ => True) trivial batchWrite).closed
  only := h.only

/-- `finilize` leaves the counter alone. -/
theorem Stored.roomyFinilize (h : Stored (Oram.roomyLaws depth) s m q t) (find : Bool) (rootKey : Bid n) (rootPos : Nat) :
    Run (fun _ => False) ((Oram.roomy depth).finilize find rootKey rootPos) s fun _ s' =>
      s'.emptyNodes = t.keys.length :=
  Run.of_ok rfl (((Oram.blind_finilize find rootKey rootPos).emptyNodes s).trans h.counted)

theorem Stored.roomyInsert (h : Stored (Oram.roomyLaws depth) s m q t) (hf : t.height < fuel) {key : Bid n}
    (hkey : key.isZero = false) (value : Str) :
    Run (fun _ => False) (OMap.insertNode (Oram.roomy depth) fuel q key value) s fun q' s' =>
      ∃ m', Stored (Oram.roomyLaws depth) s' m' q' (t.insert key (padTo 16 value)) := by
  have hq : Stored (Oram.roomyLaws depth) s m (if q.1.isZero then Bid.zero else q.1, q.2) t := by
    by_cases hz : q.1.isZero = true
    · rw [if_pos hz]
      refine ⟨h.abs, ?_, h.ordered, h.bal, h.closed, h.only⟩
      cases t with
      | nil => exact isZero_zero
      | node l k v r =>
        obtain ⟨hk, node, hm, -⟩ := h.repr
        rw [hk, ((Oram.roomyLaws depth).wf h.abs hm).2] at hz
        cases hz
    · rw [if_neg hz]
      exact h
  refine (hq.insert hf (Or.inl hkey)).mono ?_
  rintro q' s' ⟨m', hs', -⟩
  exact ⟨m', hs'⟩

theorem Stored.roomyInserts (h : Stored (Oram.roomyLaws depth) s m q t) {pairs : List (Bid n × Str)}
    (hf : t.height + pairs.length ≤ fuel) (hkeys : ∀ e ∈ pairs, e.1.isZero = false) :
    Run (fun _ => False) (pairs.foldlM (fun q pair => OMap.insertNode (Oram.roomy depth) fuel q pair.1 pair.2) q) s
      fun q' s' => ∃ m', Stored (Oram.roomyLaws depth) s' m' q' (pairs.foldl (fun t e => t.insert e.1 (padTo 16 e.2)) t) := by
  induction pairs generalizing s m q t with
  | nil => exact Run.pure ⟨m, h⟩
  | cons e pairs ih =>
    rw [List.length_cons] at hf
    rw [List.foldlM_cons]
    refine Run.bind (h.roomyInsert (by omega) (hkeys e List.mem_cons_self) e.2) ?_
    rintro q1 s1 ⟨m1, hs1⟩
    have hgrow := (AvlTree.bal_insert h.bal e.1 (padTo 16 e.2)).2.2.1
    have hf' : (t.insert e.1 (padTo 16 e.2)).height + pairs.length ≤ fuel := by omega
    exact ih hs1 hf' fun e' he' => hkeys e' (List.mem_cons_of_mem _ he')

/-- A search leaves the tree as it is. -/
theorem Stored.roomyVisited {s' : Oram n} (h : Stored (Oram.roomyLaws depth) s m q t)
    (hv : Visited (Oram.roomyLaws depth).reads s m t s') : Stored (Oram.roomyLaws depth) s' m q t :=
  ⟨hv.abs, h.repr, h.ordered, h.bal, hv.closed, h.only⟩

theorem Stored.roomyHead (h : Stored (Oram.roomyLaws depth) s m (o.rootKey, o.rootPos) t) :
    HeadOf (Oram.roomyLaws depth).reads.At m (some o.head) t :=
  h.repr.linked fun _ _ hk => (Oram.roomyLaws depth).wf h.abs hk

/-- **Over the roomy store no call throws**, and each one leaves the number of keys in the counter. -/
theorem Kept.roomyCall (h : Kept depth s m o t) {c : OmapCall n} (hf : t.height + c.inserts < fuel) (hkeys : c.NonZero) :
    Run (fun _ => False) (o.call (Oram.roomy depth) fuel c) (s.withEmpty t.keys.length) fun _ s' =>
      s'.emptyNodes = (c.grow t).keys.length := by
  cases c with
  | insert key value =>
    simp only [OmapCall.inserts] at hf
    refine Run.bind (P := fun _ s' => s'.emptyNodes = (t.insert key (padTo 16 value)).keys.length) ?_
      fun o' s' hs' => Run.pure hs'
    refine Run.bind (P := fun _ s' => s' = (s.withEmpty t.keys.length).start false) (Run.of_ok (a := ()) rfl rfl) ?_
    rintro - _ rfl
    refine Run.bind ((h.roomyStart false).roomyInsert (by omega) hkeys value) ?_
    rintro q s1 ⟨m1, hs1⟩
    exact Run.bind (hs1.roomyFinilize false q.1 q.2) fun rootPos s' hs' => Run.pure hs'
  | find key =>
    simp only [OmapCall.inserts] at hf
    refine Run.bind (P := fun _ s' => s'.emptyNodes = t.keys.length) ?_ fun r s' hs' => Run.pure hs'
    unfold OMap.find
    by_cases hz : o.rootKey.isZero = true
    · rw [if_pos hz]
      exact Run.pure rfl
    · rw [if_neg hz]
      refine Run.bind (P := fun _ s' => s' = (s.withEmpty t.keys.length).start false) (Run.of_ok (a := ()) rfl rfl) ?_
      rintro - _ rfl
      have hstart := h.roomyStart false
      refine Run.bind (search_spec (by omega) hstart.abs hstart.roomyHead h.ordered.nodup hstart.closed key) ?_
      rintro res s1 ⟨-, hvis⟩
      exact Run.bind ((hstart.roomyVisited hvis).roomyFinilize true _ _) fun rootPos s' hs' => Run.pure hs'
  | batchSearch keys =>
    simp only [OmapCall.inserts] at hf
    refine Run.bind (P := fun _ s' => s' = (s.withEmpty t.keys.length).start false) (Run.of_ok (a := ()) rfl rfl) ?_
    rintro - _ rfl
    have hstart := h.roomyStart false
    refine Run.bind (batchSearch_spec (by omega) hstart.abs hstart.roomyHead h.ordered.nodup hstart.closed keys []) ?_
    rintro _ s1 ⟨rfl, hc, hvis⟩
    have hlinked : Linked (Oram.roomyLaws depth).reads.At m o.rootKey o.rootPos t :=
      h.repr.linked fun _ _ hk => (Oram.roomyLaws depth).wf hstart.abs hk
    rw [List.nil_append]
    refine Run.bind (derefs_spec (t := t) hvis.abs fun j hj =>
      ⟨hc j hj, hlinked.value h.ordered (AvlTree.mem_keys_of_mem_hits hj)⟩) ?_
    rintro result s2 ⟨-, rfl⟩
    exact Run.bind ((hstart.roomyVisited hvis).roomyFinilize true _ _) fun rootPos s' hs' => Run.pure hs'
  | batchInsert pairs =>
    simp only [OmapCall.inserts] at hf
    refine Run.bind (P := fun _ s' => s'.emptyNodes = ((OmapCall.batchInsert pairs).grow t).keys.length) ?_
      fun o' s' hs' => Run.pure hs'
    refine Run.bind (P := fun _ s' => s' = (s.withEmpty t.keys.length).start true) (Run.of_ok (a := ()) rfl rfl) ?_
    rintro - _ rfl
    refine Run.bind ((h.roomyStart true).roomyInserts (by omega) hkeys) ?_
    rintro q s1 ⟨m1, hs1⟩
    exact Run.bind (hs1.roomyFinilize false q.1 q.2) fun rootPos s' hs' => Run.pure hs'

/-! ## Runs within the capacity -/

/-- The number of nodes a store of this depth can hold. -/
def capacity (depth : Nat) : Nat := 4 * (2 ^ (depth + 1) - 1)

/-- The keys that a call inserts. -/
def OmapCall.inserted : OmapCall n → List (Bid n)
  | .insert key _ => [key]
  | .batchInsert pairs => pairs.entries.map Prod.fst
  | _ => []

/-- What a call does to the values of the keys. -/
def OmapCall.assign (f : Bid n → Option Str) : OmapCall n → Bid n → Option Str
  | .insert key value => Function.update f key (some (padTo 16 value))
  | .batchInsert pairs => pairs.entries.foldl (fun f e => Function.update f e.1 (some (padTo 16 e.2))) f
  | _ => f

/-- What a call answers, over the values of the keys. -/
def OmapCall.Serves (f : Bid n → Option Str) (out : List Str) : OmapCall n → Prop
  | .find key => out = [((f key).map cStr).getD []]
  | .batchSearch keys => out.Perm (keys.filterMap f)
  | _ => out = []

/-- The values after some calls. -/
def valuesOf (cs : List (OmapCall n)) : Bid n → Option Str := cs.foldl OmapCall.assign fun _ => none

/-- Every `batchInsert` meets an empty map. -/
def SetupFirst (cs : List (OmapCall n)) : Prop :=
  ∀ pre pairs post, cs = pre ++ .batchInsert pairs :: post → ∀ c ∈ pre, c.inserted = []

theorem get?_grow (h : t.Ordered ∧ t.Bal) (c : OmapCall n) : (c.grow t).get? = c.assign t.get? := by
  cases c with
  | insert key value =>
    funext k
    rw [OmapCall.grow, get?_insert h.1, OmapCall.assign, Function.update_apply]
  | find key => rfl
  | batchSearch keys => rfl
  | batchInsert pairs =>
    rw [OmapCall.grow, OmapCall.assign]
    generalize pairs.entries = es
    induction es generalizing t with
    | nil => rfl
    | cons e es ih =>
      rw [List.foldl_cons, List.foldl_cons, ih (grow_insert h e.1 (padTo 16 e.2)).1]
      congr 1
      funext k
      rw [get?_insert h.1, Function.update_apply]

/-- The tree holds the values. -/
theorem get?_treeOf_nil (cs : List (OmapCall n)) : (treeOf (.nil : Tree n) cs).get? = valuesOf cs := by
  induction cs using List.reverseRecOn with
  | nil => rfl
  | append_singleton cs c ih =>
    rw [treeOf_concat, valuesOf, List.foldl_append,
      get?_grow (treeOf_spec (t := (.nil : Tree n)) ⟨List.Pairwise.nil, trivial⟩ cs).1 c, ih]
    rfl

theorem mem_keys_grow (h : t.Ordered ∧ t.Bal) (c : OmapCall n) (k : Bid n) :
    k ∈ (c.grow t).keys ↔ k ∈ t.keys ∨ k ∈ c.inserted := by
  cases c with
  | insert key value =>
    rw [OmapCall.grow, AvlTree.mem_keys_insert h.1, OmapCall.inserted, List.mem_singleton]
    exact or_comm
  | find key => simp [OmapCall.grow, OmapCall.inserted]
  | batchSearch keys => simp [OmapCall.grow, OmapCall.inserted]
  | batchInsert pairs =>
    rw [OmapCall.grow, OmapCall.inserted]
    generalize pairs.entries = es
    induction es generalizing t with
    | nil => simp
    | cons e es ih =>
      rw [List.foldl_cons, ih (grow_insert h e.1 (padTo 16 e.2)).1, AvlTree.mem_keys_insert h.1, List.map_cons,
        List.mem_cons, or_assoc, or_left_comm]

theorem mem_keys_treeOf (cs : List (OmapCall n)) (k : Bid n) :
    k ∈ (treeOf (.nil : Tree n) cs).keys ↔ k ∈ cs.flatMap OmapCall.inserted := by
  induction cs using List.reverseRecOn with
  | nil => exact Iff.rfl
  | append_singleton cs c ih =>
    rw [treeOf_concat, mem_keys_grow (treeOf_spec (t := (.nil : Tree n)) ⟨List.Pairwise.nil, trivial⟩ cs).1 c, ih,
      List.flatMap_append, List.mem_append, List.flatMap_singleton]

/-- The tree has as many keys as were inserted. -/
theorem length_keys_treeOf (cs : List (OmapCall n)) :
    (treeOf (.nil : Tree n) cs).keys.length = (cs.flatMap OmapCall.inserted).toFinset.card := by
  have hord := (treeOf_spec (t := (.nil : Tree n)) ⟨List.Pairwise.nil, trivial⟩ cs).1.1
  rw [← List.toFinset_card_of_nodup hord.nodup]
  congr 1
  ext k
  rw [List.mem_toFinset, List.mem_toFinset, mem_keys_treeOf]

theorem OmapCall.Answers.serves {c : OmapCall n} {out : List Str} (h : c.Answers t out) : c.Serves t.get? out := by
  cases c with
  | insert key value => exact h
  | find key => exact h
  | batchInsert pairs => exact h
  | batchSearch keys =>
    have hout : out = (t.hits keys).filterMap t.get? := by
      have hsome : (out.map some).filterMap id = ((t.hits keys).map t.get?).filterMap id := congrArg _ h
      rw [List.filterMap_map, List.filterMap_map] at hsome
      exact (List.filterMap_some).symm.trans hsome
    have hfilter : (keys.filter fun k => (t.get? k).isSome).filterMap t.get? = keys.filterMap t.get? := by
      rw [List.filterMap_filter]
      refine List.filterMap_congr fun k _ => ?_
      cases t.get? k <;> rfl
    show out.Perm (keys.filterMap t.get?)
    rw [hout, ← hfilter]
    exact (AvlTree.hits_perm t keys).filterMap _

/-- **One call within the capacity** is served. -/
theorem Kept.serves (h : Kept depth s m o t) {cap : Nat} (hcap : s.emptyNodes + t.keys.length = cap) {c : OmapCall n}
    (hf : t.height + c.inserts < fuel) (hkeys : c.NonZero) (hspare : c.Spares depth t (o, s))
    (hroom : (c.grow t).keys.length ≤ cap) (hlow : (c.grow t).height ≤ depth + 2) :
    ∃ x out m', omapStep depth fuel (o, s) c = some (x, out) ∧ c.Serves t.get? out ∧
      Kept depth x.2 m' x.1 (c.grow t) ∧ x.2.emptyNodes + (c.grow t).keys.length = cap := by
  -- the roomy store counts no more than there is room for
  obtain ⟨⟨o', out⟩, s1, hok, hcount⟩ | ⟨e, -, he⟩ := (h.roomyCall hf hkeys).cases
  · have hsim := ((Oram.roomy_metered cap).call fuel o c _ _ _ hok).2 (by rw [hcount]; exact hroom)
    have hs : Oram.emptied cap (s.withEmpty t.keys.length) = s := by
      show s.withEmpty (cap - t.keys.length) = s
      rw [show cap - t.keys.length = s.emptyNodes by omega, Oram.withEmpty_self]
    rw [hs] at hsim
    obtain ⟨hans, m', hend⟩ := (h.call (E := fun _ => True) trivial hf (Or.inl hkeys) hspare).ok hsim
    refine ⟨(o', Oram.emptied cap s1), out, m', ?_, OmapCall.Answers.serves hans, hend.kept hlow, ?_⟩
    · unfold omapStep
      rw [hsim]
    · show cap - s1.emptyNodes + _ = cap
      omega
  · exact he.elim

/-- A tree that is too high has more keys than fit. -/
theorem low_of_few (hbal : t.Bal) (h : t.keys.length + 1 < Nat.fib (depth + 5)) : t.height ≤ depth + 2 := by
  by_contra hhigh
  have hfib : Nat.fib (depth + 5) ≤ Nat.fib (t.height + 2) := Nat.fib_mono (by omega)
  have hle := hbal.fib_le
  omega

theorem fib_le_capacity (depth : Nat) : Nat.fib (depth + 5) ≤ capacity depth + 1 := by
  induction depth with
  | zero => decide
  | succ depth ih =>
    have hstep : Nat.fib (depth + 1 + 5) = Nat.fib (depth + 4) + Nat.fib (depth + 5) := Nat.fib_add_two
    have hmono : Nat.fib (depth + 4) ≤ Nat.fib (depth + 5) := Nat.fib_mono (by omega)
    have hpow : 2 ^ (depth + 1 + 1) = 2 * 2 ^ (depth + 1) := pow_succ' 2 (depth + 1)
    have hpos : 0 < 2 ^ (depth + 1) := Nat.two_pow_pos _
    unfold capacity at ih ⊢
    omega

theorem SetupFirst.of_append {pre post : List (OmapCall n)} (h : SetupFirst (pre ++ post)) : SetupFirst pre := by
  intro l pairs r he
  exact h l pairs (r ++ post) (by rw [he, List.append_assoc, List.cons_append])

/-- A batch finds nothing in the map. -/
theorem SetupFirst.spares {cs : List (OmapCall n)} {c : OmapCall n} (h : SetupFirst (cs ++ [c]))
    (hkept : Kept depth s m o (treeOf .nil cs)) : c.Spares depth (treeOf .nil cs) (o, s) := by
  cases c with
  | insert key value => trivial
  | find key => trivial
  | batchSearch keys => trivial
  | batchInsert pairs =>
    have hkeys : (treeOf (.nil : Tree n) cs).keys = [] := by
      rw [← List.length_eq_zero_iff, length_keys_treeOf, List.flatMap_eq_nil_iff.2 (h cs pairs [] rfl)]
      rfl
    have hnil : treeOf (.nil : Tree n) cs = .nil := by
      cases ht : treeOf (.nil : Tree n) cs with
      | nil => rfl
      | node l k v r =>
        rw [ht] at hkeys
        have hmem : k ∈ (AvlTree.node l k v r).keys := AvlTree.mem_keys_node.2 (Or.inr (Or.inl rfl))
        rw [hkeys] at hmem
        cases hmem
    rw [hnil] at hkept ⊢
    exact ⟨fun _ => hkept.repr, hkept.spares_empty pairs.entries⟩

/-- **A map within its capacity serves every call.**  On a fresh map over buckets of depth `depth`, as long as fewer
than `fib (depth + 5) - 1` different keys are inserted, nothing is thrown, no node gets taller than the position loop
goes, `find` gives the value inserted last and `batchSearch` the values of the keys that are there; the store has lost
one place for each key. -/
theorem omap_serves (depth : Nat) (rnd : Nat → Nat) (hrnd : ∀ i, rnd i < 2 ^ depth) (cs : List (OmapCall n))
    (hkeys : ∀ c ∈ cs, c.NonZero) (hsetup : SetupFirst cs)
    (hroom : (cs.flatMap OmapCall.inserted).toFinset.card + 1 < Nat.fib (depth + 5)) (fuel : Nat)
    (hf : (cs.map OmapCall.inserts).sum < fuel) :
    ∃ x outs, Runs.run (omapStep depth fuel) (OMap.new, Oram.new depth rnd) cs = some (x, outs) ∧
      Oram.Low depth x.2 ∧
      x.2.emptyNodes + (cs.flatMap OmapCall.inserted).toFinset.card = capacity depth ∧
      ∀ pre c post, cs = pre ++ c :: post → ∃ out, outs[pre.length]? = some out ∧ c.Serves (valuesOf pre) out := by
  -- each call finds room, and a tree that is low enough
  have hstep : ∀ pre c post (x : OMap n × Oram n), cs = pre ++ c :: post →
      (∃ m, Kept depth x.2 m x.1 (treeOf .nil pre) ∧
        x.2.emptyNodes + (treeOf (.nil : Tree n) pre).keys.length = capacity depth) →
      ∃ x' out, omapStep depth fuel x c = some (x', out) ∧ c.Serves (valuesOf pre) out ∧
        ∃ m, Kept depth x'.2 m x'.1 (treeOf .nil (pre ++ [c])) ∧
          x'.2.emptyNodes + (treeOf (.nil : Tree n) (pre ++ [c])).keys.length = capacity depth := by
    rintro pre c post x rfl ⟨m, hkept, hcount⟩
    have hspec := treeOf_spec (t := (.nil : Tree n)) ⟨List.Pairwise.nil, trivial⟩ pre
    have henough : (treeOf (.nil : Tree n) pre).height + c.inserts < fuel := by
      have hheight := hspec.2.2
      rw [AvlTree.height, Nat.zero_add] at hheight
      rw [List.map_append, List.sum_append, List.map_cons, List.sum_cons] at hf
      omega
    have hfew : (c.grow (treeOf (.nil : Tree n) pre)).keys.length + 1 < Nat.fib (depth + 5) := by
      rw [← treeOf_concat, length_keys_treeOf]
      refine lt_of_le_of_lt (Nat.succ_le_succ (Finset.card_le_card fun k hk => ?_)) hroom
      rw [List.mem_toFinset] at hk ⊢
      rw [show pre ++ c :: post = pre ++ [c] ++ post by simp, List.flatMap_append]
      exact List.mem_append_left _ hk
    have hsetup' : SetupFirst (pre ++ [c]) := by
      have hall : SetupFirst ((pre ++ [c]) ++ post) := by rwa [List.append_assoc, List.singleton_append]
      exact hall.of_append
    have hcap := fib_le_capacity depth
    obtain ⟨x', out, m', hstep, hans, hkept', hcount'⟩ := hkept.serves hcount henough
      (hkeys c (List.mem_append_right _ List.mem_cons_self)) (hsetup'.spares hkept) (by omega)
      (low_of_few (grow_spec hspec.1 c).1.2 hfew)
    rw [get?_treeOf_nil] at hans
    rw [← treeOf_concat] at hkept' hcount'
    exact ⟨x', out, hstep, hans, m', hkept', hcount'⟩
  have hnew : ∃ m, Kept depth (Oram.new depth rnd) m (OMap.new : OMap n) (treeOf .nil []) ∧
      (Oram.new depth rnd : Oram n).emptyNodes + (treeOf (.nil : Tree n) []).keys.length = capacity depth :=
    ⟨_, kept_new hrnd, rfl⟩
  obtain ⟨x, outs, hrun, ⟨m, hkept, hcount⟩, hserves⟩ := Runs.run_serves (OMap.new, Oram.new depth rnd)
    (fun pre (x : OMap n × Oram n) => ∃ m, Kept depth x.2 m x.1 (treeOf .nil pre) ∧
      x.2.emptyNodes + (treeOf (.nil : Tree n) pre).keys.length = capacity depth)
    (fun pre c out => c.Serves (valuesOf pre) out) hnew hstep
  rw [length_keys_treeOf] at hcount
  refine ⟨x, outs, hrun, hkept.low (low_of_few hkept.bal ?_), hcount, hserves⟩
  rwa [length_keys_treeOf]

theorem setupFirst_cons {c : OmapCall n} {cs : List (OmapCall n)} (h : ∀ pairs, OmapCall.batchInsert pairs ∉ cs) :
    SetupFirst (c :: cs) := by
  intro pre pairs post he
  cases pre with
  | nil => simp
  | cons d pre =>
    obtain ⟨-, htail⟩ := List.cons.inj he
    exact absurd (by rw [htail]; exact List.mem_append_right _ List.mem_cons_self) (h pairs)

/-- A setup of two keys, one more key, and two searches. -/
def setupCalls : List (OmapCall 16) :=
  [.batchInsert pairOfPairs, .insert (Bid.ofInt 2) [97], .find (Bid.ofInt 3), .batchSearch [Bid.ofInt 1, Bid.ofInt 7]]

theorem omap_serves_setup :
    ∃ x outs, Runs.run (omapStep 2 20) (OMap.new, Oram.new 2 (mostlyZero 7)) setupCalls = some (x, outs) ∧
      outs[2]? = some [[99]] ∧ x.2.emptyNodes = 25 := by
  have hkeys : ∀ c ∈ setupCalls, c.NonZero := by
    intro c hc
    simp only [setupCalls, List.mem_cons, List.not_mem_nil, or_false] at hc
    rcases hc with rfl | rfl | rfl | rfl
    · show ∀ e ∈ pairOfPairs.entries, e.1.isZero = false
      decide +kernel
    · show (Bid.ofInt 2 : Bid 16).isZero = false
      decide +kernel
    · trivial
    · trivial
  have hcard : (setupCalls.flatMap OmapCall.inserted).toFinset.card = 3 := by decide +kernel
  obtain ⟨x, outs, hrun, -, hcount, hserves⟩ := omap_serves 2 (mostlyZero 7) (mostlyZero_lt 7) setupCalls hkeys
    (setupFirst_cons (by simp)) (by rw [hcard]; decide) 20 (by decide +kernel)
  obtain ⟨out, hout, hfind⟩ := hserves (setupCalls.take 2) (.find (Bid.ofInt 3)) (setupCalls.drop 3) rfl
  refine ⟨x, outs, hrun, ?_, ?_⟩
  · have hval : (((valuesOf (setupCalls.take 2) (Bid.ofInt 3)).map cStr).getD []) = [99] := by decide +kernel
    exact hout.trans (congrArg some (hfind.trans (congrArg (fun v => [v]) hval)))
  · rw [hcard] at hcount
    exact Nat.add_right_cancel (hcount : x.2.emptyNodes + 3 = 25 + 3)

end

end Sse.Omap
