import Sse.Horus.PrfOram

/-!
# Single and batched reads

`ReadBox` looks for the box in the stash, then on its path.  `batchRead` does the same for
each query, but asks the stash for the number of the leaf: a box whose identifier is made
of that number is taken for the one wanted.

    no leaf number of the queries names a box of other contents that lies in the stash, or in a
    bucket read for an earlier query  ↔  batchRead answers as ReadBox   (batchRead_agrees_iff)

Nothing is asked of the state but that each box is on its own path, which every `WriteBox`
keeps, whatever it reads from a freed box.
-/

namespace Sse.Horus

open PathOram

/-! ## What is found -/

/-- The string of a box, `""` for none. -/
def text : Option Box → Str
  | some box => cStr box.value
  | none => []

namespace PrfOram

variable (depth : Nat)

/-- The box whose identifier is made of the number of a leaf, as far as the paths `read` show. -/
def namesake (s : PrfOram) (read : List Nat) (pos : Nat) : Option Box :=
  lookIn (layout depth) s.store (read.flatMap (path depth)) (Bid.ofInt (Int32.ofNat pos))

/-- The paths that are read for some queries: none where a namesake of the leaf turns up. -/
def pathsRead (s : PrfOram) (queries : List (Bid 24 × Nat)) : List Nat :=
  queries.foldl (fun read item => if (s.namesake depth read item.2).isSome then read else read ++ [item.2]) []

/-- After the queries `pre`, a namesake of the next leaf reads as the box wanted. -/
def Harmless (s : PrfOram) (pre : List (Bid 24 × Nat)) (item : Bid 24 × Nat) : Prop :=
  ∀ box, s.namesake depth (s.pathsRead depth pre) item.2 = some box →
    cStr box.value = text (lookIn (layout depth) s.store (path depth item.2) item.1)

/-- What `batchRead` answers to a query that follows the queries `pre`. -/
def reply (s : PrfOram) (pre : List (Bid 24 × Nat)) (item : Bid 24 × Nat) : Str :=
  match s.namesake depth (s.pathsRead depth pre) item.2 with
  | some box => cStr box.value
  | none => text (lookIn (layout depth) s.store (path depth item.2) item.1)

variable {depth}

theorem pathsRead_concat (s : PrfOram) (pre : List (Bid 24 × Nat)) (item : Bid 24 × Nat) :
    s.pathsRead depth (pre ++ [item]) =
      if (s.namesake depth (s.pathsRead depth pre) item.2).isSome then s.pathsRead depth pre
      else s.pathsRead depth pre ++ [item.2] := by
  rw [pathsRead, List.foldl_append]
  rfl

theorem pathsRead_lt {s : PrfOram} {queries : List (Bid 24 × Nat)} (hq : ∀ item ∈ queries, item.2 < 2 ^ depth) :
    ∀ l ∈ s.pathsRead depth queries, l < 2 ^ depth := by
  induction queries using List.reverseRecOn with
  | nil => exact fun l hl => absurd hl List.not_mem_nil
  | append_singleton pre item ih =>
    have hpre := ih fun j hj => hq j (List.mem_append_left _ hj)
    intro l hl
    rw [pathsRead_concat] at hl
    split_ifs at hl
    · exact hpre l hl
    · rcases List.mem_append.1 hl with hl | hl
      · exact hpre l hl
      · rw [List.mem_singleton.1 hl]
        exact hq item (by simp)

theorem reply_eq_iff {s : PrfOram} {pre : List (Bid 24 × Nat)} {item : Bid 24 × Nat} :
    s.reply depth pre item = text (lookIn (layout depth) s.store (path depth item.2) item.1) ↔
      s.Harmless depth pre item := by
  unfold reply Harmless
  cases h : s.namesake depth (s.pathsRead depth pre) item.2 with
  | some box =>
    constructor
    · rintro he box' hb
      exact Option.some.inj hb ▸ he
    · intro he
      exact he box rfl
  | none =>
    constructor
    · rintro - box hb
      cases hb
    · intro _
      rfl

/-! ## Boxes on their paths -/

theorem rooted_new (depth : Nat) (leaf : Bid 24 → Nat) : Rooted (layout depth) leaf (PrfOram.new depth).store := by
  refine ⟨fun k b hb => ?_, fun i b hb hreal => ?_⟩
  · exact nomatch hb
  · rw [List.eq_of_mem_replicate hb, show dummyBox = (layout depth).dummy from rfl, (layout depth).dummy_not_real] at hreal
    cases hreal

variable {leaf : Bid 24 → Nat} {s : PrfOram}

theorem rooted_writePath (h : Rooted (layout depth) leaf s.store) (pos : Nat → Store (Bid 24) Box → Nat) :
    Rooted (layout depth) leaf ((List.range (depth + 1)).reverse.foldl
      (fun r d => evictOnce (layout depth) r (nodeOnPath depth (pos d r.1) d) d) (s.store, [])).1 := by
  have hloop : ∀ (ds : List Nat), (∀ d ∈ ds, d ≤ depth) → ∀ r : Store (Bid 24) Box × List Nat,
      Rooted (layout depth) leaf r.1 → Rooted (layout depth) leaf (ds.foldl
        (fun r d => evictOnce (layout depth) r (nodeOnPath depth (pos d r.1) d) d) r).1 := by
    intro ds
    induction ds with
    | nil => exact fun _ r hr => hr
    | cons d ds ih =>
      intro hds r hr
      exact ih (fun d' hd' => hds d' (List.mem_cons_of_mem _ hd')) _ (hr.evictOnce (hds d List.mem_cons_self))
  refine hloop _ (fun d hd => ?_) _ h
  rw [List.mem_reverse, List.mem_range] at hd
  omega

theorem rooted_fetchPath (h : Rooted (layout depth) leaf s.store) (pos : Nat) :
    Rooted (layout depth) leaf (s.fetchPath depth pos false).store := h.fetches (path depth pos)

/-- `WriteBox` keeps every box on its path, whatever the freed box is read as. -/
theorem rooted_writeBox (h : Rooted (layout depth) leaf s.store) {bid : Bid 24} (hbid : bid.isZero = false)
    {value : Str} {stale : Nat → Nat} {s' : PrfOram} (hw : s.writeBox depth bid value (leaf bid) stale = some s') :
    Rooted (layout depth) leaf s'.store := by
  simp only [writeBox, hbid, Bool.false_eq_true, if_false, Option.pure_def, Option.bind_eq_bind,
    Option.bind_eq_some_iff] at hw
  obtain ⟨s1, hd, he⟩ := hw
  obtain ⟨hst, -⟩ := writeData_eq_some hd
  have hf := rooted_fetchPath h (leaf bid)
  have hput : Rooted (layout depth) leaf s1.store := by
    rw [hst]
    refine ⟨fun k b hb => ?_, hf.bucket⟩
    rw [SortedMap.get?_insert] at hb
    by_cases hk : k = bid
    · rw [if_pos hk] at hb
      rw [← Option.some.inj hb, hk]
      exact ⟨rfl, rfl⟩
    · rw [if_neg hk] at hb
      exact hf.stash k b hb
  rw [← Option.some.inj he]
  exact rooted_writePath hput fun d st => match st.stash.get? bid with
    | some box => box.pos
    | none => stale d

theorem rooted_readBox (h : Rooted (layout depth) leaf s.store) {bid : Bid 24} {pos : Nat} {s' : PrfOram} {v : Str}
    (hr : s.readBox depth bid pos = some (s', v)) : Rooted (layout depth) leaf s'.store := by
  unfold readBox at hr
  split_ifs at hr
  cases hs : s.store.stash.get? bid with
  | some box =>
    simp only [hs, Option.some.injEq, Prod.mk.injEq] at hr
    rw [← hr.1]
    exact h
  | none =>
    simp only [hs, Option.some.injEq, Prod.mk.injEq] at hr
    rw [← hr.1]
    exact rooted_writePath (rooted_fetchPath h pos) fun _ _ => pos

/-! ## The answers -/

theorem readValue_eq (s : PrfOram) (bid : Bid 24) : s.readValue bid = text (s.store.stash.get? bid) := by
  unfold readValue
  cases s.store.stash.get? bid <;> rfl

/-- **`ReadBox`** finds the box in the stash or on the path. -/
theorem readBox_eq {bid : Bid 24} (hbid : bid.isZero = false) (pos : Nat) :
    (s.readBox depth bid pos).map Prod.snd = some (text (lookIn (layout depth) s.store (path depth pos) bid)) := by
  unfold readBox
  rw [hbid, if_neg (by simp)]
  cases hs : s.store.stash.get? bid with
  | some box =>
    rw [lookIn_of_stash hs]
    rfl
  | none =>
    have hget := get?_fetches (L := layout depth) s.store (path depth pos) bid
    show some ((s.fetchPath depth pos false).readValue bid) = _
    rw [readValue_eq, ← hget]
    rfl

/-- **One query**: the paths read so far make the stash. -/
theorem batchReadTurn_eq (h : Rooted (layout depth) leaf s.store) {pre : List (Bid 24 × Nat)}
    {item : Bid 24 × Nat} (hpre : ∀ j ∈ pre, j.2 < 2 ^ depth) (hpos : item.2 = leaf item.1) (hl : item.2 < 2 ^ depth)
    {s1 : PrfOram} (hs1 : Gathered (layout depth) s.store ((s.pathsRead depth pre).flatMap (path depth)) (s1.store, s1.viewmap))
    (leafs : SortedMap Nat Unit) (result : List Str) :
    ∃ s2 leafs2, batchReadTurn depth (s1, leafs, result) item = (s2, leafs2, result ++ [s.reply depth pre item]) ∧
      Gathered (layout depth) s.store ((s.pathsRead depth (pre ++ [item])).flatMap (path depth)) (s2.store, s2.viewmap) := by
  have hname : s1.store.stash.get? (Bid.ofInt (Int32.ofNat item.2)) = s.namesake depth (s.pathsRead depth pre) item.2 :=
    hs1.found _
  unfold batchReadTurn reply
  rw [pathsRead_concat]
  simp only [hname]
  cases hn : s.namesake depth (s.pathsRead depth pre) item.2 with
  | some box => exact ⟨s1, leafs, rfl, hs1⟩
  | none =>
    have hread : Gathered (layout depth) s.store ((s.pathsRead depth pre ++ [item.2]).flatMap (path depth))
        ((s1.fetchPath depth item.2 true).store, (s1.fetchPath depth item.2 true).viewmap) := by
      have hg := hs1.fetchesOnce (path depth item.2)
      rw [List.flatMap_append, List.flatMap_singleton]
      exact hg
    refine ⟨s1.fetchPath depth item.2 true, leafs.insert item.2 (), ?_, hread⟩
    have hval : (s1.fetchPath depth item.2 true).readValue item.1 =
        text (lookIn (layout depth) s.store (path depth item.2) item.1) := by
      rw [readValue_eq, hread.found item.1, hpos]
      rw [hpos] at hl
      exact congrArg text (h.lookIn_path hl (pathsRead_lt hpre))
    rw [hval]

/-- **The loop of `batchRead`.** -/
theorem batchRead_turns (h : Rooted (layout depth) leaf s.store) {queries : List (Bid 24 × Nat)}
    (hq : ∀ item ∈ queries, item.2 = leaf item.1 ∧ item.2 < 2 ^ depth) :
    ∃ s1 leafs1 result, queries.foldl (batchReadTurn depth) ({ s with viewmap := [] }, SortedMap.empty, []) =
        (s1, leafs1, result) ∧
      Gathered (layout depth) s.store ((s.pathsRead depth queries).flatMap (path depth)) (s1.store, s1.viewmap) ∧
      (result = queries.map (fun item => text (lookIn (layout depth) s.store (path depth item.2) item.1)) ↔
        Runs.Each (s.Harmless depth) [] queries) := by
  induction queries using List.reverseRecOn with
  | nil => exact ⟨_, _, _, rfl, Gathered.start s.store, iff_of_true rfl trivial⟩
  | append_singleton pre item ih =>
    have hpre : ∀ j ∈ pre, j.2 = leaf j.1 ∧ j.2 < 2 ^ depth := fun j hj => hq j (List.mem_append_left _ hj)
    obtain ⟨s1, leafs1, result, hrun, hg, hiff⟩ := ih hpre
    obtain ⟨hpos, hl⟩ := hq item (by simp)
    obtain ⟨s2, leafs2, hturn, hg2⟩ := batchReadTurn_eq h (fun j hj => (hpre j hj).2) hpos hl hg leafs1 result
    refine ⟨s2, leafs2, result ++ [s.reply depth pre item], ?_, hg2, ?_⟩
    · rw [List.foldl_append, hrun]
      exact hturn
    · rw [Runs.each_concat, List.nil_append, ← hiff, ← reply_eq_iff, List.map_append, List.map_singleton]
      constructor
      · intro he
        obtain ⟨h1, h2⟩ := List.append_inj' he rfl
        exact ⟨h1, List.singleton_inj.1 h2⟩
      · rintro ⟨h1, h2⟩
        rw [h1, h2]

end PrfOram

/-! ## Reachable states -/

/-- A single access, each identifier at its own leaf. -/
def BoxOp.Single (depth : Nat) (leaf : Bid 24 → Nat) : BoxOp → Prop
  | .writeBox bid _ pos _ => bid.isZero = false ∧ pos = leaf bid ∧ pos < 2 ^ depth
  | .readBox bid pos => bid.isZero = false ∧ pos = leaf bid ∧ pos < 2 ^ depth
  | _ => False

theorem rooted_after {depth : Nat} {leaf : Bid 24 → Nat} {ops : List BoxOp} (hok : ∀ op ∈ ops, op.Single depth leaf)
    {s : PrfOram} {outs : List (List Str)} (h : Runs.run (boxStep depth) (PrfOram.new depth) ops = some (s, outs)) :
    Rooted (layout depth) leaf s.store := by
  refine Runs.run_induct (fun is s => (∀ op ∈ is, op.Single depth leaf) → Rooted (layout depth) leaf s.store)
    (fun _ => PrfOram.rooted_new depth leaf) (fun is op s s' out ih hstep hall => ?_) h hok
  have hs := ih fun op' hop' => hall op' (List.mem_append_left _ hop')
  have hop : op.Single depth leaf := hall op (by simp)
  cases op with
  | writeBox bid value pos stale =>
    obtain ⟨hbid, rfl, -⟩ := hop
    simp only [boxStep, Option.map_eq_some_iff, Prod.mk.injEq] at hstep
    obtain ⟨s1, hw, rfl, -⟩ := hstep
    exact PrfOram.rooted_writeBox hs hbid hw
  | readBox bid pos =>
    simp only [boxStep, Option.map_eq_some_iff, Prod.mk.injEq] at hstep
    obtain ⟨⟨s1, v⟩, hr, rfl, -⟩ := hstep
    exact PrfOram.rooted_readBox hs hr
  | batchRead _ => exact hop.elim
  | batchWrite _ _ => exact hop.elim

/-- **`batchRead` against `ReadBox`.**  In every state that single accesses reach, all queries are answered
as `ReadBox` would answer them, if and only if no query meets a namesake of its leaf with other contents. -/
theorem batchRead_agrees_iff (depth : Nat) (leaf : Bid 24 → Nat) (ops : List BoxOp)
    (hok : ∀ op ∈ ops, op.Single depth leaf) (s : PrfOram) (outs : List (List Str))
    (h : Runs.run (boxStep depth) (PrfOram.new depth) ops = some (s, outs)) (queries : List (Bid 24 × Nat))
    (hq : ∀ item ∈ queries, item.1.isZero = false ∧ item.2 = leaf item.1 ∧ item.2 < 2 ^ depth) :
    ((s.batchRead depth queries).2.map some = queries.map fun item => (s.readBox depth item.1 item.2).map Prod.snd) ↔
      ∀ pre item post, queries = pre ++ item :: post → s.Harmless depth pre item := by
  obtain ⟨s1, leafs1, result, hrun, -, hiff⟩ :=
    PrfOram.batchRead_turns (rooted_after hok h) fun item hi => (hq item hi).2
  have hres : (s.batchRead depth queries).2 = result := by
    rw [PrfOram.batchRead, hrun]
  have hread : (queries.map fun item => (s.readBox depth item.1 item.2).map Prod.snd) =
      (queries.map fun item => text (lookIn (layout depth) s.store (path depth item.2) item.1)).map some := by
    rw [List.map_map]
    exact List.map_congr_left fun item hi => PrfOram.readBox_eq (hq item hi).1 item.2
  rw [hres, hread, (List.map_injective_iff.2 (Option.some_injective _)).eq_iff, hiff, Runs.each_iff_split]

/-- The box `Bid(1)` at leaf 0, and a box at leaf 1. -/
def namesakeRun : List BoxOp :=
  [.writeBox (Bid.ofInt 1) [97] 0 fun _ => 0, .writeBox (createBid [97] 5 0 1) [98] 1 fun _ => 1]

/-- The path of `Bid(1)` is read first, so that it is in the stash when leaf 1 is asked for. -/
def namesakeQueries : List (Bid 24 × Nat) := [(Bid.ofInt 1, 0), (createBid [97] 5 0 1, 1)]

def namesakeLeaf (bid : Bid 24) : Nat := if bid = Bid.ofInt 1 then 0 else 1

theorem namesakeRun_single : ∀ op ∈ namesakeRun, op.Single 1 namesakeLeaf := by
  intro op hop
  simp only [namesakeRun, List.mem_cons, List.not_mem_nil, or_false] at hop
  rcases hop with rfl | rfl
  · exact ⟨by decide +kernel, by decide +kernel, by decide⟩
  · exact ⟨by decide +kernel, by decide +kernel, by decide⟩

/-- In the other order no namesake is seen: `Bid(1)` is not in the stash when leaf 1 is asked for. -/
theorem batchRead_agrees_iff_two :
    ∃ s outs, Runs.run (boxStep 1) (PrfOram.new 1) namesakeRun = some (s, outs) ∧
      (s.batchRead 1 namesakeQueries.reverse).2.map some =
        namesakeQueries.reverse.map fun item => (s.readBox 1 item.1 item.2).map Prod.snd := by
  have hclear : (Runs.run (boxStep 1) (PrfOram.new 1) namesakeRun).any (fun r =>
      (r.1.namesake 1 (r.1.pathsRead 1 []) 1).isNone &&
        (r.1.namesake 1 (r.1.pathsRead 1 [(createBid [97] 5 0 1, 1)]) 0).isNone) = true := by decide +kernel
  obtain ⟨⟨s, outs⟩, hrun, hs⟩ := (Option.any_eq_true _ _).1 hclear
  obtain ⟨hfirst, hsecond⟩ := Bool.and_eq_true_iff.1 hs
  refine ⟨s, outs, hrun, (batchRead_agrees_iff 1 namesakeLeaf namesakeRun namesakeRun_single s outs hrun
    namesakeQueries.reverse (by decide +kernel)).2 ?_⟩
  intro pre item post he box hb
  cases pre with
  | nil =>
    obtain rfl : (createBid [97] 5 0 1, 1) = item := (List.cons.inj he).1
    rw [Option.isNone_iff_eq_none.1 hfirst] at hb
    cases hb
  | cons p pre =>
    obtain ⟨rfl, hrest⟩ := List.cons.inj he
    cases pre with
    | nil =>
      obtain rfl : (Bid.ofInt 1, 0) = item := (List.cons.inj hrest).1
      rw [Option.isNone_iff_eq_none.1 hsecond] at hb
      cases hb
    | cons p' pre => simp at hrest

/-- The second query is answered with the first box. -/
theorem batchRead_namesake :
    (∀ op ∈ namesakeRun, op.Single 1 namesakeLeaf) ∧
      (∀ item ∈ namesakeQueries, item.1.isZero = false ∧ item.2 = namesakeLeaf item.1 ∧ item.2 < 2 ^ 1) ∧
      ((Runs.run (boxStep 1) (PrfOram.new 1) namesakeRun).map fun r =>
        ((r.1.batchRead 1 namesakeQueries).2,
          namesakeQueries.map fun item => (r.1.readBox 1 item.1 item.2).map Prod.snd)) =
        some ([[97], [97]], [some [97], some [98]]) := by
  exact ⟨namesakeRun_single, by decide +kernel, by decide +kernel⟩

end Sse.Horus
