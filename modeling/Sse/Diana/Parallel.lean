import Sse.Diana.Core

/-!
# Parallel search

`DianaServer::search_simple_parallel` cuts the leaf numbers `0 .. add_count - 1` into one
interval for each thread.  Every thread finds its interval in the list of subtrees by
itself, and looks up the leaves there in order.  The threads run at the same time: a step
is a lookup by any of them, with its call of the callback.

    the jobs cut the leaves of the request into pieces                   (jobs_eq)
    every complete run looks up each leaf once and delivers what
    the search on one thread delivers                                    (parallel_search_agrees)
-/

namespace Sse.Diana

section

variable {B T : Type*} (P : Prims B T)

/-- The loop that starts the threads `t, t + 1, ..`: the `min_index` and `max_index` of each. -/
def threadRanges (add_count step remaining : Nat) : Nat → Nat → Nat → Nat → List (Nat × Nat)
  | 0, _, _, _ => []
  | k + 1, t, min, max =>
    let max := if t < remaining then max + 1 else max
    (min, Nat.min max add_count - 1) :: threadRanges add_count step remaining k (t + 1) max (max + step)

/-- The leaves that each thread derives; `none` where a job reads past the end of an empty token list, or
`derive_leaves` throws. -/
def jobs (req : SearchRequest B) (threads_count : UInt8) : Option (List (List B)) :=
  if req.add_count = 0 then some []
  else match req.token_list with
    | [] => none
    | ts =>
      let add_count := req.add_count.toNat
      let threads_count := Nat.min threads_count.toNat add_count
      let step := add_count / threads_count
      let remaining := add_count % threads_count
      (threadRanges add_count step remaining threads_count 0 0 step).mapM fun r => jobKeys P r.1 r.2 ts

/-- The threads at work: the leaves each has still to look up, the leaf tokens looked up so far, and the
calls of `post_callback` with the thread's number. -/
structure Threads (B T : Type*) where
  todo : List (List B)
  edb : B → Option T
  looked : List B
  posted : List (T × Nat)

def Threads.start (todo : List (List B)) (edb : B → Option T) : Threads B T := ⟨todo, edb, [], []⟩

variable [XorOp T] [DecidableEq B]

/-- A step of one thread: `get_callback` on its next leaf, without deletion. -/
inductive Threads.Step : Threads B T → Threads B T → Prop
  | lookup {s : Threads B T} (i : Nat) (key : B) (rest : List B) (h : s.todo[i]? = some (key :: rest)) :
    Threads.Step s {
      todo := s.todo.set i rest
      edb := (getUnmask P false s.edb key).1
      looked := s.looked ++ [key]
      posted := s.posted ++ (getUnmask P false s.edb key).2.toList.map fun index => (index, i) }

/-- All threads can be joined. -/
def Threads.Done (s : Threads B T) : Prop := ∀ l ∈ s.todo, l = []

/-- The list overload: `result_lists[0]`, with the lists of the other threads spliced to it. -/
def Threads.resultLists (s : Threads B T) (threads_count : UInt8) : List T :=
  (List.range threads_count.toNat).flatMap fun i => (s.posted.filter (·.2 = i)).map Prod.fst

end

/-! ## The intervals -/

section

variable {B T : Type*} {P : Prims B T}

/-- **The intervals** are in order, and one begins where the one before it ends. -/
theorem flatMap_threadRanges {α : Type*} (xs : List α) {add_count step remaining threads : Nat} (hstep : 0 < step)
    (hn : add_count = threads * step + remaining) {k t min : Nat} (hk : t + k = threads) (hrem : remaining ≤ threads)
    (hmin : min = t * step + Nat.min t remaining) :
    (∀ r ∈ threadRanges add_count step remaining k t min (min + step), r.1 ≤ r.2) ∧
      (threadRanges add_count step remaining k t min (min + step)).flatMap (fun r => slice xs r.1 r.2) =
        (xs.drop min).take (add_count - min) := by
  induction k generalizing t min with
  | zero =>
    obtain rfl : t = threads := by omega
    have hend : min = add_count := by
      rw [hmin, hn, show Nat.min t remaining = remaining from Nat.min_eq_right hrem]
    simp [threadRanges, hend]
  | succ k ih =>
    -- where this interval ends and the next begins
    set next := if t < remaining then min + step + 1 else min + step with hnext
    have hnext' : next = (t + 1) * step + Nat.min (t + 1) remaining := by
      have hmul : (t + 1) * step = t * step + step := Nat.succ_mul t step
      have hminAdd : Nat.min (t + 1) remaining = Nat.min t remaining + if t < remaining then 1 else 0 := by
        show Min.min (t + 1) remaining = Min.min t remaining + _
        split_ifs <;> omega
      rw [hnext, hmul, hminAdd, hmin]
      split_ifs <;> omega
    have hgrow : min < next := by
      rw [hnext]
      split_ifs <;> omega
    have hcap : next ≤ add_count := by
      have hmul : (t + 1) * step ≤ threads * step := Nat.mul_le_mul_right step (by omega)
      have hr : Nat.min (t + 1) remaining ≤ remaining := Nat.min_le_right _ _
      omega
    obtain ⟨hle, hrest⟩ := ih (by omega) hnext'
    have hlast : Nat.min next add_count - 1 = next - 1 := by rw [show Nat.min next add_count = next from Nat.min_eq_left hcap]
    constructor
    · intro r hr
      unfold threadRanges at hr
      simp only [← hnext, hlast, List.mem_cons] at hr
      rcases hr with rfl | hr
      · show min ≤ next - 1
        omega
      · exact hle r hr
    · unfold threadRanges
      simp only [← hnext, hlast, List.flatMap_cons, hrest]
      unfold slice
      rw [show next - 1 + 1 - min = next - min by omega,
        show add_count - min = (next - min) + (add_count - next) by omega, List.take_add, List.drop_drop,
        show min + (next - min) = next by omega]

theorem length_threadRanges (add_count step remaining k t min max : Nat) :
    (threadRanges add_count step remaining k t min max).length = k := by
  induction k generalizing t min max with
  | zero => rfl
  | succ k ih =>
    unfold threadRanges
    rw [List.length_cons, ih]

/-- **The jobs** cut the leaves of the request into pieces, in order. -/
theorem jobs_eq (hs : Splits P.derive P.derive32) {req : SearchRequest B} (hne : req.token_list ≠ [])
    (hcap : (leaves P.derive32 req.token_list).length ≤ req.add_count.toNat) {threads_count : UInt8}
    (ht : 1 ≤ threads_count) :
    ∃ todo, jobs P req threads_count = some todo ∧ todo.length ≤ threads_count.toNat ∧
      todo.flatten = leaves P.derive32 req.token_list := by
  obtain ⟨ts, n⟩ := req
  obtain ⟨⟨K, d⟩, l, rfl⟩ := List.exists_cons_of_ne_nil hne
  have hpos : 0 < n.toNat := by
    have hlen := length_deriveAllLeaves hs K d
    have hpow : 0 < 2 ^ d := Nat.two_pow_pos d
    have happ : (leaves P.derive32 ((K, d) :: l)).length =
        (deriveAllLeaves P.derive32 K d).length + (leaves P.derive32 l).length := List.length_append
    show 0 < n.toNat
    replace hcap : (leaves P.derive32 ((K, d) :: l)).length ≤ n.toNat := hcap
    omega
  have hn : n ≠ 0 := by
    rintro rfl
    exact absurd hpos (by decide)
  have hthreads : 1 ≤ threads_count.toNat := ht
  unfold jobs
  simp only [if_neg hn]
  set threads := Nat.min threads_count.toNat n.toNat with hthr
  have hmin : threads ≤ threads_count.toNat ∧ threads ≤ n.toNat ∧ 0 < threads := by
    refine ⟨Nat.min_le_left _ _, Nat.min_le_right _ _, ?_⟩
    exact Nat.lt_min.2 ⟨hthreads, hpos⟩
  have hstart : 0 = 0 * (n.toNat / threads) + Nat.min 0 (n.toNat % threads) := by simp
  obtain ⟨hle, hcut⟩ := flatMap_threadRanges (leaves P.derive32 ((K, d) :: l)) (Nat.div_pos hmin.2.1 hmin.2.2)
    (Nat.div_add_mod n.toNat threads).symm (Nat.zero_add threads) (Nat.le_of_lt (Nat.mod_lt _ hmin.2.2)) hstart
  rw [Nat.zero_add] at hle hcut
  refine ⟨_, @mapM_eq_some_map _ _ _ (fun r => slice (leaves P.derive32 ((K, d) :: l)) r.1 r.2) _
    fun r hr => jobKeys_slice hs (hle r hr) _, ?_, ?_⟩
  · rw [List.length_map, length_threadRanges]
    exact hmin.1
  · rw [← List.flatMap_def, hcut, List.drop_zero, Nat.sub_zero, List.take_of_length_le hcap]

end

/-! ## Runs -/

section

variable {B T : Type*} {P : Prims B T}

/-- Taking the next leaf of a thread. -/
theorem flatten_set_perm {α : Type*} {todo : List (List α)} {i : Nat} {key : α} {rest : List α}
    (h : todo[i]? = some (key :: rest)) : todo.flatten.Perm (key :: (todo.set i rest).flatten) := by
  induction todo generalizing i with
  | nil => simp at h
  | cons l todo ih =>
    cases i with
    | zero =>
      rw [List.getElem?_cons_zero, Option.some.injEq] at h
      rw [h]
      exact List.Perm.refl _
    | succ i =>
      rw [List.getElem?_cons_succ] at h
      rw [List.set_cons_succ, List.flatten_cons, List.flatten_cons]
      exact ((ih h).append_left l).trans List.perm_middle

/-- Sorting by thread number keeps the elements. -/
theorem flatMap_filter_perm {α : Type*} (l : List (α × Nat)) (n : Nat) :
    ((List.range n).flatMap fun i => (l.filter (·.2 = i)).map Prod.fst).Perm ((l.filter (·.2 < n)).map Prod.fst) := by
  induction n with
  | zero => simp
  | succ n ih =>
    have hlow : (l.filter (·.2 < n + 1)).filter (·.2 < n) = l.filter (·.2 < n) := by
      rw [List.filter_filter]
      apply List.filter_congr
      intro x _
      simp only [← Bool.decide_and, decide_eq_decide]
      omega
    have hnew : (l.filter (·.2 < n + 1)).filter (fun x => !decide (x.2 < n)) = l.filter (·.2 = n) := by
      rw [List.filter_filter]
      apply List.filter_congr
      intro x _
      simp only [← decide_not, ← Bool.decide_and, decide_eq_decide]
      omega
    have hsplit := List.filter_append_perm (fun x : α × Nat => decide (x.2 < n)) (l.filter (·.2 < n + 1))
    rw [hlow, hnew] at hsplit
    rw [List.range_succ, List.flatMap_append, List.flatMap_singleton]
    refine (ih.append_right _).trans ?_
    rw [← List.map_append]
    exact hsplit.map _

variable [XorOp T] [DecidableEq B]

/-- What the threads have done so far, in any order. -/
structure Threads.Inv (P : Prims B T) (todo : List (List B)) (edb : B → Option T) (s : Threads B T) : Prop where
  kept : s.edb = edb
  looked : (s.looked ++ s.todo.flatten).Perm todo.flatten
  posted : s.posted.map Prod.fst = s.looked.filterMap (found P edb)
  ids : ∀ p ∈ s.posted, p.2 < todo.length
  length : s.todo.length = todo.length

omit [DecidableEq B] in
theorem Threads.inv_start (todo : List (List B)) (edb : B → Option T) : Inv P todo edb (.start todo edb) :=
  ⟨rfl, List.Perm.refl _, rfl, by simp [start], rfl⟩

/-- A lookup without deletion. -/
theorem getUnmask_keep (edb : B → Option T) (key : B) : getUnmask P false edb key = (edb, found P edb key) := by
  unfold getUnmask found
  cases edb (P.derive key false) <;> rfl

/-- **One step** of any thread. -/
theorem Threads.Inv.step {todo : List (List B)} {edb : B → Option T} {s s' : Threads B T} (h : Inv P todo edb s)
    (hs : Step P s s') : Inv P todo edb s' := by
  obtain ⟨i, key, rest, hi⟩ := hs
  rw [h.kept, getUnmask_keep]
  refine ⟨rfl, ?_, ?_, ?_, ?_⟩
  · show ((s.looked ++ [key]) ++ (s.todo.set i rest).flatten).Perm todo.flatten
    rw [List.append_assoc]
    exact ((flatten_set_perm hi).symm.append_left s.looked).trans h.looked
  · show (s.posted ++ (found P edb key).toList.map fun index => (index, i)).map Prod.fst = _
    rw [List.map_append, h.posted, List.filterMap_append, List.map_map]
    cases hf : found P edb key <;> simp [hf]
  · intro p hp
    rcases List.mem_append.1 hp with hp | hp
    · exact h.ids p hp
    · obtain ⟨x, -, rfl⟩ := List.mem_map.1 hp
      rw [← h.length]
      exact (List.getElem?_eq_some_iff.1 hi).1
  · show (s.todo.set i rest).length = todo.length
    rw [List.length_set]
    exact h.length

/-- **Every run.** -/
theorem Threads.inv_run {todo : List (List B)} {edb : B → Option T} {s : Threads B T}
    (h : Relation.ReflTransGen (Step P) (.start todo edb) s) : Inv P todo edb s := by
  induction h with
  | refl => exact inv_start todo edb
  | tail _ hs ih => exact ih.step hs

/-- **Parallel search agrees with sequential search.**  The jobs are defined, and whatever the order of the
threads' steps, they never stop before all is done, and then every leaf of the request has been looked up once
and both overloads have delivered what `search` delivers, in some order. -/
theorem parallel_search_agrees (hs : Splits P.derive P.derive32) (edb : B → Option T) (req : SearchRequest B)
    (hne : req.token_list ≠ []) (hcap : (leaves P.derive32 req.token_list).length ≤ req.add_count.toNat)
    (threads_count : UInt8) (ht : 1 ≤ threads_count) :
    ∃ todo, jobs P req threads_count = some todo ∧
      ∀ s, Relation.ReflTransGen (Threads.Step P) (.start todo edb) s →
        s.edb = edb ∧ (¬ s.Done → ∃ s', Threads.Step P s s') ∧
        (s.Done → s.looked.Perm (leaves P.derive32 req.token_list) ∧
          (s.posted.map Prod.fst).Perm (search P false edb req).2 ∧
          (s.resultLists threads_count).Perm (search P false edb req).2) := by
  obtain ⟨todo, htodo, hlen, hflat⟩ := jobs_eq hs hne hcap ht
  refine ⟨todo, htodo, fun s hrun => ?_⟩
  have hinv := Threads.inv_run hrun
  refine ⟨hinv.kept, fun hnot => ?_, fun hdone => ?_⟩
  · -- some thread has a leaf left
    unfold Threads.Done at hnot
    push Not at hnot
    obtain ⟨l, hl, hne⟩ := hnot
    obtain ⟨i, hi⟩ := List.mem_iff_getElem?.1 hl
    obtain ⟨key, rest, rfl⟩ := List.exists_cons_of_ne_nil hne
    exact ⟨_, .lookup i key rest hi⟩
  · have hnil : s.todo.flatten = [] := List.flatten_eq_nil_iff.2 hdone
    have hlooked := hinv.looked
    rw [hnil, List.append_nil, hflat] at hlooked
    have hposted : (s.posted.map Prod.fst).Perm (search P false edb req).2 := by
      rw [hinv.posted, search, searchKeys_keep]
      exact hlooked.filterMap _
    refine ⟨hlooked, hposted, ((flatMap_filter_perm s.posted threads_count.toNat).trans ?_).trans hposted⟩
    rw [List.filter_eq_self.2 fun p hp => decide_eq_true (lt_of_lt_of_le (hinv.ids p hp) hlen)]

end

/-- Two threads on a subtree of two leaves and a single leaf, of which one entry is stored. -/
theorem parallel_search_agrees_two :
    let P := freePrims (fun _ => (9 : UInt64))
    let edb : Str → Option UInt64 := fun t => if t = [97, 1, 0] then some 12 else none
    let req : SearchRequest Str := ⟨[([97], 1), ([98], 0)], 4⟩
    ∃ todo, jobs P req 2 = some todo ∧
      ∀ s, Relation.ReflTransGen (Threads.Step P) (.start todo edb) s →
        s.edb = edb ∧ (¬ s.Done → ∃ s', Threads.Step P s s') ∧
        (s.Done → s.looked.Perm (leaves P.derive32 req.token_list) ∧
          (s.posted.map Prod.fst).Perm (search P false edb req).2 ∧
          (s.resultLists 2).Perm (search P false edb req).2) :=
  parallel_search_agrees (freePrims_splits _) _ ⟨[([97], 1), ([98], 0)], 4⟩ (by decide) (by decide) 2 (by decide)

end Sse.Diana
