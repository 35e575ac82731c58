import Sse.Diana.Parallel

/-!
# Parallel search with deletion

With `delete_results`, the threads of `search_simple_parallel` take out what they find
while the others are still looking.  A scheduler picks, for every lookup, one of the
threads that have a leaf left.  As long as the leaves of the request have different
update tokens, the threads do not get into each other's way, and the spliced result lists
do not depend on the scheduler:

    searchTaking P usehdd edb req threads pick = search P true edb req   (searchTaking_eq)

This is about entries in RocksDB.  Without `usehdd` they are in a `std::map`, which the threads
read and erase from without a lock: the search is defined only where one thread has leaves.
-/

namespace Sse.Diana

section

variable {B T : Type*} [XorOp T] [DecidableEq B] (P : Prims B T)

/-- `get_callback` on the next leaf of thread `i`, with deletion. -/
def Threads.take (s : Threads B T) (i : Nat) : Threads B T :=
  match s.todo[i]? with
  | some (key :: rest) =>
    { todo := s.todo.set i rest
      edb := (getUnmask P true s.edb key).1
      looked := s.looked ++ [key]
      posted := s.posted ++ (getUnmask P true s.edb key).2.toList.map fun index => (index, i) }
  | _ => s

omit [XorOp T] [DecidableEq B] in
/-- The threads that have a leaf left. -/
def Threads.runnable (s : Threads B T) : List Nat :=
  (List.range s.todo.length).filter fun i => !(s.todo.getD i []).isEmpty

/-- `n` lookups, by the threads that the scheduler picks. -/
def Threads.takeAll (pick : Nat → Nat) : Nat → Threads B T → Threads B T
  | 0, s => s
  | n + 1, s => takeAll pick n (s.take P (s.runnable.getD (pick n % s.runnable.length) 0))

/-- `DianaServer::search_simple_parallel` with a list of results and with deletion: the database after all threads
are joined, and the spliced result lists; `none` also where several threads have leaves and the database is the
unlocked `curMap`, a data race. -/
def searchTaking (usehdd : Bool) (edb : B → Option T) (req : SearchRequest B) (threads_count : UInt8)
    (pick : Nat → Nat) : Option ((B → Option T) × List T) :=
  (jobs P req threads_count).bind fun todo =>
    if usehdd = false ∧ 1 < todo.countP (fun l => !l.isEmpty) then none
    else
      let s := (Threads.start todo edb).takeAll P pick todo.flatten.length
      some (s.edb, s.resultLists threads_count)

end

/-! ## Threads that take -/

section

variable {B T : Type*} [XorOp T] [DecidableEq B] {P : Prims B T}

/-- A lookup with deletion. -/
theorem getUnmask_take (edb : B → Option T) (key : B) :
    getUnmask P true edb key = (Function.update edb (P.derive key false) none, found P edb key) := by
  unfold getUnmask found
  cases h : edb (P.derive key false) with
  | none =>
    have hself : Function.update edb (P.derive key false) none = edb := by rw [← h, Function.update_eq_self]
    rw [hself]
    rfl
  | some index => simp

omit [XorOp T] [DecidableEq B] in
/-- In lists without repetition, a place in one of them is no place before it, or in another. -/
theorem nodup_flatten_split {α : Type*} {L : List (List α)} (h : L.flatten.Nodup) {i : Nat} {a b : List α} {x : α}
    (hi : L.getD i [] = a ++ x :: b) {j : Nat} {c d : List α} (hj : L.getD j [] = c ++ d) (hc : j = i → c = a) :
    x ∉ c := by
  intro hx
  obtain ⟨hnd, hdis⟩ := List.nodup_flatten.1 h
  have hget : ∀ k, (∃ y, y ∈ L.getD k []) → ∃ hk : k < L.length, L.getD k [] = L[k] := by
    rintro k ⟨y, hy⟩
    by_cases hk : k < L.length
    · exact ⟨hk, by simp [List.getD, List.getElem?_eq_getElem hk]⟩
    · simp [List.getD, List.getElem?_eq_none (Nat.le_of_not_lt hk)] at hy
  have hxi : x ∈ L.getD i [] := by
    rw [hi]
    simp
  have hxj : x ∈ L.getD j [] := by
    rw [hj]
    exact List.mem_append_left _ hx
  obtain ⟨hil, hie⟩ := hget i ⟨x, hxi⟩
  obtain ⟨hjl, hje⟩ := hget j ⟨x, hxj⟩
  by_cases hij : j = i
  · subst hij
    rw [hc rfl] at hx
    have hnodup := hnd _ (List.getElem_mem hil)
    rw [← hie, hi] at hnodup
    exact (List.nodup_append.1 hnodup).2.2 x hx x List.mem_cons_self rfl
  · have hdj := List.pairwise_iff_getElem.1 hdis
    rcases Nat.lt_or_gt_of_ne hij with hlt | hlt
    · exact hdj j i hjl hil hlt (hje ▸ hxj) (hie ▸ hxi)
    · exact hdj i j hil hjl hlt (hie ▸ hxi) (hje ▸ hxj)

/-- What the threads have taken: thread `i` has looked up the leaves `past i` of its list, as if it were alone. -/
structure Threads.Took (P : Prims B T) (todo : List (List B)) (edb : B → Option T) (past : Nat → List B)
    (s : Threads B T) : Prop where
  split : ∀ i, todo.getD i [] = past i ++ s.todo.getD i []
  length : s.todo.length = todo.length
  taken : ∀ i, ∀ key ∈ past i, s.edb (P.derive key false) = none
  kept : ∀ t, (∀ i, ∀ key ∈ past i, t ≠ P.derive key false) → s.edb t = edb t
  posted : ∀ i, (s.posted.filter (·.2 = i)).map Prod.fst = (past i).filterMap (found P edb)

omit [DecidableEq B] in
theorem Threads.took_start (todo : List (List B)) (edb : B → Option T) :
    Took P todo edb (fun _ => []) (.start todo edb) :=
  ⟨fun _ => rfl, rfl, fun _ _ hk => (List.not_mem_nil hk).elim, fun _ _ => rfl, fun _ => rfl⟩

/-- **One lookup.** -/
theorem Threads.Took.take {todo : List (List B)} {edb : B → Option T} {past : Nat → List B} {s : Threads B T}
    (h : Took P todo edb past s) (hn : (todo.flatten.map (P.derive · false)).Nodup) {i : Nat} {key : B} {rest : List B}
    (hi : s.todo[i]? = some (key :: rest)) :
    Took P todo edb (Function.update past i (past i ++ [key])) (s.take P i) := by
  have hget : s.todo.getD i [] = key :: rest := by
    rw [List.getD, hi]
    rfl
  have hilt : i < s.todo.length := (List.getElem?_eq_some_iff.1 hi).1
  -- no thread has taken this token
  have hfresh : ∀ j, ∀ k ∈ past j, P.derive key false ≠ P.derive k false := by
    intro j k hk e
    have hj : P.derive key false ∈ (past j).map (P.derive · false) := e ▸ List.mem_map_of_mem hk
    have hmap : ∀ k, (todo.map (List.map (P.derive · false))).getD k [] = (todo.getD k []).map (P.derive · false) := by
      intro k
      rw [List.getD, List.getD, List.getElem?_map]
      cases todo[k]? <;> rfl
    rw [List.map_flatten] at hn
    refine nodup_flatten_split hn (i := i) (j := j) (x := P.derive key false)
      (a := (past i).map (P.derive · false)) (b := rest.map (P.derive · false)) (c := (past j).map (P.derive · false))
      (d := (s.todo.getD j []).map (P.derive · false)) ?_ ?_ ?_ hj
    · rw [hmap, h.split i, hget, List.map_append, List.map_cons]
    · rw [hmap, h.split j, List.map_append]
    · rintro rfl
      rfl
  have hfound : found P s.edb key = found P edb key := by
    unfold found
    rw [h.kept _ hfresh]
  unfold Threads.take
  rw [hi]
  simp only [getUnmask_take, hfound]
  have hpast : ∀ j k, k ∈ Function.update past i (past i ++ [key]) j ↔ k ∈ past j ∨ (j = i ∧ k = key) := by
    intro j k
    by_cases hj : j = i
    · subst hj
      simp
    · simp [hj]
  refine ⟨fun j => ?_, ?_, fun j k hk => ?_, fun t ht => ?_, fun j => ?_⟩
  · by_cases hj : j = i
    · subst hj
      rw [Function.update_self, h.split j, hget]
      simp [List.getD, List.getElem?_set_self hilt]
    · have hij : i ≠ j := fun e => hj e.symm
      rw [Function.update_of_ne hj, h.split j]
      simp [List.getD, List.getElem?_set_ne hij]
  · rw [List.length_set, h.length]
  · show Function.update s.edb (P.derive key false) none (P.derive k false) = none
    rw [Function.update_apply]
    split_ifs with he
    · rfl
    · rcases (hpast j k).1 hk with hk | ⟨-, rfl⟩
      · exact h.taken j k hk
      · exact absurd rfl he
  · show Function.update s.edb (P.derive key false) none t = edb t
    rw [Function.update_of_ne (ht i key ((hpast i key).2 (.inr ⟨rfl, rfl⟩)))]
    exact h.kept t fun j k hk => ht j k ((hpast j k).2 (.inl hk))
  · rw [List.filter_append, List.map_append, h.posted]
    by_cases hj : j = i
    · subst hj
      rw [Function.update_self, List.filterMap_append]
      cases hf : found P edb key <;> simp [hf]
    · have hij : i ≠ j := fun e => hj e.symm
      rw [Function.update_of_ne hj]
      cases found P edb key <;> simp [hij]

/-- **All lookups**, by induction on the leaves that are left. -/
theorem Threads.Took.takeAll {todo : List (List B)} {edb : B → Option T} {past : Nat → List B} {s : Threads B T}
    (h : Took P todo edb past s) (hn : (todo.flatten.map (P.derive · false)).Nodup) (pick : Nat → Nat) {n : Nat}
    (hlen : s.todo.flatten.length = n) :
    ∃ past', Took P todo edb past' (s.takeAll P pick n) ∧ (s.takeAll P pick n).todo.flatten = [] := by
  induction n generalizing s past with
  | zero => exact ⟨past, h, List.length_eq_zero_iff.1 hlen⟩
  | succ n ih =>
    have hmem : ∀ i ∈ s.runnable, ∃ key rest, s.todo[i]? = some (key :: rest) := by
      intro i hi
      obtain ⟨hlt, hne⟩ := List.mem_filter.1 hi
      rw [List.mem_range] at hlt
      have hget : s.todo.getD i [] = s.todo[i] := by simp [List.getD, List.getElem?_eq_getElem hlt]
      rw [hget] at hne
      obtain ⟨key, rest, e⟩ := List.exists_cons_of_ne_nil (l := s.todo[i]) (by simpa using hne)
      exact ⟨key, rest, by rw [List.getElem?_eq_getElem hlt, e]⟩
    -- as long as a leaf is left, a thread can run
    have hpos : 0 < s.runnable.length := by
      apply List.length_pos_of_ne_nil
      intro hnil
      have hflat : s.todo.flatten = [] := by
        rw [List.flatten_eq_nil_iff]
        intro l hl
        obtain ⟨i, hi⟩ := List.mem_iff_getElem?.1 hl
        by_contra hne
        have hr : i ∈ s.runnable := by
          refine List.mem_filter.2 ⟨List.mem_range.2 (List.getElem?_eq_some_iff.1 hi).1, ?_⟩
          rw [List.getD, hi]
          simpa using hne
        rw [hnil] at hr
        cases hr
      rw [hflat] at hlen
      cases hlen
    have hlt : pick n % s.runnable.length < s.runnable.length := Nat.mod_lt _ hpos
    have hpicked : s.runnable.getD (pick n % s.runnable.length) 0 ∈ s.runnable := by
      rw [List.getD, List.getElem?_eq_getElem hlt]
      exact List.getElem_mem hlt
    obtain ⟨key, rest, hi⟩ := hmem _ hpicked
    refine ih (h.take hn hi) ?_
    have hperm := (flatten_set_perm hi).length_eq
    rw [List.length_cons, hlen] at hperm
    have htodo : (s.take P (s.runnable.getD (pick n % s.runnable.length) 0)).todo =
        s.todo.set (s.runnable.getD (pick n % s.runnable.length) 0) rest := by
      unfold Threads.take
      rw [hi]
    rw [htodo]
    omega

omit [XorOp T] [DecidableEq B] in
theorem flatMap_getD {α : Type*} (L : List (List α)) {n : Nat} (hn : L.length ≤ n) :
    (List.range n).flatMap (fun i => L.getD i []) = L.flatten := by
  induction L generalizing n with
  | nil => simp
  | cons l L ih =>
    obtain ⟨m, rfl⟩ : ∃ m, n = m + 1 := ⟨n - 1, by rw [List.length_cons] at hn; omega⟩
    rw [List.range_succ_eq_map, List.flatMap_cons, List.flatMap_map, List.flatten_cons]
    exact congrArg (l ++ ·) (ih (by rw [List.length_cons] at hn; omega))

omit [XorOp T] [DecidableEq B] in
/-- No more threads have leaves than there are leaves. -/
theorem countP_nonempty_le {α : Type*} (L : List (List α)) : L.countP (fun l => !l.isEmpty) ≤ L.flatten.length := by
  induction L with
  | nil => exact Nat.le_refl _
  | cons l L ih =>
    rw [List.countP_cons, List.flatten_cons, List.length_append]
    cases l with
    | nil => simpa using ih
    | cons a l =>
      simp only [List.isEmpty_cons, Bool.not_false, if_true, List.length_cons]
      omega

/-- **Parallel search with deletion is sequential search with deletion**, for every scheduler. -/
theorem searchTaking_eq (hs : Splits P.derive P.derive32) (edb : B → Option T) {req : SearchRequest B}
    (hne : req.add_count ≠ 0 → req.token_list ≠ [])
    (hcap : (leaves P.derive32 req.token_list).length ≤ req.add_count.toNat)
    (hn : ((leaves P.derive32 req.token_list).map (P.derive · false)).Nodup) {threads_count : UInt8}
    (ht : 1 ≤ threads_count) {usehdd : Bool} (hone : usehdd = true ∨ (leaves P.derive32 req.token_list).length ≤ 1)
    (pick : Nat → Nat) : searchTaking P usehdd edb req threads_count pick = some (search P true edb req) := by
  obtain ⟨todo, htodo, hlen, hflat⟩ : ∃ todo, jobs P req threads_count = some todo ∧
      todo.length ≤ threads_count.toNat ∧ todo.flatten = leaves P.derive32 req.token_list := by
    by_cases hz : req.add_count = 0
    · rw [hz, UInt32.toNat_zero, Nat.le_zero, List.length_eq_zero_iff] at hcap
      exact ⟨[], by rw [jobs, if_pos hz], Nat.zero_le _, hcap.symm⟩
    · exact jobs_eq hs (hne hz) hcap ht
  rw [← hflat] at hn
  obtain ⟨past, htook, hdone⟩ := (Threads.took_start (P := P) todo edb).takeAll hn pick
    (n := todo.flatten.length) rfl
  have hpast : ∀ i, past i = todo.getD i [] := by
    intro i
    have hnil : ((Threads.start todo edb).takeAll P pick todo.flatten.length).todo.getD i [] = [] := by
      rw [List.getD]
      cases hi : ((Threads.start todo edb).takeAll P pick todo.flatten.length).todo[i]? with
      | none => rfl
      | some l => exact List.flatten_eq_nil_iff.1 hdone l (List.mem_of_getElem? hi)
    rw [htook.split i, hnil, List.append_nil]
  have hrace : ¬ (usehdd = false ∧ 1 < todo.countP (fun l => !l.isEmpty)) := by
    rintro ⟨hhdd, hlt⟩
    rcases hone with h | h
    · rw [hhdd] at h
      cases h
    · have := countP_nonempty_le todo
      rw [hflat] at this
      omega
  unfold searchTaking search
  rw [htodo, Option.bind_some, if_neg hrace, ← hflat, searchKeys_delete P edb hn]
  refine congrArg some (Prod.ext (funext fun t => ?_) ?_)
  · show ((Threads.start todo edb).takeAll P pick todo.flatten.length).edb t =
      if t ∈ todo.flatten.map (P.derive · false) then none else edb t
    have hmem : ∀ k, k ∈ todo.flatten ↔ ∃ i, k ∈ past i := by
      intro k
      simp only [hpast, ← flatMap_getD todo (n := todo.length) le_rfl, List.mem_flatMap, List.mem_range]
      constructor
      · rintro ⟨i, -, hi⟩
        exact ⟨i, hi⟩
      · rintro ⟨i, hi⟩
        refine ⟨i, ?_, hi⟩
        by_contra hge
        rw [List.getD, List.getElem?_eq_none (Nat.le_of_not_lt hge)] at hi
        cases hi
    split_ifs with ht
    · obtain ⟨k, hk, rfl⟩ := List.mem_map.1 ht
      obtain ⟨i, hi⟩ := (hmem k).1 hk
      exact htook.taken i k hi
    · apply htook.kept
      rintro i k hk rfl
      exact ht (List.mem_map_of_mem ((hmem k).2 ⟨i, hk⟩))
  · show (List.range threads_count.toNat).flatMap _ = _
    have hlists : (fun i => (((Threads.start todo edb).takeAll P pick todo.flatten.length).posted.filter (·.2 = i)).map
        Prod.fst) = fun i => (todo.getD i []).filterMap (found P edb) := by
      funext i
      rw [htook.posted, hpast]
    rw [hlists, ← List.filterMap_flatMap, flatMap_getD todo hlen]

end

end Sse.Diana
