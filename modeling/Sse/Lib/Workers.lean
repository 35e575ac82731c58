import Mathlib

/-!
# Threads and worker pools, in any order of steps

Threads run through their actions: they put results out and hand tasks to pools.  A pool has
a queue and workers that take tasks from it; a task is a list of actions again.  The main
thread joins the threads, then each pool in turn: it tells the pool to stop and waits for its
workers, which leave once the queue is empty.  Handing a task to a stopped pool throws.

A step is one action of one agent, or of the main thread.  For tasks that only hand on to
later pools:

* `served`: nothing is ever handed to a stopped pool, the main thread can always get on, and
  when it is through, the results are those of all threads and tasks.
* `length_le_gauge`: every run is finite, with a bound that the start tells.
-/

namespace Workers

variable {T R : Type*}

inductive Act (T R : Type*) where
  | emit (r : R)
  | enqueue (t : T)

/-- A thread, or a worker of the pool `home`. -/
structure Agent (T R : Type*) where
  home : Option ℕ
  todo : List (Act T R)
  returned : Bool

/-- What the main thread does: it waits for an agent, or stops a pool. -/
inductive Join where
  | join (i : ℕ)
  | stop (p : ℕ)

structure State (T R : Type*) where
  agents : List (Agent T R)
  queue : ℕ → List T
  stop : ℕ → Bool
  main : List Join
  out : List R
  crashed : Bool

section

variable (pool : T → ℕ) (body : T → List (Act T R))

inductive Move : State T R → State T R → Prop
  | emit {s : State T R} (i : ℕ) (home : Option ℕ) (r : R) (rest : List (Act T R))
      (hi : s.agents[i]? = some ⟨home, .emit r :: rest, false⟩) :
      Move s { s with agents := s.agents.set i ⟨home, rest, false⟩, out := s.out ++ [r] }
  | enqueue {s : State T R} (i : ℕ) (home : Option ℕ) (t : T) (rest : List (Act T R))
      (hi : s.agents[i]? = some ⟨home, .enqueue t :: rest, false⟩) (hs : s.stop (pool t) = false) :
      Move s { s with
        agents := s.agents.set i ⟨home, rest, false⟩
        queue := Function.update s.queue (pool t) (s.queue (pool t) ++ [t]) }
  | throw {s : State T R} (i : ℕ) (home : Option ℕ) (t : T) (rest : List (Act T R))
      (hi : s.agents[i]? = some ⟨home, .enqueue t :: rest, false⟩) (hs : s.stop (pool t) = true) :
      Move s { s with crashed := true }
  | pop {s : State T R} (i p : ℕ) (t : T) (q : List T) (hi : s.agents[i]? = some ⟨some p, [], false⟩)
      (hq : s.queue p = t :: q) :
      Move s { s with
        agents := s.agents.set i ⟨some p, body t, false⟩
        queue := Function.update s.queue p q }
  | leave {s : State T R} (i p : ℕ) (hi : s.agents[i]? = some ⟨some p, [], false⟩) (hq : s.queue p = [])
      (hs : s.stop p = true) : Move s { s with agents := s.agents.set i ⟨some p, [], true⟩ }
  | finish {s : State T R} (i : ℕ) (hi : s.agents[i]? = some ⟨none, [], false⟩) :
      Move s { s with agents := s.agents.set i ⟨none, [], true⟩ }
  | join {s : State T R} (i : ℕ) (rest : List Join) (a : Agent T R) (hm : s.main = .join i :: rest)
      (hi : s.agents[i]? = some a) (hr : a.returned = true) : Move s { s with main := rest }
  | stop {s : State T R} (p : ℕ) (rest : List Join) (hm : s.main = .stop p :: rest) :
      Move s { s with stop := Function.update s.stop p true, main := rest }

/-- Once an exception has left a thread the process is gone. -/
def Step (s s' : State T R) : Prop := s.crashed = false ∧ Move pool body s s'

/-- The agents with a home, by number. -/
def residents (agents : List (Agent T R)) (home : Option ℕ) : List ℕ :=
  (List.range agents.length).filter fun i => agents[i]?.map Agent.home = some home

/-- The threads with their actions, and pools of the given sizes. -/
def start (threads : List (List (Act T R))) (workers : List ℕ) : State T R :=
  let agents := threads.map (fun todo => ⟨none, todo, false⟩) ++
    workers.zipIdx.flatMap fun w => List.replicate w.1 ⟨some w.2, [], false⟩
  { agents := agents
    queue := fun _ => []
    stop := fun _ => false
    main := (residents agents none).map .join ++
      (List.range workers.length).flatMap fun p => .stop p :: (residents agents (some p)).map .join
    out := []
    crashed := false }

end

/-! ## Sums over a state -/

section

variable {M : Type*} [AddCommMonoid M]

/-- One agent changes, the others count as before. -/
theorem sum_map_set {α : Type*} (f : α → M) {l : List α} {i : ℕ} {a : α} (hi : l[i]? = some a) :
    ∃ r, (l.map f).sum = f a + r ∧ ∀ b, ((l.set i b).map f).sum = f b + r := by
  induction l generalizing i with
  | nil => simp at hi
  | cons c l ih =>
    cases i with
    | zero =>
      rw [List.getElem?_cons_zero, Option.some.injEq] at hi
      subst hi
      exact ⟨(l.map f).sum, by simp, fun b => by simp⟩
    | succ i =>
      rw [List.getElem?_cons_succ] at hi
      obtain ⟨r, hl, hset⟩ := ih hi
      refine ⟨f c + r, ?_, fun b => ?_⟩
      · rw [List.map_cons, List.sum_cons, hl, add_left_comm]
      · rw [List.set_cons_succ, List.map_cons, List.sum_cons, hset, add_left_comm]

/-- One queue changes. -/
theorem sum_update (g : List T → M) (queue : ℕ → List T) {n p : ℕ} (hp : p < n) :
    ∃ r, (∑ q ∈ Finset.range n, g (queue q)) = g (queue p) + r ∧
      ∀ l, (∑ q ∈ Finset.range n, g (Function.update queue p l q)) = g l + r := by
  have hmem : p ∈ Finset.range n := Finset.mem_range.2 hp
  refine ⟨∑ q ∈ (Finset.range n).erase p, g (queue q), (Finset.add_sum_erase _ _ hmem).symm, fun l => ?_⟩
  rw [← Finset.add_sum_erase _ _ hmem, Function.update_self]
  congr 1
  apply Finset.sum_congr rfl
  intro q hq
  rw [Function.update_of_ne (Finset.ne_of_mem_erase hq)]

end

/-! ## What is still to come out, and how long it takes -/

section

variable (outs : T → Multiset R) (work : T → ℕ)

/-- The results of an action and of the task it hands on. -/
def Act.results : Act T R → Multiset R
  | .emit r => {r}
  | .enqueue t => outs t

def results (acts : List (Act T R)) : Multiset R := (acts.map (Act.results outs)).sum

def Act.cost : Act T R → ℕ
  | .emit _ => 1
  | .enqueue t => 1 + work t

def cost (acts : List (Act T R)) : ℕ := (acts.map (Act.cost work)).sum

@[simp] theorem results_nil : results outs ([] : List (Act T R)) = 0 := rfl

@[simp] theorem results_cons (a : Act T R) (acts : List (Act T R)) :
    results outs (a :: acts) = a.results outs + results outs acts := List.sum_cons

@[simp] theorem cost_nil : cost work ([] : List (Act T R)) = 0 := rfl

@[simp] theorem cost_cons (a : Act T R) (acts : List (Act T R)) : cost work (a :: acts) = a.cost work + cost work acts :=
  List.sum_cons

/-- Tasks hand on to later pools only; with the results and the length of each task. -/
structure Staged (pool : T → ℕ) (body : T → List (Act T R)) (n : ℕ) : Prop where
  pool_lt : ∀ t, pool t < n
  up : ∀ t t', .enqueue t' ∈ body t → pool t < pool t'
  outs_eq : ∀ t, outs t = results outs (body t)
  work_lt : ∀ t, cost work (body t) < work t

def Agent.gauge (a : Agent T R) : ℕ := cost work a.todo + if a.returned then 0 else 1

/-- The results out and to come. -/
def State.total (n : ℕ) (s : State T R) : Multiset R :=
  s.out + (s.agents.map fun a => results outs a.todo).sum + ∑ p ∈ Finset.range n, ((s.queue p).map outs).sum

/-- A bound for the steps to come. -/
def State.gauge (n : ℕ) (s : State T R) : ℕ :=
  s.main.length + (s.agents.map (Agent.gauge work)).sum + (∑ p ∈ Finset.range n, ((s.queue p).map work).sum) +
    if s.crashed then 0 else 1

end

section

variable {pool : T → ℕ} {body : T → List (Act T R)} {outs : T → Multiset R} {work : T → ℕ} {n : ℕ} {s s' : State T R}

/-- Every worker belongs to one of the pools. -/
def Housed (n : ℕ) (s : State T R) : Prop := ∀ a ∈ s.agents, ∀ p, a.home = some p → p < n

/-- **A step** loses no result and makes none up. -/
theorem Move.total_eq (hS : Staged outs work pool body n) (hn : Housed n s) (h : Move pool body s s') :
    s'.total outs n = s.total outs n := by
  unfold State.total
  cases h with
  | emit i home r rest hi =>
    obtain ⟨x, hx, hset⟩ := sum_map_set (fun a : Agent T R => results outs a.todo) hi
    simp only [hx, hset, ← Multiset.coe_add, Multiset.coe_singleton, results_cons, Act.results]
    abel
  | enqueue i home t rest hi hs =>
    obtain ⟨x, hx, hset⟩ := sum_map_set (fun a : Agent T R => results outs a.todo) hi
    obtain ⟨y, hy, hup⟩ := sum_update (fun l => (l.map outs).sum) s.queue (hS.pool_lt t)
    simp only [hx, hset, hy, hup, results_cons, Act.results, List.map_append, List.sum_append, List.map_singleton,
      List.sum_singleton]
    abel
  | throw i home t rest hi hs => rfl
  | pop i p t q hi hq =>
    obtain ⟨x, hx, hset⟩ := sum_map_set (fun a : Agent T R => results outs a.todo) hi
    obtain ⟨y, hy, hup⟩ := sum_update (fun l => (l.map outs).sum) s.queue (hn _ (List.mem_of_getElem? hi) p rfl)
    simp only [hx, hset, hy, hup, hq, List.map_cons, List.sum_cons, hS.outs_eq t, results_nil]
    abel
  | leave i p hi hq hs =>
    obtain ⟨x, hx, hset⟩ := sum_map_set (fun a : Agent T R => results outs a.todo) hi
    simp only [hx, hset]
  | finish i hi =>
    obtain ⟨x, hx, hset⟩ := sum_map_set (fun a : Agent T R => results outs a.todo) hi
    simp only [hx, hset]
  | join i rest a hm hi hr => rfl
  | stop p rest hm => rfl

/-- **A step** brings the end nearer. -/
theorem Step.gauge_lt (hS : Staged outs work pool body n) (hn : Housed n s) (h : Step pool body s s') :
    s'.gauge work n < s.gauge work n := by
  obtain ⟨hc, h⟩ := h
  unfold State.gauge
  cases h with
  | emit i home r rest hi =>
    obtain ⟨x, hx, hset⟩ := sum_map_set (Agent.gauge work) hi
    simp only [hx, hset, Agent.gauge, cost_cons, Act.cost]
    omega
  | enqueue i home t rest hi hs =>
    obtain ⟨x, hx, hset⟩ := sum_map_set (Agent.gauge work) hi
    obtain ⟨y, hy, hup⟩ := sum_update (fun l => (l.map work).sum) s.queue (hS.pool_lt t)
    simp only [hx, hset, hy, hup, Agent.gauge, cost_cons, Act.cost, List.map_append, List.sum_append,
      List.map_singleton, List.sum_singleton]
    omega
  | throw i home t rest hi hs =>
    simp only [hc, if_true, Bool.false_eq_true, if_false]
    omega
  | pop i p t q hi hq =>
    obtain ⟨x, hx, hset⟩ := sum_map_set (Agent.gauge work) hi
    obtain ⟨y, hy, hup⟩ := sum_update (fun l => (l.map work).sum) s.queue (hn _ (List.mem_of_getElem? hi) p rfl)
    have hlt := hS.work_lt t
    simp only [hx, hset, hy, hup, hq, Agent.gauge, List.map_cons, List.sum_cons, cost_nil]
    omega
  | leave i p hi hq hs =>
    obtain ⟨x, hx, hset⟩ := sum_map_set (Agent.gauge work) hi
    simp only [hx, hset, Agent.gauge, if_true, Bool.false_eq_true, if_false]
    omega
  | finish i hi =>
    obtain ⟨x, hx, hset⟩ := sum_map_set (Agent.gauge work) hi
    simp only [hx, hset, Agent.gauge, if_true, Bool.false_eq_true, if_false]
    omega
  | join i rest a hm hi hr =>
    simp only [hm, List.length_cons]
    omega
  | stop p rest hm =>
    simp only [hm, List.length_cons]
    omega

/-! ## The order of the joins -/

/-- The main thread's program, given which agents have returned and which pools are stopped: it waits for a worker
after it has stopped its pool, and stops a pool after all threads and the workers of earlier pools. -/
def Ordered (homes : List (Option ℕ)) : (ℕ → Prop) → (ℕ → Prop) → List Join → Prop
  | returned, _, [] => ∀ i < homes.length, returned i
  | returned, stopped, .join i :: rest =>
    (∃ home, homes[i]? = some home ∧ ∀ p, home = some p → stopped p) ∧
      Ordered homes (fun j => returned j ∨ j = i) stopped rest
  | returned, stopped, .stop p :: rest =>
    (∀ i home, homes[i]? = some home → (∀ q, home = some q → q < p) → returned i) ∧
      Ordered homes returned (fun q => stopped q ∨ q = p) rest

theorem Ordered.mono {homes : List (Option ℕ)} {r r' t t' : ℕ → Prop} {main : List Join} (h : Ordered homes r t main)
    (hr : ∀ i, r i → r' i) (ht : ∀ p, t p → t' p) : Ordered homes r' t' main := by
  induction main generalizing r r' t t' with
  | nil => exact fun i hi => hr i (h i hi)
  | cons j main ih =>
    cases j with
    | join i =>
      obtain ⟨⟨home, hi, hp⟩, hrest⟩ := h
      exact ⟨⟨home, hi, fun p e => ht p (hp p e)⟩, ih hrest (fun j => Or.imp_left (hr j)) ht⟩
    | stop p =>
      obtain ⟨hall, hrest⟩ := h
      exact ⟨fun i home hi hq => hr i (hall i home hi hq), ih hrest hr fun q => Or.imp_left (ht q)⟩

theorem ordered_joins {homes : List (Option ℕ)} {r t : ℕ → Prop} {is : List ℕ} {rest : List Join}
    (his : ∀ i ∈ is, ∃ home, homes[i]? = some home ∧ ∀ p, home = some p → t p)
    (h : Ordered homes (fun j => r j ∨ j ∈ is) t rest) : Ordered homes r t (is.map .join ++ rest) := by
  induction is generalizing r with
  | nil => exact h.mono (fun i hi => hi.resolve_right List.not_mem_nil) fun _ hp => hp
  | cons i is ih =>
    refine ⟨his i List.mem_cons_self, ih (fun j hj => his j (List.mem_cons_of_mem _ hj)) (h.mono ?_ fun _ hp => hp)⟩
    rintro j (hj | hj)
    · exact Or.inl (Or.inl hj)
    · rcases List.mem_cons.1 hj with rfl | hj
      · exact Or.inl (Or.inr rfl)
      · exact Or.inr hj

/-! ## Runs -/

/-- What holds in every state of a run. -/
structure Inv (pool : T → ℕ) (homes : List (Option ℕ)) (s : State T R) : Prop where
  alive : s.crashed = false
  homes_eq : s.agents.map Agent.home = homes
  idle : ∀ a ∈ s.agents, a.returned = true → a.todo = []
  later : ∀ a ∈ s.agents, ∀ t, .enqueue t ∈ a.todo → ∀ p, a.home = some p → p < pool t
  ordered : Ordered homes (fun i => ∃ a, s.agents[i]? = some a ∧ a.returned = true) (fun p => s.stop p = true) s.main
  stopped : ∀ p, s.stop p = true → ∀ a ∈ s.agents, (∀ q, a.home = some q → q < p) → a.returned = true
  left : ∀ a ∈ s.agents, a.returned = true → ∀ p, a.home = some p → s.stop p = true ∧ s.queue p = []
  queued : ∀ p, ∀ t ∈ s.queue p, pool t = p

variable {homes : List (Option ℕ)}

/-- An agent that does not return by its step leaves the joins in order. -/
theorem Inv.home_of (h : Inv pool homes s) {i : ℕ} {a : Agent T R} (hi : s.agents[i]? = some a) :
    homes[i]? = some a.home := by
  rw [← h.homes_eq, List.getElem?_map, hi]
  rfl

/-- Nothing is handed to a stopped pool. -/
theorem Inv.open_of_enqueue (h : Inv pool homes s) {i : ℕ} {home : Option ℕ} {t : T} {rest : List (Act T R)}
    (hi : s.agents[i]? = some ⟨home, .enqueue t :: rest, false⟩) : s.stop (pool t) = false := by
  have hmem := List.mem_of_getElem? hi
  cases hs : s.stop (pool t) with
  | false => rfl
  | true =>
    have hret := h.stopped _ hs _ hmem (h.later _ hmem t List.mem_cons_self)
    cases hret

theorem map_set_of_eq {α β : Type*} (f : α → β) {l : List α} {i : ℕ} {a b : α} (hi : l[i]? = some a)
    (hf : f b = f a) : (l.set i b).map f = l.map f := by
  apply List.ext_getElem?
  intro j
  rw [List.getElem?_map, List.getElem?_map]
  by_cases hij : i = j
  · subst hij
    obtain ⟨hlt, -⟩ := List.getElem?_eq_some_iff.1 hi
    rw [List.getElem?_set_self hlt, hi, Option.map_some, Option.map_some, hf]
  · rw [List.getElem?_set_ne hij]

/-- An agent that had not returned does a step: it has other actions now, or has returned. -/
theorem Inv.update (h : Inv pool homes s) {i : ℕ} {a : Agent T R} (b : Agent T R) (hi : s.agents[i]? = some a)
    (ha : a.returned = false) (hhome : b.home = a.home) (hidle : b.returned = true → b.todo = [])
    (hlater : ∀ t, .enqueue t ∈ b.todo → ∀ p, b.home = some p → p < pool t)
    (hleft : b.returned = true → ∀ p, b.home = some p → s.stop p = true ∧ s.queue p = []) {queue : ℕ → List T}
    (hqueue : ∀ p, s.stop p = true → s.queue p = [] → queue p = []) (hqueued : ∀ p, ∀ t ∈ queue p, pool t = p)
    (out : List R) :
    Inv pool homes { s with agents := s.agents.set i b, queue := queue, out := out } := by
  refine ⟨h.alive, (map_set_of_eq _ hi hhome).trans h.homes_eq, ?_, ?_, ?_, ?_, ?_, hqueued⟩
  · intro c hc
    rcases List.mem_or_eq_of_mem_set hc with hc | rfl
    · exact h.idle c hc
    · exact hidle
  · intro c hc
    rcases List.mem_or_eq_of_mem_set hc with hc | rfl
    · exact h.later c hc
    · exact hlater
  · refine h.ordered.mono ?_ fun _ hp => hp
    rintro j ⟨c, hj, hc⟩
    by_cases hij : i = j
    · subst hij
      rw [hi, Option.some.injEq] at hj
      rw [← hj, ha] at hc
      cases hc
    · exact ⟨c, by rw [List.getElem?_set_ne hij, hj], hc⟩
  · intro p hp c hc hq
    rcases List.mem_or_eq_of_mem_set hc with hc | rfl
    · exact h.stopped p hp c hc hq
    · rw [hhome] at hq
      have hret := h.stopped p hp a (List.mem_of_getElem? hi) hq
      rw [ha] at hret
      cases hret
  · intro c hc hret p hp
    rcases List.mem_or_eq_of_mem_set hc with hc | rfl
    · obtain ⟨hstop, hnil⟩ := h.left c hc hret p hp
      exact ⟨hstop, hqueue p hstop hnil⟩
    · obtain ⟨hstop, hnil⟩ := hleft hret p hp
      exact ⟨hstop, hqueue p hstop hnil⟩

/-- **A step** keeps all of it. -/
theorem Inv.step (hS : Staged outs work pool body n) (h : Inv pool homes s) (hs : Step pool body s s') :
    Inv pool homes s' := by
  obtain ⟨-, hs⟩ := hs
  cases hs with
  | emit i home r rest hi =>
    have hlater : ∀ t, .enqueue t ∈ rest → ∀ p, home = some p → p < pool t :=
      fun t ht => h.later _ (List.mem_of_getElem? hi) t (List.mem_cons_of_mem _ ht)
    exact h.update ⟨home, rest, false⟩ hi rfl rfl (fun hret => by cases hret) hlater (fun hret => by cases hret)
      (fun _ _ hq => hq) h.queued _
  | enqueue i home t rest hi hs =>
    have hlater : ∀ t', .enqueue t' ∈ rest → ∀ p, home = some p → p < pool t' :=
      fun t' ht => h.later _ (List.mem_of_getElem? hi) t' (List.mem_cons_of_mem _ ht)
    refine h.update ⟨home, rest, false⟩ hi rfl rfl (fun hret => by cases hret) hlater (fun hret => by cases hret)
      ?_ ?_ _
    · intro p hp hq
      have hne : p ≠ pool t := by
        rintro rfl
        rw [hs] at hp
        cases hp
      rw [Function.update_of_ne hne, hq]
    · intro p t' ht'
      by_cases hp : p = pool t
      · subst hp
        rw [Function.update_self] at ht'
        rcases List.mem_append.1 ht' with ht' | ht'
        · exact h.queued _ t' ht'
        · rw [List.mem_singleton.1 ht']
      · rw [Function.update_of_ne hp] at ht'
        exact h.queued p t' ht'
  | throw i home t rest hi hs =>
    rw [h.open_of_enqueue hi] at hs
    cases hs
  | pop i p t q hi hq =>
    have hpool : pool t = p := h.queued p t (by rw [hq]; exact List.mem_cons_self)
    have hlater : ∀ t', .enqueue t' ∈ body t → ∀ p', some p = some p' → p' < pool t' := by
      intro t' ht' p' hp'
      cases hp'
      rw [← hpool]
      exact hS.up t t' ht'
    refine h.update ⟨some p, body t, false⟩ hi rfl rfl (fun hret => by cases hret) hlater
      (fun hret => by cases hret) ?_ ?_ _
    · intro p' _ hnil
      have hne : p' ≠ p := by
        rintro rfl
        rw [hq] at hnil
        cases hnil
      rw [Function.update_of_ne hne, hnil]
    · intro p' t' ht'
      by_cases hp : p' = p
      · subst hp
        rw [Function.update_self] at ht'
        exact h.queued p' t' (by rw [hq]; exact List.mem_cons_of_mem _ ht')
      · rw [Function.update_of_ne hp] at ht'
        exact h.queued p' t' ht'
  | leave i p hi hq hs =>
    refine h.update ⟨some p, [], true⟩ hi rfl rfl (fun _ => rfl) (fun t ht => absurd ht List.not_mem_nil) ?_
      (fun _ _ hq => hq) h.queued _
    rintro - p' hp'
    cases hp'
    exact ⟨hs, hq⟩
  | finish i hi =>
    refine h.update ⟨none, [], true⟩ hi rfl rfl (fun _ => rfl) (fun t ht => absurd ht List.not_mem_nil) ?_
      (fun _ _ hq => hq) h.queued _
    rintro - p' hp'
    cases hp'
  | join i rest a hm hi hr =>
    refine ⟨h.alive, h.homes_eq, h.idle, h.later, ?_, h.stopped, h.left, h.queued⟩
    have hord := h.ordered
    rw [hm] at hord
    refine hord.2.mono ?_ fun _ hp => hp
    rintro j (hj | rfl)
    · exact hj
    · exact ⟨a, hi, hr⟩
  | stop p rest hm =>
    have hord := h.ordered
    rw [hm] at hord
    refine ⟨h.alive, h.homes_eq, h.idle, h.later, hord.2.mono (fun _ hi => hi) ?_, ?_, ?_, h.queued⟩
    · rintro q (hq | rfl)
      · show Function.update s.stop p true q = true
        rw [Function.update_apply]
        split_ifs
        · rfl
        · exact hq
      · exact Function.update_self _ _ _
    · intro q hq c hc hlt
      by_cases hqp : q = p
      · subst hqp
        obtain ⟨i, hi⟩ := List.mem_iff_getElem?.1 hc
        obtain ⟨c', hc', hret⟩ := hord.1 i c.home (h.home_of hi) hlt
        rw [hi, Option.some.injEq] at hc'
        rw [hc']
        exact hret
      · have hq' : Function.update s.stop p true q = true := hq
        rw [Function.update_of_ne hqp] at hq'
        exact h.stopped q hq' c hc hlt
    · intro c hc hret q hq
      obtain ⟨hstop, hnil⟩ := h.left c hc hret q hq
      refine ⟨?_, hnil⟩
      show Function.update s.stop p true q = true
      rw [Function.update_apply]
      split_ifs
      · rfl
      · exact hstop

/-- **Before the main thread is through**, something can go on. -/
theorem Inv.progress (h : Inv pool homes s) (hmain : s.main ≠ []) : ∃ s', Step pool body s s' := by
  obtain ⟨j, rest, hm⟩ := List.exists_cons_of_ne_nil hmain
  cases j with
  | stop p => exact ⟨_, h.alive, .stop p rest hm⟩
  | join i =>
    have hord := h.ordered
    rw [hm] at hord
    obtain ⟨⟨home, hi, hstop⟩, -⟩ := hord
    rw [← h.homes_eq, List.getElem?_map, Option.map_eq_some_iff] at hi
    obtain ⟨⟨home, todo, returned⟩, hi, rfl⟩ := hi
    cases returned with
    | true => exact ⟨_, h.alive, .join i rest _ hm hi rfl⟩
    | false =>
      cases todo with
      | nil =>
        cases home with
        | none => exact ⟨_, h.alive, .finish i hi⟩
        | some p =>
          cases hq : s.queue p with
          | nil => exact ⟨_, h.alive, .leave i p hi hq (hstop p rfl)⟩
          | cons t q => exact ⟨_, h.alive, .pop i p t q hi hq⟩
      | cons a todo =>
        cases a with
        | emit r => exact ⟨_, h.alive, .emit i home r todo hi⟩
        | enqueue t => exact ⟨_, h.alive, .enqueue i home t todo hi (h.open_of_enqueue hi)⟩

/-- **When the main thread is through**, everything is out, if no pool is without workers. -/
theorem Inv.total_eq_out (h : Inv pool homes s) (hmain : s.main = []) (hpools : ∀ p < n, some p ∈ homes) :
    s.total outs n = s.out := by
  have hret : ∀ a ∈ s.agents, a.returned = true := by
    intro a ha
    obtain ⟨i, hi⟩ := List.mem_iff_getElem?.1 ha
    have hord := h.ordered
    rw [hmain] at hord
    obtain ⟨hlt, -⟩ := List.getElem?_eq_some_iff.1 (h.home_of hi)
    obtain ⟨b, hb, hret⟩ := hord i hlt
    rw [hi, Option.some.injEq] at hb
    rw [hb]
    exact hret
  have hagents : (s.agents.map fun a => results outs a.todo).sum = 0 := by
    apply List.sum_eq_zero
    intro x hx
    obtain ⟨a, ha, rfl⟩ := List.mem_map.1 hx
    rw [h.idle a ha (hret a ha), results_nil]
  have hqueues : (∑ p ∈ Finset.range n, ((s.queue p).map outs).sum) = 0 := by
    apply Finset.sum_eq_zero
    intro p hp
    have hmem := hpools p (Finset.mem_range.1 hp)
    rw [← h.homes_eq] at hmem
    obtain ⟨a, ha, hhome⟩ := List.mem_map.1 hmem
    rw [(h.left a ha (hret a ha) p hhome).2, List.map_nil, List.sum_nil]
  unfold State.total
  rw [hagents, hqueues, add_zero, add_zero]

end

/-! ## From the start -/

section

variable {pool : T → ℕ} {body : T → List (Act T R)} {outs : T → Multiset R} {work : T → ℕ}
  (threads : List (List (Act T R))) (workers : List ℕ)

/-- The homes of the agents at the start. -/
def homesOf : List (Option ℕ) :=
  List.replicate threads.length none ++ workers.zipIdx.flatMap fun w => List.replicate w.1 (some w.2)

theorem start_homes : (start threads workers).agents.map Agent.home = homesOf threads workers := by
  unfold start homesOf
  simp only [List.map_append, List.map_map, List.map_flatMap, List.map_replicate]
  congr 1
  exact List.map_const'

theorem mem_residents {agents : List (Agent T R)} {home : Option ℕ} {i : ℕ} :
    i ∈ residents agents home ↔ (agents.map Agent.home)[i]? = some home := by
  unfold residents
  rw [List.mem_filter, List.mem_range, decide_eq_true_iff, List.getElem?_map]
  constructor
  · exact fun h => h.2
  · intro h
    obtain ⟨a, ha, -⟩ := Option.map_eq_some_iff.1 h
    exact ⟨(List.getElem?_eq_some_iff.1 ha).1, h⟩

theorem home_lt {p : ℕ} (hp : some p ∈ homesOf threads workers) : p < workers.length := by
  unfold homesOf at hp
  rcases List.mem_append.1 hp with hp | hp
  · cases (List.mem_replicate.1 hp).2
  · obtain ⟨w, hw, hmem⟩ := List.mem_flatMap.1 hp
    cases (List.mem_replicate.1 hmem).2
    have := List.snd_lt_of_mem_zipIdx hw
    omega

/-- The joins of the pools from `p` on. -/
theorem ordered_pools {homes : List (Option ℕ)} {agents : List (Agent T R)} (hhomes : agents.map Agent.home = homes)
    {m : ℕ} (hm : ∀ p, some p ∈ homes → p < m) {k p : ℕ} (hk : p + k = m) {r t : ℕ → Prop}
    (hr : ∀ i home, homes[i]? = some home → (∀ q, home = some q → q < p) → r i) :
    Ordered homes r t ((List.range' p k).flatMap fun p => .stop p :: (residents agents (some p)).map .join) := by
  induction k generalizing p r t with
  | zero =>
    intro i hi
    refine hr i _ (List.getElem?_eq_getElem hi) fun q hq => ?_
    have := hm q (hq ▸ List.getElem_mem hi)
    omega
  | succ k ih =>
    rw [List.range'_succ, List.flatMap_cons, List.cons_append]
    refine ⟨hr, ordered_joins ?_ (ih (by omega) ?_)⟩
    · intro i hi
      rw [mem_residents, hhomes] at hi
      refine ⟨_, hi, fun q hq => ?_⟩
      cases hq
      exact Or.inr rfl
    · intro i home hi hlt
      by_cases hp : home = some p
      · right
        rw [mem_residents, hhomes, hi, hp]
      · left
        refine hr i home hi fun q hq => ?_
        have hqp : q ≠ p := fun e => hp (by rw [hq, e])
        have := hlt q hq
        omega

/-- **At the start.** -/
theorem inv_start : Inv pool (homesOf threads workers) (start threads workers) := by
  have hagents : ∀ a ∈ (start threads workers).agents, a.returned = false ∧ (∀ p, a.home = some p → a.todo = []) := by
    intro a ha
    rcases List.mem_append.1 ha with ha | ha
    · obtain ⟨todo, -, rfl⟩ := List.mem_map.1 ha
      exact ⟨rfl, fun p hp => by cases hp⟩
    · obtain ⟨w, -, hmem⟩ := List.mem_flatMap.1 ha
      rw [(List.mem_replicate.1 hmem).2]
      exact ⟨rfl, fun _ _ => rfl⟩
  have hnot : ∀ a ∈ (start threads workers).agents, ¬ a.returned = true := by
    intro a ha hret
    rw [(hagents a ha).1] at hret
    cases hret
  refine ⟨rfl, start_homes threads workers, fun a ha hret => absurd hret (hnot a ha), ?_, ?_, ?_,
    fun a ha hret => absurd hret (hnot a ha), fun p t ht => absurd ht List.not_mem_nil⟩
  · intro a ha t ht p hp
    rw [(hagents a ha).2 p hp] at ht
    exact absurd ht List.not_mem_nil
  · refine ordered_joins ?_ ?_
    · intro i hi
      rw [mem_residents] at hi
      refine ⟨none, ?_, fun p hp => by cases hp⟩
      rw [← start_homes]
      exact hi
    · rw [List.range_eq_range']
      refine ordered_pools (start_homes threads workers) (fun p hp => home_lt threads workers hp)
        (Nat.zero_add _) ?_
      intro i home hi hlt
      right
      have hnone : home = none := by
        cases home with
        | none => rfl
        | some q => exact absurd (hlt q rfl) (by omega)
      rw [mem_residents]
      exact (congrArg (·[i]?) (start_homes threads workers)).trans (hnone ▸ hi)
  · intro p hp
    cases hp

variable {threads workers}

theorem mem_homes_of_pos (hpos : ∀ k ∈ workers, 0 < k) {p : ℕ} (hp : p < workers.length) :
    some p ∈ homesOf threads workers := by
  refine List.mem_append_right _ (List.mem_flatMap.2 ⟨(workers[p], p), ?_, ?_⟩)
  · rw [List.mem_zipIdx_iff_getElem?]
    exact List.getElem?_eq_getElem hp
  · exact List.mem_replicate.2 ⟨(hpos _ (List.getElem_mem hp)).ne', rfl⟩

theorem Inv.housed {s : State T R} (h : Inv pool (homesOf threads workers) s) : Housed workers.length s := by
  intro a ha p hp
  refine home_lt threads workers ?_
  rw [← h.homes_eq, ← hp]
  exact List.mem_map_of_mem ha

theorem total_start : (start threads workers).total outs workers.length = (threads.map (results outs)).sum := by
  have hthreads : (threads.map fun todo : List (Act T R) => results outs todo).sum +
      ((workers.zipIdx.flatMap fun w => List.replicate w.1 (⟨some w.2, [], false⟩ : Agent T R)).map
        fun a => results outs a.todo).sum = (threads.map (results outs)).sum := by
    have hzero : ((workers.zipIdx.flatMap fun w => List.replicate w.1 (⟨some w.2, [], false⟩ : Agent T R)).map
        fun a => results outs a.todo).sum = 0 := by
      apply List.sum_eq_zero
      intro x hx
      obtain ⟨a, ha, rfl⟩ := List.mem_map.1 hx
      obtain ⟨w, -, hmem⟩ := List.mem_flatMap.1 ha
      rw [(List.mem_replicate.1 hmem).2, results_nil]
    rw [hzero, add_zero]
  unfold State.total start
  simp only [List.map_append, List.map_map, List.sum_append, List.map_nil, List.sum_nil, Finset.sum_const_zero,
    add_zero, Multiset.coe_nil, zero_add]
  exact hthreads

/-- **Every order of steps.**  No task is handed to a stopped pool, the main thread can always get on, and when it is
through, the results are those of the threads and of all tasks that came of them. -/
theorem served (hS : Staged outs work pool body workers.length) {s : State T R}
    (h : Relation.ReflTransGen (Step pool body) (start threads workers) s) :
    s.crashed = false ∧ (s.main ≠ [] → ∃ s', Step pool body s s') ∧
      (s.main = [] → (∀ k ∈ workers, 0 < k) → (s.out : Multiset R) = (threads.map (results outs)).sum) := by
  have hrun : Inv pool (homesOf threads workers) s ∧
      s.total outs workers.length = (threads.map (results outs)).sum := by
    induction h with
    | refl => exact ⟨inv_start threads workers, total_start⟩
    | tail _ hs ih => exact ⟨ih.1.step hS hs, (hs.2.total_eq hS ih.1.housed).trans ih.2⟩
  obtain ⟨hinv, htotal⟩ := hrun
  refine ⟨hinv.alive, hinv.progress, fun hmain hpos => ?_⟩
  rw [← htotal]
  exact (hinv.total_eq_out hmain fun p hp => mem_homes_of_pos hpos hp).symm

/-- **Every run ends**: it has no more steps than the gauge of the start says. -/
theorem length_le_gauge (hS : Staged outs work pool body workers.length) {run : ℕ → State T R} {k : ℕ}
    (h0 : run 0 = start threads workers) (hstep : ∀ j < k, Step pool body (run j) (run (j + 1))) :
    k ≤ (start threads workers).gauge work workers.length := by
  have hle : ∀ j ≤ k, Inv pool (homesOf threads workers) (run j) ∧
      (run j).gauge work workers.length + j ≤ (start threads workers).gauge work workers.length := by
    intro j
    induction j with
    | zero =>
      intro _
      rw [h0]
      exact ⟨inv_start threads workers, Nat.le_refl _⟩
    | succ j ih =>
      intro hj
      obtain ⟨hinv, hg⟩ := ih (by omega)
      have hs := hstep j (by omega)
      have hlt := hs.gauge_lt hS hinv.housed
      exact ⟨hinv.step hS hs, by omega⟩
  have := (hle k (Nat.le_refl k)).2
  omega

end

/-- From `s₀`, whatever the order of the steps: no task is handed to a stopped pool, every run ends, and it ends with
the main thread through and with the results `out`, in some order. -/
def Delivers (pool : T → ℕ) (body : T → List (Act T R)) (s₀ : State T R) (out : List R) : Prop :=
  (∀ s, Relation.ReflTransGen (Step pool body) s₀ s → s.crashed = false ∧
    (s.main ≠ [] → ∃ s', Step pool body s s') ∧ (s.main = [] → s.out.Perm out)) ∧
  ∃ bound, ∀ (run : ℕ → State T R) (k : ℕ), run 0 = s₀ → (∀ j < k, Step pool body (run j) (run (j + 1))) → k ≤ bound

theorem Delivers.perm {pool : T → ℕ} {body : T → List (Act T R)} {s₀ : State T R} {out out' : List R}
    (h : Delivers pool body s₀ out) (hout : out.Perm out') : Delivers pool body s₀ out' :=
  ⟨fun s hs => ⟨(h.1 s hs).1, (h.1 s hs).2.1, fun hmain => ((h.1 s hs).2.2 hmain).trans hout⟩, h.2⟩

theorem delivers_start {pool : T → ℕ} {body : T → List (Act T R)} {outs : T → Multiset R} {work : T → ℕ}
    {threads : List (List (Act T R))} {workers : List ℕ} (hS : Staged outs work pool body workers.length)
    (hpos : ∀ k ∈ workers, 0 < k) {out : List R} (hout : (threads.map (results outs)).sum = out) :
    Delivers pool body (start threads workers) out := by
  refine ⟨fun s hs => ?_, _, fun run k => length_le_gauge hS⟩
  obtain ⟨halive, hgo, hend⟩ := served hS hs
  refine ⟨halive, hgo, fun hmain => ?_⟩
  rw [← Multiset.coe_eq_coe, hend hmain hpos, hout]

end Workers
