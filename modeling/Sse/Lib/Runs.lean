import Mathlib

/-!
# Runs of a step function, and the unwinding rule for two runs

`run step s is` feeds the inputs `is` to `step` one after the other and collects
the outputs; a step that answers `none` (the process is gone) ends the run with
`none`.  Six rules, about any state, input and output types:

* `run_append`: a run splits where its inputs split.
* `run_induct`: what every step keeps holds at the end of every run; the property
  may speak of the inputs fed so far.
* `run_serves`: where every step can be taken and answers well, so does the run.
* `run_unwind`: two runs that agree on the inputs of one party give that party
  the same outputs, if a relation between their states is kept by every step of
  the other parties on either side and by every step of its own on both sides.
* `run_matches`: two machines whose steps match in related states have matching runs.
* `run_refines`: the same for one direction only.
-/

namespace Runs

variable {σ ι ο : Type}

/-- Feed the inputs in order and collect the outputs. -/
def run (step : σ → ι → Option (σ × ο)) : σ → List ι → Option (σ × List ο)
  | s, [] => some (s, [])
  | s, i :: is => do
    let (s', o) ← step s i
    let (s'', os) ← run step s' is
    return (s'', o :: os)

@[simp] theorem run_nil (step : σ → ι → Option (σ × ο)) (s : σ) : run step s [] = some (s, []) := rfl

theorem run_cons_eq_some {step : σ → ι → Option (σ × ο)} {s : σ} {i : ι} {is : List ι}
    {r : σ × List ο} : run step s (i :: is) = some r ↔
      ∃ s' o os, step s i = some (s', o) ∧ run step s' is = some (r.1, os) ∧ r.2 = o :: os := by
  obtain ⟨t, os⟩ := r
  simp only [run, Option.bind_eq_bind, Option.bind_eq_some_iff, Option.pure_def, Option.some.injEq,
    Prod.mk.injEq, Prod.exists]
  constructor
  · rintro ⟨s', o, h1, s'', os', h2, rfl, rfl⟩
    exact ⟨s', o, os', h1, h2, rfl⟩
  · rintro ⟨s', o, os', h1, h2, rfl⟩
    exact ⟨s', o, h1, t, os', h2, rfl, rfl⟩

theorem run_append {step : σ → ι → Option (σ × ο)} {s : σ} {is js : List ι} {r : σ × List ο} :
    run step s (is ++ js) = some r ↔
      ∃ m os os', run step s is = some (m, os) ∧ run step m js = some (r.1, os') ∧ r.2 = os ++ os' := by
  induction is generalizing s r with
  | nil =>
    obtain ⟨t, us⟩ := r
    simp
  | cons i is ih =>
    rw [List.cons_append, run_cons_eq_some]
    constructor
    · rintro ⟨s', o, os, hs, hr, ho⟩
      obtain ⟨m, us, us', h1, h2, rfl⟩ := ih.1 hr
      exact ⟨m, o :: us, us', run_cons_eq_some.2 ⟨s', o, us, hs, h1, rfl⟩, h2, ho⟩
    · rintro ⟨m, us, us', h1, h2, ho⟩
      obtain ⟨s', o, vs, hs, hr, hv⟩ := run_cons_eq_some.1 h1
      simp only at hv
      subst hv
      exact ⟨s', o, vs ++ us', hs, ih.2 ⟨m, vs, us', hr, h2, rfl⟩, ho⟩

theorem run_concat {step : σ → ι → Option (σ × ο)} {s : σ} {is : List ι} {i : ι} {r : σ × List ο} :
    run step s (is ++ [i]) = some r ↔
      ∃ m os o, run step s is = some (m, os) ∧ step m i = some (r.1, o) ∧ r.2 = os ++ [o] := by
  rw [run_append]
  constructor
  · rintro ⟨m, os, os', h1, h2, h3⟩
    obtain ⟨s', o, us, hs, hr, hu⟩ := run_cons_eq_some.1 h2
    simp only [run_nil, Option.some.injEq, Prod.mk.injEq] at hr
    obtain ⟨rfl, rfl⟩ := hr
    simp only at hu
    exact ⟨m, os, o, h1, hs, by rw [h3, hu]⟩
  · rintro ⟨m, os, o, h1, h2, h3⟩
    exact ⟨m, os, [o], h1, run_cons_eq_some.2 ⟨r.1, o, [], h2, rfl, rfl⟩, h3⟩

/-- **Invariants of runs.**  A property of the inputs so far and the state, true at
the start and kept by every step, holds at the end of every run. -/
theorem run_induct {step : σ → ι → Option (σ × ο)} {s₀ : σ} (P : List ι → σ → Prop) (h0 : P [] s₀)
    (hstep : ∀ is i s s' o, P is s → step s i = some (s', o) → P (is ++ [i]) s')
    {is : List ι} {s : σ} {os : List ο} (h : run step s₀ is = some (s, os)) : P is s := by
  induction is using List.reverseRecOn generalizing s os with
  | nil =>
    simp only [run_nil, Option.some.injEq, Prod.mk.injEq] at h
    exact h.1 ▸ h0
  | append_singleton is i ih =>
    obtain ⟨m, us, o, h1, h2, -⟩ := run_concat.1 h
    exact hstep is i m s o (ih h1) h2

/-- **Runs that go through.**  Where the property so far lets every input be taken, with an answer in `R` and the
property again, the whole run is made, and every answer is in `R`. -/
theorem run_serves {step : σ → ι → Option (σ × ο)} (s₀ : σ) {is : List ι} (P : List ι → σ → Prop)
    (R : List ι → ι → ο → Prop) (h0 : P [] s₀)
    (hstep : ∀ pre i post s, is = pre ++ i :: post → P pre s →
      ∃ s' o, step s i = some (s', o) ∧ R pre i o ∧ P (pre ++ [i]) s') :
    ∃ s os, run step s₀ is = some (s, os) ∧ P is s ∧
      ∀ pre i post, is = pre ++ i :: post → ∃ o, os[pre.length]? = some o ∧ R pre i o := by
  -- by induction on the inputs taken so far
  suffices hpre : ∀ l r, is = l ++ r → ∃ s os, run step s₀ l = some (s, os) ∧ P l s ∧ os.length = l.length ∧
      ∀ pre i post, l = pre ++ i :: post → ∃ o, os[pre.length]? = some o ∧ R pre i o by
    obtain ⟨s, os, hrun, hP, -, hR⟩ := hpre is [] (List.append_nil is).symm
    exact ⟨s, os, hrun, hP, hR⟩
  intro l
  induction l using List.reverseRecOn with
  | nil =>
    intro r _
    refine ⟨s₀, [], rfl, h0, rfl, fun pre i post he => ?_⟩
    cases pre <;> cases he
  | append_singleton l i ih =>
    intro r hr
    rw [List.append_assoc, List.singleton_append] at hr
    obtain ⟨s, os, hrun, hP, hlen, hR⟩ := ih (i :: r) hr
    obtain ⟨s', o, hs, hRo, hP'⟩ := hstep l i r s hr hP
    refine ⟨s', os ++ [o], run_concat.2 ⟨s, os, o, hrun, hs, rfl⟩, hP', by simp [hlen], fun pre j post he => ?_⟩
    rcases List.eq_nil_or_concat post with rfl | ⟨post, last, rfl⟩
    · obtain ⟨rfl, hj⟩ := List.append_inj' he rfl
      obtain rfl := (List.cons.inj hj).1
      refine ⟨o, ?_, hRo⟩
      rw [← hlen, List.getElem?_concat_length]
    · rw [List.concat_eq_append, ← List.cons_append, ← List.append_assoc] at he
      obtain rfl := List.append_inj_left' he rfl
      obtain ⟨o', ho', hRo'⟩ := hR pre j post rfl
      refine ⟨o', ?_, hRo'⟩
      rw [List.getElem?_append_left]
      · exact ho'
      · rw [hlen, List.length_append, List.length_cons]
        omega

/-- A total step function, as a step that never ends the run. -/
def total (step : σ → ι → σ × ο) (s : σ) (i : ι) : Option (σ × ο) := some (step s i)

theorem total_eq_some {step : σ → ι → σ × ο} {s s' : σ} {i : ι} {o : ο} :
    total step s i = some (s', o) ↔ s' = (step s i).1 ∧ o = (step s i).2 := by
  rw [total, Option.some.injEq, Prod.ext_iff]
  exact ⟨fun h => ⟨h.1.symm, h.2.symm⟩, fun h => ⟨h.1.symm, h.2.symm⟩⟩

theorem run_total (step : σ → ι → σ × ο) (s : σ) (is : List ι) : ∃ s' os, run (total step) s is = some (s', os) := by
  induction is generalizing s with
  | nil => exact ⟨s, [], rfl⟩
  | cons i is ih =>
    obtain ⟨s', os, h⟩ := ih (step s i).1
    exact ⟨s', (step s i).2 :: os, run_cons_eq_some.2 ⟨_, _, os, rfl, h, rfl⟩⟩

/-- A process that can end, as a total step: from the input that ends it on there is no output. -/
def lasting (step : σ → ι → Option (σ × ο)) (s : Option σ) (i : ι) : Option σ × Option ο :=
  match s.bind (step · i) with
  | none => (none, none)
  | some (s', o) => (some s', some o)

/-- The outputs that answer the inputs of one party. -/
def outputsOf (own : ι → Bool) (is : List ι) (os : List ο) : List ο :=
  ((is.zip os).filter fun p => own p.1).map Prod.snd

theorem outputsOf_cons (own : ι → Bool) (i : ι) (is : List ι) (o : ο) (os : List ο) :
    outputsOf own (i :: is) (o :: os) =
      if own i then o :: outputsOf own is os else outputsOf own is os := by
  cases h : own i <;> simp [outputsOf, h]

theorem outputsOf_append (own : ι → Bool) {is js : List ι} {os os' : List ο} (h : is.length = os.length) :
    outputsOf own (is ++ js) (os ++ os') = outputsOf own is os ++ outputsOf own js os' := by
  simp [outputsOf, List.zip_append h]

theorem outputsOf_other {own : ι → Bool} {is : List ι} (h : ∀ i ∈ is, own i = false) (os : List ο) :
    outputsOf own is os = [] := by
  have : ∀ p ∈ is.zip os, ¬ own p.1 = true := fun p hp => by
    rw [h p.1 (List.of_mem_zip hp).1]
    simp
  simp [outputsOf, List.filter_eq_nil_iff.2 this]

theorem outputsOf_own {own : ι → Bool} {is : List ι} {os : List ο} (h : ∀ i ∈ is, own i = true)
    (hl : is.length = os.length) : outputsOf own is os = os := by
  have : ∀ p ∈ is.zip os, own p.1 = true := fun p hp => h p.1 (List.of_mem_zip hp).1
  rw [outputsOf, List.filter_eq_self.2 this, List.map_snd_zip (le_of_eq hl.symm)]

/-- **Unwinding.**  `R` relates the states of two runs. -/
theorem run_unwind {step : σ → ι → Option (σ × ο)} (own other : ι → Bool) (R : σ → σ → Prop)
    (hleft : ∀ s t i s' o, other i = true → R s t → step s i = some (s', o) → R s' t)
    (hright : ∀ s t i t' o, other i = true → R s t → step t i = some (t', o) → R s t')
    (hown : ∀ s t i s' t' o o', own i = true → R s t → step s i = some (s', o) →
      step t i = some (t', o') → R s' t' ∧ o = o')
    {is js : List ι} {s t s' t' : σ} {os os' : List ο}
    (hi : ∀ i ∈ is, own i = false → other i = true) (hj : ∀ j ∈ js, own j = false → other j = true)
    (hR : R s t) (hs : run step s is = some (s', os)) (ht : run step t js = some (t', os'))
    (hproj : is.filter own = js.filter own) :
    outputsOf own is os = outputsOf own js os' := by
  -- first the inputs of the other parties on the right are consumed, then those on the left
  induction is generalizing js s t os os' with
  | nil =>
    have hnone : ∀ j ∈ js, own j = false := by
      intro j hjm
      by_contra hne
      have : j ∈ js.filter own := List.mem_filter.2 ⟨hjm, by simpa using hne⟩
      rw [← hproj] at this
      simp at this
    rw [outputsOf_other hnone, outputsOf_other (by simp)]
  | cons i is ih =>
    obtain ⟨m, o, us, hstep, hrun, hu⟩ := run_cons_eq_some.1 hs
    simp only at hu
    subst hu
    have hi' : ∀ i ∈ is, own i = false → other i = true := fun k hk => hi k (List.mem_cons_of_mem _ hk)
    cases hoi : own i with
    | false =>
      rw [outputsOf_cons, hoi, if_neg (by simp)]
      refine ih hi' hj (hleft s t i m o (hi i List.mem_cons_self hoi) hR hstep) hrun ht ?_
      rw [← hproj, List.filter_cons, hoi, if_neg (by simp)]
    | true =>
      rw [List.filter_cons, hoi, if_pos rfl] at hproj
      induction js generalizing t os' with
      | nil => simp at hproj
      | cons j js ihj =>
        obtain ⟨n, o', vs, hstep', hrun', hv⟩ := run_cons_eq_some.1 ht
        simp only at hv
        subst hv
        have hj' : ∀ i ∈ js, own i = false → other i = true :=
          fun k hk => hj k (List.mem_cons_of_mem _ hk)
        cases hoj : own j with
        | false =>
          rw [outputsOf_cons own j, hoj, if_neg (by simp)]
          rw [List.filter_cons, hoj, if_neg (by simp)] at hproj
          exact ihj hj' (hright s t j n o' (hj j List.mem_cons_self hoj) hR hstep') hrun' hproj
        | true =>
          rw [List.filter_cons, hoj, if_pos rfl] at hproj
          obtain ⟨rfl, hrest⟩ := List.cons.inj hproj
          obtain ⟨hR', rfl⟩ := hown s t i m n o o' hoi hR hstep hstep'
          rw [outputsOf_cons, outputsOf_cons, hoi, if_pos rfl, if_pos rfl,
            ih hi' hj' hR' hrun hrun' hrest]

/-- Two completed runs with the same own inputs, and any inputs of the other party between
them, answer the own inputs alike as far as `obs` shows. -/
def NonInterfering {π : Type*} (step : σ → ι → Option (σ × ο)) (s₀ : σ) (own other : ι → Bool)
    (obs : ο → π) : Prop :=
  ∀ is js : List ι, (∀ i ∈ is ++ js, own i = true ∨ other i = true) → is.filter own = js.filter own →
    ∀ s t os os', run step s₀ is = some (s, os) → run step s₀ js = some (t, os') →
      (outputsOf own is os).map obs = (outputsOf own js os').map obs

/-- **Unwinding for one view of the state.**  `R` is what the own inputs see of a state that
satisfies the invariant: the other party keeps it, and the own inputs depend on nothing else. -/
theorem nonInterfering_of_invariant {π : Type*} {step : σ → ι → Option (σ × ο)} {s₀ : σ}
    {own other : ι → Bool} (Inv : σ → Prop) (R : σ → σ → Prop) (h₀ : Inv s₀)
    (hinv : ∀ s i s' o, own i = true ∨ other i = true → Inv s → step s i = some (s', o) → Inv s')
    (hrefl : ∀ s, R s s) (hsymm : ∀ {s t}, R s t → R t s) (htrans : ∀ {s t u}, R s t → R t u → R s u)
    (hframe : ∀ s i s' o, other i = true → Inv s → step s i = some (s', o) → R s s')
    (hlocal : ∀ s t i s' t' o o', own i = true → Inv s → Inv t → R s t → step s i = some (s', o) →
      step t i = some (t', o') → R s' t' ∧ o = o')
    (obs : ο → π) : NonInterfering step s₀ own other obs := by
  intro is js hk hproj s t os os' hr hr'
  have hoth : ∀ i ∈ is ++ js, own i = false → other i = true := by
    intro i hi hne
    exact (hk i hi).resolve_left (by simp [hne])
  congr 1
  refine run_unwind own other (fun s t => Inv s ∧ Inv t ∧ R s t) ?_ ?_ ?_
    (fun i hi => hoth i (List.mem_append_left _ hi)) (fun i hi => hoth i (List.mem_append_right _ hi))
    ⟨h₀, h₀, hrefl s₀⟩ hr hr' hproj
  · rintro s t i s' o hi ⟨hs, ht, hR⟩ hstep
    exact ⟨hinv s i s' o (Or.inr hi) hs hstep, ht, htrans (hsymm (hframe s i s' o hi hs hstep)) hR⟩
  · rintro s t i t' o hi ⟨hs, ht, hR⟩ hstep
    exact ⟨hs, hinv t i t' o (Or.inr hi) ht hstep, htrans hR (hframe t i t' o hi ht hstep)⟩
  · rintro s t i s' t' o o' hi ⟨hs, ht, hR⟩ hstep hstep'
    obtain ⟨h1, h2⟩ := hlocal s t i s' t' o o' hi hs ht hR hstep hstep'
    exact ⟨⟨hinv s i s' o (Or.inl hi) hs hstep, hinv t i t' o' (Or.inl hi) ht hstep', h1⟩, h2⟩

/-- Unwinding without an invariant. -/
theorem nonInterfering_of_view {π : Type*} {step : σ → ι → Option (σ × ο)} {s₀ : σ} {own other : ι → Bool}
    (R : σ → σ → Prop) (hrefl : ∀ s, R s s) (hsymm : ∀ {s t}, R s t → R t s)
    (htrans : ∀ {s t u}, R s t → R t u → R s u)
    (hframe : ∀ s i s' o, other i = true → step s i = some (s', o) → R s s')
    (hlocal : ∀ s t i s' t' o o', own i = true → R s t → step s i = some (s', o) →
      step t i = some (t', o') → R s' t' ∧ o = o')
    (obs : ο → π) : NonInterfering step s₀ own other obs :=
  nonInterfering_of_invariant (fun _ => True) R trivial (fun _ _ _ _ _ _ _ => trivial) hrefl hsymm htrans
    (fun s i s' o hi _ => hframe s i s' o hi) (fun s t i s' t' o o' hi _ _ => hlocal s t i s' t' o o' hi) obs

/-! ## Simulation -/

/-- Two answers match: both runs end, or they go on in related states with the same output. -/
def Matches {τ : Type} (R : σ → τ → Prop) : Option (σ × ο) → Option (τ × ο) → Prop
  | none, none => True
  | some (s, o), some (t, o') => R s t ∧ o = o'
  | _, _ => False

theorem Matches.of_some {τ : Type} {R : σ → τ → Prop} {x : Option (σ × ο)} {t : τ} {o : ο}
    (h : Matches R x (some (t, o))) : ∃ s, x = some (s, o) ∧ R s t := by
  cases x with
  | none => exact h.elim
  | some p => exact ⟨p.1, by rw [← h.2], h.1⟩

theorem Matches.of_some_left {τ : Type} {R : σ → τ → Prop} {y : Option (τ × ο)} {s : σ} {o : ο}
    (h : Matches R (some (s, o)) y) : ∃ t, y = some (t, o) ∧ R s t := by
  cases y with
  | none => exact h.elim
  | some p => exact ⟨p.1, by rw [h.2], h.1⟩

theorem Matches.of_none {τ : Type} {R : σ → τ → Prop} {x : Option (σ × ο)}
    (h : Matches R x (none : Option (τ × ο))) : x = none := by
  cases x with
  | none => rfl
  | some p => exact h.elim

/-- **Simulation.**  Steps that match make runs that match. -/
theorem run_matches {τ : Type} {step₁ : σ → ι → Option (σ × ο)} {step₂ : τ → ι → Option (τ × ο)}
    (R : σ → τ → Prop) (P : ι → Prop) (hstep : ∀ s t i, P i → R s t → Matches R (step₁ s i) (step₂ t i))
    {is : List ι} (hi : ∀ i ∈ is, P i) {s : σ} {t : τ} (hR : R s t) :
    Matches R (run step₁ s is) (run step₂ t is) := by
  induction is generalizing s t with
  | nil => exact ⟨hR, rfl⟩
  | cons i is ih =>
    have h := hstep s t i (hi i List.mem_cons_self) hR
    have hrest : ∀ i ∈ is, P i := fun j hj => hi j (List.mem_cons_of_mem _ hj)
    simp only [run]
    cases h1 : step₁ s i with
    | none =>
      cases h2 : step₂ t i with
      | none => trivial
      | some q => simp [h1, h2, Matches] at h
    | some p =>
      cases h2 : step₂ t i with
      | none => simp [h1, h2, Matches] at h
      | some q =>
        obtain ⟨s', o⟩ := p
        obtain ⟨t', o'⟩ := q
        simp only [h1, h2, Matches] at h
        obtain ⟨hR', rfl⟩ := h
        have hrun := ih hrest hR'
        simp only [Option.bind_eq_bind, Option.bind_some]
        cases h3 : run step₁ s' is with
        | none =>
          cases h4 : run step₂ t' is with
          | none => trivial
          | some q => simp [h3, h4, Matches] at hrun
        | some p =>
          cases h4 : run step₂ t' is with
          | none => simp [h3, h4, Matches] at hrun
          | some q =>
            simp only [h3, h4, Matches] at hrun
            exact ⟨hrun.1, by rw [hrun.2]⟩

/-- **Forward simulation.**  Every step of the first machine is one of the second with the same output. -/
theorem run_refines {τ : Type} {step₁ : σ → ι → Option (σ × ο)} {step₂ : τ → ι → Option (τ × ο)}
    (R : σ → τ → Prop) (P : ι → Prop)
    (hstep : ∀ s t i s' o, P i → R s t → step₁ s i = some (s', o) → ∃ t', step₂ t i = some (t', o) ∧ R s' t')
    {is : List ι} (hi : ∀ i ∈ is, P i) {s s' : σ} {t : τ} {os : List ο} (hR : R s t)
    (h : run step₁ s is = some (s', os)) : ∃ t', run step₂ t is = some (t', os) ∧ R s' t' := by
  induction is generalizing s t os with
  | nil =>
    simp only [run_nil, Option.some.injEq, Prod.mk.injEq] at h
    obtain ⟨rfl, rfl⟩ := h
    exact ⟨t, rfl, hR⟩
  | cons i is ih =>
    obtain ⟨m, o, us, hs, hr, hu⟩ := run_cons_eq_some.1 h
    simp only at hu
    obtain ⟨t1, ht, hR1⟩ := hstep s t i m o (hi i List.mem_cons_self) hR hs
    obtain ⟨t2, hr2, hR2⟩ := ih (fun j hj => hi j (List.mem_cons_of_mem _ hj)) hR1 hr
    exact ⟨t2, run_cons_eq_some.2 ⟨t1, o, us, ht, hr2, hu⟩, hR2⟩

/-- Two machines that simulate each other interfere alike. -/
theorem nonInterfering_of_matches {τ π : Type} {step₁ : σ → ι → Option (σ × ο)}
    {step₂ : τ → ι → Option (τ × ο)} (R : σ → τ → Prop) {own other : ι → Bool}
    (hstep : ∀ s t i, own i = true ∨ other i = true → R s t → Matches R (step₁ s i) (step₂ t i))
    {s₀ : σ} {t₀ : τ} (hR : R s₀ t₀) (obs : ο → π) :
    NonInterfering step₁ s₀ own other obs ↔ NonInterfering step₂ t₀ own other obs := by
  constructor
  · intro h is js hk hproj s t os os' hr hr'
    have h1 := run_matches R _ hstep (fun i hi => hk i (List.mem_append_left _ hi)) hR
    have h2 := run_matches R _ hstep (fun i hi => hk i (List.mem_append_right _ hi)) hR
    rw [hr] at h1
    rw [hr'] at h2
    obtain ⟨s', hs', -⟩ := h1.of_some
    obtain ⟨t', ht', -⟩ := h2.of_some
    exact h is js hk hproj s' t' os os' hs' ht'
  · intro h is js hk hproj s t os os' hr hr'
    have h1 := run_matches R _ hstep (fun i hi => hk i (List.mem_append_left _ hi)) hR
    have h2 := run_matches R _ hstep (fun i hi => hk i (List.mem_append_right _ hi)) hR
    rw [hr] at h1
    rw [hr'] at h2
    obtain ⟨s', hs', -⟩ := h1.of_some_left
    obtain ⟨t', ht', -⟩ := h2.of_some_left
    exact h is js hk hproj s' t' os os' hs' ht'

/-! ## Conditions on the inputs of a run -/

/-- Every input satisfies `P`, given the inputs before it. -/
def Each (P : List ι → ι → Prop) : List ι → List ι → Prop
  | _, [] => True
  | pre, i :: is => P pre i ∧ Each P (pre ++ [i]) is

instance (P : List ι → ι → Prop) [∀ pre i, Decidable (P pre i)] :
    ∀ pre is, Decidable (Each P pre is)
  | _, [] => isTrue trivial
  | pre, i :: is =>
    have := instDecidableEach P (pre ++ [i]) is
    inferInstanceAs (Decidable (_ ∧ _))

theorem each_append {P : List ι → ι → Prop} {pre is js : List ι} :
    Each P pre (is ++ js) ↔ Each P pre is ∧ Each P (pre ++ is) js := by
  induction is generalizing pre with
  | nil => simp [Each]
  | cons i is ih =>
    rw [List.cons_append, Each, Each, ih, and_assoc]
    simp

theorem each_concat {P : List ι → ι → Prop} {pre is : List ι} {i : ι} :
    Each P pre (is ++ [i]) ↔ Each P pre is ∧ P (pre ++ is) i := by
  rw [each_append, Each, Each, and_true]

/-- Every place of a run, by the inputs before it. -/
theorem each_iff_split {P : List ι → ι → Prop} {is : List ι} :
    Each P [] is ↔ ∀ l i r, is = l ++ i :: r → P l i := by
  constructor
  · rintro h l i r rfl
    exact (each_append.1 h).2.1
  · intro h
    induction is using List.reverseRecOn with
    | nil => trivial
    | append_singleton is i ih =>
      refine each_concat.2 ⟨ih fun l j r he => h l j (r ++ [i]) (by simp [he]), h is i [] rfl⟩

end Runs
