import Mathlib

/-!
# Programs with a state and errors

`Run E x s Q`: the program `x`, started in `s`, ends with `Q`, or with an error that `E`
allows.  One rule for each way to build a program.
-/

namespace Wp

variable {σ ε α β : Type}

/-- From `s` the program ends with `Q`, or with an error in `E`. -/
def Run (E : ε → Prop) (x : StateT σ (Except ε) α) (s : σ) (Q : α → σ → Prop) : Prop :=
  match x s with
  | .ok (a, s') => Q a s'
  | .error e => E e

variable {E : ε → Prop} {s : σ}

theorem Run.of_ok {x : StateT σ (Except ε) α} {a : α} {t : σ} {Q : α → σ → Prop} (h : x s = .ok (a, t))
    (hQ : Q a t) : Run E x s Q := by
  unfold Run
  rw [h]
  exact hQ

theorem Run.of_error {x : StateT σ (Except ε) α} {e : ε} {Q : α → σ → Prop} (h : x s = .error e) (he : E e) :
    Run E x s Q := by
  unfold Run
  rw [h]
  exact he

theorem Run.pure {a : α} {Q : α → σ → Prop} (h : Q a s) : Run E (pure a) s Q := h

theorem Run.throw {e : ε} {Q : α → σ → Prop} (h : E e) : Run E (throw e) s Q := h

theorem Run.get {Q : σ → σ → Prop} (h : Q s s) : Run E get s Q := h

theorem Run.set {t : σ} {Q : PUnit → σ → Prop} (h : Q ⟨⟩ t) : Run E (set t) s Q := h

theorem Run.modify {f : σ → σ} {Q : PUnit → σ → Prop} (h : Q ⟨⟩ (f s)) : Run E (modify f) s Q := h

theorem Run.mono {x : StateT σ (Except ε) α} {P Q : α → σ → Prop} (h : Run E x s P) (hPQ : ∀ a s', P a s' → Q a s') :
    Run E x s Q := by
  unfold Run at h ⊢
  cases hx : x s with
  | error e =>
    rw [hx] at h
    exact h
  | ok r =>
    rw [hx] at h
    exact hPQ r.1 r.2 h

theorem Run.bind {x : StateT σ (Except ε) α} {f : α → StateT σ (Except ε) β} {P : α → σ → Prop} {Q : β → σ → Prop}
    (h : Run E x s P) (hf : ∀ a s', P a s' → Run E (f a) s' Q) : Run E (x >>= f) s Q := by
  unfold Run at h
  have hbind : (x >>= f) s = (x s >>= fun r => f r.1 r.2) := rfl
  cases hx : x s with
  | error e =>
    rw [hx] at h
    exact Run.of_error (by rw [hbind, hx]; rfl) h
  | ok r =>
    rw [hx] at h
    have hnext := hf r.1 r.2 h
    unfold Run at hnext ⊢
    rw [hbind, hx]
    exact hnext

/-- How a run may end. -/
theorem Run.cases {x : StateT σ (Except ε) α} {Q : α → σ → Prop} (h : Run E x s Q) :
    (∃ a s', x s = .ok (a, s') ∧ Q a s') ∨ ∃ e, x s = .error e ∧ E e := by
  unfold Run at h
  cases hx : x s with
  | error e =>
    rw [hx] at h
    exact Or.inr ⟨e, rfl, h⟩
  | ok r =>
    rw [hx] at h
    exact Or.inl ⟨r.1, r.2, rfl, h⟩

/-- What a run that is known to end well has ended with. -/
theorem Run.ok {x : StateT σ (Except ε) α} {a : α} {s' : σ} {Q : α → σ → Prop} (h : Run E x s Q)
    (hx : x s = .ok (a, s')) : Q a s' := by
  unfold Run at h
  rw [hx] at h
  exact h

-- a run on a concrete state must not be evaluated when its type is looked at
attribute [irreducible] Run

end Wp
