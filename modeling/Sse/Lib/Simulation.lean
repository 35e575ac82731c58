import Sse.Lib.Wp

/-!
# Programs over two states

A program that is written over an interface runs over everything that implements it.  A
`Sim` relates programs over two states so that sequencing keeps the relation: where the
calls of two implementations are related, so is every program over them.

    metered f gauge limit    what x does while its gauge is at most the limit, y does as well
-/

namespace Wp

/-- A relation between programs that `pure`, `throw` and `>>=` keep. -/
structure Sim (σ τ ε : Type) where
  Rel : {α : Type} → StateT σ (Except ε) α → StateT τ (Except ε) α → Prop
  pure : ∀ {α : Type} (a : α), Rel (pure a) (pure a)
  throw : ∀ {α : Type} (e : ε), Rel (throw e : StateT σ (Except ε) α) (throw e)
  bind : ∀ {α β : Type} {x : StateT σ (Except ε) α} {y : StateT τ (Except ε) α} {f : α → StateT σ (Except ε) β}
    {g : α → StateT τ (Except ε) β}, Rel x y → (∀ a, Rel (f a) (g a)) → Rel (x >>= f) (y >>= g)

section

variable {σ τ ε α β : Type}

theorem bind_eq_ok {x : StateT σ (Except ε) α} {f : α → StateT σ (Except ε) β} {s : σ} {r : β × σ} :
    (x >>= f) s = .ok r ↔ ∃ a s', x s = .ok (a, s') ∧ f a s' = .ok r := by
  have hbind : (x >>= f) s = (x s >>= fun r => f r.1 r.2) := rfl
  rw [hbind]
  cases hx : x s with
  | error e =>
    constructor
    · intro h
      cases h
    · rintro ⟨a, s', h, -⟩
      cases h
  | ok q =>
    constructor
    · intro h
      exact ⟨q.1, q.2, rfl, h⟩
    · rintro ⟨a, s', h, h'⟩
      cases h
      exact h'

/-- What `x` does while its gauge is at most the limit, `y` does as well; the gauge never falls. -/
def Sim.metered (f : σ → τ) (gauge : σ → Nat) (limit : Nat) : Sim σ τ ε where
  Rel x y := ∀ s a s', x s = .ok (a, s') → gauge s ≤ gauge s' ∧ (gauge s' ≤ limit → y (f s) = .ok (a, f s'))
  pure := by
    intro α a s b s' h
    cases h
    exact ⟨Nat.le_refl _, fun _ => rfl⟩
  throw := by
    intro α e s b s' h
    cases h
  bind := by
    intro α β x y g h hxy hgh s b s' hok
    obtain ⟨a, s1, hx, hg⟩ := bind_eq_ok.1 hok
    obtain ⟨hle, hy⟩ := hxy s a s1 hx
    obtain ⟨hle', hh⟩ := hgh a s1 b s' hg
    exact ⟨hle.trans hle', fun hlim => bind_eq_ok.2 ⟨a, f s1, hy (hle'.trans hlim), hh hlim⟩⟩

/-! ## Loops -/

variable (M : Sim σ τ ε)

theorem Sim.ite {c : Prop} [Decidable c] {x x' : StateT σ (Except ε) α} {y y' : StateT τ (Except ε) α}
    (h : M.Rel x y) (h' : M.Rel x' y') : M.Rel (if c then x else x') (if c then y else y') := by
  split_ifs
  · exact h
  · exact h'

theorem Sim.foldlM {γ : Type} {f : α → γ → StateT σ (Except ε) α} {g : α → γ → StateT τ (Except ε) α}
    (h : ∀ a c, M.Rel (f a c) (g a c)) (l : List γ) (a : α) : M.Rel (l.foldlM f a) (l.foldlM g a) := by
  induction l generalizing a with
  | nil => exact M.pure a
  | cons c l ih =>
    rw [List.foldlM_cons, List.foldlM_cons]
    exact M.bind (h a c) ih

theorem Sim.mapM {f : α → StateT σ (Except ε) β} {g : α → StateT τ (Except ε) β} (h : ∀ a, M.Rel (f a) (g a))
    (l : List α) : M.Rel (l.mapM f) (l.mapM g) := by
  induction l with
  | nil =>
    rw [List.mapM_nil, List.mapM_nil]
    exact M.pure []
  | cons a l ih =>
    rw [List.mapM_cons, List.mapM_cons]
    exact M.bind (h a) fun b => M.bind ih fun bs => M.pure (b :: bs)

end

end Wp
