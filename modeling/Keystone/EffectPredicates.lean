import Mathlib.Logic.Basic
import Mathlib.Control.Basic

/-! # Properties of effectful programs

A property of computations that sequencing, failing and catching keep holds of every program that is
put together from computations with the property. For a state with errors, "each run leads from a
state to a related one" is such a property if the relation is reflexive and transitive. -/
namespace EffectPredicates

structure Closed (ε : Type) {m : Type → Type} [Monad m] [MonadExceptOf ε m]
    (P : (α : Type) → m α → Prop) : Prop where
  pure : ∀ {α : Type} (a : α), P α (Pure.pure a)
  bind : ∀ {α β : Type} {x : m α} {f : α → m β}, P α x → (∀ a, P β (f a)) → P β (x >>= f)
  throw : ∀ {α : Type} (e : ε), P α (MonadExcept.throw e)
  tryCatch : ∀ {α : Type} {x : m α} {f : ε → m α}, P α x → (∀ e, P α (f e)) →
    P α (MonadExcept.tryCatch x f)

namespace Closed

variable {ε : Type} {m : Type → Type} [Monad m] [MonadExceptOf ε m]
  {P : (α : Type) → m α → Prop} {α β : Type}

variable {as : List α}

theorem map (closed : Closed ε P) {f : α → β} (h : P α x) : P β (x >>= fun a => Pure.pure (f a)) :=
  closed.bind h fun _ => closed.pure _

theorem bind_found (closed : Closed ε P) {f : Option α → m β} (hx : P _ x)
    (hnone : f none = MonadExcept.throw e) (h : ∀ a, P β (f (some a))) : P β (x >>= f) := by
  refine closed.bind hx fun found => ?_
  cases found with
  | none => exact hnone ▸ closed.throw e
  | some a => exact h a

theorem mapM [LawfulMonad m] (closed : Closed ε P) (h : ∀ a ∈ as, P β (f a)) :
    P (List β) (as.mapM f) := by
  induction as with
  | nil =>
    exact closed.pure []
  | cons a as ih =>
    rw [List.mapM_cons]
    refine closed.bind (h a (by simp)) fun b => ?_
    refine closed.bind (ih fun a' ha' => h a' (by simp [ha'])) fun bs => ?_
    exact closed.pure (b :: bs)

theorem foldlM (closed : Closed ε P) (h : ∀ a ∈ as, ∀ b, P β (f b a)) (b : β) :
    P β (as.foldlM f b) := by
  induction as generalizing b with
  | nil => exact closed.pure b
  | cons a as ih =>
    refine closed.bind (h a (by simp) b) fun b' => ?_
    exact ih (fun a' ha' => h a' (by simp [ha'])) b'

theorem forM (closed : Closed ε P) (h : ∀ a ∈ as, P PUnit (f a)) : P PUnit (as.forM f) := by
  induction as with
  | nil => exact closed.pure _
  | cons a as ih => exact closed.bind (h a (by simp)) fun _ => ih fun a' ha' => h a' (by simp [ha'])

end Closed

section Pairs

variable {ε : Type} {m m' : Type → Type} [Monad m] [MonadExceptOf ε m] [Monad m']
  [MonadExceptOf ε m']

/-- Programs that go on in the same way after related computations are related. -/
structure Related (ε : Type) {m m' : Type → Type} [Monad m] [MonadExceptOf ε m] [Monad m']
    [MonadExceptOf ε m']
    (R : (α : Type) → m α → m' α → Prop) : Prop where
  pure : ∀ {α : Type} (a : α), R α (Pure.pure a) (Pure.pure a)
  bind : ∀ {α β : Type} {x : m α} {y : m' α} {f : α → m β} {g : α → m' β}, R α x y →
    (∀ a, R β (f a) (g a)) →
    R β (x >>= f) (y >>= g)
  throw : ∀ {α : Type} (e : ε), R α (MonadExcept.throw e) (MonadExcept.throw e)

theorem related_eq : Related ε fun α (x y : m α) => x = y :=
  ⟨fun _ => rfl, fun hx hf => by rw [hx, funext hf], fun _ => rfl⟩

theorem Related.ite (_ : Related ε R) [Decidable c]
    {x y : m α} {x' y' : m' α} (hx : R α x x') (hy : R α y y') :
      R α (if c then x else y) (if c then x' else y') := by
  by_cases hc : c <;> simpa [hc]

end Pairs

section States

variable {ε σ α : Type} {R : σ → σ → Prop}

/-- Every run leads to a related state, whether it fails or not. -/
def Steps (R : σ → σ → Prop) (α : Type) (x : ExceptT ε (StateM σ) α) : Prop :=
  ∀ s, R s (x.run.run s).2

variable {β : Type}

theorem run_bind (x : ExceptT ε (StateM σ) α) (f : α → ExceptT ε (StateM σ) β) (s : σ) :
    (x >>= f).run.run s = match x.run.run s with
      | (.ok a, s') => (f a).run.run s'
      | (.error e, s') => (.error e, s') := by
  rw [ExceptT.run_bind, StateT.run_bind]
  cases x.run.run s with
  | mk r s' => cases r <;> rfl

variable {x : ExceptT ε (StateM σ) α}

theorem run_bind_eq_ok : (x >>= f).run.run s = (.ok b, s') ↔
      ∃ a s₁, x.run.run s = (.ok a, s₁) ∧ (f a).run.run s₁ = (.ok b, s') := by
  rw [run_bind]
  rcases x.run.run s with ⟨e | a, s₁⟩
  · constructor
    · intro h
      cases h
    · rintro ⟨a, s₁', h, -⟩
      cases h
  · constructor
    · intro h
      exact ⟨a, s₁, rfl, h⟩
    · rintro ⟨a', s₁', h, h'⟩
      cases h
      exact h'

theorem run_tryCatch (x : ExceptT ε (StateM σ) α) (f : ε → ExceptT ε (StateM σ) α) (s : σ) :
    (tryCatch x f).run.run s = match x.run.run s with
      | (.ok a, s') => (.ok a, s')
      | (.error e, s') => (f e).run.run s' := by
  have hrun : (tryCatch x f).run = x.run >>= fun r => match r with
      | .ok a => pure (.ok a)
      | .error e => (f e).run := rfl
  rw [hrun, StateT.run_bind]
  cases x.run.run s with
  | mk r s' => cases r <;> rfl

theorem closed_steps (refl : ∀ a, R a a) (trans : ∀ {a b c}, R a b → R b c → R a c) :
    Closed ε (Steps (ε := ε) R) where
  pure a := fun s => refl s
  throw e := fun s => refl s
  bind := by
    intro α β x f hx hf s
    have hs := hx s
    rw [run_bind]
    rcases hrun : x.run.run s with ⟨r | a, s'⟩
    · simpa [hrun] using hs
    · rw [hrun] at hs
      exact trans hs (hf a s')
  tryCatch := by
    intro α x f hx hf s
    have hs := hx s
    rw [run_tryCatch]
    rcases hrun : x.run.run s with ⟨e | a, s'⟩
    · rw [hrun] at hs
      exact trans hs (hf e s')
    · simpa [hrun] using hs

variable {I : σ → Prop} {β : Type}

abbrev Keeps (I : σ → Prop) : (α : Type) → ExceptT ε (StateM σ) α → Prop :=
  Steps fun s s' => I s → I s'

theorem closed_keeps : Closed ε (Keeps (ε := ε) I) :=
  closed_steps (fun _ h => h) fun hab hbc h => hbc (hab h)

theorem Keeps.bind {Q : α → Prop} (hx : Keeps I α x)
    (post : ∀ s, I s → ∀ a s', x.run.run s = (.ok a, s') → Q a) (hf : ∀ a, Q a → Keeps I β (f a)) :
    Keeps I β (x >>= f) := by
  intro s hs
  have hs' := hx s hs
  rw [run_bind]
  rcases hrun : x.run.run s with ⟨e | a, s'⟩
  · simpa [hrun] using hs'
  · rw [hrun] at hs'
    exact hf a (post s hs a s' hrun) s' hs'

end States

end EffectPredicates
