import Mathlib.Data.List.Perm.Basic

/-! # Lists of computations that may fail

Running a fallible function over a list succeeds exactly if it succeeds on every element, so the
order of the elements only decides the order of the results and which error is reported. -/
namespace FallibleLists

open List

universe u

variable {ε α : Type*} {β γ : Type u}

theorem bind_eq_ok {x : Except ε γ} {b : β} : (x >>= f) = .ok b ↔ ∃ a, x = .ok a ∧ f a = .ok b := by
  cases x <;> simp [bind, Except.bind]

theorem forall₂_getElem? (h : List.Forall₂ R as bs) (i : ℕ) :
    (as[i]? = none ∧ bs[i]? = none) ∨ ∃ a b, as[i]? = some a ∧ bs[i]? = some b ∧ R a b := by
  induction h generalizing i with
  | nil => exact .inl ⟨rfl, rfl⟩
  | @cons a b as bs hab _ ih =>
    cases i with
    | zero => exact .inr ⟨a, b, rfl, rfl, hab⟩
    | succ i => simpa using ih i

theorem mapM_eq_ok {f : α → Except ε β} {as : List α} :
    as.mapM f = .ok bs ↔ List.Forall₂ (fun a b => f a = .ok b) as bs := by
  induction as generalizing bs with
  | nil =>
    rw [mapM_nil, forall₂_nil_left_iff]
    exact ⟨fun h => (Except.ok.inj h).symm, fun h => by rw [h]; rfl⟩
  | cons a as ih =>
    rw [mapM_cons, forall₂_cons_left_iff]
    simp only [bind_eq_ok, ih]
    constructor
    · rintro ⟨b, hb, bs', hbs, h⟩
      exact ⟨b, bs', hb, hbs, (Except.ok.inj h).symm⟩
    · rintro ⟨b, bs', hb, hbs, rfl⟩
      exact ⟨b, hb, bs', hbs, rfl⟩

end FallibleLists
