import Mathlib.Data.List.Basic

/-! # Runs of a step function under a guard

A run applies events one after another. `Along P` says that every event of the run meets `P` in the
state it is applied to. -/
namespace GuardedRuns

variable {S E : Type*} (next : S → E → S)

def run : S → List E → S
  | s, [] => s
  | s, e :: es => run (next s e) es

def Along (P : S → E → Prop) : S → List E → Prop
  | _, [] => True
  | s, e :: es => P s e ∧ Along P (next s e) es

instance decidableAlong (P : S → E → Prop) [∀ s e, Decidable (P s e)] :
    (s : S) → (es : List E) → Decidable (Along next P s es)
  | _, [] => .isTrue trivial
  | s, e :: es =>
    have := decidableAlong P (next s e) es
    inferInstanceAs (Decidable (P s e ∧ Along next P (next s e) es))

variable {next} {P Q : S → E → Prop} {s : S}

@[simp] theorem run_nil : run next s [] = s := rfl
@[simp] theorem run_cons (e : E) (es : List E) :
    run next s (e :: es) = run next (next s e) es := rfl

theorem run_append (es fs : List E) : run next s (es ++ fs) = run next (run next s es) fs := by
  induction es generalizing s with
  | nil => rfl
  | cons e es ih => exact ih

theorem along_append : Along next P s (es ++ fs) ↔ Along next P s es ∧
    Along next P (run next s es) fs := by
  induction es generalizing s with
  | nil => simp [Along]
  | cons e es ih => simp [Along, ih, and_assoc]

variable {es : List E}

theorem Along.mono (hPQ : ∀ s e, P s e → Q s e) (h : Along next P s es) : Along next Q s es := by
  induction es generalizing s with
  | nil => trivial
  | cons e es ih => exact ⟨hPQ s e h.1, ih h.2⟩

theorem Along.and (hP : Along next P s es) (hQ : Along next Q s es) :
    Along next (fun s e => P s e ∧ Q s e) s es := by
  induction es generalizing s with
  | nil => trivial
  | cons e es ih => exact ⟨⟨hP.1, hQ.1⟩, ih hP.2 hQ.2⟩

theorem along_of_forall {R : E → Prop} (h : ∀ e ∈ es, R e) : Along next (fun _ e => R e) s es := by
  induction es generalizing s with
  | nil => trivial
  | cons e es ih => exact ⟨h e List.mem_cons_self, ih fun x hx => h x (.tail _ hx)⟩

variable {I : S → Prop}

theorem Along.invariant (hstep : ∀ s e, I s → P s e → I (next s e)) (h : Along next P s es)
    (hs : I s) :
    I (run next s es) := by
  induction es generalizing s with
  | nil => exact hs
  | cons e es ih => exact ih h.2 (hstep s e hs h.1)

theorem run_invariant (hstep : ∀ s e, I s → I (next s e)) (hs : I s) (es : List E) :
    I (run next s es) := by
  have hall : Along next (fun _ _ => True) s es := along_of_forall fun _ _ => trivial
  exact hall.invariant (fun s e h _ => hstep s e h) hs

theorem Along.of_invariant (hstep : ∀ s e, I s → P s e → I (next s e))
    (hQ : ∀ s e, I s → P s e → Q s e)
    (h : Along next P s es) (hs : I s) :
    Along next Q s es := by
  induction es generalizing s with
  | nil => trivial
  | cons e es ih => exact ⟨hQ s e hs h.1, ih h.2 (hstep s e hs h.1)⟩

theorem along_congr {R : E → Prop} (hstep : ∀ s e, R e → I s → I (next s e))
    (h : ∀ s e, R e → I s → (P s e ↔ Q s e)) (hes : ∀ e ∈ es, R e) (hs : I s) :
    Along next P s es ↔ Along next Q s es := by
  induction es generalizing s with
  | nil => exact Iff.rfl
  | cons e es ih =>
    have he := hes e List.mem_cons_self
    exact and_congr (h s e he hs)
      (ih (fun x hx => hes x (.tail _ hx)) (hstep s e he hs))

/-- A guard is exact when it keeps the invariant, and a step outside it breaks what the
invariant is there for: then a run is right all along if and only if it meets the guard. -/
theorem always_iff_along {I R : S → Prop} (hR : ∀ s, I s → R s)
    (hstep : ∀ s e, I s → P s e → I (next s e)) (hbreak : ∀ s e, I s → ¬ P s e → ¬ R (next s e))
    (hs : I s) (es : List E) : (∀ n, R (run next s (es.take n))) ↔ Along next P s es := by
  induction es generalizing s with
  | nil => simp [Along, hR s hs]
  | cons e es ih =>
    constructor
    · intro h
      have he : P s e := by
        by_contra hne
        exact hbreak s e hs hne (by simpa using h 1)
      exact ⟨he, (ih (hstep s e hs he)).mp fun n => by simpa using h (n + 1)⟩
    · rintro ⟨he, hes⟩ n
      cases n with
      | zero => simpa using hR s hs
      | succ n => simpa using (ih (hstep s e hs he)).mpr hes n

end GuardedRuns
