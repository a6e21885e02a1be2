import Mathlib.Data.Option.Basic

/-! # Three-valued logic

The strong connectives on `Option Bool`, where `none` is unknown. Each one is described by when its
value is true and when it is false; everything else about it is unknown. -/
namespace ThreeValuedLogic

abbrev Truth := Option Bool

namespace Truth

def not : Truth → Truth
  | some b => some !b
  | none => none

def and : Truth → Truth → Truth
  | some false, _ => some false
  | _, some false => some false
  | some true, some true => some true
  | _, _ => none

def or : Truth → Truth → Truth
  | some true, _ => some true
  | _, some true => some true
  | some false, some false => some false
  | _, _ => none

def any : List Truth → Truth
  | [] => some false
  | t :: ts => t.or (any ts)

def negateIf (negated : Bool) (t : Truth) : Truth := if negated then t.not else t

/-- A known value, or `u` for unknown. -/
def counted (u : Bool) (t : Truth) : Bool := t.getD u

theorem counted_not (u : Bool) (t : Truth) : t.not.counted u = !t.counted !u := by
  rcases t with _ | _ | _ <;> simp [not, counted]

theorem counted_and (u : Bool) (t v : Truth) :
    (t.and v).counted u = (t.counted u && v.counted u) := by
  rcases t with _ | _ | _ <;> rcases v with _ | _ | _ <;> cases u <;> rfl

theorem counted_or (u : Bool) (t v : Truth) :
    (t.or v).counted u = (t.counted u || v.counted u) := by
  rcases t with _ | _ | _ <;> rcases v with _ | _ | _ <;> cases u <;> rfl

theorem counted_false (t : Truth) : t.counted false = decide (t = some true) := by
  rcases t with _ | _ | _ <;> rfl

theorem counted_negateIf (u negated : Bool) (t : Truth) :
    (t.negateIf negated).counted u = (t.counted (u ^^ negated) ^^ negated) := by
  rcases t with _ | _ | _ <;> cases u <;> cases negated <;> rfl

theorem or_eq_true {t u : Truth} : t.or u = some true ↔ t = some true ∨ u = some true := by
  rcases t with _ | _ | _ <;> rcases u with _ | _ | _ <;> simp [or]

theorem any_eq_true {ts : List Truth} : any ts = some true ↔ some true ∈ ts := by
  induction ts with
  | nil => simp [any]
  | cons t ts ih => rw [any, or_eq_true, ih, List.mem_cons, eq_comm]

end Truth

def lift {α : Type*} (r : α → α → Bool) (a b : Option α) : Truth :=
  match a, b with
  | some x, some y => some (r x y)
  | _, _ => none

theorem lift_eq_true : lift r a b = some true ↔ ∃ x y, a = some x ∧ b = some y ∧ r x y = true := by
  rcases a with _ | x <;> rcases b with _ | y <;> simp [lift]

end ThreeValuedLogic
