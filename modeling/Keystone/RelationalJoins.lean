import Mathlib.Data.Multiset.Bind

/-! # Nested loops and hash tables

The nested loop is the meaning of a join: every pair of rows that satisfies the predicate. A hash
join groups one side by key and looks up the rows of the other. The two agree as soon as the
predicate holds exactly on the pairs with equal keys. -/
namespace RelationalJoins

open List

variable {α β γ κ : Type*}

def loopJoin (p : α → β → Bool) (f : α → β → γ) (left : List α) (right : List β) : List γ :=
  left.flatMap fun a => (right.filter (p a)).map (f a)

/-- A row without partners is kept once. -/
def orPad (pad : γ) (found : List γ) : List γ := if found.isEmpty then [pad] else found

def loopOuterJoin (p : α → β → Bool) (f : α → β → γ) (pad : α → γ) (left : List α)
    (right : List β) : List γ :=
  left.flatMap fun a => orPad (pad a) ((right.filter (p a)).map (f a))

theorem loopJoin_swap (p : α → β → Bool) (f : α → β → γ) (left : List α) (right : List β) :
    (loopJoin p f left right).Perm (loopJoin (fun b a => p a b) (fun b a => f a b) right left) := by
  have inner a : ((right.filter (p a)).map (f a) : Multiset γ) =
      (right : Multiset β).bind fun b => if p a b then {f a b} else 0 := by
    induction right with
    | nil => rfl
    | cons b right ih =>
      rw [← Multiset.cons_coe, Multiset.cons_bind, ← ih]
      by_cases h : p a b <;> simp [h]
  have outer b : ((left.filter fun a => p a b).map fun a => f a b : Multiset γ) =
      (left : Multiset α).bind fun a => if p a b then {f a b} else 0 := by
    induction left with
    | nil => rfl
    | cons a left ih =>
      rw [← Multiset.cons_coe, Multiset.cons_bind, ← ih]
      by_cases h : p a b <;> simp [h]
  rw [← Multiset.coe_eq_coe, loopJoin, loopJoin, ← Multiset.coe_bind, ← Multiset.coe_bind]
  simp only [inner, outer]
  exact Multiset.bind_bind _ _

/-- A hash table: the rows of each key in the order they came. -/
abbrev Buckets (κ β : Type*) := List (κ × List β)

namespace Buckets

variable [DecidableEq κ]

def get : Buckets κ β → κ → List β
  | [], _ => []
  | (k', bs) :: t, k => if k' = k then bs else get t k

def push : Buckets κ β → κ → β → Buckets κ β
  | [], k, b => [(k, [b])]
  | (k', bs) :: t, k, b => if k' = k then (k', bs ++ [b]) :: t else (k', bs) :: push t k b

theorem get_push (t : Buckets κ β) (b : β) :
    (t.push k b).get k' = if k = k' then t.get k' ++ [b] else t.get k' := by
  induction t with
  | nil => simp [push, get]
  | cons e t ih =>
    obtain ⟨k₀, bs⟩ := e
    by_cases hk : k₀ = k
    · subst hk
      by_cases h : k₀ = k' <;> simp [push, get, h]
    · by_cases h : k₀ = k'
      · subst h
        simp [push, get, hk, Ne.symm hk]
      · simp [push, get, hk, h, ih]

def add (key : β → Option κ) (t : Buckets κ β) (b : β) : Buckets κ β :=
  match key b with
  | some k => t.push k b
  | none => t

def build (key : β → Option κ) (rows : List β) : Buckets κ β := rows.foldl (add key) []

theorem get_foldl_add (rows : List β) (k : κ) :
    (rows.foldl (add key) t).get k = t.get k ++ rows.filter fun b => key b = some k := by
  induction rows generalizing t with
  | nil => simp
  | cons b rows ih =>
    rw [foldl_cons, ih]
    cases hb : key b with
    | none => simp [add, hb]
    | some k' =>
      by_cases h : k' = k
      · simp [add, hb, get_push, h]
      · simp [add, hb, get_push, h]

theorem get_build (k : κ) : (build key rows).get k = rows.filter fun b => key b = some k := by
  rw [build, get_foldl_add]
  simp [get]

end Buckets

section Probe

variable [DecidableEq κ] (ka : α → Option κ) (kb : β → Option κ) (f : α → β → γ)

def matching (table : Buckets κ β) (a : α) : List β :=
  match ka a with
  | some k => table.get k
  | none => []

def probe (left : List α) (table : Buckets κ β) : List γ :=
  left.flatMap fun a => (matching ka table a).map (f a)

def probeOuter (pad : α → γ) (left : List α) (table : Buckets κ β) : List γ :=
  left.flatMap fun a => orPad (pad a) ((matching ka table a).map (f a))

def SameKey (a : α) (b : β) : Prop := ∃ k, ka a = some k ∧ kb b = some k

instance (a : α) (b : β) : Decidable (SameKey ka kb a b) :=
  decidable_of_iff ((ka a).isSome ∧ ka a = kb b) (by
    unfold SameKey
    cases ka a <;> simp [eq_comm])

theorem matching_build (a : α) :
    matching ka (Buckets.build kb right) a = right.filter fun b => decide (SameKey ka kb a b) := by
  unfold matching
  cases ha : ka a with
  | none => simp [SameKey, ha]
  | some k =>
    simp only [Buckets.get_build]
    simp [SameKey, ha]

variable {ka kb} {p : α → β → Bool} {left : List α} {right : List β}

theorem matching_eq_filter (h : ∀ b ∈ right, p a b = true ↔ SameKey ka kb a b) :
    matching ka (Buckets.build kb right) a = right.filter (p a) := by
  rw [matching_build]
  apply filter_congr
  intro b hb
  simp [← h b hb]

theorem probe_eq_loopJoin (h : ∀ a ∈ left, ∀ b ∈ right, p a b = true ↔ SameKey ka kb a b) :
    probe ka f left (Buckets.build kb right) = loopJoin p f left right := by
  apply flatMap_congr
  intro a ha
  rw [matching_eq_filter (h a ha)]

theorem probeOuter_eq_loopOuterJoin
    (h : ∀ a ∈ left, ∀ b ∈ right, p a b = true ↔ SameKey ka kb a b) :
    probeOuter ka f pad left (Buckets.build kb right) = loopOuterJoin p f pad left right := by
  apply flatMap_congr
  intro a ha
  rw [matching_eq_filter (h a ha)]

/-- One row on either side shows whether the predicate and the keys agree on that pair. -/
theorem sameKey_of_probe_single (h : (probe ka f [a] (Buckets.build kb [b])).Perm
    (loopJoin p f [a] [b])) :
    p a b = true ↔ SameKey ka kb a b := by
  have hlen := h.length_eq
  simp only [probe, loopJoin, matching_build] at hlen
  by_cases hp : p a b <;> by_cases hk : SameKey ka kb a b <;> simp_all

end Probe

end RelationalJoins
