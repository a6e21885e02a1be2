import Mathlib.Data.List.Basic

/-! # Names with separators

Splitting a name at the first or the last separator, and the stem and extension of a file name. A
name that was put together is taken apart again if the separator is not in the part that is
searched. -/
namespace FileNames

open List

variable {α : Type*} [DecidableEq α] {sep : α} {a b : List α}

def splitOnce (sep : α) : List α → Option (List α × List α)
  | [] => none
  | c :: cs => if c = sep then some ([], cs) else (splitOnce sep cs).map fun p => (c :: p.1, p.2)

theorem splitOnce_append (h : sep ∉ a) : splitOnce sep (a ++ sep :: b) = some (a, b) := by
  induction a with
  | nil => simp [splitOnce]
  | cons c cs ih =>
    have hne : c ≠ sep := fun heq => h (by simp [heq])
    rw [cons_append, splitOnce, if_neg hne, ih fun hmem => h (by simp [hmem])]
    rfl

theorem append_cons_inj (ha : sep ∉ a) (hb : sep ∉ b) : a ++ sep :: x = b ++ sep :: y ↔ a = b ∧
    x = y := by
  constructor
  · intro heq
    have hsame := congrArg (splitOnce sep) heq
    rwa [splitOnce_append ha, splitOnce_append hb, Option.some.injEq, Prod.mk.injEq] at hsame
  · rintro ⟨rfl, rfl⟩
    rfl

theorem not_mem_of_mem_splitOn {xs part : List α} (h : part ∈ xs.splitOn sep) : sep ∉ part := by
  induction xs generalizing part with
  | nil =>
    obtain rfl : part = [] := by simpa using h
    simp
  | cons x xs ih =>
    rw [List.splitOn, splitOnP_cons_eq_if_modifyHead] at h
    split at h
    · rcases mem_cons.1 h with rfl | htail
      · simp
      · exact ih htail
    · rename_i hne
      have hparts : ∀ p ∈ xs.splitOnP (· == sep), sep ∉ p := fun p hp => ih hp
      cases hsplit : xs.splitOnP (· == sep) with
      | nil => simp [hsplit] at h
      | cons head tail =>
        rw [hsplit] at h hparts
        rcases mem_cons.1 h with rfl | htail
        · have hx : sep ≠ x := fun heq => hne (by simp [heq])
          simpa [hx] using hparts head (by simp)
        · exact hparts part (by simp [htail])

theorem splitOnce_none (h : sep ∉ a) : splitOnce sep a = none := by
  induction a with
  | nil => rfl
  | cons c cs ih =>
    have hne : c ≠ sep := fun heq => h (by simp [heq])
    rw [splitOnce, if_neg hne, ih fun hmem => h (by simp [hmem])]
    rfl

def rsplitOnce (sep : α) (name : List α) : Option (List α × List α) :=
  (splitOnce sep name.reverse).map fun p => (p.2.reverse, p.1.reverse)

theorem rsplitOnce_append (h : sep ∉ b) : rsplitOnce sep (a ++ sep :: b) = some (a, b) := by
  have hreverse : (a ++ sep :: b).reverse = b.reverse ++ sep :: a.reverse := by simp
  rw [rsplitOnce, hreverse, splitOnce_append (by simpa using h)]
  simp

/-- A name that starts with its only dot has no extension, and neither has `..`. -/
def stemAndExtension (dot : α) (name : List α) : List α × Option (List α) :=
  if name = [dot, dot] then (name, none)
  else match rsplitOnce dot name with
    | none => (name, none)
    | some (before, after) => if before = [] then (name, none) else (before, some after)

theorem stemAndExtension_plain (h : sep ∉ a) : stemAndExtension sep a = (a, none) := by
  have hne : a ≠ [sep, sep] := fun heq => h (by simp [heq])
  rw [stemAndExtension, if_neg hne, rsplitOnce, splitOnce_none (by simpa using h)]
  rfl

theorem stemAndExtension_append (ha : sep ∉ a) (hne : a ≠ []) (hb : sep ∉ b) :
    stemAndExtension sep (a ++ sep :: b) = (a, some b) := by
  have hdots : a ++ sep :: b ≠ [sep, sep] := by
    intro heq
    cases a with
    | nil => exact hne rfl
    | cons c cs => exact ha (by simp [(List.cons.inj heq).1])
  rw [stemAndExtension, if_neg hdots, rsplitOnce_append hb]
  exact if_neg hne

end FileNames
