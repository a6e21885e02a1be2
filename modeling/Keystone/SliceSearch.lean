import Mathlib.Data.List.Basic
import Mathlib.Order.Basic

/-! # Binary search over a slice

The search halves a window around the target: it moves the base past the middle unless the middle is
greater, so the base ends on the last element that is not greater. On a list that is ordered by the
comparison the answer is a place where the target is or where it goes in. -/
namespace SliceSearch

open List

variable {α : Type*}

def compareAt (f : α → Ordering) (xs : List α) (i : ℕ) : Ordering := (xs[i]?.map f).getD .lt

/-- Halve the window of `size` elements from `base` on until one is left. -/
def narrow (f : α → Ordering) (xs : List α) : (fuel size base : ℕ) → ℕ
  | 0, _, base => base
  | fuel + 1, size, base =>
    if size ≤ 1 then base
    else narrow f xs fuel (size - size / 2)
      (if compareAt f xs (base + size / 2) = .gt then base else base + size / 2)

/-- `.ok`: the position of an equal element; `.error`: the position where one could be inserted. -/
def binarySearchBy (f : α → Ordering) (xs : List α) : Except ℕ ℕ :=
  if xs.isEmpty then .error 0
  else
    let base := narrow f xs xs.length xs.length 0
    match compareAt f xs base with
    | .eq => .ok base
    | .lt => .error (base + 1)
    | .gt => .error base

def partitionPoint (p : α → Bool) (xs : List α) : ℕ :=
  match binarySearchBy (fun x => if p x then .lt else .gt) xs with
  | .ok i => i
  | .error i => i

def Ordered (f : α → Ordering) (xs : List α) : Prop :=
  xs.Pairwise fun a b => (f a = .gt → f b = .gt) ∧ (f b = .lt → f a = .lt)

variable {f : α → Ordering} {xs : List α}

theorem compareAt_of_getElem? (h : xs[i]? = some x) : compareAt f xs i = f x := by
  simp [compareAt, h]

theorem Ordered.gt_of_le (h : Ordered f xs) (hij : i ≤ j) (hj : j < xs.length)
    (hi : compareAt f xs i = .gt) : compareAt f xs j = .gt := by
  rcases Nat.lt_or_eq_of_le hij with hlt | rfl
  · have hpair := pairwise_iff_getElem.mp h i j (by omega) hj hlt
    rw [compareAt_of_getElem? (List.getElem?_eq_getElem (by omega))] at hi
    rw [compareAt_of_getElem? (List.getElem?_eq_getElem hj)]
    exact hpair.1 hi
  · exact hi

theorem Ordered.lt_of_le (h : Ordered f xs) (hij : i ≤ j) (hj : j < xs.length)
    (hlt : compareAt f xs j = .lt) : compareAt f xs i = .lt := by
  rcases Nat.lt_or_eq_of_le hij with hij | rfl
  · have hpair := pairwise_iff_getElem.mp h i j (by omega) hj hij
    rw [compareAt_of_getElem? (List.getElem?_eq_getElem hj)] at hlt
    rw [compareAt_of_getElem? (List.getElem?_eq_getElem (by omega))]
    exact hpair.2 hlt
  · exact hlt

theorem narrow_lt (hsize : 0 < size) (hbase : base + size ≤ xs.length) :
    narrow f xs fuel size base < xs.length := by
  induction fuel generalizing size base with
  | zero => simp only [narrow]; omega
  | succ fuel ih =>
    simp only [narrow]
    split_ifs with hone hgt
    · omega
    · exact ih (by omega) (by omega)
    · exact ih (by omega) (by omega)

/-- Everything after the base is greater, and the base is not, unless nothing is left of it.
The window loses at least one element in each round, so the fuel lasts. -/
theorem narrow_spec (h : Ordered f xs) (hfuel : size ≤ fuel + 1) (hsize : 0 < size)
    (hbase : base + size ≤ xs.length) (hleft : base = 0 ∨ compareAt f xs base ≠ .gt)
    (hright : ∀ i, base + size ≤ i → i < xs.length → compareAt f xs i = .gt) :
    (narrow f xs fuel size base = 0 ∨ compareAt f xs (narrow f xs fuel size base) ≠ .gt) ∧
      ∀ i, narrow f xs fuel size base < i → i < xs.length → compareAt f xs i = .gt := by
  induction fuel generalizing size base with
  | zero =>
    obtain rfl : size = 1 := by omega
    exact ⟨hleft, fun i hi => hright i hi⟩
  | succ fuel ih =>
    simp only [narrow]
    by_cases hone : size ≤ 1
    · obtain rfl : size = 1 := by omega
      exact ⟨hleft, fun i hi => hright i hi⟩
    · rw [if_neg hone]
      by_cases hgt : compareAt f xs (base + size / 2) = .gt
      · rw [if_pos hgt]
        refine ih (by omega) (by omega) (by omega) hleft fun i hi hlen => ?_
        exact h.gt_of_le (by omega) hlen hgt
      · rw [if_neg hgt]
        refine ih (by omega) (by omega) (by omega) (.inr hgt) fun i hi hlen => ?_
        exact hright i (by omega) hlen

variable {p : ℕ}

theorem binarySearchBy_ok (h : binarySearchBy f xs = .ok p) : ∃ x, xs[p]? = some x ∧ f x = .eq := by
  unfold binarySearchBy at h
  split_ifs at h with hempty
  have hpos : 0 < xs.length := length_pos_iff.mpr (by simpa using hempty)
  have hlt : narrow f xs xs.length xs.length 0 < xs.length := narrow_lt hpos (by omega)
  cases hcmp : compareAt f xs (narrow f xs xs.length xs.length 0) with
  | lt | gt => simp [hcmp] at h
  | eq =>
    simp only [hcmp, Except.ok.injEq] at h
    subst h
    rw [compareAt_of_getElem? (List.getElem?_eq_getElem hlt)] at hcmp
    exact ⟨_, List.getElem?_eq_getElem hlt, hcmp⟩

theorem binarySearchBy_error (hs : Ordered f xs) (h : binarySearchBy f xs = .error p) :
    p ≤ xs.length ∧ (∀ i, i < p → compareAt f xs i = .lt) ∧
      ∀ i, p ≤ i → i < xs.length → compareAt f xs i = .gt := by
  unfold binarySearchBy at h
  split_ifs at h with hempty
  · obtain rfl : 0 = p := by simpa using h
    obtain rfl : xs = [] := by simpa using hempty
    exact ⟨Nat.zero_le _, fun i hi => absurd hi (Nat.not_lt_zero i),
      fun i _ hi => absurd hi (Nat.not_lt_zero i)⟩
  · have hpos : 0 < xs.length := length_pos_iff.mpr (by simpa using hempty)
    have hlt : narrow f xs xs.length xs.length 0 < xs.length := narrow_lt hpos (by omega)
    have hfuel : xs.length ≤ xs.length + 1 := Nat.le_succ _
    obtain ⟨hbase, hafter⟩ := narrow_spec hs hfuel hpos (by omega) (.inl rfl) (by omega)
    generalize narrow f xs xs.length xs.length 0 = base at *
    cases hcmp : compareAt f xs base with
    | eq => simp [hcmp] at h
    | lt =>
      obtain rfl : base + 1 = p := by simpa [hcmp] using h
      exact ⟨hlt, fun i hi => hs.lt_of_le (by omega) hlt hcmp, fun i hi => hafter i hi⟩
    | gt =>
      obtain rfl : base = p := by simpa [hcmp] using h
      obtain rfl : base = 0 := hbase.resolve_right fun hne => hne hcmp
      exact ⟨by omega, by omega, fun i hi hlen => hs.gt_of_le (by omega) hlen hcmp⟩

theorem all_take_of_compareAt (hp : p ≤ xs.length) (h : ∀ i, i < p → compareAt f xs i = o) :
    ∀ x ∈ xs.take p, f x = o := by
  intro x hx
  obtain ⟨i, hi, rfl⟩ := getElem_of_mem hx
  rw [length_take_of_le hp] at hi
  rw [getElem_take, ← h i hi]
  exact (compareAt_of_getElem? (List.getElem?_eq_getElem (by omega))).symm

theorem all_drop_of_compareAt (h : ∀ i, p ≤ i → i < xs.length → compareAt f xs i = o) :
    ∀ x ∈ xs.drop p, f x = o := by
  intro x hx
  obtain ⟨i, hi, rfl⟩ := getElem_of_mem hx
  rw [length_drop] at hi
  rw [getElem_drop, ← h (p + i) (by omega) (by omega)]
  exact (compareAt_of_getElem? (List.getElem?_eq_getElem (by omega))).symm

theorem binarySearchBy_error_split (hs : Ordered f xs) (h : binarySearchBy f xs = .error p) :
    p ≤ xs.length ∧ (∀ x ∈ xs.take p, f x = .lt) ∧ ∀ x ∈ xs.drop p, f x = .gt := by
  obtain ⟨hp, hbefore, hafter⟩ := binarySearchBy_error hs h
  exact ⟨hp, all_take_of_compareAt hp hbefore, all_drop_of_compareAt hafter⟩

/-- A predicate that only turns false once splits the list at the partition point. -/
theorem partitionPoint_eq {p : α → Bool} (hp : xs.Pairwise fun a b => p b = true → p a = true) :
    partitionPoint p xs = (xs.takeWhile p).length := by
  have hordered : Ordered (fun x => if p x then Ordering.lt else Ordering.gt) xs := by
    refine hp.imp fun {a b} hab => ?_
    by_cases ha : p a = true <;> by_cases hb : p b = true <;> simp_all
  unfold partitionPoint
  cases h : binarySearchBy (fun x => if p x then Ordering.lt else Ordering.gt) xs with
  | ok i =>
    obtain ⟨x, _, hx⟩ := binarySearchBy_ok h
    by_cases hpx : p x = true <;> simp [hpx] at hx
  | error i =>
    obtain ⟨hi, hbefore, hafter⟩ := binarySearchBy_error_split hordered h
    have htake : ∀ x ∈ xs.take i, p x = true := by
      intro x hx
      have := hbefore x hx
      by_contra hpx
      simp [hpx] at this
    have hdrop : (xs.drop i).takeWhile p = [] := by
      cases hd : xs.drop i with
      | nil => rfl
      | cons x rest =>
        have hx := hafter x (by simp [hd])
        refine takeWhile_cons_of_neg fun hpx => ?_
        simp [hpx] at hx
    conv_rhs => rw [← take_append_drop i xs]
    rw [takeWhile_append_of_pos htake, hdrop, append_nil, length_take_of_le hi]

end SliceSearch
