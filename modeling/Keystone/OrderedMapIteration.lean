import Keystone.OrderedMaps

/-! # Iterating over an ordered map that grows

An iterator without a snapshot goes from its last key to the next larger one that the map
holds at that moment. What it visits in the end: all entries that were there at the start,
and of those inserted meanwhile exactly the ones it had not passed yet. -/
namespace OrderedMapIteration

open List OrderedMaps

structure Iteration (K V : Type*) where
  visited : List (K × V)
  finished : Bool
  deriving DecidableEq

variable {K V : Type*} [LinearOrder K]

namespace Iteration

def start : Iteration K V := ⟨[], false⟩

def isAhead (it : Iteration K V) (k : K) : Bool :=
  !it.finished && it.visited.getLast?.all fun e => e.1 < k

def advance (it : Iteration K V) (m : OrderedMap K V) : Iteration K V :=
  if it.finished then it
  else match m.entries.find? fun e => it.isAhead e.1 with
    | some e => ⟨it.visited ++ [e], false⟩
    | none => ⟨it.visited, true⟩

@[simp] theorem isAhead_start : (start : Iteration K V).isAhead k = true := rfl

@[simp] theorem isAhead_finished (visited : List (K × V)) (k : K) :
    isAhead ⟨visited, true⟩ k = false := rfl

@[simp] theorem isAhead_append (visited : List (K × V)) (e : K × V) (k : K) :
    isAhead ⟨visited ++ [e], false⟩ k = true ↔ e.1 < k := by
  simp [isAhead]

end Iteration

/-- The iterator is on its way through `caught`: it has visited what lies behind it, and what
lies ahead of it is in the map. -/
structure Covers (m : OrderedMap K V) (caught : List (K × V)) (it : Iteration K V) : Prop where
  sorted : it.visited.Pairwise fun a b => a.1 < b.1
  visited_caught : ∀ e ∈ it.visited, e ∈ caught
  behind : ∀ e ∈ caught, it.isAhead e.1 = false → e ∈ it.visited
  ahead : ∀ e : K × V, it.isAhead e.1 = true → (e ∈ m.entries ↔ e ∈ caught)

namespace Covers

variable {m : OrderedMap K V} {caught : List (K × V)} {it : Iteration K V}

theorem start (m : OrderedMap K V) : Covers m m.entries .start where
  sorted := .nil
  visited_caught := by simp [Iteration.start]
  behind := by simp
  ahead := by simp

theorem lt_of_isAhead (h : Covers m caught it) (hk : it.isAhead k = true) (he : e ∈ it.visited) :
    e.1 < k := by
  obtain ⟨visited, finished⟩ := it
  have hsorted := h.sorted
  rcases eq_nil_or_concat visited with rfl | ⟨front, last, rfl⟩
  · cases he
  · rw [concat_eq_append] at hsorted he hk
    have hlast : last.1 < k := by
      simp only [Iteration.isAhead, List.getLast?_concat, Option.all_some, Bool.and_eq_true,
        decide_eq_true_eq] at hk
      exact hk.2
    rcases mem_append.mp he with he | he
    · exact ((pairwise_append.mp hsorted).2.2 e he last (mem_singleton.mpr rfl)).trans
        hlast
    · rw [mem_singleton.mp he]
      exact hlast

/-- An insert is caught if the iterator has not come to its key, and missed otherwise. -/
theorem insert (h : Covers m caught it) (hfresh : ∀ e ∈ m.entries, e.1 ≠ k) (v : V) :
    Covers (m.insert k v) (if it.isAhead k then (k, v) :: caught else caught) it := by
  have hmem : ∀ e : K × V, e ∈ (m.insert k v).entries ↔ e = (k, v) ∨ e ∈ m.entries := by
    intro e
    rw [OrderedMap.mem_insert]
    exact or_congr_right (and_iff_right_of_imp (hfresh e))
  by_cases hk : it.isAhead k = true
  · rw [if_pos hk]
    refine ⟨h.sorted, fun e he => mem_cons_of_mem _ (h.visited_caught e he), ?_, ?_⟩
    · intro e he hbehind
      rcases mem_cons.mp he with rfl | he
      · rw [hk] at hbehind
        cases hbehind
      · exact h.behind e he hbehind
    · intro e he
      rw [hmem, mem_cons, h.ahead e he]
  · rw [if_neg hk]
    refine ⟨h.sorted, h.visited_caught, h.behind, fun e he => ?_⟩
    rw [hmem, h.ahead e he, or_iff_right]
    rintro rfl
    exact hk he

theorem advance (h : Covers m caught it) : Covers m caught (it.advance m) := by
  unfold Iteration.advance
  split_ifs with hfin
  · exact h
  · cases hfind : m.entries.find? fun e => it.isAhead e.1 with
    | none =>
      refine ⟨h.sorted, h.visited_caught, fun e he _ => ?_, by simp⟩
      by_cases hahead : it.isAhead e.1 = true
      · have := List.find?_eq_none.mp hfind e ((h.ahead e hahead).mpr he)
        exact absurd hahead this
      · exact h.behind e he (Bool.not_eq_true _ ▸ hahead)
    | some e =>
      obtain ⟨he, front, rest, hm, hfront⟩ := List.find?_eq_some_iff_append.mp hfind
      have hsorted := m.sorted
      rw [hm] at hsorted
      have hentry : e ∈ m.entries := mem_of_find?_eq_some hfind
      refine ⟨?_, ?_, ?_, ?_⟩
      · refine pairwise_append.mpr ⟨h.sorted, pairwise_singleton .., ?_⟩
        intro a ha b hb
        rw [mem_singleton.mp hb]
        exact h.lt_of_isAhead he ha
      · intro a ha
        rcases mem_append.mp ha with ha | ha
        · exact h.visited_caught a ha
        · rw [mem_singleton.mp ha]
          exact (h.ahead e he).mp hentry
      · intro a ha hbehind
        by_cases hahead : it.isAhead a.1 = true
        · -- `e` is the first entry ahead, so `a` is `e` or comes after it
          refine mem_append_right _ (mem_singleton.mpr ?_)
          have ham := (h.ahead a hahead).mpr ha
          rw [hm] at ham
          rcases mem_append.mp ham with ham | ham
          · have := hfront a ham
            simp [hahead] at this
          · rcases mem_cons.mp ham with rfl | ham
            · rfl
            · have hlt := (pairwise_cons.mp (pairwise_append.mp hsorted).2.1).1 a ham
              rw [(Iteration.isAhead_append ..).mpr hlt] at hbehind
              cases hbehind
        · exact mem_append_left _ (h.behind a ha (Bool.not_eq_true _ ▸ hahead))
      · intro a ha
        have hlt := (Iteration.isAhead_append ..).mp ha
        refine h.ahead a ?_
        simp only [Iteration.isAhead, Bool.and_eq_true, Option.all_eq_true,
          decide_eq_true_eq] at he ⊢
        exact ⟨he.1, fun x hx => (he.2 x hx).trans hlt⟩

theorem mem_visited (h : Covers m caught it) (hfin : it.finished = true) :
    e ∈ it.visited ↔ e ∈ caught :=
  ⟨h.visited_caught e, fun he => h.behind e he (by simp [Iteration.isAhead, hfin])⟩

end Covers
end OrderedMapIteration
