import Mathlib.Data.Finset.Card

/-! # Search with a stack

A depth-first search that keeps what it found in a list and what is left to look at on a stack.
`next` may fail, and then the search does. What it finds are the nodes that the start reaches over
one or more edges, each once; with fuel for every node there is it comes to an end. -/
namespace WorklistSearch

open List

variable {α β : Type*} [DecidableEq α]

def note (acc : List α × List α) (a : α) : List α × List α :=
  if a ∈ acc.1 then acc else (acc.1 ++ [a], a :: acc.2)

def search (next : α → Option (List α)) : ℕ → List α → List α → Option (List α)
  | _, [], found => some found
  | 0, _ :: _, _ => none
  | fuel + 1, a :: stack, found =>
    match next a with
    | none => none
    | some bs =>
      let acc := bs.foldl note (found, stack)
      search next fuel acc.2 acc.1

def Edge (next : α → Option (List α)) (a b : α) : Prop := ∃ bs, next a = some bs ∧ b ∈ bs

theorem notes_eq (acc : List α × List α) (bs : List α) :
    ∃ fresh : List α, bs.foldl note acc = (acc.1 ++ fresh, fresh.reverse ++ acc.2) ∧ fresh.Nodup ∧
      ∀ c, c ∈ fresh ↔ c ∈ bs ∧ c ∉ acc.1 := by
  induction bs generalizing acc with
  | nil => exact ⟨[], by simp, nodup_nil, by simp⟩
  | cons b bs ih =>
    rw [foldl_cons]
    by_cases hb : b ∈ acc.1
    · obtain ⟨fresh, heq, hnodup, hall⟩ := ih acc
      refine ⟨fresh, by rw [note, if_pos hb, heq], hnodup, fun c => ?_⟩
      rw [hall, mem_cons]
      refine and_congr_left fun hc => (or_iff_right ?_).symm
      rintro rfl
      exact hc hb
    · obtain ⟨fresh, heq, hnodup, hall⟩ := ih (note acc b)
      simp only [note, if_neg hb, mem_append, mem_singleton, not_or] at heq hall
      refine ⟨b :: fresh, by simp [note, hb, heq], ?_, fun c => ?_⟩
      · exact nodup_cons.mpr ⟨fun h => ((hall b).mp h).2.2 rfl, hnodup⟩
      · rw [mem_cons, mem_cons, hall]
        by_cases hc : c = b
        · simp [hc, hb]
        · simp [hc]

theorem notes_measure (acc : List α × List α) {bs : List α} (hbs : ∀ b ∈ bs, b ∈ nodes) :
    (bs.foldl note acc).2.length + (nodes \ (bs.foldl note acc).1.toFinset).card =
      acc.2.length + (nodes \ acc.1.toFinset).card := by
  obtain ⟨fresh, heq, hnodup, hall⟩ := notes_eq acc bs
  have hsub : fresh.toFinset ⊆ nodes \ acc.1.toFinset := by
    intro c hc
    obtain ⟨hmem, hnew⟩ := (hall c).mp (mem_toFinset.mp hc)
    simp [hbs c hmem, hnew]
  have hcard := Finset.card_sdiff_add_card_eq_card hsub
  rw [toFinset_card_of_nodup hnodup, sdiff_sdiff, Finset.sup_eq_union, ← toFinset_append] at hcard
  rw [heq]
  dsimp only
  rw [length_append, length_reverse]
  omega

variable {next : α → Option (List α)} {a b : α}

/-- What was found is reached, and whatever was looked at has all its edges followed. -/
structure Exploring (next : α → Option (List α)) (a : α) (stack found : List α) : Prop where
  reached : ∀ b ∈ found, Relation.TransGen (Edge next) a b
  pending : ∀ b ∈ stack, b = a ∨ b ∈ found
  followed : ∀ b, b = a ∨ b ∈ found → b ∈ stack ∨ ∀ c, Edge next b c → c ∈ found

variable {stack found : List α}

theorem exploring_step (h : Exploring next a (x :: stack) found) (hnext : next x = some bs) :
    Exploring next a (bs.foldl note (found, stack)).2 (bs.foldl note (found, stack)).1 := by
  obtain ⟨fresh, heq, -, hfresh⟩ := notes_eq (found, stack) bs
  rw [heq]
  refine ⟨fun b hb => ?_, fun b hb => ?_, fun b hb => ?_⟩
  · rcases mem_append.mp hb with hb | hb
    · exact h.reached b hb
    · have hedge : Edge next x b := ⟨bs, hnext, ((hfresh b).mp hb).1⟩
      rcases h.pending x (by simp) with rfl | hx
      · exact .single hedge
      · exact .tail (h.reached x hx) hedge
  · rcases mem_append.mp hb with hb | hb
    · exact .inr (mem_append_right _ (mem_reverse.mp hb))
    · exact (h.pending b (.tail _ hb)).imp_right (mem_append_left _)
  · have hseen (hb : b = a ∨ b ∈ found) : b ∈ fresh.reverse ++ stack ∨
        ∀ c, Edge next b c → c ∈ found ++ fresh := by
      rcases h.followed b hb with hmem | hall
      · rcases mem_cons.mp hmem with rfl | hmem
        · refine .inr fun c ⟨cs, hcs, hc⟩ => ?_
          rw [hnext] at hcs
          obtain rfl := Option.some.inj hcs
          by_cases hold : c ∈ found
          · exact mem_append_left _ hold
          · exact mem_append_right _ ((hfresh c).mpr ⟨hc, hold⟩)
        · exact .inl (mem_append_right _ hmem)
      · exact .inr fun c hc => mem_append_left _ (hall c hc)
    rcases hb with hb | hb
    · exact hseen (.inl hb)
    · rcases mem_append.mp hb with hb | hb
      · exact hseen (.inr hb)
      · exact .inl (mem_append_left _ (mem_reverse.mpr hb))

variable {fuel : ℕ}

theorem search_invariant {I : List α → List α → Prop}
    (hstep : ∀ {x stack found bs}, I (x :: stack) found → next x = some bs →
      I (bs.foldl note (found, stack)).2 (bs.foldl note (found, stack)).1)
    (h : I stack found) (hsearch : search next fuel stack found = some result) :
    I [] result := by
  induction fuel generalizing stack found with
  | zero =>
    cases stack with
    | nil => exact Option.some.inj hsearch ▸ h
    | cons x stack => cases hsearch
  | succ fuel ih =>
    cases stack with
    | nil => exact Option.some.inj hsearch ▸ h
    | cons x stack =>
      cases hnext : next x with
      | none => simp [search, hnext] at hsearch
      | some bs => exact ih (hstep h hnext) (by simpa [search, hnext] using hsearch)

theorem mem_search (h : search next fuel [a] [] = some found) :
    b ∈ found ↔ Relation.TransGen (Edge next) a b := by
  have hdone := search_invariant exploring_step
    (⟨by simp, by simp, by simp⟩ : Exploring next a [a] []) h
  have hclosed x (hx : x = a ∨ x ∈ found) c (hc : Edge next x c) : c ∈ found := by
    rcases hdone.followed x hx with hnil | hall
    · cases hnil
    · exact hall c hc
  constructor
  · exact hdone.reached b
  · intro hreach
    induction hreach with
    | single hedge => exact hclosed a (.inl rfl) _ hedge
    | tail _ hedge ih => exact hclosed _ (.inr ih) _ hedge

theorem nodup_search (hfound : found.Nodup) (h : search next fuel stack found = some result) :
    result.Nodup := by
  refine search_invariant (I := fun _ found => found.Nodup) ?_ hfound h
  intro x stack found bs hfound _
  obtain ⟨fresh, heq, hnodup, hall⟩ := notes_eq (found, stack) bs
  rw [heq]
  exact nodup_append'.mpr ⟨hfound, hnodup, fun c hc hfresh => ((hall c).mp hfresh).2 hc⟩

theorem search_isSome (hnext : ∀ x, x = a ∨ x ∈ nodes → (next x).isSome)
    (hnodes : ∀ x bs, next x = some bs → ∀ b ∈ bs, b ∈ nodes)
      (hstack : ∀ x ∈ stack, x = a ∨ x ∈ nodes)
    (hfound : ∀ x ∈ found, x ∈ nodes)
      (hfuel : stack.length + (nodes \ found.toFinset).card ≤ fuel) :
    (search next fuel stack found).isSome := by
  induction fuel generalizing stack found with
  | zero =>
    cases stack with
    | nil => rfl
    | cons x stack => simp at hfuel
  | succ fuel ih =>
    cases stack with
    | nil => rfl
    | cons x stack =>
      obtain ⟨bs, hbs⟩ := Option.isSome_iff_exists.mp (hnext x (hstack x (by simp)))
      have hmem := hnodes x bs hbs
      have hmeasure := notes_measure (found, stack) hmem
      obtain ⟨fresh, heq, -, hall⟩ := notes_eq (found, stack) bs
      have hfresh : ∀ c ∈ fresh, c ∈ nodes := fun c hc => hmem c ((hall c).mp hc).1
      simp only [search, hbs]
      rw [heq] at hmeasure ⊢
      refine ih (fun c hc => ?_) (fun c hc => ?_) ?_
      · rcases mem_append.mp hc with hc | hc
        · exact .inr (hfresh c (mem_reverse.mp hc))
        · exact hstack c (.tail _ hc)
      · exact (mem_append.mp hc).elim (hfound c) (hfresh c)
      · rw [length_cons] at hfuel
        dsimp only at hmeasure ⊢
        omega

section Cycles

variable {edge edge' : β → β → Prop} {m g : β}

def Acyclic (edge : β → β → Prop) : Prop := ∀ a, ¬ Relation.TransGen edge a a

theorem Acyclic.mono (h : Acyclic edge) (hsub : ∀ a b, edge' a b → edge a b) : Acyclic edge' :=
  fun a ha => h a (Relation.TransGen.mono hsub _ _ ha)

theorem path_or_through (hsub : ∀ a b, edge' a b → edge a b ∨ a = m ∧ b = g) {a b : β}
    (h : Relation.TransGen edge' a b) : Relation.TransGen edge a b ∨
      Relation.ReflTransGen edge' a m ∧ Relation.ReflTransGen edge' g b := by
  induction h with
  | single hstep =>
    rcases hsub _ _ hstep with hold | ⟨rfl, rfl⟩
    · exact .inl (.single hold)
    · exact .inr ⟨.refl, .refl⟩
  | tail hpath hstep ih =>
    rcases ih with hold | ⟨hto, hfrom⟩
    · rcases hsub _ _ hstep with hlast | ⟨rfl, rfl⟩
      · exact .inl (.tail hold hlast)
      · exact .inr ⟨hpath.to_reflTransGen, .refl⟩
    · exact .inr ⟨hto, .tail hfrom hstep⟩

theorem Acyclic.add (h : Acyclic edge) (hsub : ∀ a b, edge' a b → edge a b ∨ a = m ∧ b = g)
    (hback : ¬ Relation.ReflTransGen edge' g m) : Acyclic edge' := by
  intro a ha
  rcases path_or_through hsub ha with hold | ⟨hto, hfrom⟩
  · exact h a hold
  · exact hback (hfrom.trans hto)

theorem not_acyclic_of_back (hedge : edge' m g) (hback : Relation.ReflTransGen edge' g m) :
    ¬ Acyclic edge' :=
  fun h => h m (Relation.TransGen.head' hedge hback)

end Cycles

end WorklistSearch
