import Mathlib.Data.List.Sort

/-! # Reading the newest version through a stack of layers

A multi-version store keeps every write as a version stamped with a sequence number. Versions live
in several layers, and a read asks the layers newest first. -/
namespace VersionedLayers
open List (mem_append mem_append_right mem_cons mem_cons_self pairwise_cons)

/-- A write of one key. A missing value is a tombstone. -/
structure Version (K V : Type*) where
  key : K
  seq : ℕ
  value : Option V
  deriving DecidableEq

variable {K V : Type*} [DecidableEq K]

def firstVisible (rows : List (Version K V)) (k : K) (s : ℕ) : Option (Option V) :=
  (rows.find? fun v => v.key = k ∧ v.seq ≤ s).map Version.value

/-- Ask the layers in order and stop at the first one with a visible version,
also when that version is a tombstone. -/
def readLayers (layers : List (List (Version K V))) (k : K) (s : ℕ) : Option V :=
  (layers.findSome? fun rows => firstVisible rows k s).join

/-- The specification of a read: the history itself, listed newest first. -/
def valueAt (history : List (Version K V)) (k : K) (s : ℕ) : Option V :=
  (firstVisible history k s).join

/-- Within one key, later list positions hold older versions. -/
def NewestFirst (rows : List (Version K V)) : Prop :=
  rows.Pairwise fun a b => a.key = b.key → b.seq ≤ a.seq

def Functional (rows : List (Version K V)) : Prop :=
  ∀ a ∈ rows, ∀ b ∈ rows, a.key = b.key → a.seq = b.seq → a = b

omit [DecidableEq K] in
theorem Functional.mono {rows few : List (Version K V)} (h : Functional rows)
    (hsub : ∀ v ∈ few, v ∈ rows) :
    Functional few :=
  fun a ha b hb => h a (hsub a ha) b (hsub b hb)

/-- No version of the lower layer is newer than a version of the upper one,
up to versions that both layers hold. -/
def Newer (upper lower : List (Version K V)) : Prop :=
  ∀ a ∈ upper, ∀ b ∈ lower, a.key = b.key → b ∈ upper ∨ b.seq ≤ a.seq

structure IsNewest (rows : List (Version K V)) (k : K) (s : ℕ) (v : Version K V) : Prop where
  mem : v ∈ rows
  key_eq : v.key = k
  visible : v.seq ≤ s
  maximal : ∀ w ∈ rows, w.key = k → w.seq ≤ s → w.seq ≤ v.seq

/-- The rows still answer a read of `k` at `s` as the whole history does: they hold the
newest visible version, or that version is a tombstone and nothing visible is left. -/
def CoveredAt (history rows : List (Version K V)) (k : K) (s : ℕ) : Prop :=
  ∀ v, IsNewest history k s v →
    v ∈ rows ∨ (v.value = none ∧ ∀ w ∈ rows, w.key = k → s < w.seq)

variable {rows : List (Version K V)} {k : K} {s : ℕ}

theorem firstVisible_eq_none : firstVisible rows k s = none ↔ ∀ w ∈ rows, w.key = k →
    s < w.seq := by
  simp [firstVisible]

variable {v : Version K V}

theorem find?_newest (hrows : NewestFirst rows)
    (h : rows.find? (fun v => v.key = k ∧ v.seq ≤ s) = some v) :
    IsNewest rows k s v := by
  obtain ⟨hv, newer, older, rfl, hnewer⟩ := List.find?_eq_some_iff_append.mp h
  have hv : v.key = k ∧ v.seq ≤ s := by simpa using hv
  refine ⟨by simp, hv.1, hv.2, ?_⟩
  intro w hw hk hs
  rcases mem_append.mp hw with hw | hw
  · exact absurd (hnewer w hw) (by simp [hk, hs])
  · rcases mem_cons.mp hw with rfl | hw
    · exact le_rfl
    · have hsorted := (List.pairwise_append.mp hrows).2.1
      exact (pairwise_cons.mp hsorted).1 w hw (hv.1.trans hk.symm)

theorem firstVisible_newest (hrows : NewestFirst rows) (h : firstVisible rows k s = some x) :
    ∃ v, IsNewest rows k s v ∧ v.value = x := by
  obtain ⟨v, hv, rfl⟩ := Option.map_eq_some_iff.mp h
  exact ⟨v, find?_newest hrows hv, rfl⟩

variable {layers : List (List (Version K V))}

theorem layers_newest (hrows : ∀ rows ∈ layers, NewestFirst rows) (horder : layers.Pairwise Newer)
    (h : layers.findSome? (fun rows => firstVisible rows k s) = some x) :
    ∃ v, IsNewest layers.flatten k s v ∧ v.value = x := by
  induction layers with
  | nil => simp at h
  | cons top layers ih =>
    obtain ⟨htop, hrest⟩ := pairwise_cons.mp horder
    cases hf : firstVisible top k s with
    | some y =>
      simp only [List.findSome?_cons, hf, Option.some.injEq] at h
      subst y
      obtain ⟨v, hn, hx⟩ := firstVisible_newest (hrows top mem_cons_self) hf
      refine ⟨v, ⟨List.mem_append_left _ hn.mem, hn.key_eq, hn.visible, ?_⟩, hx⟩
      intro w hw hk hs
      rcases mem_append.mp hw with hw | hw
      · exact hn.maximal w hw hk hs
      · obtain ⟨rows, hr, hw⟩ := List.mem_flatten.mp hw
        rcases htop rows hr v hn.mem w hw (hn.key_eq.trans hk.symm) with hw | hle
        · exact hn.maximal w hw hk hs
        · exact hle
    | none =>
      simp only [List.findSome?_cons, hf] at h
      obtain ⟨v, hn, hx⟩ := ih (fun rows hr => hrows rows (.tail _ hr)) hrest h
      refine ⟨v, ⟨mem_append_right _ hn.mem, hn.key_eq, hn.visible, ?_⟩, hx⟩
      intro w hw hk hs
      rcases mem_append.mp hw with hw | hw
      · have := firstVisible_eq_none.mp hf w hw hk
        omega
      · exact hn.maximal w hw hk hs

theorem layers_none : layers.findSome? (fun rows => firstVisible rows k s) = none ↔
      ∀ w ∈ layers.flatten, w.key = k → s < w.seq := by
  simp only [List.findSome?_eq_none_iff, firstVisible_eq_none, List.mem_flatten]
  constructor
  · rintro h w ⟨rows, hr, hw⟩
    exact h rows hr w hw
  · intro h rows hr w hw
    exact h w ⟨rows, hr, hw⟩

variable {history rows : List (Version K V)}

omit [DecidableEq K] in
theorem CoveredAt.congr (h : CoveredAt history rows k s) (hrows : ∀ v, v ∈ rows' ↔ v ∈ rows) :
    CoveredAt history rows' k s := by
  intro v hv
  rcases h v hv with hm | ⟨htomb, hgone⟩
  · exact .inl ((hrows v).mpr hm)
  · exact .inr ⟨htomb, fun w hw => hgone w ((hrows w).mp hw)⟩

omit [DecidableEq K] in
theorem Newer.mono (h : Newer upper lower) (hsub : ∀ v ∈ lower', v ∈ lower) : Newer upper lower' :=
  fun a ha b hb => h a ha b (hsub b hb)

omit [DecidableEq K] in
/-- Replacing captured rows by merged ones that cover them keeps a read covered, if the
other rows hold no version that the newest one, captured alone, was hiding. -/
theorem CoveredAt.replace {other captured merged rows' : List (Version K V)}
    (h : CoveredAt history rows k s) (hrows : ∀ v, v ∈ rows ↔ v ∈ other ∨ v ∈ captured)
    (hrows' : ∀ v, v ∈ rows' ↔ v ∈ other ∨ v ∈ merged) (hsub : ∀ v ∈ merged, v ∈ captured)
    (hsound : ∀ v ∈ captured, v ∈ history) (hmerge : CoveredAt captured merged k s)
    (hclash : ∀ v ∈ captured, IsNewest history k s v → ∀ w ∈ other, w.key = k → w.seq ≤ s →
      v ∈ other) :
    CoveredAt history rows' k s := by
  intro v hv
  rcases h v hv with hm | ⟨htomb, hgone⟩
  · rcases (hrows v).mp hm with hother | hcap
    · exact .inl ((hrows' v).mpr (.inl hother))
    · have hnew : IsNewest captured k s v :=
        ⟨hcap, hv.key_eq, hv.visible, fun w hw => hv.maximal w (hsound w hw)⟩
      rcases hmerge v hnew with hkept | ⟨htomb, hgone⟩
      · exact .inl ((hrows' v).mpr (.inr hkept))
      · by_cases hw : ∃ w ∈ other, w.key = k ∧ w.seq ≤ s
        · obtain ⟨w, hw, hwk, hws⟩ := hw
          exact .inl ((hrows' v).mpr (.inl (hclash v hcap hv w hw hwk hws)))
        · refine .inr ⟨htomb, fun w hwm hwk => ?_⟩
          rcases (hrows' w).mp hwm with hwo | hwm
          · exact not_le.mp fun hws => hw ⟨w, hwo, hwk, hws⟩
          · exact hgone w hwm hwk
  · refine .inr ⟨htomb, fun w hw => hgone w ((hrows w).mpr ?_)⟩
    exact ((hrows' w).mp hw).imp_right (hsub w)

/-- The rows are all of the history from some sequence number on. -/
def TopOf (history rows : List (Version K V)) : Prop :=
  ∀ a ∈ rows, ∀ v ∈ history, a.seq ≤ v.seq → v ∈ rows

omit [DecidableEq K] in
theorem TopOf.newer (h : TopOf history rows) (hlower : ∀ v ∈ lower, v ∈ history) :
    Newer rows lower := by
  intro a ha b hb _
  rcases le_or_gt a.seq b.seq with hle | hlt
  · exact .inl (h a ha b (hlower b hb) hle)
  · exact .inr (le_of_lt hlt)

section Extend

variable {history fresh rows rows' : List (Version K V)} {k : K} {s : ℕ}

omit [DecidableEq K] in
theorem isNewest_append_above (hfresh : ∀ v ∈ fresh, s < v.seq) :
    IsNewest (fresh ++ history) k s v ↔ IsNewest history k s v := by
  constructor
  · intro h
    have hm : v ∈ history := by
      rcases mem_append.mp h.mem with hm | hm
      · exact absurd h.visible (not_le.mpr (hfresh v hm))
      · exact hm
    exact ⟨hm, h.key_eq, h.visible, fun w hw => h.maximal w (mem_append_right _ hw)⟩
  · intro h
    refine ⟨mem_append_right _ h.mem, h.key_eq, h.visible, ?_⟩
    intro w hw hk hs
    rcases mem_append.mp hw with hw | hw
    · exact absurd hs (not_le.mpr (hfresh w hw))
    · exact h.maximal w hw hk hs

omit [DecidableEq K] in
theorem CoveredAt.append_above (h : CoveredAt history rows k s) (hfresh : ∀ v ∈ fresh, s < v.seq)
    (hrows : ∀ v, v ∈ rows' ↔ v ∈ fresh ∨ v ∈ rows) :
    CoveredAt (fresh ++ history) rows' k s := by
  intro v hv
  rcases h v ((isNewest_append_above hfresh).mp hv) with hm | ⟨htomb, hgone⟩
  · exact .inl ((hrows v).mpr (.inr hm))
  · refine .inr ⟨htomb, fun w hw hk => ?_⟩
    rcases (hrows w).mp hw with hw | hw
    · exact hfresh w hw
    · exact hgone w hw hk

omit [DecidableEq K] in
theorem TopOf.append_newest (h : TopOf history rows)
    (hnew : ∀ v ∈ fresh, ∀ w ∈ history, w.seq < v.seq)
    (hrows' : ∀ v, v ∈ rows' ↔ v ∈ fresh ∨ v ∈ rows) : TopOf (fresh ++ history) rows' := by
  intro a ha v hv hle
  rcases mem_append.mp hv with hv | hv
  · exact (hrows' v).mpr (.inl hv)
  · rcases (hrows' a).mp ha with ha | ha
    · exact absurd (hnew a ha v hv) (not_lt.mpr hle)
    · exact (hrows' v).mpr (.inr (h a ha v hv hle))

theorem valueAt_append_above (hfresh : ∀ v ∈ fresh, s < v.seq) :
    valueAt (fresh ++ history) k s = valueAt history k s := by
  have hnone : fresh.find? (fun v => v.key = k ∧ v.seq ≤ s) = none := by
    rw [List.find?_eq_none]
    intro v hv
    have := hfresh v hv
    simp only [decide_eq_true_eq, not_and, not_le]
    exact fun _ => this
  rw [valueAt, valueAt, firstVisible, firstVisible, List.find?_append, hnone, Option.none_or]

omit [DecidableEq K] in
/-- Fresh versions that are visible and newer than the whole history are covered as soon as
the rows take them in. -/
theorem CoveredAt.append_newest (h : CoveredAt history rows k s)
    (hnew : ∀ v ∈ fresh, ∀ w ∈ history, w.seq < v.seq) (hvis : ∀ v ∈ fresh, v.seq ≤ s)
    (hrows : ∀ v, v ∈ rows' ↔ v ∈ fresh ∨ v ∈ rows) :
    CoveredAt (fresh ++ history) rows' k s := by
  intro v hv
  rcases mem_append.mp hv.mem with hm | hm
  · exact .inl ((hrows v).mpr (.inl hm))
  · have hold : IsNewest history k s v :=
      ⟨hm, hv.key_eq, hv.visible, fun w hw => hv.maximal w (mem_append_right _ hw)⟩
    rcases h v hold with hin | ⟨htomb, hgone⟩
    · exact .inl ((hrows v).mpr (.inr hin))
    · refine .inr ⟨htomb, fun w hw hk => ?_⟩
      rcases (hrows w).mp hw with hw | hw
      · have h1 := hnew w hw v hm
        have h2 := hv.maximal w (List.mem_append_left _ hw) hk (hvis w hw)
        omega
      · exact hgone w hw hk

end Extend

def latest (history : List (Version K V)) (k : K) : Option V :=
  (history.find? fun v => v.key = k).bind Version.value

theorem valueAt_eq_latest (h : ∀ v ∈ history, v.seq ≤ s) :
    valueAt history k s = latest history k := by
  have hfind : history.find? (fun v => v.key = k ∧ v.seq ≤ s) = history.find? fun v =>
    v.key = k := by
    induction history with
    | nil => rfl
    | cons v history ih =>
      have hv := h v mem_cons_self
      have ih := ih fun w hw => h w (.tail _ hw)
      by_cases hk : v.key = k
      · simp [hk, hv]
      · rw [List.find?_cons_of_neg (by simp [hk]), List.find?_cons_of_neg (by simp [hk]), ih]
  rw [valueAt, firstVisible, hfind, latest]
  cases history.find? fun v => v.key = k <;> rfl

/-- The read rule: an ordered stack that holds only versions of another one, and covers it
at the read point, answers the read as the other one does. -/
theorem readLayers_covered {upper lower : List (List (Version K V))}
    (hu : ∀ rows ∈ upper, NewestFirst rows)
    (huo : upper.Pairwise Newer) (hl : ∀ rows ∈ lower, NewestFirst rows)
      (hlo : lower.Pairwise Newer)
    (hf : Functional upper.flatten) (hsub : ∀ v ∈ lower.flatten, v ∈ upper.flatten)
    (hcover : CoveredAt upper.flatten lower.flatten k s) :
    readLayers lower k s = readLayers upper k s := by
  unfold readLayers
  cases hup : upper.findSome? (fun rows => firstVisible rows k s) with
  | none =>
    have hlow : lower.findSome? (fun rows => firstVisible rows k s) = none :=
      layers_none.mpr fun w hw => layers_none.mp hup w (hsub w hw)
    rw [hlow]
  | some x =>
    obtain ⟨w, hw, rfl⟩ := layers_newest hu huo hup
    cases hlow : lower.findSome? (fun rows => firstVisible rows k s) with
    | none =>
      rcases hcover w hw with hm | ⟨htomb, _⟩
      · exact absurd hw.visible (not_le.mpr (layers_none.mp hlow w hm hw.key_eq))
      · simp [htomb]
    | some y =>
      obtain ⟨v, hv, rfl⟩ := layers_newest hl hlo hlow
      rcases hcover w hw with hm | ⟨_, hgone⟩
      · have hle := hv.maximal w hm hw.key_eq hw.visible
        have hge := hw.maximal v (hsub v hv.mem) hv.key_eq hv.visible
        have : v = w := hf v (hsub v hv.mem) w hw.mem (hv.key_eq.trans hw.key_eq.symm)
          (le_antisymm hge hle)
        rw [this]
      · exact absurd hv.visible (not_le.mpr (hgone v hv.mem hv.key_eq))

theorem readLayers_eq_valueAt (hh : NewestFirst history)
    (hf : Functional history) (hrows : ∀ rows ∈ layers, NewestFirst rows)
      (horder : layers.Pairwise Newer)
    (hsound : ∀ v ∈ layers.flatten, v ∈ history) (hcover : CoveredAt history layers.flatten k s) :
    readLayers layers k s = valueAt history k s := by
  have hflat : [history].flatten = history := List.flatten_singleton
  have hone : readLayers [history] k s = valueAt history k s := by
    simp [readLayers, valueAt]
  rw [← hone]
  exact readLayers_covered (by simpa using hh) (List.pairwise_singleton ..) hrows horder
    (hflat.symm ▸ hf) (hflat.symm ▸ hsound) (hflat.symm ▸ hcover)

/-- Collection of one key's versions, newest first. Everything at or above the watermark
stays; of the rest only the newest one, the floor, and not even that when `drop` holds. -/
def retain (watermark : ℕ) (drop : Version K V → Bool) : List (Version K V) → List (Version K V)
  | [] => []
  | v :: rows =>
    if watermark ≤ v.seq then v :: retain watermark drop rows
    else if drop v then [] else [v]

omit [DecidableEq K] in
theorem retain_subset (watermark : ℕ) (drop : Version K V → Bool) (rows : List (Version K V)) :
    ∀ v ∈ retain watermark drop rows, v ∈ rows := by
  induction rows with
  | nil => simp [retain]
  | cons a rows ih =>
    intro v hv
    unfold retain at hv
    split_ifs at hv with hw hd
    · rcases mem_cons.mp hv with rfl | hv
      · exact mem_cons_self
      · exact List.mem_cons_of_mem _ (ih v hv)
    · cases hv
    · rw [List.mem_singleton.mp hv]; exact mem_cons_self

omit [DecidableEq K] in
/-- Without a version between `s` and the watermark, the version a reader at `s` resolves to
survives, unless it lies below the watermark and may be dropped; then nothing visible is left. -/
theorem retain_resolves (drop : Version K V → Bool) (hdesc : rows.Pairwise fun a b => b.seq ≤ a.seq)
    (hgap : ∀ x ∈ rows, s < x.seq → watermark ≤ x.seq) (hv : v ∈ rows)
    (hf : ∀ x ∈ rows, x.seq = v.seq → x = v) (hs : v.seq ≤ s)
      (hmax : ∀ x ∈ rows, x.seq ≤ s → x.seq ≤ v.seq) :
    (watermark ≤ v.seq ∨ drop v = false → v ∈ retain watermark drop rows) ∧
      (v.seq < watermark → drop v = true → ∀ x ∈ retain watermark drop rows, s < x.seq) := by
  induction rows with
  | nil => cases hv
  | cons a rows ih =>
    obtain ⟨ha, hrest⟩ := pairwise_cons.mp hdesc
    -- the head is visible to the reader only if it is the version itself
    have hhead : a.seq ≤ s → a = v := by
      intro hle
      apply hf a mem_cons_self
      apply le_antisymm (hmax a mem_cons_self hle)
      rcases mem_cons.mp hv with rfl | hv
      · exact le_rfl
      · exact ha v hv
    by_cases hw : watermark ≤ a.seq
    · rw [retain, if_pos hw]
      by_cases hle : a.seq ≤ s
      · obtain rfl := hhead hle
        exact ⟨fun _ => mem_cons_self, fun hlt => absurd hw (not_le.mpr hlt)⟩
      · have hva : v ∈ rows := by
          rcases mem_cons.mp hv with rfl | hv
          · exact absurd hs hle
          · exact hv
        obtain ⟨hkeep, hdrop⟩ := ih hrest (fun x hx => hgap x (.tail _ hx)) hva
          (fun x hx => hf x (.tail _ hx))
          (fun x hx => hmax x (.tail _ hx))
        refine ⟨fun h => List.mem_cons_of_mem _ (hkeep h), fun hlt hd x hx => ?_⟩
        rcases mem_cons.mp hx with rfl | hx
        · omega
        · exact hdrop hlt hd x hx
    · have hle : a.seq ≤ s := by
        by_contra hlt
        exact hw (hgap a mem_cons_self (by omega))
      obtain rfl := hhead hle
      rw [retain, if_neg hw]
      cases hd : drop a with
      | true => simp [hw]
      | false => simp

end VersionedLayers
