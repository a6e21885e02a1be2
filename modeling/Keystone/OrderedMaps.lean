import Mathlib.Data.List.Sort

/-! # Ordered maps as strictly sorted association lists

The iteration order is part of the value, so folds over a map and seeks into it can be
stated on the entry list itself. Sortedness is carried by the type. -/
namespace OrderedMaps

open List

/-- A finite map whose entries are listed in strictly ascending key order. -/
structure OrderedMap (K V : Type*) [LinearOrder K] where
  entries : List (K × V)
  sorted : entries.Pairwise fun a b => a.1 < b.1

variable {K V : Type*} [LinearOrder K]

/-- Replace or create the entry of `k`; `f` sees the value stored before. -/
def upsertList (k : K) (f : Option V → V) : List (K × V) → List (K × V)
  | [] => [(k, f none)]
  | (a, v) :: rest =>
    if k < a then (k, f none) :: (a, v) :: rest
    else if k = a then (k, f (some v)) :: rest
    else (a, v) :: upsertList k f rest

variable {k : K} {f : Option V → V} {e : K × V}

theorem mem_upsertList_key (h : e ∈ upsertList k f entries) : e.1 = k ∨ e ∈ entries := by
  induction entries with
  | nil => exact .inl (congrArg Prod.fst (mem_singleton.mp h))
  | cons a rest ih =>
    unfold upsertList at h
    split_ifs at h with hlt heq
    · rcases mem_cons.mp h with rfl | h
      · exact .inl rfl
      · exact .inr h
    · rcases mem_cons.mp h with rfl | h
      · exact .inl rfl
      · exact .inr (.tail _ h)
    · rcases mem_cons.mp h with rfl | h
      · exact .inr mem_cons_self
      · exact (ih h).imp_right (mem_cons_of_mem _)

theorem upsertList_sorted (h : entries.Pairwise fun a b => a.1 < b.1) :
    (upsertList k f entries).Pairwise fun a b => a.1 < b.1 := by
  induction entries with
  | nil => simp [upsertList]
  | cons a rest ih =>
    obtain ⟨ha, hrest⟩ := pairwise_cons.mp h
    unfold upsertList
    split_ifs with hlt heq
    · refine pairwise_cons.mpr ⟨?_, h⟩
      intro e he
      rcases mem_cons.mp he with rfl | he
      · exact hlt
      · exact hlt.trans (ha e he)
    · subst heq
      exact pairwise_cons.mpr ⟨ha, hrest⟩
    · refine pairwise_cons.mpr ⟨?_, ih hrest⟩
      intro e he
      rcases mem_upsertList_key he with hk | he
      · rw [hk]; exact lt_of_le_of_ne (not_lt.mp hlt) (Ne.symm heq)
      · exact ha e he

theorem upsertList_append (h : ∀ e ∈ front, e.1 < k) (rest : List (K × V)) :
    upsertList k f (front ++ rest) = front ++ upsertList k f rest := by
  induction front with
  | nil => rfl
  | cons e front ih =>
    have he : e.1 < k := h e mem_cons_self
    rw [cons_append, cons_append, ← ih fun x hx => h x (.tail _ hx)]
    simp only [upsertList, not_lt.mpr he.le, ne_of_gt he, if_false]

theorem upsertList_of_lt (h : ∀ e ∈ rest, k < e.1) : upsertList k f rest = (k, f none) :: rest := by
  cases rest with
  | nil => rfl
  | cons e rest => simp only [upsertList, h e mem_cons_self, if_true]

theorem length_upsertList (entries : List (K × V)) :
    entries.length ≤ (upsertList k f entries).length ∧
      (upsertList k f entries).length ≤ entries.length + 1 := by
  induction entries with
  | nil => simp [upsertList]
  | cons e rest ih =>
    unfold upsertList
    split_ifs
    · simp
    · simp
    · simp only [length_cons]
      omega

namespace OrderedMap

def empty : OrderedMap K V := ⟨[], List.Pairwise.nil⟩

def upsert (m : OrderedMap K V) (k : K) (f : Option V → V) : OrderedMap K V :=
  ⟨upsertList k f m.entries, upsertList_sorted m.sorted⟩

def insert (m : OrderedMap K V) (k : K) (v : V) : OrderedMap K V := m.upsert k fun _ => v

def get? (m : OrderedMap K V) (k : K) : Option V :=
  (m.entries.find? fun e => e.1 = k).map Prod.snd

def erase (m : OrderedMap K V) (k : K) : OrderedMap K V :=
  ⟨m.entries.filter fun e => e.1 ≠ k, m.sorted.filter _⟩

def keys (m : OrderedMap K V) : List K := m.entries.map Prod.fst

@[simp] theorem entries_empty : (empty : OrderedMap K V).entries = [] := rfl
@[simp] theorem get?_empty : (empty : OrderedMap K V).get? k = none := rfl

theorem entries_insert (m : OrderedMap K V) (k : K) (v : V) :
    (m.insert k v).entries = upsertList k (fun _ => v) m.entries := rfl

variable {m : OrderedMap K V} {k : K}

theorem get?_eq_none : m.get? k = none ↔ ∀ e ∈ m.entries, e.1 ≠ k := by
  simp [get?]

theorem get?_eq_some : m.get? k = some v ↔ (k, v) ∈ m.entries := by
  obtain ⟨entries, hs⟩ := m
  simp only [get?]
  induction entries with
  | nil => simp
  | cons e rest ih =>
    obtain ⟨he, hrest⟩ := pairwise_cons.mp hs
    by_cases hk : e.1 = k
    · have hno : (k, v) ∉ rest := fun h => absurd hk (ne_of_lt (he _ h))
      simp [hk, hno, Prod.ext_iff, eq_comm]
    · simp [hk, ih hrest, Prod.ext_iff, Ne.symm hk]

theorem nodup_keys (m : OrderedMap K V) : m.keys.Nodup :=
  pairwise_map.mpr (m.sorted.imp ne_of_lt)

theorem filter_key_eq (m : OrderedMap K V) :
    (m.entries.filter fun e => e.1 = k) = (m.get? k).toList.map fun v => (k, v) := by
  obtain ⟨entries, sorted⟩ := m
  simp only [get?]
  induction entries with
  | nil => rfl
  | cons e entries ih =>
    obtain ⟨hhead, htail⟩ := pairwise_cons.mp sorted
    obtain ⟨key, value⟩ := e
    by_cases hk : key = k
    · subst hk
      have hrest : (entries.filter fun e => decide (e.1 = key)) = [] := by
        rw [filter_eq_nil_iff]
        intro x hx
        simpa using (hhead x hx).ne'
      simp [hrest]
    · simpa [hk] using ih htail

theorem get?_upsert_self (m : OrderedMap K V) (k : K) (f : Option V → V) :
    (m.upsert k f).get? k = some (f (m.get? k)) := by
  obtain ⟨entries, hs⟩ := m
  simp only [get?, upsert]
  induction entries with
  | nil => simp [upsertList]
  | cons e rest ih =>
    obtain ⟨he, hrest⟩ := pairwise_cons.mp hs
    unfold upsertList
    by_cases hlt : k < e.1
    · -- the new entry goes in front, so the key was absent
      have hno : (e :: rest).find? (fun e => e.1 = k) = none := by
        rw [find?_eq_none]
        intro x hx
        rcases mem_cons.mp hx with rfl | hx
        · simpa using ne_of_gt hlt
        · simpa using ne_of_gt (hlt.trans (he x hx))
      simp [hlt, hno]
    · by_cases heq : k = e.1
      · simp [heq]
      · rw [if_neg hlt, if_neg heq, find?_cons_of_neg (by simpa using Ne.symm heq),
          find?_cons_of_neg (by simpa using Ne.symm heq)]
        exact ih hrest

theorem get?_upsert_of_ne (m : OrderedMap K V) (h : a ≠ k) : (m.upsert k f).get? a = m.get? a := by
  obtain ⟨entries, hs⟩ := m
  simp only [get?, upsert]
  clear hs
  induction entries with
  | nil => simp [upsertList, Ne.symm h]
  | cons e rest ih =>
    unfold upsertList
    split_ifs with hlt heq
    · rw [find?_cons_of_neg (by simpa using Ne.symm h)]
    · rw [find?_cons_of_neg (by simpa using Ne.symm h),
        find?_cons_of_neg (by simpa [← heq] using Ne.symm h)]
    · by_cases hea : e.1 = a
      · simp [hea]
      · rw [find?_cons_of_neg (by simpa using hea), find?_cons_of_neg (by simpa using hea)]
        exact ih

theorem get?_upsert (m : OrderedMap K V) :
    (m.upsert k f).get? a = if a = k then some (f (m.get? k)) else m.get? a := by
  split_ifs with h
  · rw [h, get?_upsert_self]
  · exact m.get?_upsert_of_ne h

theorem get?_insert :
    (m.insert k v).get? a = if a = k then some v else m.get? a :=
  m.get?_upsert

theorem mem_insert : e ∈ (m.insert k v).entries ↔ e = (k, v) ∨ (e.1 ≠ k ∧ e ∈ m.entries) := by
  obtain ⟨a, w⟩ := e
  rw [← get?_eq_some, get?_insert, ← get?_eq_some]
  by_cases h : a = k
  · simp [h, eq_comm]
  · simp [h]

theorem get?_erase : (m.erase k).get? a = if a = k then none else m.get? a := by
  split_ifs with h
  · rw [get?_eq_none]
    intro e he
    have := (mem_filter.mp he).2
    rw [h]
    simpa using this
  · ext v
    simp [get?_eq_some, erase, h]

def filterKeys (m : OrderedMap K V) (p : K → Bool) : OrderedMap K V :=
  ⟨m.entries.filter fun e => p e.1, m.sorted.filter _⟩

theorem get?_filterKeys :
    (m.filterKeys p).get? k = if p k then m.get? k else none := by
  ext v
  rw [get?_eq_some, filterKeys, mem_filter, ← get?_eq_some]
  by_cases hp : p k = true <;> simp [hp]

def mapValues {W : Type*} (m : OrderedMap K V) (f : K → V → W) : OrderedMap K W :=
  ⟨m.entries.map fun e => (e.1, f e.1 e.2), List.pairwise_map.mpr m.sorted⟩

theorem flatMap_entries_perm (m : OrderedMap K V) (k : K) (g : K × V → List A) :
    (m.entries.flatMap g).Perm
      ((m.get? k).toList.flatMap (fun v => g (k, v)) ++ (m.entries.filter fun e => e.1 ≠
        k).flatMap g) := by
  have hsplit :=
    (filter_append_perm (fun e : K × V => decide (e.1 = k)) m.entries).symm.flatMap_right g
  rw [flatMap_append, filter_key_eq, flatMap_map] at hsplit
  simpa using hsplit

theorem filter_upsert_ne (m : OrderedMap K V) (k : K) (f : Option V → V) :
    ((m.upsert k f).entries.filter fun e => e.1 ≠ k) = m.entries.filter fun e => e.1 ≠ k := by
  change (upsertList k f m.entries).filter _ = _
  induction m.entries with
  | nil => simp [upsertList]
  | cons e rest ih =>
    unfold upsertList
    split_ifs with hlt heq
    · simp
    · simp [heq]
    · simp only [filter_cons, ih]

/-- No key is listed twice, so it does not matter from which end a lookup starts. -/
theorem find?_reverse (m : OrderedMap K V) :
    (m.entries.reverse.find? fun e => e.1 = k).map Prod.snd = m.get? k := by
  cases hfind : m.entries.reverse.find? fun e => e.1 = k with
  | none =>
    symm
    rw [Option.map_none, get?_eq_none]
    intro e he
    simpa using find?_eq_none.mp hfind e (mem_reverse.mpr he)
  | some e =>
    have hk : e.1 = k := by simpa using find?_some hfind
    symm
    rw [Option.map_some, get?_eq_some, ← hk]
    exact mem_reverse.mp (mem_of_find?_eq_some hfind)

theorem mem_keys : k ∈ m.keys ↔ ∃ v, m.get? k = some v := by
  simp [keys, get?_eq_some]

theorem head_le (hk : m.keys.head? = some k) (ha : a ∈ m.keys) : k ≤ a := by
  have hs : m.keys.Pairwise (· < ·) := pairwise_map.mpr m.sorted
  cases hl : m.keys with
  | nil => simp [hl] at ha
  | cons b rest =>
    rw [hl] at hk ha hs
    obtain rfl : b = k := by simpa using hk
    rcases mem_cons.mp ha with rfl | ha
    · exact le_rfl
    · exact le_of_lt ((pairwise_cons.mp hs).1 a ha)

theorem find?_le (he : m.entries.find? p = some e) (hx : x ∈ m.entries) (hp : p x = true) :
    e.1 ≤ x.1 := by
  obtain ⟨_, front, rest, hm, hfront⟩ := find?_eq_some_iff_append.mp he
  have hs := m.sorted
  rw [hm] at hx hs
  rcases mem_append.mp hx with hx | hx
  · have := hfront x hx
    simp [hp] at this
  · rcases mem_cons.mp hx with rfl | hx
    · exact le_rfl
    · exact le_of_lt ((pairwise_cons.mp (pairwise_append.mp hs).2.1).1 x hx)

theorem find?_congr {m m' : OrderedMap K V} {p : K × V → Bool}
    (h : ∀ e, p e = true → (e ∈ m'.entries ↔ e ∈ m.entries)) :
    m'.entries.find? p = m.entries.find? p := by
  cases he : m.entries.find? p with
  | none =>
    rw [find?_eq_none] at he ⊢
    exact fun x hx hp => he x ((h x hp).mp hx) hp
  | some e =>
    have hpe : p e = true := find?_some he
    have hmem : e ∈ m'.entries := (h e hpe).mpr (mem_of_find?_eq_some he)
    cases hx : m'.entries.find? p with
    | none => exact absurd hpe (find?_eq_none.mp hx e hmem)
    | some x =>
      have hpx : p x = true := find?_some hx
      have hxm : x ∈ m.entries := (h x hpx).mp (mem_of_find?_eq_some hx)
      have hkey : x.1 = e.1 := le_antisymm (find?_le hx hmem hpe) (find?_le he hxm hpx)
      have hvalue := get?_eq_some.mpr (mem_of_find?_eq_some he)
      rw [← hkey, get?_eq_some.mpr hxm] at hvalue
      exact congrArg some (Prod.ext hkey (Option.some.inj hvalue))

end OrderedMap
end OrderedMaps
