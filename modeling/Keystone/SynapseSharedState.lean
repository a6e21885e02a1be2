import Keystone.WireRoles
import Mathlib.Data.List.Find

/-! # Shared workflow state

The state of all workflows is one table. The key of a row joins workflow and key with a colon; the
list of a workflow looks at the column instead. -/
namespace SynapseSharedState

open ByteCodecs ExecutorRbac ExecutorSelect FileNames List OrderedMaps StorageInternalKey WireRoles
  WireSession

def stateTable : String := "_synapse_shared_state"

def stateId (workflow key : Bytes) : Bytes := workflow ++ 58 :: key

structure Setting where
  workflow : Bytes
  key : Bytes
  value : Bytes
  updatedBy : Bytes
  updatedAt : Bytes

def Setting.cells (s : Setting) : List Bytes :=
  [stateId s.workflow s.key, s.workflow, s.key, s.value, s.updatedBy, s.updatedAt]

def setSharedState (tables : Tables) (s : Setting) : Tables :=
  put tables stateTable (stateId s.workflow s.key) s.cells

def getSharedState (tables : Tables) (workflow key : Bytes) : Option Bytes := do
  let row ← (tables stateTable).get? (stateId workflow key)
  cellStr row 3

def stateEntry (workflow : Bytes) (kv : KeyValue) : Option (Bytes × Bytes) := do
  let wf ← cellStr kv.2 1
  if wf ≠ workflow then none
  else do
    let key ← cellStr kv.2 2
    some (key, (cellStr kv.2 3).getD [])

def listSharedState (tables : Tables) (workflow : Bytes) : List (Bytes × Bytes) :=
  (tables stateTable).entries.filterMap (stateEntry workflow)

/-- The arguments are strings that fit a cell, and the workflow has no colon. -/
structure Setting.Plain (s : Setting) : Prop where
  text : ∀ c ∈ [s.workflow, s.key, s.value], validUtf8 c = true
  short : ∀ c ∈ s.cells, c.length < 2 ^ 31
  plain : 58 ∉ s.workflow

/-- The value of the last call for exactly this pair. -/
def lastSet (settings : List Setting) (workflow key : Bytes) : Option Bytes :=
  (settings.reverse.find? fun s => s.workflow = workflow ∧ s.key = key).map Setting.value

theorem get?_settings (hempty : tables stateTable = .empty) (settings : List Setting) (id : Bytes) :
    (settings.foldl setSharedState tables stateTable).get? id =
      (settings.reverse.find? fun s => stateId s.workflow s.key = id).map fun s =>
        textCells s.cells := by
  induction settings using List.reverseRecOn with
  | nil => simp [hempty]
  | append_singleton settings s ih =>
    rw [foldl_concat, setSharedState, put_same, OrderedMap.get?_insert, ih, reverse_concat,
      find?_cons]
    by_cases hid : stateId s.workflow s.key = id
    · simp [hid]
    · simp [hid, Ne.symm hid]

theorem Setting.Plain.value_eq {s : Setting} (h : s.Plain) :
    cellStr (textCells s.cells) 3 = some s.value :=
  cellStr_textCells h.short rfl (h.text _ (by simp))

theorem Setting.Plain.stateEntry_eq {workflow id : Bytes} {s : Setting} (h : s.Plain) :
    stateEntry workflow (id, textCells s.cells) = if s.workflow =
      workflow then some (s.key, s.value) else none := by
  have hworkflow : cellStr (textCells s.cells) 1 = some s.workflow :=
    cellStr_textCells h.short rfl (h.text _ (by simp))
  have hkey : cellStr (textCells s.cells) 2 = some s.key :=
    cellStr_textCells h.short rfl (h.text _ (by simp))
  by_cases hw : s.workflow = workflow <;> simp [stateEntry, hworkflow, hkey, h.value_eq, hw]

section Isolation

variable {tables : Tables} {settings : List Setting} {workflow : Bytes}
  (hempty : tables stateTable = .empty)
  (hplain : ∀ s ∈ settings, s.Plain) (hworkflow : 58 ∉ workflow)

include hplain hworkflow in
theorem find?_stateId (key : Bytes) :
    (settings.reverse.find? fun s => stateId s.workflow s.key = stateId workflow key) =
      settings.reverse.find? fun s => s.workflow = workflow ∧ s.key = key := by
  refine find?_congr fun s hs => ?_
  simp [stateId, append_cons_inj (hplain s (mem_reverse.mp hs)).plain hworkflow]

include hempty hplain

theorem stateEntry_eq_some (hkv : kv ∈ (settings.foldl setSharedState tables stateTable).entries)
    (h : stateEntry workflow kv = some p) :
    kv.1 = stateId workflow p.1 ∧
      ∃ s, (settings.reverse.find? fun s => stateId s.workflow s.key = kv.1) = some s ∧
        s.value = p.2 := by
  obtain ⟨id, row⟩ := kv
  rw [← OrderedMap.get?_eq_some, get?_settings hempty] at hkv
  obtain ⟨s, hs, rfl⟩ := Option.map_eq_some_iff.mp hkv
  rw [(hplain s (mem_reverse.mp (mem_of_find?_eq_some hs))).stateEntry_eq] at h
  split_ifs at h with hw
  cases h
  have hid : stateId s.workflow s.key = id := by simpa using find?_some hs
  exact ⟨hw ▸ hid.symm, s, hs, rfl⟩

include hworkflow

theorem mem_listSharedState : p ∈ listSharedState (settings.foldl setSharedState tables) workflow ↔
    lastSet settings workflow p.1 = some p.2 := by
  simp only [listSharedState, lastSet, ← find?_stateId hplain hworkflow, mem_filterMap,
    Option.map_eq_some_iff]
  constructor
  · rintro ⟨kv, hkv, hentry⟩
    obtain ⟨hid, hlast⟩ := stateEntry_eq_some hempty hplain hkv hentry
    rwa [hid] at hlast
  · rintro ⟨s, hs, hvalue⟩
    have hplain' := hplain s (mem_reverse.mp (mem_of_find?_eq_some hs))
    have hid : stateId s.workflow s.key = stateId workflow p.1 := by simpa using find?_some hs
    obtain ⟨hw, hkey⟩ := (append_cons_inj hplain'.plain hworkflow).mp hid
    refine ⟨(stateId workflow p.1, textCells s.cells), ?_, ?_⟩
    · rw [← OrderedMap.get?_eq_some, get?_settings hempty, hs]
      rfl
    · rw [hplain'.stateEntry_eq, if_pos hw, hkey, hvalue]

/-- Without colons in the names of workflows, the table holds for each pair what was set last. -/
theorem shared_state_isolated (key : Bytes) :
    getSharedState (settings.foldl setSharedState tables) workflow key =
      lastSet settings workflow key ∧
      (∀ p, p ∈ listSharedState (settings.foldl setSharedState tables) workflow ↔
        lastSet settings workflow p.1 = some p.2) ∧
      ((listSharedState (settings.foldl setSharedState tables) workflow).map Prod.fst).Nodup := by
  refine ⟨?_, fun p => mem_listSharedState hempty hplain hworkflow, ?_⟩
  · rw [getSharedState, get?_settings hempty, find?_stateId hplain hworkflow, lastSet]
    cases hs : settings.reverse.find? fun s => s.workflow = workflow ∧ s.key = key with
    | none => rfl
    | some s => exact (hplain s (mem_reverse.mp (mem_of_find?_eq_some hs))).value_eq
  · rw [Nodup, pairwise_map, listSharedState, pairwise_filterMap]
    refine (OrderedMap.sorted _).imp_of_mem fun {a b} ha hb hlt p hp q hq heq => ?_
    rw [(stateEntry_eq_some hempty hplain ha hp).1, (stateEntry_eq_some hempty hplain hb hq).1,
      heq] at hlt
    exact lt_irrefl _ hlt

end Isolation

/-- The workflow `a` sets `k` twice, and `b` sets it in between. -/
def twoWorkflows : List Setting :=
  [⟨[97], [107], [49], [], []⟩, ⟨[98], [107], [50], [], []⟩, ⟨[97], [107], [51], [], []⟩]

theorem shared_state_isolated_two : let tables := twoWorkflows.foldl setSharedState fun _ => .empty
    getSharedState tables [97] [107] = some [51] ∧ getSharedState tables [98] [107] = some [50] ∧
      ∀ p, p ∈ listSharedState tables [98] ↔ lastSet twoWorkflows [98] p.1 = some p.2 := by
  have hplain : ∀ s ∈ twoWorkflows, s.Plain := by
    simp only [twoWorkflows, forall_mem_cons]
    exact ⟨⟨by decide, by decide, by decide⟩, ⟨by decide, by decide, by decide⟩,
      ⟨by decide, by decide, by decide⟩, by simp⟩
  refine ⟨?_, ?_, ?_⟩
  · exact (shared_state_isolated rfl hplain (show 58 ∉ [97] by decide) [107]).1.trans rfl
  · exact (shared_state_isolated rfl hplain (show 58 ∉ [98] by decide) [107]).1.trans rfl
  · exact (shared_state_isolated rfl hplain (show 58 ∉ [98] by decide) [107]).2.1

/-- Two workflows, `a` and `a:b`. -/
def colonSettings : List Setting := [⟨[97], [98, 58, 99], [49], [], []⟩,
    ⟨[97, 58, 98], [99], [50], [], []⟩]

theorem shared_state_mixed : let tables := colonSettings.foldl setSharedState fun _ => .empty
    getSharedState tables [97] [98, 58, 99] = some [50] ∧ listSharedState tables [97] = [] := by
  decide

end SynapseSharedState
