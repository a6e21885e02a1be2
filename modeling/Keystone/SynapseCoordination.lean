import Keystone.GuardedRuns
import Mathlib.Tactic.Ring

/-! # Task queues

A workflow's queue is a Flux topic with one partition and no retention. What a group of workers has
completed is kept as one offset. A topic's records are in memory and in a file of its directory;
`dirOf` is the directory that the file system finds under a topic's name. -/
namespace SynapseCoordination

open GuardedRuns

open List

structure FluxRecord where
  offset : ℕ
  value : String

structure FluxLog where
  records : List FluxRecord
  nextOffset : ℕ
  offsets : List (String × ℕ)

namespace FluxLog

def publish (log : FluxLog) (value : String) : ℕ × FluxLog :=
  (log.nextOffset, { log with
    records := log.records ++ [⟨log.nextOffset, value⟩], nextOffset := log.nextOffset + 1 })

def poll (log : FluxLog) (group : String) (max : ℕ) : List FluxRecord :=
  (log.records.filter ((log.offsets.lookup group).getD 0 ≤ ·.offset)).take max

def commit (log : FluxLog) (group : String) (offset : ℕ) : FluxLog :=
  { log with offsets := (group, offset) :: log.offsets }

end FluxLog

/-- The topics in memory and the records in the log file of each directory. -/
structure Flux where
  topics : String → Option FluxLog
  files : String → List FluxRecord

def Flux.empty : Flux := ⟨fun _ => none, fun _ => []⟩

def topicName (workflow : String) : String := "__synapse_tasks_" ++ workflow

section Directories

variable (dirOf : String → String)

/-- A new topic replays the records of a log file that is there, and none of the offsets. -/
def FluxLog.create (records : List FluxRecord) : FluxLog :=
  ⟨records, (records.getLast?.map (·.offset + 1)).getD 0, []⟩

/-- The log of the workflow's topic, which is created if there is none. -/
def ensureWorkflowTopic (flux : Flux) (workflow : String) : FluxLog :=
  (flux.topics (topicName workflow)).getD (.create (flux.files (dirOf (topicName workflow))))

def setLog (flux : Flux) (workflow : String) (log : FluxLog) : Flux :=
  { flux with topics := Function.update flux.topics (topicName workflow) (some log) }

def delegateTask (flux : Flux) (workflow task : String) : ℕ × Flux :=
  let log := ensureWorkflowTopic dirOf flux workflow
  let (offset, log') := log.publish task
  let dir := dirOf (topicName workflow)
  let files := Function.update flux.files dir (flux.files dir ++ [⟨offset, task⟩])
  (offset, { setLog flux workflow log' with files })

def claimTask (flux : Flux) (workflow group : String) : Option (ℕ × String) × Flux :=
  let log := ensureWorkflowTopic dirOf flux workflow
  ((log.poll group 1).head?.map fun r => (r.offset, r.value), setLog flux workflow log)

def completeTask (flux : Flux) (workflow group : String) (offset : ℕ) : Flux :=
  setLog flux workflow ((ensureWorkflowTopic dirOf flux workflow).commit group
    ((offset + 1) % 2 ^ 64))

inductive Call where
  | delegate (workflow task : String)
  | claim (workflow group : String)
  | complete (workflow group : String) (offset : ℕ)

def perform (flux : Flux) : Call → Flux
  | .delegate workflow task => (delegateTask dirOf flux workflow task).2
  | .claim workflow group => (claimTask dirOf flux workflow group).2
  | .complete workflow group offset => completeTask dirOf flux workflow group offset

/-- The tasks of a workflow and those a group has acknowledged, as the calls say. -/
structure Work where
  tasks : List String
  completed : List ℕ

def Work.note (workflow group : String) (w : Work) : Call → Work
  | .delegate wf task => if wf = workflow then { w with tasks := w.tasks ++ [task] } else w
  | .claim .. => w
  | .complete wf g offset =>
    if wf = workflow ∧ g = group ∧ offset < w.tasks.length then
      { w with completed := offset :: w.completed }
    else w

/-- The group acknowledges its tasks as they were delegated: with all earlier ones, with no later
one. Tasks of another workflow go to another directory. -/
def InOrder (workflow group : String) (w : Work) : Call → Prop
  | .delegate wf _ => wf = workflow ∨ dirOf (topicName wf) ≠ dirOf (topicName workflow)
  | .claim .. => True
  | .complete wf g offset => wf = workflow → g = group →
    offset < w.tasks.length ∧ offset + 1 < 2 ^ 64 ∧ ∀ i, i ∈ offset :: w.completed ↔ i ≤ offset

structure Tracks (group : String) (log : FluxLog) (w : Work) : Prop where
  records : log.records = w.tasks.zipIdx.map fun (task, i) => ⟨i, task⟩
  next : log.nextOffset = w.tasks.length
  completed : ∀ i, i ∈ w.completed ↔ i < (log.offsets.lookup group).getD 0

variable {dirOf}

theorem topics_setLog : (setLog flux wf log).topics (topicName workflow) =
    if wf = workflow then some log else flux.topics (topicName workflow) := by
  by_cases h : wf = workflow
  · simp [setLog, h]
  · have hname : topicName workflow ≠ topicName wf := fun heq =>
      h (String.append_right_inj _ |>.mp heq).symm
    simp [setLog, h, Function.update_of_ne hname]

theorem ensureWorkflowTopic_setLog : ensureWorkflowTopic dirOf (setLog flux wf log) workflow =
      if wf = workflow then log else ensureWorkflowTopic dirOf flux workflow := by
  rw [ensureWorkflowTopic, topics_setLog]
  split_ifs <;> rfl

theorem Tracks.publish (h : Tracks group log w) (task : String) :
    Tracks group (log.publish task).2 { w with tasks := w.tasks ++ [task] } := by
  constructor
  · simp [FluxLog.publish, h.records, h.next, zipIdx_append]
  · simp [FluxLog.publish, h.next]
  · exact h.completed

theorem Tracks.perform (h : Tracks group (ensureWorkflowTopic dirOf flux workflow) w)
    (horder : InOrder dirOf workflow group w c) :
    Tracks group (ensureWorkflowTopic dirOf (perform dirOf flux c) workflow)
      (w.note workflow group c) := by
  cases c with
  | delegate wf task =>
    simp only [SynapseCoordination.perform, delegateTask, Work.note]
    rw [ensureWorkflowTopic]
    simp only [topics_setLog]
    split_ifs with hwf
    · exact hwf ▸ h.publish task
    · -- the file of the other workflow is another one
      rw [Function.update_of_ne (horder.resolve_left hwf).symm]
      exact h
  | claim wf g =>
    simp only [SynapseCoordination.perform, claimTask, ensureWorkflowTopic_setLog]
    split_ifs with hwf
    · exact hwf ▸ h
    · exact h
  | complete wf g offset =>
    simp only [SynapseCoordination.perform, completeTask, ensureWorkflowTopic_setLog, Work.note]
    split_ifs with hwf hthis hthis
    · obtain ⟨-, hword, hall⟩ := horder hwf hthis.2.1
      refine ⟨hwf ▸ h.records, hwf ▸ h.next, fun i => ?_⟩
      rw [hall, hthis.2.1]
      simp only [FluxLog.commit, List.lookup_cons_self, Option.getD_some]
      omega
    · have hg : (group == g) = false := by
        simpa using fun heq => hthis ⟨hwf, heq.symm, (horder hwf heq.symm).1⟩
      refine ⟨hwf ▸ h.records, hwf ▸ h.next, fun i => ?_⟩
      simpa [FluxLog.commit, lookup_cons, hg, hwf] using h.completed i
    · exact absurd hthis.1 hwf
    · exact h

theorem Tracks.run (h : Tracks group (ensureWorkflowTopic dirOf flux workflow) w)
    (horder : Along (Work.note workflow group) (InOrder dirOf workflow group) w calls) :
    Tracks group
      (ensureWorkflowTopic dirOf (run (SynapseCoordination.perform dirOf) flux calls) workflow)
      (run (Work.note workflow group) w calls) := by
  induction calls generalizing flux w with
  | nil => exact h
  | cons c calls ih => exact ih (h.perform horder.1) horder.2

/-- While a group acknowledges in order, it is handed the oldest open task. -/
theorem claims_oldest_open
    (h : Along (Work.note workflow group) (InOrder dirOf workflow group) (.mk [] []) calls) :
    let w := run (Work.note workflow group) (.mk [] []) calls
    match (claimTask dirOf (run (perform dirOf) .empty calls) workflow group).1 with
    | none => ∀ i < w.tasks.length, i ∈ w.completed
    | some (i, task) => w.tasks[i]? = some task ∧ i ∉ w.completed ∧ ∀ j < i, j ∈ w.completed := by
  have hempty : Tracks group (ensureWorkflowTopic dirOf .empty workflow) ⟨[], []⟩ :=
    ⟨rfl, rfl, by simp [ensureWorkflowTopic, Flux.empty, FluxLog.create]⟩
  have ht := hempty.run h
  generalize run (Work.note workflow group) (.mk [] []) calls = w,
    run (perform dirOf) .empty calls = flux at ht ⊢
  dsimp only
  simp only [claimTask, FluxLog.poll, ht.completed, ht.records]
  rw [List.head?_take, if_neg Nat.one_ne_zero, List.head?_filter]
  cases hfind : List.find? _ (w.tasks.zipIdx.map _) with
  | none =>
    intro i hi
    simpa using List.find?_eq_none.mp hfind ⟨i, w.tasks[i]⟩
      (mem_map.mpr ⟨(w.tasks[i], i), mem_zipIdx_iff_getElem?.mpr (by simp), rfl⟩)
  | some r =>
    obtain ⟨hopen, i, hi, hr, hearlier⟩ := List.find?_eq_some_iff_getElem.mp hfind
    simp only [getElem_map, getElem_zipIdx, Nat.zero_add] at hr
    subst hr
    refine ⟨by simp, by simpa using hopen, fun j hj => ?_⟩
    simpa using hearlier j hj

end Directories

/-- Three tasks, a task of another workflow between them, and two completed in order. -/
theorem claims_oldest_open_third :
    let calls : List Call := [.delegate "w" "a", .delegate "v" "x", .delegate "w" "b",
      .claim "w" "g",
      .complete "w" "g" 0, .complete "w" "h" 7, .complete "w" "g" 1, .delegate "w" "c"]
    let w := run (Work.note "w" "g") (.mk [] []) calls
    (claimTask id (run (perform id) .empty calls) "w" "g").1 = some (2, "c") ∧
      w.tasks[2]? = some "c" ∧ 2 ∉ w.completed ∧ ∀ j < 2, j ∈ w.completed := by
  intro calls w
  have hzero i : i ∈ [0] ↔ i ≤ 0 := by simp
  have hone i : i ∈ [1, 0] ↔ i ≤ 1 := by
    simp only [mem_cons, not_mem_nil, or_false]
    omega
  have horder : Along (Work.note "w" "g") (InOrder id "w" "g") (.mk [] []) calls :=
    ⟨.inl rfl, .inr (by decide), .inl rfl, trivial, fun _ _ => ⟨by decide, by decide, hzero⟩,
      fun _ h => absurd h (by decide), fun _ _ => ⟨by decide, by decide, hone⟩, .inl rfl, trivial⟩
  exact ⟨rfl, claims_oldest_open horder⟩

/-- Out of order, twice, before there is such a task, and from the directory of another workflow. -/
theorem completions_overwritten :
    let run := run (perform id) .empty
    let two : List Call := [.delegate "w" "a", .delegate "w" "b"]
    let dirOf (name : String) := if name = topicName "w/" then topicName "w" else name
    (claimTask id (run (two ++ [.complete "w" "g" 1])) "w" "g").1 = none ∧
      (claimTask id (run (two ++ [.complete "w" "g" 0, .complete "w" "g" 1, .complete "w" "g" 0]))
        "w" "g").1 =
        some (1, "b") ∧
      (claimTask id (run (.complete "w" "g" 2 :: two)) "w" "g").1 = none ∧
      (claimTask dirOf (perform dirOf .empty (.delegate "w" "a")) "w/" "g").1 = some (0, "a") := by
  decide

end SynapseCoordination
