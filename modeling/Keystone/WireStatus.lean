import Keystone.WireExtended

/-! # The status behind a query, and transactions with a failed statement

The end of a batch and Sync look at the transaction; an empty query, a query that does not parse and
COPY report that none is open. -/
namespace WireStatus

open DecimalText ExecutorDml ExecutorRbac ExecutorValue GuardedRuns List SqlAst
  WireCodec WireDescribe WireExtended WireSession WireSessionRbac

variable {F ρ δ : Type}

def Mode.isAnswered : Mode → Bool
  | .answered => true
  | _ => false

def Truthful (served : Served F ρ δ) : Prop :=
  ∀ status, .readyForQuery status ∈ served.2 → status = statusOf served.1.world

def Silent (sent : List BackendMessage) : Prop := ∀ status, .readyForQuery status ∉ sent

theorem statusOf_eq_idle : .idle = statusOf w ↔ w.txn = none := by
  unfold statusOf
  cases w.txn with
  | none | some t => simp

theorem truthful_of_silent (h : Silent served.2) : Truthful served :=
  fun status hmem => absurd hmem (h status)

/-- Only the status of no transaction is sent. -/
theorem truthful_idle {served : Served F ρ δ} (hsent : .readyForQuery .idle ∈ served.2)
    (honly : ∀ status, .readyForQuery status ∈ served.2 → status = .idle) :
    Truthful served ↔ served.1.world.txn = none := by
  rw [← statusOf_eq_idle]
  constructor
  · exact fun h => h _ hsent
  · intro h status hmem
    rw [honly status hmem, h]

theorem silent_conclude {answers : Reply → List BackendMessage}
    (h : ∀ reply, Silent (answers reply)) :
    Silent (conclude s mode answers o).2 := by
  unfold conclude
  split
  · exact h _
  · exact fun status => by simp
  · exact fun status => by simp [refuse]

theorem silent_simpleAnswers (srv : Server F ρ δ) (c : Command F δ) (reply : Reply) :
    Silent (simpleAnswers srv c reply) := by
  unfold simpleAnswers
  intro status
  split
  · simp
  · split <;> simp

section Serving

variable [Scalars F] (srv : Server F ρ δ)

def idleExit (s : Session F ρ δ) (step : Step F δ) : Bool :=
  match s.mode, step with
  | .closed, _ => false
  | .copying _, .message .copyDone => true
  | .copying _, .message (.copyFail _) => true
  | .copying _, _ => false
  | _, .emptyQuery => true
  | _, .parseError _ => true
  | .ready, .statement c => isCopy c && Mode.isAnswered (serveStatement srv s c).1.mode
  | _, _ => false

def Reports (s : Session F ρ δ) (step : Step F δ) : Prop :=
  ∀ status, .readyForQuery status ∈ answers srv s step → status = statusOf (next srv s step).world

def IdleThere (s : Session F ρ δ) (step : Step F δ) : Prop :=
  idleExit srv s step = true → (next srv s step).world.txn = none

variable {srv}

omit [Scalars F] in
theorem truthful_copyAbort : Truthful (copyAbort s w message) ↔
    (copyAbort s w message).1.world.txn = none :=
  truthful_idle (by simp [copyAbort]) (by simp [copyAbort])

omit [Scalars F] in
theorem truthful_endCopy :
    Truthful (endCopy s rowCount failed) ↔ (endCopy s rowCount failed).1.world.txn = none := by
  cases failed with
  | none | some message => exact truthful_idle (by simp [endCopy]) (by simp [endCopy])

omit [Scalars F] in
theorem truthful_copyIn :
    let served := handleCopyIn srv s stmt
    Truthful served ↔ (Mode.isAnswered served.1.mode = true → served.1.world.txn = none) := by
  intro served
  unfold served handleCopyIn
  split
  · exact iff_of_true (truthful_of_silent fun _ => by simp) (by simp [Mode.isAnswered])
  · exact truthful_copyAbort.trans (by simp [copyAbort, Mode.isAnswered])
  · exact iff_of_true (truthful_of_silent fun _ => by simp) (by simp [Mode.isAnswered])

theorem truthful_copyOut :
    let served := handleCopyOut srv s stmt
    Truthful served ↔ (Mode.isAnswered served.1.mode = true → served.1.world.txn = none) := by
  intro served
  unfold served handleCopyOut
  dsimp only
  split
  · exact iff_of_true (truthful_of_silent fun _ => by simp) (by simp [Mode.isAnswered])
  · exact truthful_copyAbort.trans (by simp [copyAbort, Mode.isAnswered])
  · exact (truthful_idle (by simp) (by simp)).trans (by simp [Mode.isAnswered])

theorem truthful_serveStatement :
    let served := serveStatement srv s c
    Truthful served ↔ ((isCopy c && Mode.isAnswered served.1.mode) = true →
      served.1.world.txn = none) := by
  intro served
  unfold served serveStatement
  split
  · exact truthful_copyIn.trans (by simp [isCopy])
  · exact truthful_copyOut.trans (by simp [isCopy])
  · rename_i hin hout
    have hcopy : isCopy c = false := by
      unfold isCopy
      split
      · exact absurd rfl (hin _ _)
      · exact absurd rfl (hout _)
      · rfl
    exact iff_of_true (truthful_of_silent (silent_conclude (silent_simpleAnswers srv c)))
      (by simp [hcopy])

theorem truthful_serveMessage : Truthful (serveMessage srv s m) := by
  cases m with
  | sync => exact fun status hmem => by simpa [serveMessage] using hmem
  | parse | bind | describe | execute | close =>
    exact truthful_of_silent fun status hmem =>
      countP_eq_zero.1 (answered_serveMessage srv rfl (by simp) (by simp)).1.ready _ hmem rfl
  | query | terminate | copyData | copyDone | copyFail | passwordData | flush =>
    exact truthful_of_silent fun status => by simp [serveMessage]

omit [Scalars F] in
theorem silent_copyData : Silent (serveCopy srv s c (.copyData data)).2 := by
  unfold serveCopy
  dsimp only
  split
  · exact fun status => by simp
  · exact fun status => by simp

/-- Only the exits that do not look can report a wrong status, and they do so in a transaction. -/
theorem reports_iff (s : Session F ρ δ) (step : Step F δ) :
    Reports srv s step ↔ IdleThere srv s step := by
  have hnone : Truthful ((s, []) : Served F ρ δ) := truthful_of_silent fun _ => by simp
  have hempty : Truthful ((s, [.emptyQueryResponse, .readyForQuery .idle]) : Served F ρ δ) ↔
      s.world.txn = none := truthful_idle (by simp) (by simp)
  have herror message :
      Truthful ((s, [.errorResponse (utf8 "42601") message, .readyForQuery .idle]) : Served F ρ δ) ↔
        s.world.txn = none := truthful_idle (by simp) (by simp)
  have hend :
    Truthful (({ s with mode := .ready }, [.readyForQuery (statusOf s.world)]) : Served F ρ δ) :=
    fun status hmem => by simpa using hmem
  change Truthful (respondTo srv s step) ↔
    (idleExit srv s step = true → (respondTo srv s step).1.world.txn = none)
  unfold respondTo idleExit
  cases s.mode with
  | closed => exact iff_of_true hnone (by simp)
  | copying c =>
    cases step with
    | message m =>
      cases m with
      | copyDone | copyFail message => exact truthful_endCopy.trans (by simp [serveCopy])
      | copyData data => exact iff_of_true (truthful_of_silent silent_copyData) (by simp)
      | _ => exact iff_of_true hnone (by simp)
    | _ => exact iff_of_true hnone (by simp)
  | ready | aborted | answered =>
    cases step with
    | statement c => first | exact truthful_serveStatement | exact iff_of_true hnone (by simp)
    | endOfBatch =>
      first
      | exact iff_of_true hend (by simp)
      | exact iff_of_true (truthful_of_silent fun _ => by simp) (by simp)
    | emptyQuery => simpa using hempty
    | parseError message => simpa using herror message
    | message m => exact iff_of_true truthful_serveMessage (by simp)

def executed (s : Session F ρ δ) : FrontendMessage → Option (Command F δ)
  | .execute portal _ => (s.portals portal).map Portal.stmt
  | _ => none

def runs (s : Session F ρ δ) (step : Step F δ) : Option (Command F δ) :=
  match s.mode, step with
  | .closed, _ | .copying _, _ => none
  | .ready, .statement c => some c
  | _, .message m => executed s m
  | _, _ => none

variable (srv)

def Discards (s : Session F ρ δ) (step : Step F δ) : Prop :=
  s.failed = true → runs s step = some (.session .commit) →
    (next srv s step).world.commits.flatten = s.world.interfere.commits.flatten

def NothingStaged (s : Session F ρ δ) (step : Step F δ) : Prop :=
  s.failed = true → runs s step = some (.session .commit) → ∀ t ∈ s.world.txn, t.staged = []

variable {srv}

theorem respond_commit (db : WriteDb (M ρ) F Unit) (depth : ℕ) :
    (respond (execute db depth [] .commit) w).2.commits.flatten =
      w.interfere.commits.flatten ++ w.txn.elim [] Txn.staged := by
  have htxn : w.interfere.txn = w.txn := by
    unfold World.interfere
    split <;> rfl
  rw [respond, execute, commit, run_op, htxn]
  cases w.txn with
  | none | some t => simp

theorem runs_cases (h : runs s step = some c) : respondTo srv s step = serveStatement srv s c ∨
    ∃ portal limit p, s.portals portal = some p ∧ p.stmt = c ∧
      respondTo srv s step = serveExecute srv s portal limit := by
  have hmessage {m : FrontendMessage} (h : executed s m = some c)
      (hserved : respondTo srv s (.message m) = serveMessage srv s m) :
      ∃ portal limit p, s.portals portal = some p ∧ p.stmt = c ∧
        respondTo srv s (.message m) = serveExecute srv s portal limit := by
    cases m with
    | execute portal limit =>
      obtain ⟨p, hp, hstmt⟩ := Option.map_eq_some_iff.1 h
      exact ⟨portal, limit, p, hp, hstmt, hserved⟩
    | _ => cases h
  unfold runs at h
  cases hmode : s.mode with
  | closed | copying =>
    rw [hmode] at h
    cases h
  | ready =>
    rw [hmode] at h
    cases step with
    | statement c' =>
      cases h
      exact .inl (by unfold respondTo; rw [hmode])
    | message m => exact .inr (hmessage h (by unfold respondTo; rw [hmode]))
    | _ => cases h
  | aborted | answered =>
    rw [hmode] at h
    cases step with
    | message m => exact .inr (hmessage h (by unfold respondTo; rw [hmode]))
    | _ => cases h

theorem commits_of_runs_commit (h : runs s step = some (.session .commit)) :
    (next srv s step).world.commits.flatten =
      s.world.interfere.commits.flatten ++ s.world.txn.elim [] Txn.staged := by
  rw [← respond_commit srv.db srv.depth]
  change (respondTo srv s step).1.world.commits.flatten = _
  obtain hserved | ⟨portal, limit, p, hportal, hstmt, hserved⟩ := runs_cases h
  · rw [hserved]
    exact congrArg (·.commits.flatten) (conclude_fst s ..).1
  · rw [hserved, serveExecute, hportal]
    dsimp only
    rw [hstmt]
    exact congrArg (·.commits.flatten) (conclude_fst s ..).1

theorem discards_iff (s : Session F ρ δ) (step : Step F δ) :
    Discards srv s step ↔ NothingStaged s step := by
  refine imp_congr_right fun _ => imp_congr_right fun hcommit => ?_
  rw [commits_of_runs_commit hcommit, append_right_eq_self]
  cases s.world.txn with
  | none | some t => simp

/-- Every status is the one of the moment if and only if no transaction is open when a query is
empty or does not parse, or when COPY ends; and no COMMIT behind an error writes what was staged if
and only if nothing was. -/
theorem status_and_commits (s : Session F ρ δ) (ms : List FrontendMessage) :
    (Along (next srv) (Reports srv) s (ms.flatMap (steps srv)) ↔
      Along (next srv) (IdleThere srv) s (ms.flatMap (steps srv))) ∧
    (Along (next srv) (Discards srv) s (ms.flatMap (steps srv)) ↔
      Along (next srv) NothingStaged s (ms.flatMap (steps srv))) := by
  have hevery {P Q : Session F ρ δ → Step F δ → Prop} (h : ∀ s step, P s step ↔ Q s step) :
      Along (next srv) P s (ms.flatMap (steps srv)) ↔
        Along (next srv) Q s (ms.flatMap (steps srv)) :=
    ⟨.mono fun s step => (h s step).1, .mono fun s step => (h s step).2⟩
  exact ⟨hevery reports_iff, hevery discards_iff⟩

end Serving

def insertInto (table : String) : Command Unit TableSchema :=
  .session (.insert ⟨table, [], [[.literal (.text (utf8 "2"))]]⟩)

def scripts : Server Unit Unit TableSchema :=
  serving [("BEGIN", .session .begin), ("COMMIT", .session .commit),
    ("INSERT INTO t VALUES ('2')", insertInto "t"),
    ("INSERT INTO u VALUES ('2')", insertInto "u"),
      ("COPY t TO STDOUT", .session (.copyOut ⟨"t", []⟩))]

def queries (texts : List String) : List (Step Unit TableSchema) :=
  (texts.map fun text => FrontendMessage.query (utf8 text)).flatMap (steps scripts)

/-- In a transaction an empty query, one that does not parse and COPY are told that there is none;
and COMMIT writes the row that was staged before a statement failed. -/
theorem wrong_status_and_partial_commit :
    let s := starting (granted [])
    let open_ := queries ["BEGIN", "", "BEGN", "COPY t TO STDOUT"]
    let failing := queries ["BEGIN", "INSERT INTO t VALUES ('2')", "INSERT INTO u VALUES ('2')"]
    let failed := run (next scripts) s failing
    let final := run (next scripts) s (failing ++ queries ["COMMIT"])
    (answersAll scripts s open_).filter BackendMessage.isReady =
        [.readyForQuery .inTransaction, .readyForQuery .idle, .readyForQuery .idle,
          .readyForQuery .idle] ∧
      (run (next scripts) s open_).world.txn.isSome = true ∧
      failed.failed = true ∧ failed.world.txn.isSome = true ∧
      (rowsOf failed.world.latest "t" none).map Prod.fst = [utf8 "1"] ∧
      (rowsOf final.world.latest "t" none).length = 2 := by
  all_goals decide +kernel

end WireStatus
