import Keystone.WireCodec
import Keystone.WireDescribe
import Keystone.WireSessionRbac

/-! # The message loop of a session

Messages are handled one at a time, each with the answers it gets. A query is taken apart into its
statements; COPY from the client takes the messages that follow. A panic ends the connection. -/
namespace WireExtended

open ByteCodecs ByteReaders DecimalText ExecutorDml ExecutorEval ExecutorRbac ExecutorSelect
  ExecutorValue GuardedRuns List SqlAst StorageInternalKey WireCodec WireDescribe WireSession
  WireSessionRbac WireSessionReads

variable {F ρ δ : Type}

structure FloatBits (F : Type) where
  float8 : Bytes → F
  float4 : Bytes → F

/-- By the declared type, then by the length, then by the text. -/
def decodeParam [Scalars F] (bits : FloatBits F) (bytes : Option Bytes) (format typeOid : ℤ) :
    Value F :=
  match bytes with
  | none => .null
  | some b =>
    if format = 0 then .fromBytes (some b)
    else if typeOid = 20 ∧ b.length = 8 then .int (peekInt 8 b)
    else if typeOid = 23 ∧ b.length = 4 then .int (peekInt 4 b)
    else if typeOid = 21 ∧ b.length = 2 then .int (peekInt 2 b)
    else if typeOid = 701 ∧ b.length = 8 then .float (bits.float8 b)
    else if typeOid = 700 ∧ b.length = 4 then .float (bits.float4 b)
    else if typeOid = 16 ∧ b.length = 1 then .bool (b ≠ [0])
    else if typeOid = 25 ∧ validUtf8 b then .text b
    else match b.length with
      | 1 => .bool (b ≠ [0])
      | 4 => .int (peekInt 4 b)
      | 8 => .int (peekInt 8 b)
      | _ => .fromBytes (some b)

/-- A parameter without a format is text, one without a type has none. -/
def decodeParams [Scalars F] (bits : FloatBits F) (params : List (Option Bytes))
    (formats types : List ℤ) :
    List (Value F) :=
  params.mapIdx fun i bytes => decodeParam bits bytes (formats.getD i 0) (types.getD i 0)

structure Parser (F δ : Type) where
  parse : Bytes → Except Bytes (Command F δ)
  parseAll : Bytes → Except Bytes (List (Command F δ))
  maxParamIndex : Command F δ → ℕ

structure PreparedStmt (F δ : Type) where
  stmt : Command F δ
  paramTypes : List ℤ

structure Portal (F δ : Type) where
  stmt : Command F δ
  params : List (Value F)
  resultFormats : List ℤ

/-- The failed state is never reported. -/
inductive TransactionStatus where
  | idle
  | inTransaction
  deriving DecidableEq

inductive BackendMessage where
  | parseComplete
  | bindComplete
  | closeComplete
  | parameterDescription (types : List ℤ)
  | rowDescription (fields : List (FieldDescription × ℤ))
  | noData
  | dataRow (cells : Row)
  | commandComplete (tag : Bytes)
  | portalSuspended
  | emptyQueryResponse
  | errorResponse (code message : Bytes)
  | readyForQuery (status : TransactionStatus)
  | copyInResponse (columns : ℕ)
  | copyOutResponse (columns : ℕ)
  | copyData (data : Bytes)
  | copyDone
  deriving DecidableEq

def BackendMessage.isError : BackendMessage → Bool
  | .errorResponse _ _ => true
  | _ => false

/-- COPY from the client: what came of a line that is not complete, the rows so far, and why the
rest is left out. -/
structure Copying where
  table : String
  schema : TableSchema
  target : List ℕ
  buf : Bytes
  rowCount : ℕ
  failed : Option Bytes

/-- `aborted`: a statement of the batch failed; `answered`: COPY has answered for all of it. -/
inductive Mode where
  | ready
  | aborted
  | answered
  | copying (c : Copying)
  | closed

/-- `skipping`: there was an error since the last Sync; `failed`: there was one in the open
transaction. The loop has neither. -/
structure Session (F ρ δ : Type) where
  world : World ρ
  prepared : Bytes → Option (PreparedStmt F δ)
  portals : Bytes → Option (Portal F δ)
  mode : Mode
  skipping : Bool
  failed : Bool

abbrev Served (F ρ δ : Type) := Session F ρ δ × List BackendMessage

def statusOf (w : World ρ) : TransactionStatus := if w.txn.isSome then .inTransaction else .idle

structure Server (F ρ δ : Type) where
  db : WriteDb (M ρ) F Unit
  ops : Operations ρ δ
  depth : ℕ
  actor : Actor
  parser : Parser F δ
  floats : FloatBytes
  bits : FloatBits F
  administerTag : δ → Bytes

section Serving

variable [Scalars F] (srv : Server F ρ δ)

def sqlstate : Outcome → Bytes
  | .denied _ => utf8 "42501"
  | _ => utf8 "42601"

def outcomeText : Outcome → Bytes
  | .denied text => text
  | .failed e => e.message
  | .done _ => []

def refuse (s : Session F ρ δ) (code message : Bytes) :
    Served F ρ δ := (s, [.errorResponse code message])

def conclude (s : Session F ρ δ) (mode : Mode) (answers : Reply → List BackendMessage) :
    Outcome × World ρ → Served F ρ δ
  | (.done reply, w) => ({ s with world := w }, answers reply)
  | (.failed .panic, w) => ({ s with world := w, mode := .closed }, [])
  | (outcome, w) => refuse { s with world := w, mode } (sqlstate outcome) (outcomeText outcome)

def asText (fields : List FieldDescription) : List (FieldDescription × ℤ) :=
  fields.map fun f => (f, 0)

def replyCount : Reply → ℕ
  | .result r => r.rows.length
  | .rows n => n
  | .lines ls => ls.length
  | .done => 0

def counted (kind : String) (n : ℕ) : Bytes := utf8 kind ++ printNat n

def sessionTag (reply : Reply) : Stmt F → Bytes
  | .select _ => counted "SELECT " (replyCount reply)
  | .insert _ => counted "INSERT 0 " (replyCount reply)
  | .delete _ => counted "DELETE " (replyCount reply)
  | .update _ => counted "UPDATE " (replyCount reply)
  | .copyIn _ _ | .copyOut _ => counted "COPY " (replyCount reply)
  | .declareCursor _ _ => utf8 "DECLARE CURSOR"
  | .fetch _ _ => counted "FETCH " (replyCount reply)
  | .begin => utf8 "BEGIN"
  | .commit => utf8 "COMMIT"
  | .rollback => utf8 "ROLLBACK"

def schemaTag (reply : Reply) : SchemaKind → Bytes
  | .createTable => utf8 "CREATE TABLE"
  | .createIndex => utf8 "CREATE INDEX"
  | .createFunction => utf8 "CREATE FUNCTION"
  | .createSequence => utf8 "CREATE SEQUENCE"
  | .createTopic => utf8 "CREATE TOPIC"
  | .alterTable => utf8 "ALTER TABLE"
  | .analyze => counted "ANALYZE " (replyCount reply)
  | .dropTable => utf8 "DROP TABLE"
  | .dropIndex => utf8 "DROP INDEX"

def commandTag (c : Command F δ) (reply : Reply) : Bytes :=
  match c with
  | .session stmt => sessionTag reply stmt
  | .schema stmt => schemaTag reply stmt.kind
  | .administer detail => srv.administerTag detail
  | .match_ _ => counted "MATCH " (replyCount reply)
  | .moveCursor _ _ => counted "MOVE " (replyCount reply)
  | .closeCursor _ => utf8 "CLOSE CURSOR"
  | .set _ => utf8 "SET"
  | .show_ _ => utf8 "SHOW"
  | .notify _ => utf8 "NOTIFY"
  | .listen _ => utf8 "LISTEN"
  | .unlisten _ => utf8 "UNLISTEN"

def simpleAnswers (c : Command F δ) (reply : Reply) : List BackendMessage :=
  match reply with
  | .result r => .rowDescription (asText r.fields) :: r.rows.map .dataRow ++
      [.commandComplete (commandTag srv c reply)]
  | _ =>
    if isControl c then [.commandComplete (commandTag srv c reply)]
    else [.rowDescription [], .commandComplete (commandTag srv c reply)]

def copyAbort (s : Session F ρ δ) (w : World ρ) (message : Bytes) : Served F ρ δ :=
  ({ s with world := w, mode := .answered },
    [.errorResponse (utf8 "42P01") message, .readyForQuery .idle])

def copyColumns (db : WriteDb (M ρ) F Unit) (stmt : CopyStmt) : M ρ (TableSchema × List ℕ) := do
  match ← db.getTable stmt.table with
  | none => throw (.other (utf8 ("table \"" ++ stmt.table ++ "\" does not exist")))
  | some schema => do
    let target ← ofResult (targetColumns schema stmt.columns)
    pure (schema, target)

def handleCopyIn (s : Session F ρ δ) (stmt : CopyStmt) : Served F ρ δ :=
  match (copyColumns srv.db stmt).run.run s.world with
  | (.error .panic, w) => ({ s with world := w, mode := .closed }, [])
  | (.error e, w) => copyAbort s w e.message
  | (.ok (schema, target), w) =>
    ({ s with world := w, mode := .copying ⟨stmt.table, schema, target, [], 0, none⟩ },
      [.copyInResponse target.length])

def handleCopyOut (s : Session F ρ δ) (stmt : CopyStmt) : Served F ρ δ :=
  let rows : M ρ (ℕ × List Row) := do
    let (_, target) ← copyColumns srv.db stmt
    let rows ← scanForCopy srv.db stmt.table target
    pure (target.length, rows)
  match rows.run.run s.world with
  | (.error .panic, w) => ({ s with world := w, mode := .closed }, [])
  | (.error e, w) => copyAbort s w e.message
  | (.ok (columns, rows), w) =>
    ({ s with world := w, mode := .answered },
      .copyOutResponse columns :: rows.map (fun row => .copyData (encodeCopyLine row)) ++
        [.copyDone, .commandComplete (counted "COPY " rows.length), .readyForQuery .idle])

def serveStatement (s : Session F ρ δ) (c : Command F δ) : Served F ρ δ :=
  match c with
  | .session (.copyIn stmt _) => handleCopyIn srv s stmt
  | .session (.copyOut stmt) => handleCopyOut srv s stmt
  | c =>
    conclude s .aborted (simpleAnswers srv c)
      (handleSimple srv.db srv.ops srv.depth srv.actor c s.world)

/-- A line is written at once and stays, whatever comes after it. -/
def copyLine (line : Bytes) (c : Copying) (w : World ρ) : Option Copying × World ρ :=
  if c.failed.isSome then (some c, w)
  else match (insertCopyLine srv.db c.table c.schema c.target (fromUtf8Lossy line)).run.run w with
    | (.ok (), w) => (some { c with rowCount := c.rowCount + 1 }, w)
    | (.error .panic, w) => (none, w)
    | (.error e, w) => (some { c with failed := some e.message }, w)

def copyAll : List Bytes → Copying → World ρ → Option Copying × World ρ
  | [], c, w => (some c, w)
  | line :: lines, c, w =>
    match copyLine srv line c w with
    | (none, w) => (none, w)
    | (some c, w) => copyAll lines c w

def endCopy (s : Session F ρ δ) (rowCount : ℕ) : Option Bytes → Served F ρ δ
  | some message => ({ s with mode := .ready },
      [.errorResponse (utf8 "22P04") message, .readyForQuery .idle])
  | none =>
    ({ s with mode := .ready },
      [.commandComplete (counted "COPY " rowCount), .readyForQuery .idle])

/-- Messages of other kinds are passed over. -/
def serveCopy (s : Session F ρ δ) (c : Copying) : FrontendMessage → Served F ρ δ
  | .copyData data =>
    let parts := (c.buf ++ data).splitOn 10
    match copyAll srv parts.dropLast c s.world with
    | (none, w) => ({ s with world := w, mode := .closed }, [])
    | (some c, w) =>
      ({ s with world := w, mode := .copying { c with buf := parts.getLastD [] } }, [])
  | .copyDone => endCopy s c.rowCount c.failed
  | .copyFail message => endCopy s c.rowCount (some (utf8 "COPY aborted by client: " ++ message))
  | _ => (s, [])

def describe (s : Session F ρ δ) (c : Command F δ) (requested : List ℤ) : Served F ρ δ :=
  match c with
  | .session (.select query) =>
    match (describeSelect srv.db.toDb (executeSelect srv.db.toDb srv.depth) query).run.run
      s.world with
    | (.error .panic, w) => ({ s with world := w, mode := .closed }, [])
    | (.error _, w) => ({ s with world := w }, [.noData])
    | (.ok fields, w) =>
      ({ s with world := w }, [match describedAs requested fields with
        | .rowDescription fields => .rowDescription fields
        | _ => .noData])
  | _ => (s, [.noData])

def parameterTypes (p : PreparedStmt F δ) : List ℤ :=
  (List.range (max (srv.parser.maxParamIndex p.stmt) p.paramTypes.length)).map fun i =>
    let type := p.paramTypes.getD i 0
    if type = 0 then 25 else type

def missing (kind : String) (name : Bytes) : Bytes :=
  utf8 (kind ++ " \"") ++ name ++ utf8 "\" does not exist"

def portalAnswers (p : Portal F δ) (maxRows : ℤ) (reply : Reply) : List BackendMessage :=
  match reply with
  | .result r =>
    let oids := FieldDescription.oids r.fields
    let formats := resolveResultFormats p.resultFormats oids
    let rows := r.rows.map fun row => encodeResultRow srv.floats row oids formats
    if 0 < maxRows ∧ maxRows.toNat < rows.length then
      (rows.take maxRows.toNat).map .dataRow ++ [.portalSuspended]
    else rows.map .dataRow ++ [.commandComplete (commandTag srv p.stmt reply)]
  | _ => [.commandComplete (commandTag srv p.stmt reply)]

/-- The statement runs anew each time. -/
def serveExecute (s : Session F ρ δ) (portal : Bytes) (maxRows : ℤ) : Served F ρ δ :=
  match s.portals portal with
  | none => refuse s (utf8 "34000") (missing "portal" portal)
  | some p =>
    conclude s s.mode (portalAnswers srv p maxRows)
      (handleExecute srv.db srv.ops srv.depth srv.actor p.params p.stmt s.world)

def serveMessage (s : Session F ρ δ) : FrontendMessage → Served F ρ δ
  | .parse name query paramTypes =>
    match srv.parser.parse query with
    | .ok stmt =>
      ({ s with prepared := Function.update s.prepared name (some ⟨stmt, paramTypes⟩) },
        [.parseComplete])
    | .error message => refuse s (utf8 "42601") message
  | .bind portal stmt params paramFormats resultFormats =>
    match s.prepared stmt with
    | some p =>
      let values := decodeParams srv.bits params paramFormats p.paramTypes
      let portals := Function.update s.portals portal (some ⟨p.stmt, values, resultFormats⟩)
      ({ s with portals }, [.bindComplete])
    | none => refuse s (utf8 "26000") (missing "prepared statement" stmt)
  | .describe kind name =>
    if kind = 83 then
      match s.prepared name with
      | some p =>
        let (s, answers) := describe srv s p.stmt []
        (s, .parameterDescription (parameterTypes srv p) :: answers)
      | none => refuse s (utf8 "26000") (missing "prepared statement" name)
    else
      match s.portals name with
      | some p => describe srv s p.stmt p.resultFormats
      | none => refuse s (utf8 "34000") (missing "portal" name)
  | .execute portal maxRows => serveExecute srv s portal maxRows
  | .close kind name =>
    (if kind = 83 then { s with prepared := Function.update s.prepared name none }
      else { s with portals := Function.update s.portals name none }, [.closeComplete])
  | .sync => (s, [.readyForQuery (statusOf s.world)])
  | .terminate => ({ s with mode := .closed }, [])
  | _ => (s, [])

inductive Step (F δ : Type) where
  | statement (c : Command F δ)
  | endOfBatch
  | emptyQuery
  | parseError (message : Bytes)
  | message (m : FrontendMessage)

def steps : FrontendMessage → List (Step F δ)
  | .query sql =>
    if trim sql = [] then [.emptyQuery]
    else match srv.parser.parseAll (trim sql) with
      | .error message => [.parseError message]
      | .ok [] => [.emptyQuery]
      | .ok cs => cs.map .statement ++ [.endOfBatch]
  | m => [.message m]

def respondTo (s : Session F ρ δ) (step : Step F δ) : Served F ρ δ :=
  match s.mode, step with
  | .closed, _ => (s, [])
  | .copying c, .message m => serveCopy srv s c m
  | .copying _, _ => (s, [])
  | .aborted, .statement _ => (s, [])
  | .answered, .statement _ => (s, [])
  | _, .statement c => serveStatement srv s c
  | .answered, .endOfBatch => ({ s with mode := .ready }, [])
  | _, .endOfBatch => ({ s with mode := .ready }, [.readyForQuery (statusOf s.world)])
  | _, .emptyQuery => (s, [.emptyQueryResponse, .readyForQuery .idle])
  | _, .parseError message => (s, [.errorResponse (utf8 "42601") message, .readyForQuery .idle])
  | _, .message m => serveMessage srv s m

def isSync : Step F δ → Bool
  | .message .sync => true
  | _ => false

def isFlush : Step F δ → Bool
  | .message .flush => true
  | _ => false

def answers (s : Session F ρ δ) (step : Step F δ) : List BackendMessage :=
  (respondTo srv s step).2

def next (s : Session F ρ δ) (step : Step F δ) : Session F ρ δ :=
  let (s', sent) := respondTo srv s step
  { s' with
    skipping := !isSync step && (s.skipping || sent.any BackendMessage.isError)
    failed := s'.world.txn.isSome && (s.failed || sent.any BackendMessage.isError) }

def answersAll : Session F ρ δ → List (Step F δ) → List BackendMessage
  | _, [] => []
  | s, step :: rest =>
    answers srv s step ++
      answersAll (next srv s step) rest

def isExtended : FrontendMessage → Bool
  | .parse _ _ _ | .bind _ _ _ _ _ | .describe _ _ | .execute _ _ | .close _ _ | .flush | .sync =>
    true
  | _ => false

def BackendMessage.isReady : BackendMessage → Bool
  | .readyForQuery _ => true
  | _ => false

def Mode.isClosed : Mode → Bool
  | .closed => true
  | _ => false

/-- Up to the next Sync the step does nothing and gets no answer. -/
def Skips (s : Session F ρ δ) (step : Step F δ) : Prop :=
  s.skipping = true → isSync step = false →
    let s' := next srv s step
    answers srv s step = [] ∧ s'.world = s.world ∧ s'.prepared = s.prepared ∧
      s'.portals = s.portals ∧
      s'.mode = s.mode

/-- After an error the client sends nothing but Flush until it sends Sync. -/
def Waits (s : Session F ρ δ) (step : Step F δ) : Prop :=
  s.skipping = true → s.mode.isClosed || isSync step || isFlush step

def ReadyOnSync (s : Session F ρ δ) (step : Step F δ) : Prop :=
  s.mode.isClosed = false →
    (answers srv s step).countP BackendMessage.isReady = if isSync step then 1 else 0

structure Plain (answers : List BackendMessage) : Prop where
  errors : answers.countP BackendMessage.isError ≤ 1
  ready : answers.countP BackendMessage.isReady = 0

variable {srv}

def Answered (s : Session F ρ δ) (served : Served F ρ δ) : Prop :=
  Plain served.2 ∧ (served.1.mode = .closed ∨ served.1.mode = s.mode ∧ served.2 ≠ [])

omit [Scalars F] in
theorem answered_refuse : Answered s (refuse s code message) :=
  ⟨⟨le_refl _, rfl⟩, .inr ⟨rfl, by simp [refuse]⟩⟩

omit [Scalars F] in
theorem answered_conclude {answers : Reply → List BackendMessage}
    (hanswers : ∀ reply, Plain (answers reply) ∧ answers reply ≠ []) :
    Answered s (conclude s s.mode answers o) := by
  unfold conclude
  split
  · exact ⟨(hanswers _).1, .inr ⟨rfl, (hanswers _).2⟩⟩
  · exact ⟨⟨Nat.zero_le _, rfl⟩, .inl rfl⟩
  · exact ⟨⟨le_refl _, rfl⟩, .inr ⟨rfl, by simp [refuse]⟩⟩

omit [Scalars F] in
theorem conclude_fst (s : Session F ρ δ) (mode : Mode) (answers : Reply → List BackendMessage)
    (o : Outcome × World ρ) :
    let s' := (conclude s mode answers o).1
    s'.world = o.2 ∧ s'.portals = s.portals ∧
      (s'.mode = .closed ∨ s'.mode = s.mode ∨ s'.mode = mode) := by
  obtain ⟨outcome, w⟩ := o
  cases outcome with
  | done reply => exact ⟨rfl, rfl, .inr (.inl rfl)⟩
  | denied text => exact ⟨rfl, rfl, .inr (.inr rfl)⟩
  | failed e =>
    cases e with
    | panic => exact ⟨rfl, rfl, .inl rfl⟩
    | _ => exact ⟨rfl, rfl, .inr (.inr rfl)⟩

theorem plain_rows (rows : List Row) (herror : last.isError = false)
    (hready : last.isReady = false) : Plain (rows.map .dataRow ++ [last]) := by
  have hnone p (hp : ∀ row, p (.dataRow row) = false) (hlast : p last = false) :
      (rows.map BackendMessage.dataRow ++ [last]).countP p = 0 := by
    rw [countP_eq_zero]
    intro m hm
    rcases mem_append.1 hm with hm | hm
    · obtain ⟨row, -, rfl⟩ := mem_map.1 hm
      simp [hp]
    · rw [mem_singleton.1 hm, hlast]
      exact Bool.false_ne_true
  exact ⟨(hnone _ (fun _ => rfl) herror).le.trans (by omega), hnone _ (fun _ => rfl) hready⟩

omit [Scalars F] in
theorem plain_portalAnswers (reply : Reply) :
    Plain (portalAnswers srv p maxRows reply) ∧ portalAnswers srv p maxRows reply ≠ [] := by
  unfold portalAnswers
  split
  · dsimp only
    split
    · exact ⟨plain_rows _ rfl rfl, by simp⟩
    · exact ⟨plain_rows _ rfl rfl, by simp⟩
  · exact ⟨⟨Nat.zero_le _, rfl⟩, by simp⟩

variable (srv)

theorem answered_describe : Answered s (describe srv s c requested) := by
  unfold describe
  split
  · split
    · exact ⟨⟨Nat.zero_le _, rfl⟩, .inl rfl⟩
    · exact ⟨⟨Nat.zero_le _, rfl⟩, .inr ⟨rfl, by simp⟩⟩
    · refine ⟨?_, .inr ⟨rfl, by simp⟩⟩
      split
      · exact ⟨Nat.zero_le _, rfl⟩
      · exact ⟨Nat.zero_le _, rfl⟩
  · exact ⟨⟨Nat.zero_le _, rfl⟩, .inr ⟨rfl, by simp⟩⟩

/-- Every message but Sync and Flush is answered, or ends the connection. -/
theorem answered_serveMessage (hm : isExtended m = true)
    (hsync : m ≠ .sync) (hflush : m ≠ .flush) : Answered s (serveMessage srv s m) := by
  cases m with
  | parse name query paramTypes | bind portal stmt params paramFormats resultFormats =>
    unfold serveMessage
    dsimp only
    split
    · exact ⟨⟨Nat.zero_le _, rfl⟩, .inr ⟨rfl, by simp⟩⟩
    · exact answered_refuse
  | describe kind name =>
    unfold serveMessage
    dsimp only
    split
    · split
      · rename_i p hp
        obtain ⟨hplain, hmode⟩ := answered_describe srv
        refine ⟨⟨?_, ?_⟩, hmode.imp_right fun h => ⟨h.1, by simp⟩⟩
        · exact hplain.errors
        · exact hplain.ready
      · exact answered_refuse
    · split
      · exact answered_describe srv
      · exact answered_refuse
  | execute portal maxRows =>
    show Answered s (serveExecute srv s portal maxRows)
    unfold serveExecute
    split
    · exact answered_refuse
    · exact answered_conclude plain_portalAnswers
  | close kind name =>
    unfold serveMessage
    dsimp only
    refine ⟨⟨Nat.zero_le _, rfl⟩, .inr ⟨?_, by simp⟩⟩
    split <;> rfl
  | sync => exact absurd rfl hsync
  | flush => exact absurd rfl hflush
  | query | terminate | copyData | copyDone | copyFail | passwordData => cases hm

def AtLoop (s : Session F ρ δ) : Prop := s.mode = .ready ∨ s.mode = .closed

def IsPipelined (step : Step F δ) : Prop := ∃ m, step = .message m ∧ isExtended m = true

omit [Scalars F] in
theorem isPipelined_map {ms : List FrontendMessage} (hms : ∀ m ∈ ms, isExtended m = true) :
    ∀ step ∈ ms.map (Step.message (F := F) (δ := δ)), IsPipelined step := by
  intro step hstep
  obtain ⟨m, hm, rfl⟩ := mem_map.1 hstep
  exact ⟨m, rfl, hms m hm⟩

omit [Scalars F] in
theorem isSync_map {ms : List FrontendMessage} (hms : .sync ∉ ms) :
    ∀ step ∈ ms.map (Step.message (F := F) (δ := δ)), isSync step = false := by
  intro step hstep
  obtain ⟨m, hm, rfl⟩ := mem_map.1 hstep
  cases m with
  | sync => exact absurd hm hms
  | _ => rfl

variable {s : Session F ρ δ}

theorem respondTo_closed (h : s.mode = .closed) (step : Step F δ) :
    respondTo srv s step = (s, []) := by
  unfold respondTo
  rw [h]

theorem respondTo_ready (h : s.mode = .ready) :
    respondTo srv s (.message m) = serveMessage srv s m := by
  unfold respondTo
  rw [h]

theorem atLoop_next (s : Session F ρ δ) (step : Step F δ) (hstep : IsPipelined step)
    (h : AtLoop s) :
    AtLoop (next srv s step) := by
  obtain ⟨m, rfl, hm⟩ := hstep
  show AtLoop (respondTo srv s (.message m)).1
  rcases h with h | h
  · rw [respondTo_ready srv h]
    by_cases hsync : m = .sync
    · subst hsync
      exact .inl h
    by_cases hflush : m = .flush
    · subst hflush
      exact .inl h
    obtain ⟨-, hclosed | ⟨hmode, -⟩⟩ := answered_serveMessage srv hm hsync hflush
    · exact .inr hclosed
    · exact .inl (hmode.trans h)
  · rw [respondTo_closed srv h]
    exact .inr h

/-- A message between an error and the next Sync is skipped if and only if it is Flush. -/
theorem skips_iff_waits (s : Session F ρ δ) (step : Step F δ) (hstep : IsPipelined step)
    (h : AtLoop s) :
    Skips srv s step ↔ Waits s step := by
  obtain ⟨m, rfl, hm⟩ := hstep
  refine imp_congr_right fun _ => ?_
  rcases h with h | h
  · have hopen : s.mode.isClosed = false := by rw [h]; rfl
    by_cases hsync : m = .sync
    · subst hsync
      simp [isSync]
    by_cases hflush : m = .flush
    · subst hflush
      simp only [isFlush]
      simp [answers, next, respondTo_ready srv h, serveMessage]
    · have hother : isSync (.message m : Step F δ) = false ∧
        isFlush (.message m : Step F δ) = false := by
        cases m with
        | sync => exact absurd rfl hsync
        | flush => exact absurd rfl hflush
        | _ => exact ⟨rfl, rfl⟩
      obtain ⟨-, hanswered⟩ := answered_serveMessage srv hm hsync hflush
      simp only [hother, hopen, Bool.or_self, Bool.false_eq_true, iff_false, true_imp_iff]
      rintro ⟨hsilent, -, -, -, hmode⟩
      simp only [answers, next, respondTo_ready srv h] at hsilent hmode
      rcases hanswered with hclosed | ⟨-, hspoken⟩
      · rw [hclosed, h] at hmode
        cases hmode
      · exact hspoken hsilent
  · have hover : s.mode.isClosed = true := by rw [h]; rfl
    simp only [hover]
    simp [answers, next, respondTo_closed srv h]

theorem readyOnSync (hstep : IsPipelined step) (h : AtLoop s) : ReadyOnSync srv s step := by
  obtain ⟨m, rfl, hm⟩ := hstep
  intro hopen
  rcases h with h | h
  · rw [answers, respondTo_ready srv h]
    cases m with
    | sync | flush => rfl
    | parse | bind | describe | execute | close =>
      exact (answered_serveMessage srv hm (by simp) (by simp)).1.ready
    | query | terminate | copyData | copyDone | copyFail | passwordData => cases hm
  · rw [h] at hopen
    cases hopen

theorem countP_answers (hstep : IsPipelined step) (h : AtLoop s) :
    (answers srv s step).countP BackendMessage.isError ≤ 1 := by
  obtain ⟨m, rfl, hm⟩ := hstep
  rcases h with h | h
  · rw [answers, respondTo_ready srv h]
    cases m with
    | sync | flush => exact Nat.zero_le _
    | parse | bind | describe | execute | close =>
      exact (answered_serveMessage srv hm (by simp) (by simp)).1.errors
    | query | terminate | copyData | copyDone | copyFail | passwordData => cases hm
  · rw [answers, respondTo_closed srv h]
    exact Nat.zero_le _

/-- Between two Syncs a client that waits gets one error at most. -/
theorem countP_answersAll (hall : ∀ step ∈ pipeline, IsPipelined step)
    (hsync : ∀ step ∈ pipeline, isSync step = false) (h : AtLoop s)
    (hwaits : Along (next srv) Waits s pipeline) :
    (answersAll srv s pipeline).countP BackendMessage.isError ≤ if s.skipping then 0 else 1 := by
  induction pipeline generalizing s with
  | nil => exact Nat.zero_le _
  | cons step rest ih =>
    simp only [forall_mem_cons] at hall hsync
    have hrest := ih hall.2 hsync.2 (atLoop_next srv s step hall.1 h) hwaits.2
    have hfirst := countP_answers srv hall.1 h
    rw [answersAll, countP_append]
    have hskips := (skips_iff_waits srv s step hall.1 h).2 hwaits.1
    have hghost : (next srv s step).skipping =
        (s.skipping || (answers srv s step).any BackendMessage.isError) := by
      simp [next, hsync.1, answers]
    cases hskip : s.skipping with
    | true =>
      rw [(hskips hskip hsync.1).1]
      simpa [hghost, hskip] using hrest
    | false =>
      rw [hghost, hskip, Bool.false_or] at hrest
      by_cases herror : (answers srv s step).any BackendMessage.isError = true
      · rw [herror] at hrest
        simp only [if_true] at hrest
        simp only [Bool.false_eq_true, if_false]
        omega
      · have hnone : (answers srv s step).countP BackendMessage.isError = 0 := by
          rw [countP_eq_zero]
          intro m hmem hm
          exact herror (any_eq_true.2 ⟨m, hmem, hm⟩)
        simp only [herror] at hrest ⊢
        omega

/-- After an error everything is skipped until Sync if and only if the client sends nothing but
Flush until then; each Sync is answered with one ReadyForQuery, which nothing else is; and a client
that waits gets one error at most for what it sends without a Sync. -/
theorem skipped_iff_client_waits (s : Session F ρ δ) (hmode : s.mode = .ready)
    (ms : List FrontendMessage) (hms : ∀ m ∈ ms, isExtended m = true) :
    (Along (next srv) (Skips srv) s (ms.map .message) ↔
      Along (next srv) Waits s (ms.map .message)) ∧
    Along (next srv) (ReadyOnSync srv) s (ms.map .message) ∧
    (Along (next srv) Waits s (ms.map .message) →
      ∀ before segment after, ms = before ++ segment ++ after → .sync ∉ segment →
        (answersAll srv (run (next srv) s (before.map .message)) (segment.map .message)).countP
          BackendMessage.isError ≤ 1) := by
  have hloop : AtLoop s := .inl hmode
  have hall := isPipelined_map (F := F) (δ := δ) hms
  refine ⟨along_congr (atLoop_next srv) (skips_iff_waits srv) hall hloop, ?_, ?_⟩
  · refine (along_congr (Q := fun _ _ => True) (atLoop_next srv) ?_ hall hloop).2
      (along_of_forall (by simp))
    exact fun s step hstep h => iff_true_intro (readyOnSync srv hstep h)
  · rintro hwaits before segment after rfl hsync
    have hbefore : ∀ m ∈ before, isExtended m = true := fun m hm => hms m (by simp [hm])
    have hsegment : ∀ m ∈ segment, isExtended m = true := fun m hm => hms m (by simp [hm])
    have hreached : AtLoop (run (next srv) s (before.map Step.message)) :=
      (along_of_forall (isPipelined_map hbefore)).invariant
        (fun s step h hstep => atLoop_next srv s step hstep h) hloop
    rw [map_append, map_append, along_append, along_append] at hwaits
    have hcount := countP_answersAll srv (isPipelined_map hsegment)
      (isSync_map hsync) hreached hwaits.1.2
    refine hcount.trans ?_
    split
    · exact Nat.zero_le _
    · exact le_refl _

end Serving

def scripted (texts : List (String × Command Unit TableSchema)) : Parser Unit TableSchema where
  parse sql :=
    match texts.find? fun t => utf8 t.1 = sql with
    | some (_, c) => .ok c
    | none => .error (utf8 "syntax error")
  parseAll sql :=
    match texts.find? fun t => utf8 t.1 = sql with
    | some (_, c) => .ok [c]
    | none => .error (utf8 "syntax error")
  maxParamIndex _ := 0

def serving (texts : List (String × Command Unit TableSchema)) : Server Unit Unit TableSchema :=
  ⟨tableDb, createTables, 3, unrestrictedActor, scripted texts, noFloats,
    ⟨fun _ => (), fun _ => ()⟩, fun _ => utf8 "GRANT"⟩

def starting (w : World Unit) : Session Unit Unit TableSchema :=
  ⟨w, fun _ => none, fun _ => none, .ready, false, false⟩

def deleting : Server Unit Unit TableSchema := serving [("DELETE FROM t", deleteAll)]

def parseAndBind (sql : String) : List FrontendMessage :=
  [.parse [] (utf8 sql) [], .bind [] [] [] [] []]

/-- A statement that does not parse, a Flush and the Sync the client waits for. -/
theorem skipped_iff_client_waits_flush :
    let ms := parseAndBind "DELETE FROM t" ++ [.sync, .parse [] (utf8 "DELETE FRM t") [],
      .flush, .sync]
    let s := starting (granted [])
    Along (next deleting) Waits s (ms.map .message) ∧
      Along (next deleting) (Skips deleting) s (ms.map .message) ∧
      Along (next deleting) (ReadyOnSync deleting) s (ms.map .message) ∧
      answersAll deleting s (ms.map .message) =
        [.parseComplete, .bindComplete, .readyForQuery .idle,
          .errorResponse (utf8 "42601") (utf8 "syntax error"),
          .readyForQuery .idle] := by
  intro ms s
  have hwaits : Along (next deleting) Waits s (ms.map .message) := by
    unfold Waits
    decide +kernel
  have h := skipped_iff_client_waits deleting s rfl ms (by decide)
  exact ⟨hwaits, h.1.2 hwaits, h.2.1, by decide +kernel⟩

/-- The statement behind a pipelined Parse does not parse; Execute then runs the portal of the one
before, which is unnamed too, and the Bind after that gives a second error before the Sync. -/
theorem stale_portal_runs_after_error :
    let s := run (next deleting) (starting (granted []))
      ((parseAndBind "DELETE FROM t" ++ [FrontendMessage.sync]).map .message)
    let ms : List FrontendMessage :=
      [.parse [] (utf8 "DELETE FRM t") [], .execute [] 0, .bind [] (utf8 "missing") [] [] [], .sync]
    let s' := run (next deleting) s (ms.map .message)
    answersAll deleting s (ms.map .message) =
        [.errorResponse (utf8 "42601") (utf8 "syntax error"), .commandComplete (utf8 "DELETE 1"),
          .errorResponse (utf8 "26000") (utf8 "prepared statement \"missing\" does not exist"),
          .readyForQuery .idle] ∧
      (rowsOf s.world.latest "t" none).map Prod.fst = [utf8 "1"] ∧
      rowsOf s'.world.latest "t" none = [] ∧
      ¬ Along (next deleting) (Skips deleting) s (ms.map .message) := by
  refine ⟨by decide +kernel, by decide +kernel, by decide +kernel, fun hskips => ?_⟩
  have hsilent := (hskips.2.1 (by decide +kernel) rfl).1
  exact absurd hsilent (by decide +kernel)

end WireExtended
