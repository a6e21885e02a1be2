import Keystone.ExecutorRbac
import Keystone.GuardedRuns
import Keystone.WireSessionRows

/-! # A connection with a role

Statements come in batches over the simple protocol, or one by one over the extended one. Most are
checked before they run; COPY, the end of a transaction, cursors that are open and LISTEN are
not. -/
namespace WireSessionRbac

open DecimalText EffectPredicates ExecutorDml ExecutorDmlEffects ExecutorEffects ExecutorEval
  ExecutorRbac ExecutorSelect ExecutorValue GuardedRuns List SqlAst StorageInternalKey WireSession
  WireSessionReads WireSessionRows

variable {F ρ δ : Type}

structure Operations (ρ δ : Type) where
  schema : SchemaStmt δ → M ρ Reply
  administer : δ → M ρ Reply
  match_ : MatchStmt δ → M ρ Reply

def missingCursor (name : String) : EvalError :=
  .other (utf8 ("cursor \"" ++ name ++ "\" does not exist"))

def moveCursor (name : String) (count : FetchCount) : M ρ Reply := fun w =>
  match w.cursors.lookup name with
  | none => (.error (missingCursor name), w)
  | some c =>
    let stop := min (c.pos + fetchCount c count) c.result.rows.length
    (.ok (.rows (stop - c.pos)), { w with cursors := (name, { c with pos := stop }) :: w.cursors })

def closeCursor (name : String) : M ρ Reply := fun w =>
  match w.cursors.lookup name with
  | none => (.error (missingCursor name), w)
  | some _ => (.ok .done, { w with cursors := w.cursors.filter (·.1 ≠ name) })

inductive Outcome where
  | denied (text : Bytes)
  | failed (e : EvalError)
  | done (reply : Reply)
  deriving DecidableEq

def respond (x : M ρ Reply) (w : World ρ) : Outcome × World ρ :=
  match x.run.run w with
  | (.ok reply, w') => (.done reply, w')
  | (.error e, w') => (.failed e, w')

section Serving

variable [Scalars F] (db : WriteDb (M ρ) F Unit) (ops : Operations ρ δ) (depth : ℕ)

def executeParsedInner (params : List (Value F)) : Command F δ → M ρ Reply
  | .session (.copyIn _ _) | .session (.copyOut _) =>
    throw (.other (utf8 "COPY is only supported over the simple query protocol"))
  | .session (.declareCursor _ _) | .session (.fetch _ _) | .moveCursor _ _ | .closeCursor _ =>
    throw (.other (utf8 "cursor statements are only supported over the simple query protocol"))
  | .session stmt => execute db depth params stmt
  | .schema stmt => ops.schema stmt
  | .administer detail => ops.administer detail
  | .match_ stmt => ops.match_ stmt
  | .set _ | .notify _ => pure .done
  | .show_ name => pure (.result ⟨[⟨name, 25⟩], [[some []]]⟩)
  | .listen _ | .unlisten _ =>
    throw (.other (utf8 "LISTEN/UNLISTEN are only supported over the simple query protocol"))

variable (actor : Actor)

def executeParsedAs (params : List (Value F)) (c : Command F δ) (w : World ρ) : Outcome × World ρ :=
  match check w.latest actor c with
  | .error text => (.denied text, w)
  | .ok () => respond (executeParsedInner db ops depth params c) w

/-- A cursor is checked as the query it is for, which then runs without the transaction. -/
def executeSimple (c : Command F δ) (w : World ρ) : Outcome × World ρ :=
  match c with
  | .listen _ | .unlisten _ => (.done .done, w)
  | .session (.declareCursor name query) =>
    match check w.latest actor (.session (.select query) : Command F δ) with
    | .error text => (.denied text, w)
    | .ok () => respond (execute db depth [] (.declareCursor name query)) w
  | .session (.fetch name count) => respond (execute db depth [] (.fetch name count)) w
  | .moveCursor name count => respond (moveCursor name count) w
  | .closeCursor name => respond (closeCursor name) w
  | c => executeParsedAs db ops depth actor [] c w

def isCopy : Command F δ → Bool
  | .session (.copyIn _ _) | .session (.copyOut _) => true
  | _ => false

def isControl : Command F δ → Bool
  | .session .begin | .session .commit | .session .rollback => true
  | _ => false

def control (c : Command F δ) (w : World ρ) : Outcome × World ρ :=
  match c with
  | .session stmt => respond (execute db depth [] stmt) w
  | _ => (.done .done, w)

def handleSimple (c : Command F δ) (w : World ρ) : Outcome × World ρ :=
  if isCopy c || isControl c then control db depth c w else executeSimple db ops depth actor c w

def handleExecute (params : List (Value F)) (c : Command F δ) (w : World ρ) : Outcome × World ρ :=
  if isControl c then control db depth c w else executeParsedAs db ops depth actor params c w

/-- `suspended` says that rows were left; the last field is the state that is reported. -/
structure Answer where
  outcome : Outcome
  suspended : Bool
  inTransaction : Bool
  deriving DecidableEq

/-- `first` begins a batch. -/
inductive Request (F δ : Type) where
  | query (first : Bool) (command : Command F δ)
  | execute (command : Command F δ) (params : List (Value F)) (maxRows : ℕ)

def Request.command : Request F δ → Command F δ
  | .query _ command | .execute command _ _ => command

/-- `skipping`: the rest of the batch is left out, behind an error or a COPY. -/
structure Conn (ρ : Type) where
  world : World ρ
  skipping : Bool
  answers : List Answer

def Outcome.isDone : Outcome → Bool
  | .done _ => true
  | _ => false

def limitRows (maxRows : ℕ) : Outcome → Outcome × Bool
  | .done (.result r) =>
    if 0 < maxRows ∧ maxRows < r.rows.length then
      (.done (.result { r with rows := r.rows.take maxRows }), true)
    else (.done (.result r), false)
  | outcome => (outcome, false)

def serve (conn : Conn ρ) : Request F δ → Conn ρ
  | .query first c =>
    if conn.skipping && !first then conn
    else
      let (outcome, w) := handleSimple db ops depth actor c conn.world
      ⟨w, isCopy c || !outcome.isDone, conn.answers ++
        [⟨outcome, false, !isCopy c && w.txn.isSome⟩]⟩
  | .execute c params maxRows =>
    let (outcome, w) := handleExecute db ops depth actor params c conn.world
    let (outcome, suspended) := limitRows maxRows outcome
    ⟨w, conn.skipping, conn.answers ++ [⟨outcome, suspended, w.txn.isSome⟩]⟩

end Serving

def target : Command F δ → Option (Privilege × String)
  | .session (.insert stmt) => some (.insert, stmt.table)
  | .session (.update stmt) => some (.update, stmt.table)
  | .session (.delete stmt) => some (.delete, stmt.table)
  | .session (.copyIn stmt _) => some (.insert, stmt.table)
  | _ => none

/-- A change of a row of a user table by the command, whose own privilege the role holds. -/
structure Made (command : Command F δ) (tables : Tables) (role : Bytes) (c : Change) : Prop where
  user : isInternalTable c.table = false
  statement : ∃ privilege, target command = some (privilege, c.table) ∧
    Holds tables role privilege (.table (utf8 c.table)) ∧ (privilege = .delete ↔ c.value = none)

def InTables (e : Expr F) : Prop := ∀ q ∈ subqueries e, ∀ r, Reaches q r → IsTable r

/-- COPY into a table that the role may insert into; no statement over schemas, no MATCH and no
query that reaches a table function. -/
def Confined (db : WriteDb (M ρ) F Unit) (w : World ρ) (role : Bytes) : Command F δ → Prop
  | .session (.copyIn stmt _) =>
    isInternalTable stmt.table = false ∧ Holds w.latest role .insert (.table (utf8 stmt.table))
  | .session (.select query) => ∀ r, Reaches query r → IsTable r
  | .session (.declareCursor _ query) => ∀ r, Reaches query r → IsTable r
  | .session (.insert stmt) => (∀ values ∈ stmt.values, ∀ e ∈ values, InTables e) ∧
      ∀ schema, w.schemas stmt.table = some schema → ∀ col ∈ schema.columns, ∀ text ∈ col.default,
        ∀ e, db.parseExprText text = .ok e → InTables e
  | .session (.update stmt) => (∀ e ∈ stmt.where_, InTables e) ∧
      ∀ p ∈ stmt.assignments, InTables p.2
  | .session (.delete stmt) => ∀ e ∈ stmt.where_, InTables e
  | .schema _ => False
  | .match_ _ => False
  | _ => True

def stagedOf (w : World ρ) : List Change := (w.txn.map Txn.staged).getD []

/-- Between `base` and `w` only changes that satisfy `Q` were committed, or staged behind those that
were staged before. -/
structure Ruled (Q : Change → Prop) (base w : World ρ) : Prop where
  others : w.others = []
  schemas : w.schemas = base.schemas
  commits : ∃ more, w.commits = base.commits ++ more ∧ ∀ c ∈ more.flatten, Q c
  staged : ∀ t, w.txn = some t → ∃ new, t.staged = stagedOf base ++ new ∧ ∀ c ∈ new, Q c

/-- One request: its own changes, or a COMMIT of what was staged before. -/
def Stepped (Q : Change → Prop) (w w' : World ρ) : Prop :=
  Ruled Q w w' ∨ w'.others = [] ∧ w'.schemas = w.schemas ∧
    w'.commits = w.commits ++ [stagedOf w] ∧ w'.txn = none

section Ruled

variable {Q : Change → Prop} {base w w' : World ρ}

theorem Ruled.start (hothers : base.others = []) : Ruled Q base base :=
  ⟨hothers, rfl, ⟨[], by simp, by simp⟩, fun t ht => ⟨[], by simp [stagedOf, ht], by simp⟩⟩

theorem Ruled.same (h : Ruled Q base w) (hsame : Same w w') : Ruled Q base w' where
  others := hsame.others.trans h.others
  schemas := hsame.schemas.trans h.schemas
  commits := by rw [hsame.commits]; exact h.commits
  staged := by rw [hsame.txn]; exact h.staged

theorem Ruled.change (h : Ruled Q base w) (hc : Q c) (handle : Option Unit) :
    Ruled Q base (w.change handle c) := by
  have hauto : Ruled Q base { w with commits := w.commits ++ [[c]] } := by
    obtain ⟨more, hcommits, hmade⟩ := h.commits
    refine ⟨h.others, h.schemas, ⟨more ++ [[c]], by rw [hcommits, append_assoc], ?_⟩, h.staged⟩
    simpa [or_imp, forall_and] using ⟨by simpa using hmade, hc⟩
  unfold World.change
  cases handle with
  | none => exact hauto
  | some u =>
    cases htxn : w.txn with
    | none =>
      rw [htxn] at hauto
      exact hauto
    | some t =>
      refine ⟨h.others, h.schemas, h.commits, fun t' ht' => ?_⟩
      obtain rfl := Option.some.inj ht'
      obtain ⟨new, hstaged, hnew⟩ := h.staged t htxn
      refine ⟨new ++ [c], by rw [hstaged, append_assoc], ?_⟩
      simpa [or_imp, forall_and] using ⟨hnew, hc⟩

theorem ruled_of_looks (hx : Steps Looks _ x) : Keeps (Ruled Q base) _ x :=
  fun w hw => hw.same (hx w hw.others)

theorem ruled_op {f : World ρ → α × World ρ}
    (hf : ∀ w, Ruled Q base w → Ruled Q base (f w).2) : Keeps (Ruled Q base) _ (op f) := by
  intro w hw
  rw [run_op, interfere_alone hw.others]
  exact hf w hw

end Ruled

section Checks

variable {tables : Tables} {actor : Actor}

theorem holds_of_require (h : require tables actor privilege object = .ok ()) :
    Holds tables actor.rolname privilege object := by
  unfold require at h
  split at h
  · exact holds_of_hasPrivilege ‹_›
  · cases h

variable (hactor : (actor.unrestricted || actor.superuser) = false)

include hactor

theorem check_ok (h : check tables actor c = .ok ()) :
    referencesSystemTable c = false ∧ checkShape tables actor c = .ok () := by
  simp only [check, hactor, Bool.false_eq_true, if_false] at h
  split at h
  · cases h
  · rename_i hsystem
    exact ⟨by simpa using hsystem, h⟩

/-- A statement that passes has its privilege, if it is one that changes rows. -/
theorem made_of_check (hcopy : isCopy c = false) (h : check tables actor c = .ok ())
    (htarget : target c = some (privilege, table)) (htable : change.table = table)
    (hkind : privilege = .delete ↔ change.value = none) :
    Made c tables actor.rolname change := by
  obtain ⟨hsystem, hshape⟩ := check_ok hactor h
  have hboth : isInternalTable table = false ∧
      Holds tables actor.rolname privilege (.table (utf8 table)) := by
    cases c with
    | session stmt =>
      cases stmt with
      | insert stmt | update stmt | delete stmt =>
        cases htarget
        exact ⟨by simpa [referencesSystemTable, referencedTables] using hsystem,
          holds_of_require hshape⟩
      | copyIn stmt data => cases hcopy
      | select | copyOut | declareCursor | fetch | begin | commit | rollback => cases htarget
    | schema | administer | match_ | moveCursor | closeCursor | set | show_ | notify | listen
    | unlisten => cases htarget
  subst htable
  exact ⟨hboth.1, privilege, htarget, hboth.2, hkind⟩

end Checks

section Statements

variable [Scalars F] {rest : WriteDb (M ρ) F Unit} (beside : Beside rest) (json : Bool)
  {Q : Change → Prop} {base : World ρ}

theorem ruled_writeRow (hmade : ∀ key value, Q ⟨table, key, some value⟩) (key : Bytes)
    (cells : Row) : Keeps (Ruled Q base) _
      ((sessionDb json rest).writeRow handle table schema key cells) :=
  ruled_op fun w hw => Ruled.change (w := w.observe _) { hw with } (hmade key _) handle

theorem ruled_publishCdc (e : CdcEvent) :
    Keeps (Ruled Q base) _ ((sessionDb json rest).publishCdc e) :=
  ruled_op fun _ hw => { hw with }

theorem ruled_getTable (hnone : f none = throw e)
    (h : ∀ schema, base.schemas name = some schema → Keeps (Ruled Q base) _ (f (some schema))) :
    Keeps (Ruled Q base) _ ((sessionDb json rest).getTable name >>= f) := by
  refine Keeps.bind (Q := fun found => found = base.schemas name) (ruled_op fun w hw => hw) ?_ ?_
  · intro w hw found w' hrun
    rw [run_getTable hw.others, hw.schemas] at hrun
    exact (Except.ok.inj (congrArg Prod.fst hrun)).symm
  · rintro (_ | schema) hfound
    · exact hnone ▸ closed_keeps.throw _
    · exact h schema hfound.symm

include beside

theorem ruled_writing (handle : Option Unit) (hmade : ∀ key value, Q ⟨table, key, some value⟩)
    (schema : TableSchema) :
    WritingTo (Keeps (Ruled Q base)) (sessionDb json rest) handle table schema := by
  have reading := tables_reading json beside handle
  refine ⟨⟨?_, fun _ _ => ?_, fun _ _ => ?_⟩, fun key => ?_, ?_, ?_, ruled_publishCdc json⟩
  · exact ruled_of_looks (reading.txnScan _)
  · exact ruled_of_looks (reading.getTable _)
  · exact ruled_of_looks (reading.txnScan _)
  · exact ruled_of_looks (reading.txnRead table key)
  · exact ruled_of_looks reading.randomKey
  · exact ruled_writeRow json hmade

theorem ruled_execute (params : List (Value F)) (alone : base.others = [])
    (hconfined : Confined (sessionDb json rest) base role (.session stmt : Command F δ))
    (hmade : ∀ privilege table, target (.session stmt : Command F δ) = some (privilege, table) →
      ∀ change : Change, change.table = table → (privilege = .delete ↔ change.value = none) →
        Q change) :
    Stepped Q base ((execute (sessionDb json rest) depth params stmt).run.run base).2 := by
  set db := sessionDb json rest
  set P := Keeps (ε := EvalError) (Ruled Q base)
  have closed : Closed EvalError P := closed_keeps
  have whole {x : M ρ Reply} (hx : P _ x) : Stepped Q base (x.run.run base).2 :=
    .inl (hx base (.start alone))
  have evals {e : Expr F} (he : InTables e) ctx :
      P _ (eval (evalEnv db.toDb (executeSelect db.toDb depth)) ctx e) :=
    ruled_of_looks (tables_eval json beside depth he ctx)
  have selects {query : SelectStmt F} (hquery : ∀ r, Reaches query r → IsTable r) txn :
      P _ (executeSelect db.toDb depth query [] [] params txn) :=
    ruled_of_looks (executeSelect_closedFor closed_looks _ _ _ _ _ _
      (tables_looks json beside txn) (.inl (tables_looks json beside none)) hquery)
  have gets name : P _ (db.getTable name) :=
    ruled_of_looks ((tables_reading json beside none).getTable name)
  have scans txn name : P _ (db.txnScan txn name) :=
    ruled_of_looks ((tables_reading json beside txn).txnScan name)
  have handle : P _ (currentTxn) := fun _ hw => hw
  have hnew {privilege table}
      (htarget : target (.session stmt : Command F δ) = some (privilege, table))
      (hne : privilege ≠ .delete := by decide) key value : Q ⟨table, key, some value⟩ :=
    hmade privilege table htarget _ rfl (by simp [hne])
  match stmt with
  | .select query =>
    exact whole (closed.bind handle fun txn => closed.map (selects hconfined txn))
  | .insert stmt =>
    refine whole (closed.bind handle fun txn => closed.map ?_)
    refine ruled_getTable json rfl fun schema hschema => ?_
    exact insertRows_closed closed (ruled_writing beside json txn (hnew rfl) schema)
      (fun values hv e he => evals (hconfined.1 values hv e he))
      (fun col hcol text htext e he => evals (hconfined.2 schema hschema col hcol text htext e he))
      _ _
  | .delete stmt =>
    refine whole (closed.bind handle fun txn => closed.map ?_)
    refine closed.bind (gets _) fun schema => closed.bind (scans txn _) fun rows => ?_
    have hgone key : Q ⟨stmt.table, key, none⟩ := hmade .delete stmt.table rfl _ rfl (by simp)
    exact countRows_closed closed fun kv _ => deleteRow_closed closed
      (fun key => ruled_op fun w hw => hw.change (hgone key) txn) (ruled_publishCdc json)
      (fun e he => evals (hconfined e he)) _ _ _
  | .update stmt =>
    refine whole (closed.bind handle fun txn => closed.map ?_)
    refine closed.bind_found (gets _) rfl fun schema => ?_
    refine closed.bind (scans txn _) fun rows => countRows_closed closed fun kv _ => ?_
    exact updateRow_closed closed (ruled_writing beside json txn (hnew rfl) schema)
      (fun e he => evals (hconfined.1 e he)) (fun p hp => evals (hconfined.2 p hp)) _ _
  | .copyIn stmt data =>
    refine whole (closed.map ?_)
    refine closed.bind_found (gets _) rfl fun schema => ?_
    have writing : WritingTo P db none stmt.table schema :=
      ruled_writing beside json none (hnew rfl) schema
    refine closed.bind (ofResult_closed closed _) fun target => ?_
    refine closed.map (closed.forM fun line _ => ?_)
    exact insertCopyLine_closed closed writing.randomKey writing.txnRead writing.writeRow _ _
  | .copyOut stmt =>
    exact whole (closed.map (copyOut_closed closed (gets _) (scans none _)))
  | .declareCursor name query =>
    refine whole (closed.bind (selects hconfined none) fun r => fun w hw => ?_)
    exact { hw with }
  | .fetch name count =>
    refine whole fun w hw => ?_
    change Ruled Q base (fetch name count w).2
    unfold fetch
    split
    · exact hw
    · exact { hw with }
  | .rollback =>
    exact whole (ruled_op fun w hw => ⟨hw.others, hw.schemas, hw.commits, fun t ht => nomatch ht⟩)
  | .begin =>
    left
    change Ruled Q base ((op _).run.run base).2
    rw [run_op, interfere_alone alone]
    cases htxn : base.txn with
    | some t => exact .start alone
    | none =>
      refine ⟨alone, rfl, ⟨[], by simp, by simp⟩, fun t ht => ⟨[], ?_, by simp⟩⟩
      obtain rfl := Option.some.inj ht
      simp [stagedOf, htxn]
  | .commit =>
    change Stepped Q base ((op _).run.run base).2
    rw [run_op, interfere_alone alone]
    cases htxn : base.txn with
    | none => exact .inl (.start alone)
    | some t => exact .inr ⟨alone, rfl, by simp [stagedOf, htxn], rfl⟩

end Statements

section Requests

variable {actor : Actor} {w : World ρ}

theorem respond_world : (respond x w).2 = (x.run.run w).2 := by
  unfold respond
  rcases x.run.run w with ⟨e | reply, w'⟩ <;> rfl

variable [Scalars F] {rest : WriteDb (M ρ) F Unit} (beside : Beside rest) (json : Bool)
  (ops : Operations ρ δ) (depth : ℕ)
  (hactor : (actor.unrestricted || actor.superuser) = false)

include beside in
theorem stepped_unchecked (alone : w.others = [])
    (hconfined : Confined (sessionDb json rest) w actor.rolname (.session stmt : Command F δ))
    (htarget : target (.session stmt : Command F δ) = none) :
    Stepped Q w (respond (execute (sessionDb json rest) depth params stmt) w).2 := by
  rw [respond_world]
  refine ruled_execute beside json params alone hconfined fun p t ht => ?_
  rw [htarget] at ht
  cases ht

include beside in
theorem stepped_control (alone : w.others = []) {c : Command F δ} (hc : isCopy c || isControl c)
    (hconfined : Confined (sessionDb json rest) w actor.rolname c) :
    Stepped (Made c w.latest actor.rolname) w (control (sessionDb json rest) depth c w).2 := by
  match c with
  | .session stmt =>
    cases stmt with
    | copyIn stmt data =>
      rw [control, respond_world]
      refine ruled_execute beside json [] alone hconfined fun p t ht change htable hkind => ?_
      have heq : p = .insert ∧ t = stmt.table := by
        cases ht
        exact ⟨rfl, rfl⟩
      obtain ⟨rfl, rfl⟩ := heq
      exact ⟨htable ▸ hconfined.1, .insert, htable ▸ ht, htable ▸ hconfined.2, hkind⟩
    | copyOut | begin | commit | rollback =>
      exact stepped_unchecked beside json depth alone hconfined rfl
    | select | insert | delete | update | declareCursor | fetch => cases hc
  | .schema _ | .administer _ | .match_ _ | .moveCursor _ _ | .closeCursor _ | .set _ | .show_ _
  | .notify _ | .listen _ | .unlisten _ => exact .inl (.start alone)

include beside hactor

theorem stepped_parsedAs (alone : w.others = []) (params : List (Value F)) {c : Command F δ}
    (hconfined : Confined (sessionDb json rest) w actor.rolname c) :
    Stepped (Made c w.latest actor.rolname) w
      (executeParsedAs (sessionDb json rest) ops depth actor params c w).2 := by
  unfold executeParsedAs
  cases hcheck : check w.latest actor c with
  | error text => exact .inl (.start alone)
  | ok u =>
    have unmoved {x : M ρ Reply} (hx : (x.run.run w).2 = w) :
        Stepped (Made c w.latest actor.rolname) w (x.run.run w).2 := by
      rw [hx]
      exact .inl (.start alone)
    dsimp only
    rw [respond_world]
    match c with
    | .session stmt =>
      cases stmt with
      | copyIn | copyOut | declareCursor | fetch => exact unmoved rfl
      | select | insert | delete | update | begin | commit | rollback =>
        exact ruled_execute beside json params alone hconfined fun p t ht change htable hkind =>
          made_of_check hactor rfl hcheck ht htable hkind
    | .schema _ | .match_ _ => exact hconfined.elim
    | .administer detail => cases (check_ok hactor hcheck).2
    | .set _ | .notify _ | .show_ _ => exact unmoved rfl
    | .moveCursor _ _ | .closeCursor _ | .listen _ | .unlisten _ => exact unmoved rfl

theorem stepped_simple (alone : w.others = []) {c : Command F δ}
    (hconfined : Confined (sessionDb json rest) w actor.rolname c) :
    Stepped (Made c w.latest actor.rolname) w
      (executeSimple (sessionDb json rest) ops depth actor c w).2 := by
  have hparsed := stepped_parsedAs beside json ops depth hactor alone [] hconfined
  have unmoved : Stepped (Made c w.latest actor.rolname) w w := .inl (.start alone)
  have cursors cs : Stepped (Made c w.latest actor.rolname) w { w with cursors := cs } :=
    .inl { Ruled.start (Q := Made c w.latest actor.rolname) alone with }
  match c with
  | .listen _ | .unlisten _ => exact unmoved
  | .session stmt =>
    cases stmt with
    | declareCursor name query =>
      simp only [executeSimple]
      split
      · exact unmoved
      · exact stepped_unchecked beside json depth alone hconfined rfl
    | fetch name count => exact stepped_unchecked beside json depth alone hconfined rfl
    | select | insert | delete | update | copyIn | copyOut | begin | commit | rollback =>
      exact hparsed
  | .moveCursor name count =>
    simp only [executeSimple, respond_world]
    change Stepped _ w (moveCursor name count w).2
    unfold moveCursor
    split
    · exact unmoved
    · exact cursors _
  | .closeCursor name =>
    simp only [executeSimple, respond_world]
    change Stepped _ w (closeCursor name w).2
    unfold closeCursor
    split
    · exact unmoved
    · exact cursors _
  | .schema _ | .administer _ | .match_ _ | .set _ | .show_ _ | .notify _ => exact hparsed

theorem stepped_serve (alone : conn.world.others = []) {r : Request F δ}
    (hconfined : Confined (sessionDb json rest) conn.world actor.rolname r.command) :
    Stepped (Made r.command conn.world.latest actor.rolname) conn.world
      (serve (sessionDb json rest) ops depth actor conn r).world := by
  cases r with
  | query first c =>
    simp only [serve]
    split
    · exact .inl (.start alone)
    · unfold handleSimple
      split
      · exact stepped_control beside json depth alone ‹_› hconfined
      · exact stepped_simple beside json ops depth hactor alone hconfined
  | execute c params maxRows =>
    change Stepped _ conn.world (handleExecute _ ops depth actor params c conn.world).2
    unfold handleExecute
    split
    · rename_i hcontrol
      exact stepped_control beside json depth alone (by simp [Request.command, hcontrol]) hconfined
    · exact stepped_parsedAs beside json ops depth hactor alone params hconfined

end Requests

/-- Only user tables were written, and only they will be by a COMMIT. -/
structure CatalogsKept (base w : World ρ) : Prop where
  others : w.others = []
  schemas : w.schemas = base.schemas
  commits : ∃ more, w.commits = base.commits ++ more ∧
    ∀ c ∈ more.flatten, isInternalTable c.table = false
  staged : ∀ c ∈ stagedOf w, isInternalTable c.table = false

section Catalogs

variable {base w w' : World ρ}

theorem CatalogsKept.stepped (h : CatalogsKept base w)
    (hstep : Stepped (Made command tables role) w w') :
    CatalogsKept base w' := by
  obtain ⟨more, hcommits, hmore⟩ := h.commits
  obtain hruled | ⟨hothers, hschemas, hcommitted, htxn⟩ := hstep
  · obtain ⟨new, hnew, hmade⟩ := hruled.commits
    refine ⟨hruled.others, hruled.schemas.trans h.schemas,
      ⟨more ++ new, by rw [hnew, hcommits, append_assoc], ?_⟩, ?_⟩
    · intro c hc
      rw [flatten_append, mem_append] at hc
      exact hc.elim (hmore c) fun hc => (hmade c hc).user
    · intro c hc
      cases htxn : w'.txn with
      | none => simp [stagedOf, htxn] at hc
      | some t =>
        obtain ⟨staged, hstaged, hmade⟩ := hruled.staged t htxn
        simp only [stagedOf, htxn, Option.map_some, Option.getD_some, hstaged, mem_append] at hc
        exact hc.elim (h.staged c) fun hc => (hmade c hc).user
  · refine ⟨hothers, hschemas.trans h.schemas,
      ⟨more ++ [stagedOf w], by rw [hcommitted, hcommits, append_assoc], ?_⟩,
      by simp [stagedOf, htxn]⟩
    intro c hc
    rw [flatten_append, mem_append] at hc
    exact hc.elim (hmore c) fun hc => h.staged c (by simpa using hc)

theorem CatalogsKept.latest (h : CatalogsKept base w) (ht : isInternalTable t = true) :
    w.latest t = base.latest t := by
  obtain ⟨more, hcommits, huser⟩ := h.commits
  rw [World.latest, World.latest, hcommits, flatten_append]
  refine tablesAfter_other _ fun c hc heq => ?_
  have hfalse := huser c hc
  rw [heq, ht] at hfalse
  cases hfalse

theorem CatalogsKept.holds (h : CatalogsKept base w) (role : Bytes) (privilege : Privilege)
    (object : GrantObject) :
    Holds w.latest role privilege object ↔ Holds base.latest role privilege object := by
  have hmembers : w.latest roleMembersTable = base.latest roleMembersTable :=
    h.latest (by decide +kernel)
  have hprivileges : w.latest privilegesTable = base.latest privilegesTable :=
    h.latest (by decide +kernel)
  have hmember : Member w.latest = Member base.latest := by
    funext a b
    simp [Member, hmembers]
  simp [Holds, Granted, hprivileges, hmember]

end Catalogs

/-- Whatever a role without superuser rights sends: the catalogs stay as they are, so that it holds
what it held, and every request changes rows only with its own statement, whose privilege the role
holds at the time. -/
theorem no_escalation [Scalars F] {rest : WriteDb (M ρ) F Unit} (beside : Beside rest)
    (json : Bool) (ops : Operations ρ δ) (depth : ℕ) {actor : Actor}
    (hactor : (actor.unrestricted || actor.superuser) = false) (base : World ρ)
    (hothers : base.others = []) (hidle : base.txn = none) (requests : List (Request F δ))
    (hconfined : Along (serve (sessionDb json rest) ops depth actor)
      (fun conn r => Confined (sessionDb json rest) conn.world actor.rolname r.command)
      ⟨base, false, []⟩ requests) :
    let world (sent : List (Request F δ)) :=
      (run (serve (sessionDb json rest) ops depth actor) ⟨base, false, []⟩ sent).world
    (∀ sent, sent <+: requests → (world sent).schemas = base.schemas ∧
      (∀ t, isInternalTable t = true → (world sent).latest t = base.latest t) ∧
      ∀ privilege object, Holds (world sent).latest actor.rolname privilege object ↔
        Holds base.latest actor.rolname privilege object) ∧
    ∀ sent r, sent ++ [r] <+: requests →
      Stepped (Made r.command (world sent).latest actor.rolname) (world sent)
        (world (sent ++ [r])) := by
  intro world
  have hstart : CatalogsKept base base :=
    ⟨hothers, rfl, ⟨[], by simp, by simp⟩, by simp [stagedOf, hidle]⟩
  have hworld sent (hsent : sent <+: requests) : CatalogsKept base (world sent) := by
    obtain ⟨more, rfl⟩ := hsent
    refine (along_append.mp hconfined).1.invariant (I := fun conn => CatalogsKept base conn.world)
      (fun conn r hconn hr => ?_) hstart
    exact hconn.stepped (stepped_serve beside json ops depth hactor hconn.others hr)
  refine ⟨fun sent hsent => ?_, fun sent r hsent => ?_⟩
  · have hkept := hworld sent hsent
    exact ⟨hkept.schemas, fun t ht => hkept.latest ht, hkept.holds _⟩
  · obtain ⟨more, rfl⟩ := hsent
    have hr := (along_append.mp (along_append.mp hconfined).1).2.1
    have hkept := hworld sent ⟨[r] ++ more, by simp⟩
    have hstep := stepped_serve beside json ops depth hactor hkept.others hr
    simpa only [world, run_append, run_cons, run_nil] using hstep

def createTables : Operations Unit TableSchema where
  schema stmt :=
    match stmt.kind, stmt.table with
    | .createTable, some name => op fun w =>
      (.done, { w with schemas := Function.update w.schemas name (some stmt.detail) })
    | _, _ => pure .done
  administer _ := throw .panic
  match_ _ := throw .panic

def privilegesSchema : TableSchema :=
  .ofColumns privilegesTable (⟨"id", .text, false, none, true⟩ ::
    ["grantee", "privilege", "object_type", "object_name"].map fun c =>
      ⟨c, .text, false, none, false⟩)

def grantRow (id : String) (cells : List String) : Change :=
  ⟨privilegesTable, utf8 id, some (buildRowValue Unit false privilegesSchema
    ((id :: cells).map fun c => some (utf8 c)))⟩

def granted (grants : List Change) : World Unit where
  schemas name :=
    if name = "t" then some (.plain "t" ["id"])
    else if name = privilegesTable then some privilegesSchema
    else none
  commits :=
    [⟨"t", utf8 "1", some (buildRowValue Unit false (.plain "t" ["id"]) [some (utf8 "1")])⟩ ::
    grants]
  others := []
  txn := none
  cdc := []
  trace := []
  cursors := []
  rest := ()

def someone : Actor := ⟨utf8 "r", false, false⟩

def deleteAll : Command Unit TableSchema := .session (.delete ⟨"t", none⟩)

def copyInto (table text : String) : Command Unit TableSchema :=
  .session (.copyIn ⟨table, []⟩ (utf8 text))

def inserting : List (Request Unit TableSchema) :=
  [.query true deleteAll, .query true (copyInto "t" "2\n"), .execute deleteAll [] 0,
    .query true (.session (.insert ⟨"t", [], [[.literal (.text (utf8 "3"))]]⟩))]

/-- A role that may insert into `t` does, in both ways; what it may not do is denied. -/
theorem no_escalation_inserting :
    let base := granted [grantRow "x" ["r", "insert", "TABLE", "t"]]
    let world (sent : List (Request Unit TableSchema)) :=
      (run (serve tableDb createTables 3 someone) ⟨base, false, []⟩ sent).world
    (∀ sent, sent <+: inserting → (world sent).schemas = base.schemas ∧
      (∀ t, isInternalTable t = true → (world sent).latest t = base.latest t) ∧
      ∀ privilege object, Holds (world sent).latest someone.rolname privilege object ↔
        Holds base.latest someone.rolname privilege object) ∧
    ∀ sent r, sent ++ [r] <+: inserting →
      Stepped (Made r.command (world sent).latest someone.rolname) (world sent)
        (world (sent ++ [r])) := by
  refine no_escalation apart_tablesOnly.toBeside false createTables 3 rfl _ rfl rfl inserting
    ⟨?_, ⟨?_, ?_⟩, ?_, ?_, trivial⟩
  · exact fun e he => nomatch he
  · decide +kernel
  · exact holds_of_hasPrivilege (by decide +kernel)
  · exact fun e he => nomatch he
  · exact ⟨by simp [InTables, subqueries, atoms, collect, atomOf],
      fun _ _ _ _ _ _ e he => nomatch he⟩

/-- A role without privileges grants itself all of them on `t` with COPY into the catalog, and the
DELETE that was denied to it goes through. -/
theorem copy_into_catalog_escalates :
    let base := granted []
    let copied := serve tableDb createTables 3 someone ⟨base, false, []⟩
      (.query true (copyInto privilegesTable "x\tr\tall\tTABLE\tt\n"))
    let deleted := serve tableDb createTables 3 someone copied (.query true deleteAll)
    hasPrivilege base.latest (utf8 "r") .delete (.table (utf8 "t")) = some false ∧
      (handleSimple tableDb createTables 3 someone deleteAll base).1 =
        .denied (lacksText (utf8 "r") .delete (utf8 "TABLE t")) ∧
      (copied.world.latest privilegesTable).entries ≠ (base.latest privilegesTable).entries ∧
      hasPrivilege copied.world.latest (utf8 "r") .delete (.table (utf8 "t")) = some true ∧
      (deleted.answers.map Answer.outcome) = [.done (.rows 1), .done (.rows 1)] ∧
      rowsOf deleted.world.latest "t" none = [] := by
  all_goals decide +kernel

end WireSessionRbac
