import Keystone.WireExtended
import Keystone.WireSessionAtomicity

/-! # Portals that are executed more than once

A portal keeps its statement and parameters, and no position: each Execute runs the statement from
the start and sends the first rows of what it returns. -/
namespace WirePortals

open DecimalText ExecutorDml ExecutorRbac ExecutorSelect ExecutorValue GuardedRuns List SqlAst
  StorageInternalKey WireDescribe WireExtended WireSession WireSessionAtomicity WireSessionRbac
  WireSessionReads

variable {F ρ δ : Type}

def limited (rows : List Row) (limit : ℤ) : Bool := 0 < limit ∧ limit.toNat < rows.length

/-- `tag` is that of the whole result. -/
def page (tag : Bytes) (rows : List Row) (limit : ℤ) : List BackendMessage :=
  (if limited rows limit then rows.take limit.toNat else rows).map .dataRow ++
    [if limited rows limit then .portalSuspended else .commandComplete tag]

def advance (rows : List Row) (pos : ℕ) (limit : ℤ) : ℕ :=
  if limited (rows.drop pos) limit then pos + limit.toNat else rows.length

def delivered (tag : Bytes) (rows : List Row) : ℕ → List ℤ → List BackendMessage
  | _, [] => []
  | pos, limit :: limits =>
    page tag (rows.drop pos) limit ++ delivered tag rows (advance rows pos limit) limits

def Resumes (rows : List Row) (pos : ℕ) (limit : ℤ) : Prop :=
  pos = 0 ∨ 0 < limit ∧ pos + limit.toNat < rows.length ∧
    rows.take limit.toNat = (rows.drop pos).take limit.toNat

variable {rows : List Row}

theorem limited_iff : limited rows limit = true ↔ 0 < limit ∧ limit.toNat < rows.length := by
  simp [limited]

variable {pos : ℕ}

theorem advance_le (hpos : pos ≤ rows.length) : advance rows pos limit ≤ rows.length := by
  unfold advance
  split
  · rename_i h
    have hleft := (limited_iff.1 h).2
    rw [length_drop] at hleft
    omega
  · exact le_refl _

variable {rest rest' : List BackendMessage}

theorem append_rows_inj {xs ys : List Row} {e e' : BackendMessage} (he : ∀ row, e ≠ .dataRow row)
    (he' : ∀ row, e' ≠ .dataRow row) :
    xs.map .dataRow ++ e :: rest = ys.map .dataRow ++ e' :: rest' ↔ xs = ys ∧ e = e' ∧
      rest = rest' := by
  induction xs generalizing ys with
  | nil =>
    cases ys with
    | nil => simp
    | cons y ys => simp [he y]
  | cons x xs ih =>
    cases ys with
    | nil => simp [(he' x).symm]
    | cons y ys => simp [ih, and_assoc]

theorem page_inj : page tag a limit ++ rest = page tag b limit' ++ rest' ↔
      (if limited a limit then a.take limit.toNat else a) =
        (if limited b limit' then b.take limit'.toNat else b) ∧
      limited a limit = limited b limit' ∧ rest = rest' := by
  have hend (more : Bool) row :
      (if more then BackendMessage.portalSuspended else .commandComplete tag) ≠ .dataRow row := by
    cases more <;> simp
  rw [page, page, append_assoc, append_assoc, singleton_append, singleton_append,
    append_rows_inj (hend _) (hend _)]
  cases limited a limit <;> cases limited b limit' <;> simp

theorem page_eq_iff_resumes (hpos : pos ≤ rows.length) :
    page tag rows limit ++ rest = page tag (rows.drop pos) limit ++ rest' ↔ Resumes rows pos limit ∧
      rest = rest' := by
  rw [page_inj, ← and_assoc]
  refine and_congr_left fun _ => ?_
  have hlength : (rows.drop pos).length = rows.length - pos := length_drop
  unfold Resumes
  cases hlimited : limited (rows.drop pos) limit with
  | true =>
    obtain ⟨hpositive, hleft⟩ := limited_iff.1 hlimited
    have hall : limited rows limit = true := limited_iff.2 ⟨hpositive, by omega⟩
    have hmore : pos + limit.toNat < rows.length := by omega
    simp only [hall, and_true]
    constructor
    · exact fun hrows => .inr ⟨hpositive, hmore, hrows⟩
    · rintro (rfl | ⟨-, -, hrows⟩)
      · rw [drop_zero]
      · exact hrows
  | false =>
    constructor
    · rintro ⟨hrows, hall⟩
      rw [hall] at hrows
      have hsame : rows = rows.drop pos := hrows
      have := congrArg List.length hsame
      omega
    · rintro (rfl | ⟨hpositive, hmore, -⟩)
      · rw [drop_zero] at hlimited ⊢
        exact ⟨by rw [hlimited], hlimited⟩
      · rw [limited_iff.2 ⟨hpositive, by omega⟩] at hlimited
        cases hlimited

/-- Pages from the start are the pages of a portal that goes on if and only if every page but the
first repeats it. -/
theorem flatMap_page_iff (hpos : pos ≤ rows.length) :
    limits.flatMap (page tag rows) = delivered tag rows pos limits ↔
      Along (advance rows) (Resumes rows) pos limits := by
  induction limits generalizing pos with
  | nil => exact iff_of_true rfl trivial
  | cons limit limits ih =>
    rw [flatMap_cons, delivered, page_eq_iff_resumes hpos, ih (advance_le hpos)]
    rfl

section Portals

variable [Scalars F] (srv : Server F ρ δ)

def runPortal (p : Portal F δ) (w : World ρ) : Outcome × World ρ :=
  handleExecute srv.db srv.ops srv.depth srv.actor p.params p.stmt w

def resultRows (p : Portal F δ) (r : QueryResult) : List Row :=
  let oids := FieldDescription.oids r.fields
  r.rows.map fun row => encodeResultRow srv.floats row oids
    (resolveResultFormats p.resultFormats oids)

def Steady (p : Portal F δ) (r : QueryResult) : ℕ → World ρ → Prop
  | 0, _ => True
  | n + 1, w => (runPortal srv p w).1 = .done (.result r) ∧ Steady p r n (runPortal srv p w).2

def executes (portal : Bytes) (limits : List ℤ) : List (Step F δ) :=
  limits.map fun limit => .message (.execute portal limit)

omit [Scalars F] in
theorem portalAnswers_result : portalAnswers srv p limit (.result r) =
    page (commandTag srv p.stmt (.result r)) (resultRows srv p r) limit := by
  rw [portalAnswers, page]
  change (if 0 < limit ∧ limit.toNat < (resultRows srv p r).length then _ else _) = _
  by_cases hlimited : limited (resultRows srv p r) limit = true
  · rw [if_pos (limited_iff.1 hlimited), hlimited]
    rfl
  · rw [if_neg (fun h => hlimited (limited_iff.2 h)), if_neg hlimited, if_neg hlimited]
    rfl

variable {s : Session F ρ δ} {portal : Bytes} {p : Portal F δ}

theorem respondTo_execute (hmode : s.mode = .ready) (hportal : s.portals portal = some p) :
    respondTo srv s (.message (.execute portal limit)) =
      conclude s .ready (portalAnswers srv p limit) (runPortal srv p s.world) := by
  rw [respondTo_ready srv hmode, serveMessage, serveExecute, hportal, hmode]
  rfl

theorem answersAll_executes (hmode : s.mode = .ready)
    (hportal : s.portals portal = some p) (hsteady : Steady srv p r limits.length s.world) :
    answersAll srv s (executes portal limits) = limits.flatMap
      (page (commandTag srv p.stmt (.result r)) (resultRows srv p r)) := by
  induction limits generalizing s with
  | nil => rfl
  | cons limit limits ih =>
    obtain ⟨hresult, hrest⟩ := hsteady
    have hserved : respondTo srv s (.message (.execute portal limit)) =
        ({ s with world := (runPortal srv p s.world).2 },
          page (commandTag srv p.stmt (.result r)) (resultRows srv p r) limit) := by
      rw [respondTo_execute srv hmode hportal, ← Prod.mk.eta (p := runPortal srv p s.world),
        hresult, conclude,
        portalAnswers_result]
    rw [executes, map_cons, answersAll, flatMap_cons, answers, hserved]
    refine congrArg _ (ih ?_ ?_ ?_)
    · simp [WireExtended.next, hserved, hmode]
    · simp [WireExtended.next, hserved, hportal]
    · simpa only [WireExtended.next, hserved] using hrest

/-- Nothing is committed, staged or published. -/
structure Same (w w' : World ρ) : Prop where
  commits : w'.commits = w.commits
  txn : w'.txn = w.txn
  cdc : w'.cdc = w.cdc

def afterExecute (portal : Bytes) (s : Session F ρ δ) (limit : ℤ) : Session F ρ δ :=
  next srv s (.message (.execute portal limit))

/-- The statement is refused, or it spares every row. -/
def Spared (p : Portal F δ) (stmt : Stmt F) (s : Session F ρ δ) (_limit : ℤ) : Prop :=
  s.mode.isClosed = false → check s.world.latest srv.actor p.stmt = .ok () →
    SparesRows srv.db srv.depth p.params s.world stmt

def Holding (portal : Bytes) (p : Portal F δ) (s : Session F ρ δ) : Prop :=
  AtLoop s ∧ s.portals portal = some p

theorem Same.refl (w : World ρ) : Same w w := ⟨rfl, rfl, rfl⟩

theorem Same.trans (h : Same w₁ w₂) (h' : Same w₂ w₃) : Same w₁ w₃ :=
  ⟨h'.commits.trans h.commits, h'.txn.trans h.txn, h'.cdc.trans h.cdc⟩

theorem Same.symm (h : Same w₁ w₂) : Same w₂ w₁ :=
  ⟨h.commits.symm, h.txn.symm, h.cdc.symm⟩

theorem afterExecute_world (h : Holding portal p s) :
    Holding portal p (afterExecute srv portal s limit) ∧
      (afterExecute srv portal s limit).world =
        if s.mode.isClosed then s.world else (runPortal srv p s.world).2 := by
  obtain ⟨hmode | hmode, hportal⟩ := h
  · obtain ⟨hworld, hportals, hmodes⟩ :=
      conclude_fst s .ready (portalAnswers srv p limit) (runPortal srv p s.world)
    rw [← respondTo_execute srv hmode hportal] at hworld hportals hmodes
    refine ⟨⟨?_, (congrFun hportals portal).trans hportal⟩, ?_⟩
    · rcases hmodes with hmodes | hmodes | hmodes
      · exact .inr hmodes
      · exact .inl (hmodes.trans hmode)
      · exact .inl hmodes
    · rw [hmode]
      exact hworld
  · have hover := respondTo_closed srv hmode (.message (.execute portal limit))
    simp only [afterExecute, WireExtended.next, hover, hmode]
    exact ⟨⟨.inr rfl, hportal⟩, rfl⟩

section Effects

variable {json : Bool} {rest : WriteDb (M ρ) F Unit} {stmt : Stmt F} {w : World ρ}

theorem runPortal_world (hstmt : p.stmt = .session stmt) (dml : IsDml stmt) :
    (check w.latest srv.actor p.stmt = .ok () →
      (runPortal srv p w).2 = ((execute srv.db srv.depth p.params stmt).run.run w).2) ∧
    (check w.latest srv.actor p.stmt ≠ .ok () → (runPortal srv p w).2 = w) := by
  have hchecked : runPortal srv p w =
      executeParsedAs srv.db srv.ops srv.depth srv.actor p.params p.stmt w := by
    rw [runPortal, handleExecute, hstmt]
    cases stmt with
    | insert | update | delete => rfl
    | _ => cases dml
  have hinner : executeParsedInner srv.db srv.ops srv.depth p.params p.stmt =
      execute srv.db srv.depth p.params stmt := by
    rw [hstmt]
    cases stmt with
    | insert | update | delete => rfl
    | _ => cases dml
  rw [hchecked, executeParsedAs]
  cases check w.latest srv.actor p.stmt with
  | error text => simp
  | ok u =>
    refine ⟨fun _ => ?_, by simp⟩
    rw [← hinner]
    exact respond_world

theorem runPortal_same_iff (apart : Apart rest) (hdb : srv.db = sessionDb json rest)
    (alone : w.others = []) (hstmt : p.stmt = .session stmt) (dml : IsDml stmt) :
    (runPortal srv p w).2.others = [] ∧ (Same w (runPortal srv p w).2 ↔
      (check w.latest srv.actor p.stmt = .ok () →
        SparesRows srv.db srv.depth p.params w stmt)) := by
  obtain ⟨hruns, hrefused⟩ := runPortal_world srv (w := w) hstmt dml
  by_cases hcheck : check w.latest srv.actor p.stmt = .ok ()
  · obtain ⟨n, hchanged, hn⟩ := execute_changed apart alone srv.depth p.params dml
    rw [hruns hcheck, hdb]
    refine ⟨hchanged.others.trans alone, ?_⟩
    simp only [hcheck, forall_const, ← hn]
    constructor
    · exact fun hsame => hchanged.unchanged_iff.mp ⟨hsame.commits, hsame.txn⟩
    · intro hzero
      obtain ⟨hcommits, htxn⟩ := hchanged.unchanged_iff.mpr hzero
      exact ⟨hcommits, htxn, hchanged.cdc hzero⟩
  · rw [hrefused hcheck]
    exact ⟨alone, iff_of_true (.refl w) fun h => absurd h hcheck⟩

/-- After the first Execute nothing more is written if and only if each later one, on what the ones
before it left, is refused or spares every row. -/
theorem written_once_iff (apart : Apart rest) (hdb : srv.db = sessionDb json rest)
    (hstmt : p.stmt = .session stmt) (dml : IsDml stmt) (h : Holding portal p s)
    (alone : s.world.others = []) :
    (∀ n, Same s.world (run (afterExecute srv portal) s (limits.take n)).world) ↔
      Along (afterExecute srv portal) (Spared srv p stmt) s limits := by
  refine always_iff_along (I := fun s' => Holding portal p s' ∧ s'.world.others = [] ∧
    Same s.world s'.world) (fun _ h => h.2.2) ?_ ?_ ⟨h, alone, .refl _⟩ limits
  · rintro s' limit ⟨hs', halone, hsame⟩ hspared
    obtain ⟨hholding, hworld⟩ := afterExecute_world srv hs'
    obtain ⟨hothers, hiff⟩ := runPortal_same_iff srv apart hdb halone hstmt dml
    refine ⟨hholding, ?_⟩
    rw [hworld]
    cases hclosed : s'.mode.isClosed with
    | true => exact ⟨halone, hsame⟩
    | false => exact ⟨hothers, hsame.trans (hiff.mpr (hspared hclosed))⟩
  · rintro s' limit ⟨hs', halone, hsame⟩ hsome hafter
    refine hsome fun hclosed => ?_
    rw [(afterExecute_world srv hs').2, hclosed] at hafter
    exact (runPortal_same_iff srv apart hdb halone hstmt dml).2.mp (hsame.symm.trans hafter)

end Effects

/-- Executes of a portal send each row once, in order, with the end where it is, if and only if
every page but the first repeats the first one and is not the last; and those of an INSERT, UPDATE
or DELETE write once if and only if each later one is refused or finds no row to write. -/
theorem portal_executes_once_iff (s : Session F ρ δ) (hmode : s.mode = .ready) (portal : Bytes)
    (p : Portal F δ) (hportal : s.portals portal = some p) (limits : List ℤ) :
    (∀ r, Steady srv p r limits.length s.world →
      (answersAll srv s (executes portal limits) =
          delivered (commandTag srv p.stmt (.result r)) (resultRows srv p r) 0 limits ↔
        Along (advance (resultRows srv p r)) (Resumes (resultRows srv p r)) 0 limits)) ∧
    ∀ json rest stmt, Apart rest → srv.db = sessionDb json rest → s.world.others = [] →
      p.stmt = .session stmt → IsDml stmt → ∀ limit,
        let first := afterExecute srv portal s limit
        (∀ n, Same first.world (run (afterExecute srv portal) first (limits.take n)).world) ↔
          Along (afterExecute srv portal) (Spared srv p stmt) first limits := by
  refine ⟨fun r hsteady => ?_, fun json rest stmt apart hdb alone hstmt dml limit => ?_⟩
  · rw [answersAll_executes srv hmode hportal hsteady]
    exact flatMap_page_iff (Nat.zero_le _)
  · obtain ⟨hholding, hworld⟩ := afterExecute_world srv ⟨.inl hmode, hportal⟩
    refine written_once_iff srv apart hdb hstmt dml hholding ?_
    rw [hworld, hmode]
    exact (runPortal_same_iff srv apart hdb alone hstmt dml).1

end Portals

def rowsOfT (ids : List String) : World Unit :=
  granted (ids.map fun id =>
    ⟨"t", utf8 id, some (buildRowValue Unit false (.plain "t" ["id"]) [some (utf8 id)])⟩)

/-- `SELECT 'x' FROM t` -/
def sameCells : SelectStmt Unit :=
  ⟨[], false, [.expr (.literal (.text (utf8 "x"))) none], some (⟨"t", none, none, none⟩, []), none,
    [], none, [],
    none, none, none⟩

/-- `UPDATE t SET id = id + 1` -/
def increment : UpdateStmt Unit :=
  ⟨"t", [("id", .binaryOp .add (.ident "id") (.literal (.int 1)))], none⟩

def holding (stmt : Stmt Unit) (w : World Unit) : Session Unit Unit TableSchema :=
  { starting w with portals := fun _ => some ⟨.session stmt, [], []⟩ }

/-- Three rows that look alike, one by one but for the last; and a DELETE that has nothing left to
delete. -/
theorem portal_executes_once_alike :
    let s := holding (.select sameCells) (rowsOfT ["2", "3"])
    let r : QueryResult := ⟨[⟨"?column?", 25⟩], List.replicate 3 [some (utf8 "x")]⟩
    answersAll (serving []) s (executes [] [1, 1]) =
        delivered (utf8 "SELECT 3") r.rows 0 [1, 1] ∧
      let first := afterExecute (serving []) [] (holding (.delete ⟨"t", none⟩) (rowsOfT [])) 0
      ∀ n, Same first.world (run (afterExecute (serving []) []) first ([0].take n)).world := by
  intro s r
  have hsteady : Steady (serving []) ⟨.session (.select sameCells), [], []⟩ r 2 s.world :=
    ⟨by decide +kernel, by decide +kernel, trivial⟩
  constructor
  · have h := (portal_executes_once_iff (serving []) s rfl [] _ rfl [1, 1]).1 r hsteady
    exact h.2 ⟨.inl rfl, .inr ⟨by decide, by decide, by decide⟩, trivial⟩
  · refine ((portal_executes_once_iff (serving []) _ rfl [] _ rfl [0]).2 false (tablesOnly Unit)
      (.delete ⟨"t", none⟩) apart_tablesOnly rfl rfl rfl trivial 0).2 ⟨fun _ _ => ?_, trivial⟩
    exact trivial

/-- The same row twice, and never the other one; an UPDATE that adds one adds two. -/
theorem portal_starts_over :
    let s := holding (.select fromT) (rowsOfT ["2"])
    let row (id : String) : BackendMessage := .dataRow [some (utf8 id)]
    let counting := holding (.update increment) (rowsOfT [])
    answersAll (serving []) s (executes [] [1, 1]) = [row "1", .portalSuspended, row "1",
      .portalSuspended] ∧
      delivered (utf8 "SELECT 2") [[some (utf8 "1")], [some (utf8 "2")]] 0 [1, 1] =
        [row "1", .portalSuspended, row "2", .commandComplete (utf8 "SELECT 2")] ∧
      answersAll (serving []) counting (executes [] [0, 0]) =
        [.commandComplete (utf8 "UPDATE 1"), .commandComplete (utf8 "UPDATE 1")] ∧
      replyTo (run (afterExecute (serving []) []) counting [0]).world (.select fromT) =
        .ok (.result ⟨[⟨"id", 25⟩], [[some (utf8 "2")]]⟩) ∧
      replyTo (run (afterExecute (serving []) []) counting [0, 0]).world (.select fromT) =
        .ok (.result ⟨[⟨"id", 25⟩], [[some (utf8 "3")]]⟩) := by
  all_goals decide +kernel

end WirePortals
