import Keystone.WireSessionAtomicity
import Keystone.WireSessionConstraints

/-! # Published changes and committed changes

INSERT, UPDATE and DELETE publish each row they change. While nothing is rolled back, COPY writes
nothing and no other session is at work, the published records are the history of the commits, and
`flux_time_travel` rebuilds the table from them. -/
namespace WireSessionCdc

open EffectPredicates ExecutorDml ExecutorEffects ExecutorSelect ExecutorValue Option OrderedMaps
  SqlAst StorageInternalKey WireSession WireSessionAtomicity WireSessionReads WireSessionRows

variable {F ρ : Type}

abbrev Image := List (String × Cell)

def replay (cutoff : ℤ) (state : OrderedMap Bytes (Option Image)) :
    ℤ × CdcEvent → OrderedMap Bytes (Option Image)
  | (ts, e) =>
    if ts > cutoff then state
    else if e.op = .delete then state.erase e.rowKey
    else state.insert e.rowKey e.after

/-- The rows by hex key that the records up to the cutoff lead to; each record has its time. -/
def fluxTimeTravel (cutoff : ℤ) (records : List (ℤ × CdcEvent)) : OrderedMap Bytes (Option Image) :=
  records.foldl (replay cutoff) .empty

def topic (table : String) (cdc : List CdcEvent) : List CdcEvent := cdc.filter (·.table = table)

section History

variable (F) [Scalars F] (schemas : String → Option TableSchema)

def eventOf (t : Tables) (c : Change) (schema : TableSchema) : CdcEvent :=
  let before := ((t c.table).get? c.key).map (parseRow F)
  let op : CdcOp := match c.value, before with
    | none, _ => .delete
    | some _, some _ => .update
    | some _, none => .insert
  cdcEvent op c.table c.key before (c.value.map (parseRow F)) schema

def history : Tables → List Change → List CdcEvent
  | _, [] => []
  | t, c :: cs => ((schemas c.table).map (eventOf F t c)).toList ++ history (applyChange t c) cs

variable {F schemas}

theorem history_append : history F schemas t (cs ++ ds) =
      history F schemas t cs ++ history F schemas (cs.foldl applyChange t) ds := by
  induction cs generalizing t with
  | nil => rfl
  | cons c cs ih =>
    simp [history, ih]

variable {t t' : Tables} {c : Change}

theorem eventOf_congr (h : t c.table = t' c.table) : eventOf F t c = eventOf F t' c := by
  funext schema
  simp [eventOf, h]

theorem applyChange_ne (h : table ≠ c.table) : applyChange t c table = t table := by
  simp [applyChange, h]

theorem applyChange_self : applyChange t c c.table = changeRows c (t c.table) := by
  simp [applyChange]

theorem topic_history (h : t table = t' table) : topic table (history F schemas t cs) =
      history F schemas t' (cs.filter (·.table = table)) := by
  induction cs generalizing t t' with
  | nil => rfl
  | cons c cs ih =>
    simp only [history, topic, List.filter_append]
    by_cases hc : c.table = table
    · subst hc
      have hnext : applyChange t c c.table = applyChange t' c c.table := by
        rw [applyChange_self, applyChange_self, h]
      have hrest := ih hnext
      unfold topic at hrest
      rw [hrest, List.filter_cons_of_pos (by simp), history, eventOf_congr h]
      cases schemas c.table with
      | none => rfl
      | some schema => simp [eventOf, cdcEvent]
    · have hnext : applyChange t c table = t' table := by
        rw [applyChange_ne (Ne.symm hc), h]
      have hrest := ih hnext
      unfold topic at hrest
      rw [hrest, List.filter_cons_of_neg (by simpa using hc)]
      cases schemas c.table with
      | none => rfl
      | some schema => simp [eventOf, cdcEvent, hc]

theorem foldl_applyChange_filter (h : t table = t' table) (cs : List Change) :
    cs.foldl applyChange t table = (cs.filter (·.table = table)).foldl applyChange t' table := by
  induction cs generalizing t t' with
  | nil => exact h
  | cons c cs ih =>
    by_cases hc : c.table = table
    · subst hc
      rw [List.filter_cons_of_pos (by simp)]
      exact ih (by rw [applyChange_self, applyChange_self, h])
    · rw [List.filter_cons_of_neg (by simpa using hc)]
      exact ih (by rw [applyChange_ne (Ne.symm hc), h])

end History

section Replay

variable [Scalars F] {schemas : String → Option TableSchema} {schema : TableSchema}
  {state : OrderedMap Bytes (Option Image)} {rows : OrderedMap Bytes Bytes}

variable (F schema) in
structure Mirrors (state : OrderedMap Bytes (Option Image)) (rows : OrderedMap Bytes Bytes) :
    Prop where
  rows : ∀ key, state.get? (hexEncode key) =
    (rows.get? key).map fun value => some (cellsToJson schema (parseRow F value))
  keys : ∀ text, (state.get? text).isSome → ∃ key, text = hexEncode key

theorem Mirrors.insert (h : Mirrors F schema state rows) (key value : Bytes) :
    Mirrors F schema (state.insert (hexEncode key) (some (cellsToJson schema (parseRow F value))))
      (rows.insert key value) := by
  constructor
  · intro k
    by_cases hk : k = key
    · subst hk
      simp [OrderedMap.get?_insert]
    · have hhex : hexEncode k ≠ hexEncode key := fun heq => hk (hexEncode_injective heq)
      rw [OrderedMap.get?_insert, OrderedMap.get?_insert, if_neg hhex, if_neg hk]
      exact h.rows k
  · intro text
    rw [OrderedMap.get?_insert]
    split
    · rename_i htext
      exact fun _ => ⟨key, htext⟩
    · exact h.keys text

theorem Mirrors.erase (h : Mirrors F schema state rows) (key : Bytes) :
    Mirrors F schema (state.erase (hexEncode key)) (rows.erase key) := by
  constructor
  · intro k
    by_cases hk : k = key
    · subst hk
      simp [OrderedMap.get?_erase]
    · have hhex : hexEncode k ≠ hexEncode key := fun heq => hk (hexEncode_injective heq)
      rw [OrderedMap.get?_erase, OrderedMap.get?_erase, if_neg hhex, if_neg hk]
      exact h.rows k
  · intro text
    rw [OrderedMap.get?_erase]
    split
    · simp
    · exact h.keys text

theorem mirrors_foldl (hschema : schemas table = some schema) {records : List (ℤ × CdcEvent)}
    (hcutoff : ∀ r ∈ records, r.1 ≤ cutoff)
    (htable : ∀ c ∈ cs, c.table = table) (hrecords : records.map Prod.snd = history F schemas t cs)
    (h : Mirrors F schema state (t table)) :
    Mirrors F schema (records.foldl (replay cutoff) state) (cs.foldl applyChange t table) := by
  induction cs generalizing records state t with
  | nil =>
    obtain rfl : records = [] := by simpa [history] using hrecords
    exact h
  | cons c cs ih =>
    obtain rfl := htable c (by simp)
    simp only [history, hschema] at hrecords
    obtain ⟨⟨ts, e⟩, rest, rfl, rfl, hrest⟩ := List.map_eq_cons_iff.mp hrecords
    have hts : ts ≤ cutoff := hcutoff _ List.mem_cons_self
    rw [List.foldl_cons, List.foldl_cons]
    refine ih (fun r hr => hcutoff r (by simp [hr])) (fun d hd => htable d (by simp [hd])) hrest ?_
    rw [applyChange_self, changeRows, replay, if_neg (by omega)]
    cases hvalue : c.value with
    | none =>
      simp only [eventOf, hvalue]
      exact h.erase c.key
    | some value =>
      have hop : (eventOf F t c schema).op ≠ .delete := by
        simp only [eventOf, hvalue, cdcEvent]
        cases (t c.table).get? c.key <;> simp
      rw [if_neg hop]
      simp only [eventOf, hvalue]
      exact h.insert c.key value

theorem Mirrors.get?_iff (h : Mirrors F schema state rows) {text : Bytes} :
    state.get? text = some image ↔ ∃ key value, text = hexEncode key ∧ rows.get? key = some value ∧
      image = some (cellsToJson schema (parseRow F value)) := by
  constructor
  · intro hget
    obtain ⟨key, rfl⟩ := h.keys text (by simp [hget])
    rw [h.rows, map_eq_some_iff] at hget
    obtain ⟨value, hvalue, rfl⟩ := hget
    exact ⟨key, value, rfl, hvalue, rfl⟩
  · rintro ⟨key, value, rfl, hvalue, rfl⟩
    rw [h.rows, hvalue]
    rfl

theorem mirrors_timeTravel (hschema : schemas table = some schema)
    (hcutoff : ∀ r ∈ records, r.1 ≤ cutoff)
    (hrecords : records.map Prod.snd =
      history F schemas (fun _ => .empty) (cs.filter (·.table = table))) :
    Mirrors F schema (fluxTimeTravel cutoff records) (tablesAfter cs table) := by
  rw [tablesAfter, foldl_applyChange_filter rfl]
  exact mirrors_foldl hschema hcutoff (by simp) hrecords ⟨by simp, by simp⟩

end Replay

def allChanges (w : World ρ) : List Change :=
  w.commits.flatten ++ (w.txn.map Txn.staged).getD []

theorem allChanges_change : allChanges (w.change w.handle c) = allChanges w ++ [c] := by
  cases htxn : w.txn with
  | none | some t => simp [allChanges, World.change, World.handle, htxn]

theorem handle_change (w : World ρ) : (w.change handle c).handle = w.handle := by
  unfold World.change
  split
  case h_1 t htxn => simp [World.handle, htxn]
  case h_2 => rfl

def Faithful (F : Type) [Scalars F] (json : Bool) : Event → Prop
  | .read _ _ _ _ => True
  | .wrote _ schema _ cells _ => parseRow F (buildRowValue F json schema cells) = cells

instance (F : Type) [Scalars F] (json : Bool) : DecidablePred (Faithful F json)
  | .read _ _ _ _ => isTrue trivial
  | .wrote .. => inferInstanceAs (Decidable (_ = _))

section State

variable (F) [Scalars F] (json : Bool) (schemas : String → Option TableSchema)

structure Announced (handle : Option Unit) (w : World ρ) : Prop where
  handle_eq : w.handle = handle
  schemas_eq : w.schemas = schemas
  others : w.others = []
  snapshot : ∀ t, w.txn = some t → t.snapshot = w.commits.length
  known : ∀ c ∈ allChanges w, (schemas c.table).isSome
  cdc : (∀ e ∈ w.trace, Faithful F json e) →
    w.cdc = history F schemas (fun _ => .empty) (allChanges w)

variable {F json schemas} {handle : Option Unit} {w w' : World ρ}
  (h : Announced F json schemas handle w)

include h

theorem Announced.view : w.view handle = tablesAfter (allChanges w) := by
  rw [← h.handle_eq]
  cases htxn : w.txn with
  | none => simp [World.view, World.handle, World.latest, allChanges, htxn]
  | some t =>
    have hsnapshot := h.snapshot t htxn
    simp [World.view, World.handle, World.txnView, allChanges, htxn, hsnapshot]

theorem Announced.same (hsame : Same w w') : Announced F json schemas handle w' := by
  obtain ⟨reads, htrace, -⟩ := hsame.trace
  have hall : allChanges w' = allChanges w := by simp only [allChanges, hsame.commits, hsame.txn]
  constructor
  case handle_eq => rw [World.handle, hsame.txn]; exact h.handle_eq
  case schemas_eq => exact hsame.schemas.trans h.schemas_eq
  case others => exact hsame.others.trans h.others
  case snapshot =>
    rw [hsame.txn, hsame.commits]
    exact h.snapshot
  case known =>
    rw [hall]
    exact h.known
  case cdc =>
    intro hfaithful
    rw [hall, hsame.cdc]
    refine h.cdc fun e he => hfaithful e ?_
    rw [htrace]
    exact List.mem_append_left _ he

def changedWith (handle : Option Unit) (c : Change) (events : List CdcEvent) (seen : List Event)
    (w : World ρ) : World ρ :=
  { w.change handle c with cdc := w.cdc ++ events, trace := w.trace ++ seen }

variable {schema : TableSchema} {events : List CdcEvent}

theorem Announced.change (hschema : schemas c.table = some schema)
    (hevents : (∀ e ∈ seen, Faithful F json e) → events = [eventOf F (w.view handle) c schema]) :
    Announced F json schemas handle (changedWith handle c events seen w) := by
  have hkeeps := change_keeps w handle c
  have hall : allChanges (changedWith handle c events seen w) = allChanges w ++ [c] := by
    rw [← allChanges_change, h.handle_eq]
    rfl
  constructor
  case handle_eq => exact (handle_change w).trans h.handle_eq
  case schemas_eq => exact hkeeps.1.trans h.schemas_eq
  case others => exact hkeeps.2.1.trans h.others
  case snapshot =>
    intro t' ht'
    cases htxn : w.txn with
    | none => simp [changedWith, World.change, htxn] at ht'
    | some t =>
      have hhandle : handle = some () := by rw [← h.handle_eq, World.handle, htxn]; rfl
      subst hhandle
      simp only [changedWith, World.change, htxn, Option.some.injEq] at ht' ⊢
      subst ht'
      exact h.snapshot t htxn
  case known =>
    rw [hall]
    simp only [List.forall_mem_append]
    exact ⟨h.known, by simp [hschema]⟩
  case cdc =>
    simp only [changedWith, List.forall_mem_append]
    rintro ⟨hpast, hseen⟩
    rw [show
      allChanges { w.change handle c with cdc := w.cdc ++ events, trace := w.trace ++ seen } =
        allChanges w ++ [c] from hall, history_append, ← h.cdc hpast, hevents hseen, h.view]
    simp [history, hschema, tablesAfter]

variable {table : String} {key : Bytes}

omit h in
theorem written_eq : written F json handle table schema key cells events w =
      changedWith handle ⟨table, key, some (buildRowValue F json schema cells)⟩ events
        [.wrote table schema key cells (w.view handle)] w := by
  simp only [written, changedWith, World.change, World.observe]
  split <;> rfl

omit h in
theorem deleted_eq : deleted handle table key events w =
    changedWith handle ⟨table, key, none⟩ events [] w := by
  simp only [deleted, changedWith, World.change, List.append_nil]
  split <;> rfl

def Current (handle : Option Unit) (table : String) (w : World ρ) (kv : KeyValue) : Prop :=
  (w.view handle table).get? kv.1 = some kv.2

theorem Announced.inserted (hschema : schemas table = some schema)
    (hnew : (w.view handle table).get? key = none) :
    Announced F json schemas handle (written F json handle table schema key cells
      [cdcEvent .insert table key none (some cells) schema] w) := by
  rw [written_eq]
  refine h.change hschema fun hseen => ?_
  have hcells : parseRow F (buildRowValue F json schema cells) = cells :=
    hseen (.wrote table schema _ cells _) List.mem_cons_self
  simp [eventOf, hnew, hcells]

variable {kv : KeyValue}

theorem Announced.updated (hschema : schemas table = some schema) (cells : Row)
    (hcurrent : Current handle table w kv) :
    Announced F json schemas handle (written F json handle table schema kv.1 cells
      [cdcEvent .update table kv.1 (some (parseRow F kv.2)) (some cells) schema] w) := by
  rw [written_eq]
  refine h.change hschema fun hseen => ?_
  have hcells : parseRow F (buildRowValue F json schema cells) = cells :=
    hseen (.wrote table schema _ cells _) List.mem_cons_self
  unfold Current at hcurrent
  simp [eventOf, hcurrent, hcells]

theorem Announced.deleted (hschema : schemas table = some schema)
    (hcurrent : Current handle table w kv) :
    Announced F json schemas handle (WireSessionRows.deleted handle table kv.1
      [cdcEvent .delete table kv.1 (some (parseRow F kv.2)) none schema] w) := by
  rw [deleted_eq]
  refine h.change hschema fun _ => ?_
  unfold Current at hcurrent
  simp [eventOf, hcurrent]

theorem Announced.filter_unknown (hnone : schemas table = none) :
    (allChanges w).filter (·.table = table) = [] := by
  rw [List.filter_eq_nil_iff]
  intro c hc htable
  have hknown := h.known c hc
  rw [of_decide_eq_true htable, hnone] at hknown
  cases hknown

theorem Announced.schema_of_current (hcurrent : Current handle table w kv) :
    ∃ schema, schemas table = some schema := by
  rw [Current, h.view] at hcurrent
  cases hschema : schemas table with
  | some schema => exact ⟨schema, rfl⟩
  | none =>
    have hrows : tablesAfter (allChanges w) table = .empty := by
      rw [tablesAfter, foldl_applyChange_filter rfl, h.filter_unknown hschema]
      rfl
    rw [hrows] at hcurrent
    simp at hcurrent

omit h

theorem Current.same (h : Current handle table w kv) (hsame : Same w w') :
    Current handle table w' kv := by
  rw [Current, hsame.view]
  exact h

theorem Current.changedWith (hcurrent : Current handle table w kv)
    (h : Announced F json schemas handle w) (hkey : kv.1 ≠ c.key)
    (h' : Announced F json schemas handle (changedWith handle c events seen w)) :
    Current handle table (WireSessionCdc.changedWith handle c events seen w) kv := by
  have hall : allChanges (WireSessionCdc.changedWith handle c events seen w) =
    allChanges w ++ [c] := by
    rw [← allChanges_change, h.handle_eq]
    rfl
  rw [Current, h'.view, hall, tablesAfter_append, ← h.view]
  by_cases htable : table = c.table
  · subst htable
    rw [applyChange_self, changeRows]
    cases c.value with
    | none => rwa [OrderedMap.get?_erase, if_neg hkey]
    | some value => rwa [OrderedMap.get?_insert, if_neg hkey]
  · rwa [applyChange_ne htable]

variable (F json schemas) in
structure Visited (handle : Option Unit) (table : String) (kv : KeyValue) (w w' : World ρ) :
    Prop where
  announced : Announced F json schemas handle w'
  others : ∀ kv', kv'.1 ≠ kv.1 → Current handle table w kv' → Current handle table w' kv'

theorem Announced.visited_same (h : Announced F json schemas handle w) (hsame : Same w w') :
    Visited F json schemas handle table kv w w' :=
  ⟨h.same hsame, fun _ _ hkv' => hkv'.same hsame⟩

variable (F json schemas) in
def Visit (handle : Option Unit) (table : String) (visit : KeyValue → M ρ Bool) : Prop :=
  ∀ kv w, Announced F json schemas handle w → Current handle table w kv →
    Visited F json schemas handle table kv w ((visit kv).run.run w).2

theorem Visit.countRows (hvisit : Visit F json schemas handle table visit)
    (hkeys : (rows.map Prod.fst).Nodup) (h : Announced F json schemas handle w)
    (hrows : ∀ kv ∈ rows, Current handle table w kv) :
    Announced F json schemas handle ((countRows visit rows).run.run w).2 := by
  induction rows generalizing w with
  | nil => exact h
  | cons kv rest ih =>
    obtain ⟨hannounced, hothers⟩ := hvisit kv w h (hrows kv (by simp))
    rw [List.map_cons, List.nodup_cons] at hkeys
    have hcurrent : ∀ kv' ∈ rest, Current handle table ((visit kv).run.run w).2 kv' := by
      intro kv' hkv'
      refine hothers kv' ?_ (hrows kv' (by simp [hkv']))
      intro heq
      exact hkeys.1 (heq ▸ List.mem_map_of_mem hkv')
    rw [countRows, run_bind]
    rcases hrun : (visit kv).run.run w with ⟨e | hit, w₁⟩
    · rwa [hrun] at hannounced
    · rw [hrun] at hannounced hcurrent
      have hrest := ih hkeys.2 hannounced hcurrent
      dsimp only
      rw [run_bind]
      rcases hmore : (countRows visit rest).run.run w₁ with ⟨e | n, w₂⟩
      · rwa [hmore] at hrest
      · rwa [hmore] at hrest

end State

def FreshKeys (rest : WriteDb (M ρ) F Unit) : Prop :=
  ∀ w key w', rest.randomKey.run.run w = (.ok key, w') →
    ∀ handle table, (w.view handle table).get? key = none

section Statements

variable [Scalars F] {rest : WriteDb (M ρ) F Unit} {json : Bool}
  {schemas : String → Option TableSchema} {handle : Option Unit} (apart : Apart rest)

include apart

variable {table : String} {schema : TableSchema}

theorem announced_insertRow (fresh : FreshKeys rest) (hschema : schemas table = some schema) :
    Keeps (Announced F json schemas handle) _
      (insertRow (sessionDb json rest) (executeSelect (sessionDb json rest).toDb depth)
        handle table schema columns params values) := by
  intro w hw
  refine (insertRow_outcome apart hw.others depth columns params values).state hw.same ?_
  rintro _ w' ⟨mid, key, cells, hinserted, rfl⟩
  refine (hw.same hinserted.same).inserted hschema ?_
  rw [hinserted.same.view]
  by_cases hpk : schema.pkColumns = []
  · obtain ⟨w₁, w₂, hw₁, hkey⟩ := hinserted.drawn hpk
    rw [← hw₁.view]
    exact fresh w₁ key w₂ hkey handle table
  · exact (hinserted.newKey hpk).2

theorem announced_insertRows (fresh : FreshKeys rest) (hschema : schemas table = some schema) :
    Keeps (Announced F json schemas handle) _
      (insertRows (sessionDb json rest) (executeSelect (sessionDb json rest).toDb depth)
        handle table schema columns params values) := by
  have closed : Closed EvalError (Keeps (Announced (ρ := ρ) F json schemas handle)) := closed_keeps
  induction values with
  | nil => exact closed.pure _
  | cons values more ih =>
    refine closed.bind (announced_insertRow apart fresh hschema) fun _ => ?_
    exact closed.map ih

theorem visit_update (hschema : schemas stmt.table = some schema) :
    Visit F json schemas handle stmt.table (updateRow (sessionDb json rest)
      (executeSelect (sessionDb json rest).toDb depth) stmt handle schema params) := by
  intro kv w hw hcurrent
  refine (updateRow_outcome apart hw.others depth stmt params kv).state
    hw.visited_same ?_
  rintro (_ | _) w' hout
  · exact hw.visited_same hout
  · obtain ⟨mid, cells, ⟨hsame, -, -⟩, rfl⟩ := hout
    have hmid := hw.same hsame
    have hupdated := hmid.updated hschema cells (hcurrent.same hsame)
    refine ⟨hupdated, fun kv' hne hkv' => ?_⟩
    rw [written_eq] at hupdated ⊢
    exact (hkv'.same hsame).changedWith hmid hne hupdated

theorem visit_delete : Visit F json schemas handle stmt.table (deleteRow (sessionDb json rest)
      (executeSelect (sessionDb json rest).toDb depth) stmt handle
        (schemas stmt.table) params) := by
  intro kv w hw hcurrent
  refine (deleteRow_outcome apart hw.others depth stmt _ params kv).state
    hw.visited_same ?_
  rintro (_ | _) w' hout
  · exact hw.visited_same hout
  · obtain ⟨mid, hsame, rfl⟩ := hout
    have hmid := hw.same hsame
    obtain ⟨schema, hschema⟩ := hw.schema_of_current hcurrent
    rw [hschema, map_some, toList_some]
    have hdeleted := hmid.deleted hschema (hcurrent.same hsame)
    refine ⟨hdeleted, fun kv' hne hkv' => ?_⟩
    rw [deleted_eq] at hdeleted ⊢
    exact (hkv'.same hsame).changedWith hmid hne hdeleted

/-- Queries, cursors and COPY TO only look. -/
theorem looks_select :
    Steps Looks _ (executeSelect (sessionDb json rest).toDb depth query [] [] params handle) :=
  executeSelect_closed closed_looks (serving_looks apart json handle)
    (.inl (serving_looks apart json none))

theorem looks_copyOut : Steps Looks _ (copyOut (sessionDb json rest) stmt) := by
  have reading := reading_looks apart json none
  exact ExecutorDmlEffects.copyOut_closed closed_looks (reading.getTable _) (reading.txnScan _)

omit apart in
/-- Queries without table functions change nothing, whatever they read and wherever they fail. -/
theorem queries_change_nothing (beside : Beside rest) (queries : List (SelectStmt F))
    (tables : ∀ query ∈ queries, ∀ r, Reaches query r → IsTable r) (hw : w.others = []) :
    Same w ((queries.map .select).foldl (after (sessionDb json rest) depth params) w) := by
  induction queries generalizing w with
  | nil => exact .refl w
  | cons query queries ih =>
    have step : Steps Looks _ (execute (sessionDb json rest) depth params (.select query)) := by
      refine closed_looks.bind (fun w _ => .refl w) fun txn => closed_looks.map ?_
      exact executeSelect_closedFor closed_looks _ _ _ _ _ _ (tables_looks json beside txn)
        (.inl (tables_looks json beside none)) (tables query (by simp))
    have same := step w hw
    exact same.trans (ih (fun q hq => tables q (by simp [hq])) (same.others.trans hw))

omit apart in
theorem queries_change_nothing_keyed :
    Same keyedWorld (([fromT, fromT].map Stmt.select).foldl (after tableDb 3 []) keyedWorld) :=
  queries_change_nothing apart_tablesOnly.toBeside [fromT, fromT]
    (by simpa using reaches_fromT) rfl

def Announces (w : World ρ) : Stmt F → Prop
  | .copyIn _ _ => False
  | .rollback => ∀ t, w.txn = some t → t.staged = []
  | _ => True

omit apart in
/-- The changes are the same ones, wherever they stand. -/
theorem Announced.moved (h : Announced F json schemas handle w)
    (hschemas : w'.schemas = w.schemas) (hothers : w'.others = w.others) (hcdc : w'.cdc = w.cdc)
    (htrace : w'.trace = w.trace) (hall : allChanges w' = allChanges w)
    (hsnapshot : ∀ t, w'.txn = some t → t.snapshot = w'.commits.length) :
    Announced F json schemas w'.handle w' := by
  constructor
  case handle_eq => rfl
  case schemas_eq => exact hschemas.trans h.schemas_eq
  case others => exact hothers.trans h.others
  case snapshot => exact hsnapshot
  case known =>
    rw [hall]
    exact h.known
  case cdc =>
    rw [hall, hcdc, htrace]
    exact h.cdc

variable {w : World ρ}

omit apart in
theorem Announced.self (h : Announced F json schemas handle w) :
    Announced F json schemas w.handle w := h.handle_eq ▸ h

omit apart in
theorem announced_scan (hvisit : Visit F json schemas handle table visit)
    (h : Announced F json schemas handle w) :
    Announced F json schemas handle
      (((sessionDb json rest).txnScan handle table >>= countRows visit).run.run w).2 := by
  have hscan : ((sessionDb json rest).txnScan handle table).run.run w = _ :=
    run_txnScan h.others
  have hsame : Same w (w.observe (readEvent w handle table none)) :=
    same_observe w ⟨_, _, _, _, rfl⟩
  rw [run_bind, hscan]
  refine hvisit.countRows (w.view handle table).nodup_keys (h.same hsame) fun kv hkv => ?_
  exact Current.same (OrderedMap.get?_eq_some.mpr hkv) hsame

omit apart in
theorem announced_looks (hx : Steps Looks _ x) (h : Announced F json schemas handle w) :
    Announced F json schemas handle (x.run.run w).2 := h.same (hx w h.others)

omit [Scalars F] apart in
theorem same_cursors : Same w { w with cursors := cursors } :=
  ⟨rfl, rfl, rfl, rfl, rfl, [], by simp, by simp⟩

omit [Scalars F] apart in
theorem run_map_state {x : M ρ α} {g : α → β} {P : World ρ → Prop} (h : P (x.run.run w).2) :
    P ((x >>= fun a => pure (g a)).run.run w).2 := by
  rw [run_bind]
  rcases hrun : x.run.run w with ⟨e | a, w'⟩
  · rwa [hrun] at h
  · rwa [hrun] at h

theorem announced_execute (fresh : FreshKeys rest)
    (ok : Announces w stmt) (h : Announced F json schemas w.handle w) :
    Announced F json schemas (after (sessionDb json rest) depth params w stmt).handle
      (after (sessionDb json rest) depth params w stmt) := by
  match stmt with
  | .insert stmt =>
    refine Announced.self (?_ : Announced F json schemas w.handle _)
    rw [after, execute, run_bind, run_currentTxn]
    refine run_map_state ?_
    rw [executeInsert, run_bind, run_getTable h.others, h.schemas_eq]
    cases hschema : schemas stmt.table with
    | none => exact h
    | some schema => exact announced_insertRows apart fresh hschema w h
  | .update stmt =>
    refine Announced.self (?_ : Announced F json schemas w.handle _)
    rw [after, execute, run_bind, run_currentTxn]
    refine run_map_state ?_
    rw [executeUpdate, run_bind, run_getTable h.others, h.schemas_eq]
    cases hschema : schemas stmt.table with
    | none => exact h
    | some schema => exact announced_scan (visit_update apart hschema) h
  | .delete stmt =>
    refine Announced.self (?_ : Announced F json schemas w.handle _)
    rw [after, execute, run_bind, run_currentTxn]
    refine run_map_state ?_
    rw [executeDelete, run_bind, run_getTable h.others, h.schemas_eq]
    exact announced_scan (visit_delete apart) h
  | .select query =>
    refine (announced_looks ?_ h).self
    refine closed_looks.bind (fun w _ => .refl w) fun txn => ?_
    exact closed_looks.map (looks_select apart)
  | .copyOut stmt =>
    refine (announced_looks ?_ h).self
    exact closed_looks.map (looks_copyOut apart)
  | .declareCursor name query =>
    refine (announced_looks ?_ h).self
    refine closed_looks.bind (looks_select apart) fun _ w _ => ?_
    exact same_cursors
  | .fetch name count =>
    refine (announced_looks (fun w _ => ?_) h).self
    change Same w (fetch name count w).2
    unfold fetch
    split
    · exact .refl w
    · exact same_cursors
  | .begin =>
    rw [after_begin h.others]
    cases htxn : w.txn with
    | some t => exact h
    | none =>
      refine h.moved rfl rfl rfl rfl (by simp [allChanges, htxn]) fun t ht => ?_
      cases ht
      rfl
  | .commit =>
    rw [after_commit h.others]
    cases htxn : w.txn with
    | none => exact h
    | some t => exact h.moved rfl rfl rfl rfl (by simp [allChanges, htxn]) (by simp)
  | .rollback =>
    rw [after_rollback h.others]
    refine h.moved rfl rfl rfl rfl ?_ (by simp)
    cases htxn : w.txn with
    | none => simp [allChanges, htxn]
    | some t => simp [allChanges, htxn, ok t htxn]

omit apart in
def AllAnnounce (db : WriteDb (M ρ) F Unit) (depth : ℕ) (params : List (Value F)) :
    World ρ → List (Stmt F) → Prop
  | _, [] => True
  | w, stmt :: stmts =>
    Announces w stmt ∧ AllAnnounce db depth params (after db depth params w stmt) stmts

theorem announced_run (fresh : FreshKeys rest) (h : Announced F json schemas w.handle w)
    (ok : AllAnnounce (sessionDb json rest) depth params w stmts) :
    Announced F json schemas
      (stmts.foldl (after (sessionDb json rest) depth params) w).handle
      (stmts.foldl (after (sessionDb json rest) depth params) w) := by
  induction stmts generalizing w with
  | nil => exact h
  | cons stmt stmts ih => exact ih (announced_execute apart fresh ok.1 h) ok.2

/-- For one session at a time, the topic of a table is the history of its changes, and a replay of
all its records shows the rows of the table. -/
theorem cdc_is_history (fresh : FreshKeys rest) (depth : ℕ) (params : List (Value F)) {w : World ρ}
    (start : WireSessionConstraints.Fresh schemas w) (silent : w.cdc = []) (stmts : List (Stmt F))
    (ok : AllAnnounce (sessionDb json rest) depth params w stmts) {w' : World ρ}
    (run : w' = stmts.foldl (after (sessionDb json rest) depth params) w)
    (faithful : ∀ e ∈ w'.trace, Faithful F json e) (idle : w'.txn = none) (table : String) :
    topic table w'.cdc = history F schemas (fun _ => .empty)
      (w'.commits.flatten.filter (·.table = table)) ∧
      ∀ (cutoff : ℤ) (records : List (ℤ × CdcEvent)), records.map Prod.snd = topic table w'.cdc →
        (∀ r ∈ records, r.1 ≤ cutoff) → ∀ text image,
          (fluxTimeTravel cutoff records).get? text = some image ↔
            ∃ schema key value, schemas table = some schema ∧ text = hexEncode key ∧
              (w'.latest table).get? key = some value ∧
              image = some (cellsToJson schema (parseRow F value)) := by
  have hstart : Announced F json schemas w.handle w := by
    have hall : allChanges w = [] := by simp [allChanges, start.commits, start.txn]
    refine ⟨rfl, start.schemas_eq, start.others, by simp [start.txn], by simp [hall], fun _ => ?_⟩
    rw [hall, silent]
    rfl
  have hannounced := announced_run apart fresh hstart ok
  rw [← run] at hannounced
  have hall : allChanges w' = w'.commits.flatten := by simp [allChanges, idle]
  have htopic := hannounced.cdc faithful
  rw [hall] at htopic
  have hhistory : topic table w'.cdc =
      history F schemas (fun _ => .empty) (w'.commits.flatten.filter (·.table = table)) := by
    rw [htopic]
    exact topic_history rfl
  refine ⟨hhistory, fun cutoff records hrecords hcutoff text image => ?_⟩
  rw [hhistory] at hrecords
  cases hschema : schemas table with
  | some schema =>
    rw [(mirrors_timeTravel hschema hcutoff hrecords).get?_iff]
    simp [World.latest]
  | none =>
    have hnone := hannounced.filter_unknown hschema
    rw [hall] at hnone
    rw [hnone] at hrecords
    obtain rfl : records = [] := by simpa [history] using hrecords
    simp [fluxTimeTravel]

end Statements

def keyedOnly : WriteDb (M Unit) Unit Unit := { tablesOnly Unit with randomKey := throw .panic }

theorem apart_keyedOnly : Apart keyedOnly :=
  { apart_tablesOnly with randomKey := fun w => .refl w }

def updateT (v : String) : Stmt Unit := .update ⟨"t", [("v", text v)], none⟩

theorem cdc_is_history_keyed :
    let stmts := [insertT [[text "1", text "a"]], .begin, updateT "b", .commit, .begin, .rollback,
      insertT [[text "1", text "c"]], insertT [[text "2", text "c"]]]
    let w' := stmts.foldl (after (sessionDb false keyedOnly) 3 []) keyedWorld
    topic "t" w'.cdc = history Unit keyedWorld.schemas (fun _ => .empty)
        (w'.commits.flatten.filter (·.table = "t")) ∧
      ∀ (cutoff : ℤ) (records : List (ℤ × CdcEvent)), records.map Prod.snd = topic "t" w'.cdc →
        (∀ r ∈ records, r.1 ≤ cutoff) → ∀ text image,
          (fluxTimeTravel cutoff records).get? text = some image ↔
            ∃ schema key value, keyedWorld.schemas "t" = some schema ∧ text = hexEncode key ∧
              (w'.latest "t").get? key = some value ∧
              image = some (cellsToJson schema (parseRow Unit value)) := by
  intro stmts w'
  refine cdc_is_history apart_keyedOnly ?_ 3 [] ⟨rfl, rfl, rfl, rfl,
    rfl⟩ rfl stmts ?_ rfl ?_ rfl "t"
  · intro w key w' h
    cases h
  · refine ⟨trivial, trivial, trivial, trivial, trivial, ?_, trivial, trivial, trivial⟩
    intro t ht
    cases ht
    rfl
  · decide +kernel

/-- A row that is rolled back stays in the topic and `flux_time_travel` shows it; a row that COPY
writes is in the table only. -/
theorem cdc_differs_from_commits :
    let rolledBack := [.begin, insertT [[text "1", text "a"]], .rollback].foldl (after tableDb 3 [])
      keyedWorld
    let copied := after tableDb 3 [] keyedWorld (.copyIn ⟨"t", []⟩ (DecimalText.utf8 "1\ta\n"))
    let records (w : World Unit) := (topic "t" w.cdc).map fun e => ((0 : ℤ), e)
    (rolledBack.latest "t").entries = [] ∧ rolledBack.txn = none ∧
      (fluxTimeTravel 0 (records rolledBack)).entries =
        [(hexEncode (DecimalText.utf8 "1"), some [("id", some (DecimalText.utf8 "1")),
          ("v", some (DecimalText.utf8 "a"))])] ∧
      (copied.latest "t").entries.length = 1 ∧ topic "t" copied.cdc = [] := by
  refine ⟨rfl, rfl, rfl, rfl, rfl⟩

end WireSessionCdc
