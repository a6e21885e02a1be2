import Keystone.WireSession
import Keystone.WorklistSearch

/-! # Roles and privileges

Memberships and grants are rows of two catalog tables. A role holds what is granted to it or to a
role it belongs to, over any number of memberships. Before a statement runs, its shape decides which
privileges are asked for; the names of the tables come from a walk over parts of the statement. -/
namespace ExecutorRbac

open ByteCodecs DecimalText ExecutorSelect List Option SqlAst StorageInternalKey WireSession
  WorklistSearch

variable {F δ : Type}

inductive Privilege where
  | select | insert | update | delete | create | drop | usage | all
  deriving DecidableEq

def Privilege.asStr : Privilege → String
  | .select => "select"
  | .insert => "insert"
  | .update => "update"
  | .delete => "delete"
  | .create => "create"
  | .drop => "drop"
  | .usage => "usage"
  | .all => "all"

inductive GrantObject where
  | table (name : Bytes)
  | database
  | topic (name : Bytes)
  deriving DecidableEq

def GrantObject.kind : GrantObject → String
  | .table _ => "TABLE"
  | .database => "DATABASE"
  | .topic _ => "TOPIC"

def GrantObject.name : GrantObject → Bytes
  | .table name | .topic name => name
  | .database => []

def GrantObject.label : GrantObject → Bytes
  | .table name => utf8 "TABLE " ++ name
  | .database => utf8 "DATABASE"
  | .topic name => utf8 "TOPIC " ++ name

def isInternalTable (name : String) : Bool := "_tpt_".toList.isPrefixOf name.toList

def roleMembersTable : String := "_tpt_role_members"
def privilegesTable : String := "_tpt_privileges"

def cellStr (value : Bytes) (idx : ℕ) : Option Bytes :=
  (decodeCells (fun _ => none) value.length value idx).filter validUtf8

def directMemberships (role : Bytes) : List KeyValue → Option (List Bytes)
  | [] => some []
  | kv :: rows => do
    let member ← cellStr kv.2 1
    if member = role then do
      let group ← cellStr kv.2 2
      let rest ← directMemberships role rows
      some (group :: rest)
    else directMemberships role rows

def allMemberships (tables : Tables) (role : Bytes) : Option (List Bytes) :=
  let rows := (tables roleMembersTable).entries
  search (fun r => directMemberships r rows) (rows.length + 1) [role] []

def hasGrant (role : Bytes) (privilege : Privilege) (object : GrantObject) :
    List KeyValue → Option Bool
  | [] => some false
  | kv :: rows => do
    let grantee ← cellStr kv.2 1
    if grantee ≠ role then hasGrant role privilege object rows
    else do
      let kind ← cellStr kv.2 3
      if kind ≠ utf8 object.kind then hasGrant role privilege object rows
      else do
        let name ← cellStr kv.2 4
        if name ≠ object.name then hasGrant role privilege object rows
        else do
          let stored ← cellStr kv.2 2
          if stored = utf8 Privilege.all.asStr ∨ stored = utf8 privilege.asStr then some true
          else hasGrant role privilege object rows

def anyGrant (tables : Tables) (privilege : Privilege) (object : GrantObject) :
    List Bytes → Option Bool
  | [] => some false
  | role :: roles => do
    let granted ← hasGrant role privilege object (tables privilegesTable).entries
    if granted then some true else anyGrant tables privilege object roles

def hasPrivilege (tables : Tables) (role : Bytes) (privilege : Privilege) (object : GrantObject) :
    Option Bool := do
  let groups ← allMemberships tables role
  anyGrant tables privilege object (role :: groups)

def Member (tables : Tables) (role group : Bytes) : Prop :=
  ∃ kv ∈ (tables roleMembersTable).entries, cellStr kv.2 1 = some role ∧ cellStr kv.2 2 = some group

structure Grants (role : Bytes) (privilege : Privilege) (object : GrantObject) (value : Bytes) :
    Prop where
  grantee : cellStr value 1 = some role
  kind : cellStr value 3 = some (utf8 object.kind)
  name : cellStr value 4 = some object.name
  privilege : cellStr value 2 = some (utf8 Privilege.all.asStr) ∨
    cellStr value 2 = some (utf8 privilege.asStr)

def Granted (tables : Tables) (role : Bytes) (privilege : Privilege) (object : GrantObject) :
    Prop :=
  ∃ kv ∈ (tables privilegesTable).entries, Grants role privilege object kv.2

def Holds (tables : Tables) (role : Bytes) (privilege : Privilege) (object : GrantObject) : Prop :=
  ∃ group, Relation.ReflTransGen (Member tables) role group ∧ Granted tables group privilege object

section Held

variable {tables : Tables} {role : Bytes} {privilege : Privilege} {object : GrantObject}

variable {rows : List KeyValue}

theorem mem_directMemberships (h : directMemberships role rows = some groups) :
    group ∈ groups ↔ ∃ kv ∈ rows, cellStr kv.2 1 = some role ∧ cellStr kv.2 2 = some group := by
  induction rows generalizing groups with
  | nil =>
    cases h
    simp
  | cons kv rows ih =>
    simp only [directMemberships, bind_eq_bind, bind_eq_some_iff] at h
    obtain ⟨member, hmember, h⟩ := h
    by_cases hrole : member = role
    · subst hrole
      simp only [if_true, bind_eq_some_iff] at h
      obtain ⟨first, hfirst, rest, hrest, heq⟩ := h
      cases heq
      simp [ih hrest, hmember, hfirst, eq_comm]
    · simp only [hrole] at h
      simp [ih h, hmember, hrole]

theorem member_of_edge
    (h : Edge (fun r => directMemberships r (tables roleMembersTable).entries) a b) :
    Member tables a b := by
  obtain ⟨bs, hbs, hb⟩ := h
  exact (mem_directMemberships hbs).mp hb

theorem reachable_of_mem (h : allMemberships tables role = some groups)
    (hmem : group ∈ role :: groups) :
    Relation.ReflTransGen (Member tables) role group := by
  rcases mem_cons.mp hmem with rfl | hmem
  · exact .refl
  · have hreach := ((mem_search h).mp hmem).to_reflTransGen
    exact Relation.ReflTransGen.mono (fun _ _ => member_of_edge) _ _ hreach

theorem grants_of_hasGrant (h : hasGrant role privilege object rows = some true) :
    ∃ kv ∈ rows, Grants role privilege object kv.2 := by
  induction rows with
  | nil => cases h
  | cons kv rows ih =>
    have hlater (h : hasGrant role privilege object rows = some true) :
        ∃ kv' ∈ kv :: rows, Grants role privilege object kv'.2 := by
      obtain ⟨found, hfound, hgrants⟩ := ih h
      exact ⟨found, mem_cons_of_mem _ hfound, hgrants⟩
    simp only [hasGrant, bind_eq_bind, bind_eq_some_iff] at h
    obtain ⟨grantee, hgrantee, h⟩ := h
    by_cases hrole : grantee = role
    · simp only [hrole, ne_eq, not_true, if_false, bind_eq_some_iff] at h
      obtain ⟨kind, hkind, h⟩ := h
      by_cases hk : kind = utf8 object.kind
      · simp only [hk, not_true, if_false, bind_eq_some_iff] at h
        obtain ⟨name, hname, h⟩ := h
        by_cases hn : name = object.name
        · simp only [hn, not_true, if_false, bind_eq_some_iff] at h
          obtain ⟨stored, hstored, h⟩ := h
          by_cases hs : stored = utf8 Privilege.all.asStr ∨ stored = utf8 privilege.asStr
          · refine ⟨kv, mem_cons_self, hrole ▸ hgrantee, hk ▸ hkind, hn ▸ hname, ?_⟩
            rcases hs with rfl | rfl
            · exact .inl hstored
            · exact .inr hstored
          · rw [if_neg hs] at h
            exact hlater h
        · simp only [hn] at h
          exact hlater h
      · simp only [hk] at h
        exact hlater h
    · simp only [hrole, ne_eq] at h
      exact hlater h

/-- The check finds no privilege that is not held. -/
theorem holds_of_hasPrivilege (h : hasPrivilege tables role privilege object = some true) :
    Holds tables role privilege object := by
  simp only [hasPrivilege, bind_eq_bind, bind_eq_some_iff] at h
  obtain ⟨groups, hgroups, h⟩ := h
  have hreach group (hmem : group ∈ role :: groups) := reachable_of_mem hgroups hmem
  generalize role :: groups = roles at h hreach
  induction roles with
  | nil => cases h
  | cons first roles ih =>
    simp only [anyGrant, bind_eq_bind, bind_eq_some_iff] at h
    obtain ⟨granted, hgranted, h⟩ := h
    cases granted with
    | true => exact ⟨first, hreach first (by simp), grants_of_hasGrant hgranted⟩
    | false => exact ih h fun group hmem => hreach group (by simp [hmem])

def ReadableMembers (tables : Tables) : Prop :=
  ∀ kv ∈ (tables roleMembersTable).entries, (cellStr kv.2 1).isSome ∧ (cellStr kv.2 2).isSome

instance (tables : Tables) : Decidable (ReadableMembers tables) :=
  inferInstanceAs (Decidable (∀ kv ∈ (tables roleMembersTable).entries, _ ∧ _))

structure Readable (tables : Tables) : Prop where
  members : ReadableMembers tables
  privileges : ∀ kv ∈ (tables privilegesTable).entries, (cellStr kv.2 1).isSome ∧
    (cellStr kv.2 2).isSome ∧ (cellStr kv.2 3).isSome ∧ (cellStr kv.2 4).isSome

theorem directMemberships_isSome (h : ∀ kv ∈ rows, (cellStr kv.2 1).isSome ∧
    (cellStr kv.2 2).isSome) :
    (directMemberships role rows).isSome := by
  induction rows with
  | nil => rfl
  | cons kv rows ih =>
    obtain ⟨hmember, hgroup⟩ := h kv (by simp)
    obtain ⟨member, hmember⟩ := isSome_iff_exists.mp hmember
    obtain ⟨group, hgroup⟩ := isSome_iff_exists.mp hgroup
    obtain ⟨rest, hrest⟩ := isSome_iff_exists.mp (ih fun kv' hkv' => h kv' (by simp [hkv']))
    by_cases hrole : member = role
    · simp [directMemberships, hmember, hgroup, hrest, hrole]
    · simp [directMemberships, hmember, hrest, hrole]

theorem edge_iff_member (hread : ReadableMembers tables) :
    Edge (fun r => directMemberships r (tables roleMembersTable).entries) a b ↔
      Member tables a b := by
  refine ⟨member_of_edge, fun hab => ?_⟩
  obtain ⟨bs, hbs⟩ := isSome_iff_exists.mp (directMemberships_isSome hread)
  exact ⟨bs, hbs, (mem_directMemberships hbs).mpr hab⟩

theorem allMemberships_isSome (hread : ReadableMembers tables) :
    (allMemberships tables role).isSome := by
  set rows := (tables roleMembersTable).entries
  have hgroups r bs (hbs : directMemberships r rows = some bs) :
      ∀ b ∈ bs, b ∈ (rows.filterMap fun kv => cellStr kv.2 2).toFinset := by
    intro b hb
    obtain ⟨kv, hkv, -, hgroup⟩ := (mem_directMemberships hbs).mp hb
    exact mem_toFinset.mpr (mem_filterMap.mpr ⟨kv, hkv, hgroup⟩)
  have hcard : ((rows.filterMap fun kv => cellStr kv.2 2).toFinset).card ≤ rows.length :=
    (toFinset_card_le _).trans (length_filterMap_le ..)
  refine search_isSome (a := role) (fun r _ => directMemberships_isSome hread) hgroups (by simp)
    (by simp) ?_
  have hnodes : ((rows.filterMap fun kv => cellStr kv.2 2).toFinset \ [].toFinset).card ≤
    rows.length := by
    simpa using hcard
  exact (Nat.add_comm ..).trans_le (Nat.succ_le_succ hnodes)

/-- The walk over the memberships gives every role that is reached, once. -/
theorem allMemberships_spec (hread : ReadableMembers tables) (role : Bytes) :
    ∃ groups, allMemberships tables role = some groups ∧ groups.Nodup ∧
      ∀ group, group ∈ groups ↔ Relation.TransGen (Member tables) role group := by
  obtain ⟨groups, hgroups⟩ := isSome_iff_exists.mp (allMemberships_isSome hread)
  have hedges : Edge (fun r => directMemberships r (tables roleMembersTable).entries) =
    Member tables := by
    funext a b
    exact propext (edge_iff_member hread)
  refine ⟨groups, hgroups, nodup_search nodup_nil hgroups, fun group => ?_⟩
  rw [mem_search hgroups, hedges]

theorem hasGrant_of_readable (role : Bytes) (privilege : Privilege) (object : GrantObject)
    (h : ∀ kv ∈ rows, (cellStr kv.2 1).isSome ∧ (cellStr kv.2 2).isSome ∧ (cellStr kv.2 3).isSome ∧
      (cellStr kv.2 4).isSome) :
    ∃ granted, hasGrant role privilege object rows = some granted ∧
      ((∃ kv ∈ rows, Grants role privilege object kv.2) → granted = true) := by
  induction rows with
  | nil => exact ⟨false, rfl, by simp⟩
  | cons kv rows ih =>
    obtain ⟨hgrantee, hstored, hkind, hname⟩ := h kv (by simp)
    obtain ⟨grantee, hgrantee⟩ := isSome_iff_exists.mp hgrantee
    obtain ⟨stored, hstored⟩ := isSome_iff_exists.mp hstored
    obtain ⟨kind, hkind⟩ := isSome_iff_exists.mp hkind
    obtain ⟨name, hname⟩ := isSome_iff_exists.mp hname
    obtain ⟨later, hlater, hall⟩ := ih fun kv' hkv' => h kv' (by simp [hkv'])
    by_cases hgrants : Grants role privilege object kv.2
    · have hrole : grantee = role := Option.some.inj (hgrantee.symm.trans hgrants.grantee)
      have hk : kind = utf8 object.kind := Option.some.inj (hkind.symm.trans hgrants.kind)
      have hn : name = object.name := Option.some.inj (hname.symm.trans hgrants.name)
      have hs : stored = utf8 Privilege.all.asStr ∨ stored = utf8 privilege.asStr := by
        simpa [hstored] using hgrants.privilege
      exact ⟨true, by simp [hasGrant, hgrantee, hkind, hname, hstored, hrole, hk, hn, hs], by simp⟩
    · have hskip : hasGrant role privilege object (kv :: rows) = some later := by
        simp only [hasGrant, hgrantee, hkind, hname, hstored, bind_eq_bind, bind_some, hlater]
        split
        · rfl
        · split
          · rfl
          · split
            · rfl
            · split
              · rename_i hrole hk hn hs
                refine absurd ⟨?_, ?_, ?_, ?_⟩ hgrants
                · simpa [hgrantee] using hrole
                · simpa [hkind] using hk
                · simpa [hname] using hn
                · simpa [hstored] using hs
              · rfl
      refine ⟨later, hskip, ?_⟩
      rintro ⟨found, hfound, hgrants'⟩
      rcases mem_cons.mp hfound with rfl | hfound
      · exact absurd hgrants' hgrants
      · exact hall ⟨found, hfound, hgrants'⟩

/-- With catalogs that can be read, the check decides what is held. -/
theorem hasPrivilege_iff (hread : Readable tables) :
    hasPrivilege tables role privilege object = some true ↔ Holds tables role privilege object := by
  refine ⟨holds_of_hasPrivilege, ?_⟩
  rintro ⟨group, hreach, hgranted⟩
  obtain ⟨groups, hgroups, -, hall⟩ := allMemberships_spec hread.members role
  have hmem : group ∈ role :: groups := by
    rcases Relation.reflTransGen_iff_eq_or_transGen.mp hreach with rfl | htrans
    · exact mem_cons_self
    · exact mem_cons_of_mem _ ((hall group).mpr htrans)
  simp only [hasPrivilege, hgroups, bind_eq_bind, bind_some]
  generalize role :: groups = roles at hmem
  induction roles with
  | nil => cases hmem
  | cons first roles ih =>
    obtain ⟨granted, hfirst, hall⟩ := hasGrant_of_readable first privilege object hread.privileges
    simp only [anyGrant, hfirst, bind_eq_bind, bind_some]
    split
    · rfl
    · rename_i hno
      rcases mem_cons.mp hmem with rfl | hmem
      · exact absurd (hall hgranted) hno
      · exact ih hmem

end Held

/-- Statements over schemas; `table` is the one they name, and `detail` what the check does not
read. -/
inductive SchemaKind where
  | createTable | createIndex | createFunction | createSequence | createTopic | alterTable | analyze
  | dropTable | dropIndex
  deriving DecidableEq

structure SchemaStmt (δ : Type) where
  kind : SchemaKind
  table : Option String
  detail : δ

structure MatchStmt (δ : Type) where
  table : String
  detail : δ

/-- `administer` are the statements over roles and grants. -/
inductive Command (F δ : Type) where
  | session (stmt : Stmt F)
  | schema (stmt : SchemaStmt δ)
  | administer (detail : δ)
  | match_ (stmt : MatchStmt δ)
  | moveCursor (name : String) (count : FetchCount)
  | closeCursor (name : String)
  | set (name : String)
  | show_ (name : String)
  | notify (channel : String)
  | listen (channel : String)
  | unlisten (channel : String)

/-- As often as the text begins with it. -/
def trimStartMatches (pattern : List Char) : ℕ → List Char → List Char
  | 0, text => text
  | fuel + 1, text =>
    if pattern.isPrefixOf text then trimStartMatches pattern fuel (text.drop pattern.length)
      else text

def pushRef (t : TableRef F) : List String :=
  if t.subquery.isNone && t.funcArgs.isNone then
    [String.ofList (trimStartMatches "pg_catalog.".toList t.name.length t.name.toList)]
  else []

def collectFrom : Option (TableRef F × List (Join F)) → List String
  | none => []
  | some (table, joins) => pushRef table ++ joins.flatMap fun j => pushRef j.table

mutual

/-- FROM, UNION and WITH; neither queries in FROM nor those inside expressions. -/
def collectSelect : SelectStmt F → List String
  | ⟨ctes, _, _, from_, _, _, _, _, _, _, union⟩ =>
    collectFrom from_ ++ collectUnion union ++ collectCtes ctes

def collectUnion : Option (UnionOp × SelectStmt F) → List String
  | none => []
  | some (_, rhs) => collectSelect rhs

def collectCtes : List (Cte F) → List String
  | [] => []
  | ⟨_, _, subquery, _⟩ :: ctes => collectSelect subquery ++ collectCtes ctes

end

def selectTables (s : SelectStmt F) : List String := collectFrom s.from_ ++ collectSelect s

inductive FluxRef where
  | topic (name : Bytes)
  | table (name : Bytes)
  | unknown
  deriving DecidableEq

def fluxRef (t : TableRef F) : List FluxRef :=
  match t.funcArgs with
  | none => []
  | some args =>
    let name := t.name.toLower
    if !("flux_".toList.isPrefixOf name.toList) then []
    else match args.head? with
      | some (.literal (.text text)) =>
        if name = "flux_time_travel" then [.table text] else [.topic text]
      | _ => [.unknown]

def fluxFrom : Option (TableRef F × List (Join F)) → List FluxRef
  | none => []
  | some (table, joins) => fluxRef table ++ joins.flatMap fun j => fluxRef j.table

mutual

def collectFlux : SelectStmt F → List FluxRef
  | ⟨ctes, _, _, from_, _, _, _, _, _, _, union⟩ =>
    fluxFrom from_ ++ collectFluxUnion union ++ collectFluxCtes ctes

def collectFluxUnion : Option (UnionOp × SelectStmt F) → List FluxRef
  | none => []
  | some (_, rhs) => collectFlux rhs

def collectFluxCtes : List (Cte F) → List FluxRef
  | [] => []
  | ⟨_, _, subquery, _⟩ :: ctes => collectFlux subquery ++ collectFluxCtes ctes

end

def referencedTables : Command F δ → List String
  | .session (.select s) => selectTables s
  | .session (.insert i) => [i.table]
  | .session (.update u) => [u.table]
  | .session (.delete d) => [d.table]
  | .schema s =>
    match s.kind with
    | .createTable | .dropTable | .createIndex => s.table.toList
    | _ => []
  | _ => []

def referencesSystemTable (c : Command F δ) : Bool := (referencedTables c).any isInternalTable

structure Actor where
  rolname : Bytes
  superuser : Bool
  unrestricted : Bool
  deriving DecidableEq

def unrestrictedActor : Actor := ⟨[], true, true⟩

def lacksText (role : Bytes) (privilege : Privilege) (object : Bytes) : Bytes :=
  utf8 "permission denied: role \"" ++ role ++ utf8 "\" lacks " ++ utf8 privilege.asStr ++
    utf8 " on " ++ object

def systemText : Bytes :=
  utf8 "permission denied: access to system catalog tables is restricted to superusers"

def administrationText : Bytes :=
  utf8 "permission denied: role and privilege administration requires superuser"

def fluxText : Bytes :=
  utf8 "permission denied: a flux function needs a literal topic or table name"

section Check

variable (tables : Tables) (actor : Actor)

/-- A catalog that cannot be read denies. -/
def require (privilege : Privilege) (object : GrantObject) : Except Bytes Unit :=
  if hasPrivilege tables actor.rolname privilege object = some true then .ok ()
  else .error (lacksText actor.rolname privilege object.label)

def requireFlux : FluxRef → Except Bytes Unit
  | .topic name => require tables actor .select (.topic name)
  | .table name => require tables actor .select (.table name)
  | .unknown => .error fluxText

def checkShape : Command F δ → Except Bytes Unit
  | .administer _ => .error administrationText
  | .schema s =>
    match s.kind with
    | .dropTable | .dropIndex => require tables actor .drop .database
    | _ => require tables actor .create .database
  | .session (.select s) => do
    (selectTables s).forM fun table => require tables actor .select (.table (utf8 table))
    (collectFlux s).forM (requireFlux tables actor)
  | .session (.insert i) => require tables actor .insert (.table (utf8 i.table))
  | .session (.update u) => require tables actor .update (.table (utf8 u.table))
  | .session (.delete d) => require tables actor .delete (.table (utf8 d.table))
  | _ => .ok ()

def check (c : Command F δ) : Except Bytes Unit :=
  if actor.unrestricted || actor.superuser then .ok ()
  else if referencesSystemTable c then .error systemText
  else checkShape tables actor c

end Check

end ExecutorRbac
