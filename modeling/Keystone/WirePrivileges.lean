import Keystone.WireRoles

/-! # Privileges and the history of grants

The catalog of privileges has one row for each role, privilege and object; the key is their texts
with zeros between them. -/
namespace WirePrivileges

open ByteCodecs DecimalText ExecutorRbac ExecutorSelect FileNames GrantObject GuardedRuns List
  Membership Option OrderedMaps StorageInternalKey WireAuth WirePrivileges WireRoles WireSession

structure Object where
  object : GrantObject
  text : validUtf8 object.name = true
  plain : 0 ∉ object.name
  short : object.name.length < 2 ^ 29

structure Grant where
  grantee : Name
  privilege : Privilege
  on : Object

def privilegeKey (grantee : Bytes) (privilege : Privilege) (object : GrantObject) : Bytes :=
  grantee ++ 0 :: (utf8 privilege.asStr ++ 0 :: (utf8 object.kind ++ 0 :: object.name))

def Grant.key (g : Grant) : Bytes := privilegeKey g.grantee.bytes g.privilege g.on.object

def Grant.cells (g : Grant) : List Bytes :=
  [fromUtf8Lossy g.key, g.grantee.bytes, utf8 g.privilege.asStr, utf8 g.on.object.kind,
    g.on.object.name]

def grant (tables : Tables) (g : Grant) : Tables := put tables privilegesTable g.key g.cells

def heldOn (grantee : Bytes) (object : GrantObject) : List KeyValue → Option (List Bytes)
  | [] => some []
  | kv :: rows => do
    let holder ← cellStr kv.2 1
    if holder ≠ grantee then heldOn grantee object rows
    else do
      let kind ← cellStr kv.2 3
      if kind ≠ utf8 object.kind then heldOn grantee object rows
      else do
        let name ← cellStr kv.2 4
        let rest ← heldOn grantee object rows
        some (if name = object.name then kv.1 :: rest else rest)

def revoke (tables : Tables) (g : Grant) : Option Tables :=
  if g.privilege = .all then
    (heldOn g.grantee.bytes g.on.object (tables privilegesTable).entries).map
      (removeAll tables privilegesTable)
  else some (remove tables privilegesTable g.key)

inductive Effect where
  | created (name : Name)
  | dropped (name : Name)
  | joined (member group : Name)
  | left (member group : Name)
  | granted (g : Grant)
  | revoked (g : Grant)

inductive Op where
  | createRole (fresh : Fresh) (name : Name) (superuser canLogin : Bool) (password : Option Bytes)
      (inRole : List Name)
  | dropRole (name : Name) (ifExists : Bool)
  | grantMembership (member group : Name)
  | revokeMembership (member group : Name)
  | grant (g : Grant)
  | revoke (g : Grant)

structure State where
  tables : Tables
  history : List Effect

def perform (prims : Primitives) (s : State) : Op → State
  | .createRole fresh name superuser canLogin password inRole =>
    if (findRole s.tables name.bytes).isSome then s
    else
      let (tables, joined, _) :=
        createRole prims fresh s.tables name superuser canLogin password inRole
      ⟨tables, s.history ++ .created name :: joined.map (.joined name)⟩
  | .dropRole name ifExists =>
    if (findRole s.tables name.bytes).isNone then s
    else ⟨(dropRole s.tables name ifExists).1, s.history ++ [.dropped name]⟩
  | .grantMembership member group =>
    match grantMembership s.tables (.of member group) with
    | .ok tables => ⟨tables, s.history ++ [.joined member group]⟩
    | .error _ => s
  | .revokeMembership member group =>
    ⟨revokeMembership s.tables member.bytes group.bytes, s.history ++ [.left member group]⟩
  | .grant g => ⟨grant s.tables g, s.history ++ [.granted g]⟩
  | .revoke g =>
    match revoke s.tables g with
    | some tables => ⟨tables, s.history ++ [.revoked g]⟩
    | none => s

/-- The last effect that says something, and no if there is none. -/
def lastWord (word : Effect → Option Bool) (history : List Effect) : Bool :=
  (history.reverse.findSome? word).getD false

@[simp] theorem lastWord_nil : lastWord word [] = false := rfl

@[simp] theorem lastWord_append : lastWord word (history ++ [e]) =
    (word e).getD (lastWord word history) := by
  cases h : word e <;> simp [lastWord, h]

def membership (member group : Bytes) : Effect → Option Bool
  | .joined m g => if m.bytes = member ∧ g.bytes = group then some true else none
  | .left m g => if m.bytes = member ∧ g.bytes = group then some false else none
  | .dropped name => if name.bytes = member ∨ name.bytes = group then some false else none
  | _ => none

def Grant.Concerns (g : Grant) (role : Bytes) (privilege : Privilege) (object : GrantObject) :
    Prop :=
  g.grantee.bytes = role ∧ g.on.object = object ∧ (g.privilege = privilege ∨ g.privilege = .all)

instance (g : Grant) (role : Bytes) (privilege : Privilege) (object : GrantObject) :
    Decidable (g.Concerns role privilege object) := inferInstanceAs (Decidable (_ ∧ _ ∧ _))

def entitlement (role : Bytes) (privilege : Privilege) (object : GrantObject) : Effect → Option Bool
  | .granted g => if g.Concerns role privilege object then some true else none
  | .revoked g => if g.Concerns role privilege object then some false else none
  | .dropped name => if name.bytes = role then some false else none
  | _ => none

def InForce (history : List Effect) (member group : Bytes) : Prop :=
  lastWord (membership member group) history = true

def Entitled (history : List Effect) (role : Bytes) (privilege : Privilege) (object : GrantObject) :
    Prop :=
  ∃ group, Relation.ReflTransGen (InForce history) role group ∧
    lastWord (entitlement group privilege object) history = true

section Rows

variable (g : Grant)

theorem asStr_text (p : Privilege) : validUtf8 (utf8 p.asStr) = true ∧ 0 ∉ utf8 p.asStr ∧
    (utf8 p.asStr).length ≤ 6 := by
  cases p <;> decide

theorem kind_text (o : GrantObject) : validUtf8 (utf8 o.kind) = true ∧ 0 ∉ utf8 o.kind ∧
    (utf8 o.kind).length ≤ 8 := by
  cases o <;> simp only [kind] <;> decide

theorem asStr_injective {p q : Privilege} (h : utf8 p.asStr = utf8 q.asStr) : p = q := by
  revert h
  cases p <;> cases q <;> decide

theorem object_eq {o o' : GrantObject} (hkind : utf8 o.kind = utf8 o'.kind)
    (hname : o.name = o'.name) :
    o = o' := by
  have hdistinct : utf8 "TABLE" ≠ utf8 "DATABASE" ∧ utf8 "TABLE" ≠ utf8 "TOPIC" ∧
      utf8 "DATABASE" ≠ utf8 "TOPIC" := by decide
  obtain ⟨htd, htt, hdt⟩ := hdistinct
  cases o with
  | table name =>
    cases o' with
    | table name' => exact congrArg _ hname
    | database => exact absurd hkind htd
    | topic name' => exact absurd hkind htt
  | database =>
    cases o' with
    | table name' => exact absurd hkind.symm htd
    | database => rfl
    | topic name' => exact absurd hkind hdt
  | topic name =>
    cases o' with
    | table name' => exact absurd hkind.symm htt
    | database => exact absurd hkind.symm hdt
    | topic name' => exact congrArg _ hname

theorem Grant.key_text : validUtf8 g.key = true := by
  have hzero : validUtf8 [0] = true := by decide
  have hkind := validUtf8_append (kind_text g.on.object).1 (validUtf8_append hzero g.on.text)
  have hprivilege := validUtf8_append (asStr_text g.privilege).1 (validUtf8_append hzero hkind)
  exact validUtf8_append g.grantee.text (validUtf8_append hzero hprivilege)

theorem Grant.short_cells : ∀ c ∈ g.cells, c.length < 2 ^ 31 := by
  have hgrantee := g.grantee.short
  have hname := g.on.short
  have hprivilege := (asStr_text g.privilege).2.2
  have hkind := (kind_text g.on.object).2.2
  have hkey : g.key.length = g.grantee.bytes.length + (utf8 g.privilege.asStr).length +
      (utf8 g.on.object.kind).length + g.on.object.name.length + 3 := by
    simp only [key, privilegeKey, length_append, length_cons]
    omega
  rw [Grant.cells, fromUtf8Lossy_valid g.key_text]
  intro c hc
  simp only [mem_cons, not_mem_nil, or_false] at hc
  rcases hc with rfl | rfl | rfl | rfl | rfl <;> omega

theorem Grant.grants_iff : Grants role p o (textCells g.cells) ↔ g.Concerns role p o := by
  have hgrantee : cellStr (textCells g.cells) 1 = some g.grantee.bytes :=
    cellStr_textCells g.short_cells rfl g.grantee.text
  have hprivilege : cellStr (textCells g.cells) 2 = some (utf8 g.privilege.asStr) :=
    cellStr_textCells g.short_cells rfl (asStr_text _).1
  have hkind : cellStr (textCells g.cells) 3 = some (utf8 g.on.object.kind) :=
    cellStr_textCells g.short_cells rfl (kind_text _).1
  have hname : cellStr (textCells g.cells) 4 = some g.on.object.name :=
    cellStr_textCells g.short_cells rfl g.on.text
  constructor
  · rintro ⟨h1, h3, h4, h2⟩
    rw [hgrantee, some.injEq] at h1
    rw [hkind, some.injEq] at h3
    rw [hname, some.injEq] at h4
    rw [hprivilege, some.injEq, some.injEq] at h2
    refine ⟨h1, object_eq h3 h4, ?_⟩
    rcases h2 with h2 | h2
    · exact .inr (asStr_injective h2)
    · exact .inl (asStr_injective h2)
  · rintro ⟨rfl, rfl, h | h⟩
    · exact ⟨hgrantee, hkind, hname, .inr (h ▸ hprivilege)⟩
    · exact ⟨hgrantee, hkind, hname, .inl (h ▸ hprivilege)⟩

theorem Grant.readable : (cellStr (textCells g.cells) 1).isSome ∧
    (cellStr (textCells g.cells) 2).isSome ∧
    (cellStr (textCells g.cells) 3).isSome ∧ (cellStr (textCells g.cells) 4).isSome := by
  obtain ⟨hgrantee, hkind, hname, hprivilege⟩ := g.grants_iff.mpr
    ⟨rfl, rfl, .inl rfl⟩
  refine ⟨by simp [hgrantee], ?_, by simp [hkind], by simp [hname]⟩
  rcases hprivilege with h | h <;> simp [h]

variable {g}

theorem Grant.of_key_eq {g' : Grant} (h : g.key = g'.key) : g.grantee = g'.grantee ∧
    g.privilege = g'.privilege ∧ g.on.object = g'.on.object := by
  obtain ⟨hgrantee, hrest⟩ := (append_cons_inj g.grantee.plain g'.grantee.plain).mp h
  obtain ⟨hprivilege, hrest⟩ := (append_cons_inj (asStr_text _).2.1 (asStr_text _).2.1).mp hrest
  obtain ⟨hkind, hname⟩ := (append_cons_inj (kind_text _).2.1 (kind_text _).2.1).mp hrest
  exact ⟨Name.eq_of_bytes hgrantee, asStr_injective hprivilege, object_eq hkind hname⟩

theorem of_key_eq (h : (Membership.of m n).key = (Membership.of m' n').key) : m = m' ∧ n = n' := by
  obtain ⟨hm, hn⟩ := (append_cons_inj m.plain m'.plain).mp h
  exact ⟨Name.eq_of_bytes hm, Name.eq_of_bytes hn⟩

end Rows

def memberRow (m g : Name) :
    KeyValue := ((Membership.of m g).key, textCells (Membership.of m g).cells)

def Grant.row (g : Grant) : KeyValue := (g.key, textCells g.cells)

def MemberRows (tables : Tables) : Prop :=
  ∀ kv ∈ (tables roleMembersTable).entries, ∃ m g, kv = memberRow m g

def GrantRows (tables : Tables) : Prop :=
  ∀ kv ∈ (tables privilegesTable).entries, ∃ g : Grant, kv = g.row

section Members

variable {tables : Tables} (h : MemberRows tables) {m g : Name} {a b : Bytes} {keys : List Bytes}

theorem cells_memberRow :
    cellStr (memberRow m g).2 1 = some m.bytes ∧ cellStr (memberRow m g).2 2 = some g.bytes :=
  ⟨(Membership.of m g).cellStr_member, (Membership.of m g).cellStr_group⟩

theorem member_row (hrow : memberRow m g ∈ (tables roleMembersTable).entries) :
    Member tables m.bytes g.bytes :=
  ⟨_, hrow, cells_memberRow.1, cells_memberRow.2⟩

include h

theorem row_of_member (hab : Member tables a b) :
    ∃ m g : Name, m.bytes = a ∧ g.bytes = b ∧
      memberRow m g ∈ (tables roleMembersTable).entries := by
  obtain ⟨kv, hkv, ha, hb⟩ := hab
  obtain ⟨m, g, rfl⟩ := h kv hkv
  rw [cells_memberRow.1, some.injEq] at ha
  rw [cells_memberRow.2, some.injEq] at hb
  exact ⟨m, g, ha, hb, hkv⟩

theorem readable_memberRows : ReadableMembers tables := by
  intro kv hkv
  obtain ⟨m, g, rfl⟩ := h kv hkv
  simp [cells_memberRow]

theorem memberRows_join : MemberRows (addMembership tables (.of m g)) := by
  intro kv hkv
  rcases (mem_addMembership _ kv).mp hkv with rfl | ⟨-, hold⟩
  · exact ⟨m, g, rfl⟩
  · exact h kv hold

theorem member_join : Member (addMembership tables (.of m g)) a b ↔
    Member tables a b ∨ (m.bytes = a ∧ g.bytes = b) := by
  constructor
  · intro hab
    rcases member_of_addMembership _ hab with hold | ⟨rfl, rfl⟩
    · exact .inl hold
    · exact .inr ⟨rfl, rfl⟩
  · rintro (hold | ⟨rfl, rfl⟩)
    · obtain ⟨m', g', rfl, rfl, hrow⟩ := row_of_member h hold
      by_cases hkey : (memberRow m' g').1 = (Membership.of m g).key
      · obtain ⟨rfl, rfl⟩ := of_key_eq hkey
        exact member_addMembership _
      · exact member_row ((mem_addMembership ..).mpr (.inr ⟨hkey, hrow⟩))
    · exact member_addMembership _

theorem memberRows_removeAll : MemberRows (removeAll tables roleMembersTable keys) :=
  fun kv hkv => h kv (mem_removeAll.mp hkv).1

theorem memberRows_leave : MemberRows (revokeMembership tables m.bytes g.bytes) :=
  fun kv hkv => h kv (mem_remove.mp hkv).1

theorem member_leave : Member (revokeMembership tables m.bytes g.bytes) a b ↔
    Member tables a b ∧ ¬ (m.bytes = a ∧ g.bytes = b) := by
  constructor
  · intro hab
    obtain ⟨m', g', rfl, rfl, hrow⟩ := row_of_member (memberRows_leave h) hab
    obtain ⟨hold, hkey⟩ := mem_remove.mp hrow
    refine ⟨member_row hold, ?_⟩
    rintro ⟨hm, hg⟩
    obtain rfl := Name.eq_of_bytes hm
    obtain rfl := Name.eq_of_bytes hg
    exact hkey rfl
  · rintro ⟨hold, hother⟩
    obtain ⟨m', g', rfl, rfl, hrow⟩ := row_of_member h hold
    refine member_row (mem_remove.mpr ⟨hrow, fun hkey => hother ?_⟩)
    have hkey' : (Membership.of m' g').key = (Membership.of m g).key := hkey
    obtain ⟨rfl, rfl⟩ := of_key_eq hkey'
    exact ⟨rfl, rfl⟩

omit h in
theorem mem_touching (hkeys : touching role rows = some keys) (key : Bytes) : key ∈ keys ↔
      ∃ kv ∈ rows, kv.1 = key ∧ (cellStr kv.2 1 = some role ∨ cellStr kv.2 2 = some role) := by
  induction rows generalizing keys with
  | nil =>
    cases hkeys
    simp
  | cons kv rows ih =>
    simp only [touching, bind_eq_bind, bind_eq_some_iff] at hkeys
    obtain ⟨member, hmember, group, hgroup, rest, hrest, heq⟩ := hkeys
    cases heq
    have hhere : (cellStr kv.2 1 = some role ∨ cellStr kv.2 2 = some role) ↔ member = role ∨
      group = role := by
      rw [hmember, hgroup, some.injEq, some.injEq]
    simp only [exists_mem_cons_iff, hhere]
    by_cases htouches : member = role ∨ group = role
    · rw [if_pos htouches, mem_cons, ih hrest, and_iff_left htouches, eq_comm]
    · rw [if_neg htouches, ih hrest, or_iff_right fun hboth => htouches hboth.2]

theorem member_drop (hkeys : touching role (tables roleMembersTable).entries = some keys) :
    Member (removeAll tables roleMembersTable keys) a b ↔ Member tables a b ∧
      ¬ (role = a ∨ role = b) := by
  constructor
  · intro hab
    obtain ⟨m', g', rfl, rfl, hrow⟩ := row_of_member (memberRows_removeAll h) hab
    obtain ⟨hold, hkey⟩ := mem_removeAll.mp hrow
    refine ⟨member_row hold, fun hrole => hkey ((mem_touching hkeys _).mpr ⟨_, hold, rfl, ?_⟩)⟩
    rw [cells_memberRow.1, cells_memberRow.2, Option.some.injEq, Option.some.injEq]
    exact hrole.imp Eq.symm Eq.symm
  · rintro ⟨hold, hother⟩
    obtain ⟨m', g', rfl, rfl, hrow⟩ := row_of_member h hold
    refine member_row (mem_removeAll.mpr ⟨hrow, fun hkey => hother ?_⟩)
    obtain ⟨kv, hkv, hsame, htouches⟩ := (mem_touching hkeys _).mp hkey
    obtain ⟨m'', g'', rfl⟩ := h kv hkv
    obtain ⟨rfl, rfl⟩ := of_key_eq hsame
    rw [cells_memberRow.1, cells_memberRow.2, Option.some.injEq, Option.some.injEq] at htouches
    exact htouches.imp Eq.symm Eq.symm

end Members

section Grants

variable {tables : Tables} (h : GrantRows tables) {g : Grant} {role : Bytes} {p : Privilege}
  {keys : List Bytes}
  {o : GrantObject}

theorem granted_row (hrow : g.row ∈ (tables privilegesTable).entries) (hg : g.Concerns role p o) :
    Granted tables role p o :=
  ⟨_, hrow, g.grants_iff.mpr hg⟩

include h

theorem row_of_granted (hgranted : Granted tables role p o) :
    ∃ g : Grant, g.row ∈ (tables privilegesTable).entries ∧ g.Concerns role p o := by
  obtain ⟨kv, hkv, hgrants⟩ := hgranted
  obtain ⟨g, rfl⟩ := h kv hkv
  exact ⟨g, hkv, g.grants_iff.mp hgrants⟩

theorem grantRows_grant : GrantRows (grant tables g) := by
  intro kv hkv
  rw [grant, put_same, OrderedMap.mem_insert] at hkv
  rcases hkv with rfl | ⟨-, hold⟩
  · exact ⟨g, rfl⟩
  · exact h kv hold

omit h in
theorem Grant.Concerns.congr {g' : Grant} (hg : g.Concerns role p o) (hkey : g.key = g'.key) :
    g'.Concerns role p o := by
  obtain ⟨hgrantee, hprivilege, hobject⟩ := Grant.of_key_eq hkey
  obtain ⟨hrole, hon, hp⟩ := hg
  refine ⟨hgrantee ▸ hrole, hobject ▸ hon, ?_⟩
  rwa [← hprivilege]

theorem granted_grant : Granted (grant tables g) role p o ↔ Granted tables role p o ∨
    g.Concerns role p o := by
  have hmem kv : kv ∈ (grant tables g privilegesTable).entries ↔
      kv = g.row ∨ (kv.1 ≠ g.key ∧ kv ∈ (tables privilegesTable).entries) := by
    rw [grant, put_same, OrderedMap.mem_insert]
    rfl
  constructor
  · intro hgranted
    obtain ⟨g', hrow, hg'⟩ := row_of_granted (grantRows_grant h) hgranted
    rcases (hmem _).mp hrow with hnew | ⟨-, hold⟩
    · exact .inr (hg'.congr (congrArg Prod.fst hnew))
    · exact .inl (granted_row hold hg')
  · rintro (hold | hg)
    · obtain ⟨g', hrow, hg'⟩ := row_of_granted h hold
      by_cases hkey : g'.key = g.key
      · exact granted_row ((hmem _).mpr (.inl rfl)) (hg'.congr hkey)
      · exact granted_row ((hmem _).mpr (.inr ⟨hkey, hrow⟩)) hg'
    · exact granted_row ((hmem _).mpr (.inl rfl)) hg

theorem grantRows_removeAll : GrantRows (removeAll tables privilegesTable keys) :=
  fun kv hkv => h kv (mem_removeAll.mp hkv).1

theorem grantRows_remove (key : Bytes) : GrantRows (remove tables privilegesTable key) :=
  fun kv hkv => h kv (mem_remove.mp hkv).1

theorem granted_remove (hone : g.privilege ≠ .all)
    (hall : ¬ Granted tables g.grantee.bytes .all g.on.object) :
    Granted (remove tables privilegesTable g.key) role p o ↔
      Granted tables role p o ∧ ¬ g.Concerns role p o := by
  constructor
  · intro hgranted
    obtain ⟨g', hrow, hg'⟩ := row_of_granted (grantRows_remove h g.key) hgranted
    obtain ⟨hold, hkey⟩ := mem_remove.mp hrow
    refine ⟨granted_row hold hg', ?_⟩
    rintro ⟨rfl, rfl, hp⟩
    obtain ⟨hgrantee, hon, hp'⟩ := hg'
    rcases hp' with hp' | hp'
    · have hsame : g'.privilege = g.privilege := hp'.trans (hp.resolve_right hone).symm
      exact hkey (by simp only [Grant.row, Grant.key, hgrantee, hon, hsame])
    · exact hall (granted_row hold ⟨hgrantee, hon, .inr hp'⟩)
  · rintro ⟨hold, hother⟩
    obtain ⟨g', hrow, hg'⟩ := row_of_granted h hold
    exact granted_row (mem_remove.mpr ⟨hrow, fun hkey => hother (hg'.congr hkey)⟩) hg'

omit h in
theorem mem_heldOn (hrows : ∀ kv ∈ rows, ∃ g : Grant, kv = g.row)
    (hkeys : heldOn role o rows = some keys) (key : Bytes) : key ∈ keys ↔
      ∃ g : Grant, g.row ∈ rows ∧ g.key = key ∧ g.grantee.bytes = role ∧ g.on.object = o := by
  induction rows generalizing keys with
  | nil =>
    cases hkeys
    simp
  | cons kv rows ih =>
    obtain ⟨g, rfl⟩ := hrows kv (by simp)
    have hrows' : ∀ kv ∈ rows, ∃ g : Grant, kv = g.row := fun kv' hkv' => hrows kv' (by simp [hkv'])
    obtain ⟨hgrantee, hkind, hname, -⟩ := g.grants_iff.mpr
      ⟨rfl, rfl, .inl rfl⟩
    -- a row for another role or another object is passed over
    have hskip (hother : ¬ (g.grantee.bytes = role ∧ g.on.object = o))
        (hrest : heldOn role o rows = some keys) : key ∈ keys ↔
          ∃ g' : Grant, g'.row ∈ g.row :: rows ∧ g'.key = key ∧ g'.grantee.bytes = role ∧
            g'.on.object = o := by
      rw [ih hrows' hrest]
      constructor
      · rintro ⟨g', hrow, hg'⟩
        exact ⟨g', mem_cons_of_mem _ hrow, hg'⟩
      · rintro ⟨g', hrow, hkey, hrole, hobject⟩
        rcases mem_cons.mp hrow with hsame | hrow
        · obtain ⟨hgrantee', -, hobject'⟩ := Grant.of_key_eq (congrArg Prod.fst hsame)
          exact absurd ⟨hgrantee' ▸ hrole, hobject' ▸ hobject⟩ hother
        · exact ⟨g', hrow, hkey, hrole, hobject⟩
    simp only [heldOn, Grant.row, hgrantee, hkind, hname, bind_eq_bind, bind_some] at hkeys
    by_cases hrole : g.grantee.bytes = role
    · by_cases hkind' : utf8 g.on.object.kind = utf8 o.kind
      · simp only [hrole, hkind', ne_eq, not_true, if_false, bind_eq_some_iff] at hkeys
        obtain ⟨rest, hrest, heq⟩ := hkeys
        by_cases hname' : g.on.object.name = o.name
        · rw [if_pos hname', some.injEq] at heq
          have hobject : g.on.object = o := object_eq hkind' hname'
          rw [← heq, mem_cons, ih hrows' hrest]
          constructor
          · rintro (rfl | ⟨g', hrow, hg'⟩)
            · exact ⟨g, mem_cons_self, rfl, hrole, hobject⟩
            · exact ⟨g', mem_cons_of_mem _ hrow, hg'⟩
          · rintro ⟨g', hrow, hkey, hg'⟩
            rcases mem_cons.mp hrow with hsame | hrow
            · exact .inl (hkey ▸ congrArg Prod.fst hsame)
            · exact .inr ⟨g', hrow, hkey, hg'⟩
        · rw [if_neg hname', some.injEq] at heq
          exact hskip (fun hboth => hname' (congrArg name hboth.2)) (heq ▸ hrest)
      · simp only [hrole, hkind', ne_eq] at hkeys
        exact hskip (fun hboth => hkind' (congrArg (fun x => utf8 (kind x)) hboth.2)) hkeys
    · simp only [hrole, ne_eq] at hkeys
      exact hskip (fun hboth => hrole hboth.1) hkeys

omit h in
theorem heldOn_isSome (hrows : ∀ kv ∈ rows, ∃ g : Grant, kv = g.row) :
    (heldOn role o rows).isSome := by
  induction rows with
  | nil => rfl
  | cons kv rows ih =>
    obtain ⟨g, rfl⟩ := hrows kv (by simp)
    obtain ⟨rest, hrest⟩ := isSome_iff_exists.mp (ih fun kv' hkv' => hrows kv' (by simp [hkv']))
    obtain ⟨hgrantee, hkind, hname, -⟩ := g.grants_iff.mpr
      ⟨rfl, rfl, .inl rfl⟩
    simp only [heldOn, Grant.row, hgrantee, hkind, hname, hrest, bind_eq_bind, bind_some]
    split
    · rfl
    · split <;> rfl

theorem granted_removeAll (hall : g.privilege = .all)
    (hkeys : heldOn g.grantee.bytes g.on.object (tables privilegesTable).entries = some keys) :
    Granted (removeAll tables privilegesTable keys) role p o ↔
      Granted tables role p o ∧ ¬ g.Concerns role p o := by
  constructor
  · intro hgranted
    obtain ⟨g', hrow, hg'⟩ := row_of_granted (grantRows_removeAll h) hgranted
    obtain ⟨hold, hkey⟩ := mem_removeAll.mp hrow
    refine ⟨granted_row hold hg', ?_⟩
    rintro ⟨rfl, rfl, -⟩
    exact hkey ((mem_heldOn h hkeys _).mpr ⟨g', hold, rfl, hg'.1, hg'.2.1⟩)
  · rintro ⟨hold, hother⟩
    obtain ⟨g', hrow, hg'⟩ := row_of_granted h hold
    refine granted_row (mem_removeAll.mpr ⟨hrow, fun hkey => hother ?_⟩) hg'
    obtain ⟨g'', -, hsame, hrole, hobject⟩ := (mem_heldOn h hkeys _).mp hkey
    obtain ⟨hgrantee', -, hobject'⟩ := Grant.of_key_eq hsame
    refine ⟨?_, ?_, .inr hall⟩
    · rw [← hrole, hgrantee', hg'.1]
    · rw [← hobject, hobject', hg'.2.1]

end Grants

structure Mirrors (tables : Tables) (history : List Effect) : Prop where
  members : MemberRows tables
  grants : GrantRows tables
  membership : ∀ a b, Member tables a b ↔ InForce history a b
  granted : ∀ role p o, Granted tables role p o ↔ lastWord (entitlement role p o) history = true

theorem mirrors_empty : Mirrors (fun _ => .empty) [] := by
  refine ⟨?_, ?_, ?_, ?_⟩
  · intro kv hkv
    cases hkv
  · intro kv hkv
    cases hkv
  · simp [Member, InForce]
  · simp [Granted]

section Mirrors

variable {tables tables' : Tables} {history : List Effect} (h : Mirrors tables history) {m g : Name}
  {keys : List Bytes}

theorem tables_distinct : roleMembersTable ≠ privilegesTable ∧ roleMembersTable ≠ rolesTable ∧
    privilegesTable ≠ rolesTable := by
  decide

include h

theorem Mirrors.congr (hmembers : tables' roleMembersTable = tables roleMembersTable)
    (hgrants : tables' privilegesTable = tables privilegesTable) : Mirrors tables' history := by
  refine ⟨?_, ?_, fun a b => ?_, fun role p o => ?_⟩
  · unfold MemberRows
    rw [hmembers]
    exact h.members
  · unfold GrantRows
    rw [hgrants]
    exact h.grants
  · rw [Member, hmembers]
    exact h.membership a b
  · rw [Granted, hgrants]
    exact h.granted role p o

theorem mirrors_created : Mirrors tables (history ++ [.created m]) := by
  refine ⟨h.members, h.grants, fun a b => ?_, fun role p o => ?_⟩
  · simpa [InForce, membership] using h.membership a b
  · simpa [entitlement] using h.granted role p o

theorem Mirrors.members_changed (hgrants : tables' privilegesTable = tables privilegesTable)
    (hmembers : MemberRows tables') (hmembership : ∀ a b, Member tables' a b ↔
      InForce (history ++ [e]) a b)
    (hentitlement : ∀ role p o, lastWord (entitlement role p o) (history ++ [e]) =
      lastWord (entitlement role p o) history) : Mirrors tables' (history ++ [e]) := by
  refine ⟨hmembers, ?_, hmembership, fun role p o => ?_⟩
  · unfold GrantRows
    rw [hgrants]
    exact h.grants
  · rw [hentitlement, Granted, hgrants]
    exact h.granted role p o

theorem mirrors_joined : Mirrors (addMembership tables (.of m g)) (history ++ [.joined m g]) := by
  refine h.members_changed (put_other tables_distinct.1.symm) (memberRows_join h.members)
    (fun a b => ?_)
    fun role p o => by simp [entitlement]
  refine (member_join h.members).trans ?_
  rw [h.membership a b]
  by_cases hthis : m.bytes = a ∧ g.bytes = b <;> simp [InForce, membership, hthis]

theorem mirrors_left : Mirrors (revokeMembership tables m.bytes g.bytes)
    (history ++ [.left m g]) := by
  refine h.members_changed (remove_other tables_distinct.1.symm) (memberRows_leave h.members)
    (fun a b => ?_)
    fun role p o => by simp [entitlement]
  refine (member_leave h.members).trans ?_
  rw [h.membership a b]
  by_cases hthis : m.bytes = a ∧ g.bytes = b <;> simp [InForce, membership, hthis]

/-- The privileges of a role that is dropped stay, so there must be none. -/
theorem mirrors_dropped (hnone : ∀ p o, lastWord (entitlement m.bytes p o) history = false)
    (hkeys : touching m.bytes (tables roleMembersTable).entries = some keys) :
    Mirrors (removeAll tables roleMembersTable keys) (history ++ [.dropped m]) := by
  refine h.members_changed (removeAll_other tables_distinct.1.symm) (memberRows_removeAll h.members)
    (fun a b => ?_) fun role p o => ?_
  · rw [member_drop h.members hkeys, h.membership a b]
    by_cases hthis : m.bytes = a ∨ m.bytes = b <;> simp [InForce, membership, hthis]
  · rw [lastWord_append]
    by_cases hrole : m.bytes = role
    · subst hrole
      simp [entitlement, hnone]
    · simp [entitlement, hrole]

variable {r : Grant}

theorem Mirrors.grants_changed (hmembers : tables' roleMembersTable = tables roleMembersTable)
    (hgrants : GrantRows tables') (hmembership : ∀ a b, WirePrivileges.membership a b e = none)
    (hgranted : ∀ role p o, Granted tables' role p o ↔
      lastWord (entitlement role p o) (history ++ [e]) = true) : Mirrors tables'
        (history ++ [e]) := by
  refine ⟨?_, hgrants, fun a b => ?_, hgranted⟩
  · unfold MemberRows
    rw [hmembers]
    exact h.members
  · rw [InForce, lastWord_append, hmembership, getD_none, Member, hmembers]
    exact h.membership a b

theorem mirrors_granted : Mirrors (grant tables r) (history ++ [.granted r]) := by
  refine h.grants_changed (put_other tables_distinct.1) (grantRows_grant h.grants) (fun _ _ => rfl)
    fun role p o => ?_
  refine (granted_grant h.grants).trans ?_
  rw [h.granted role p o]
  by_cases hthis : r.Concerns role p o <;> simp [entitlement, hthis]

/-- The word of a revocation, where the rows go that it is about. -/
theorem Mirrors.revoked (hmembers : tables' roleMembersTable = tables roleMembersTable)
    (hgrants : GrantRows tables') (hgone : ∀ role p o, Granted tables' role p o ↔
      Granted tables role p o ∧ ¬ r.Concerns role p o) : Mirrors tables'
        (history ++ [.revoked r]) := by
  refine h.grants_changed hmembers hgrants (fun _ _ => rfl) fun role p o => ?_
  rw [hgone, h.granted role p o]
  by_cases hthis : r.Concerns role p o <;> simp [entitlement, hthis]

end Mirrors

/-- A role is dropped without privileges; one privilege is revoked where ALL was not granted. -/
def Clean (s : State) : Op → Prop
  | .dropRole name _ => (findRole s.tables name.bytes).isSome = true →
      ∀ p o, lastWord (entitlement name.bytes p o) s.history = false
  | .revoke g => g.privilege ≠ .all →
      lastWord (entitlement g.grantee.bytes .all g.on.object) s.history = false
  | _ => True

variable {tables : Tables}

theorem grantMembership_ok (hread : ReadableMembers tables)
    (h : grantMembership tables p = .ok tables') : tables' = addMembership tables p := by
  by_cases hp : Grantable tables p
  · rw [grantMembership_grantable hread hp] at h
    exact (Except.ok.inj h).symm
  · obtain ⟨e, he⟩ := grantMembership_refused hread hp
    rw [he] at h
    cases h

variable {history : List Effect}

theorem mirrors_joinAll (h : Mirrors tables history) (name : Name) (groups : List Name) :
    Mirrors (joinAll tables name groups).1
      (history ++ (joinAll tables name groups).2.1.map (.joined name)) := by
  induction groups generalizing tables history with
  | nil => simpa [joinAll] using h
  | cons group groups ih =>
    cases hjoin : grantMembership tables (.of name group) with
    | error e => simpa [joinAll, hjoin] using h
    | ok tables' =>
      obtain rfl := grantMembership_ok (readable_memberRows h.members) hjoin
      have hnext := ih (mirrors_joined h (m := name) (g := group))
      simpa [joinAll, hjoin] using hnext

theorem mirrors_perform (h : Mirrors s.tables s.history) {op : Op}
    (hclean : Clean s op) : Mirrors (perform prims s op).tables (perform prims s op).history := by
  cases op with
  | createRole fresh name superuser canLogin password inRole =>
    by_cases hrole : (findRole s.tables name.bytes).isSome = true
    · simpa [perform, hrole] using h
    · have hwritten :
        Mirrors (upsertWithAttrs prims fresh s.tables name password superuser canLogin)
          s.history := h.congr (put_other tables_distinct.2.1) (put_other tables_distinct.2.2)
      have hjoined := mirrors_joinAll (mirrors_created hwritten (m := name)) name inRole
      simpa [perform, hrole, createRole] using hjoined
  | dropRole name ifExists =>
    cases hrole : findRole s.tables name.bytes with
    | none => simpa [perform, hrole] using h
    | some attrs =>
      have hremoved : Mirrors (remove s.tables rolesTable name.bytes) s.history :=
        h.congr (remove_other tables_distinct.2.1) (remove_other tables_distinct.2.2)
      obtain ⟨keys, hkeys⟩ := isSome_iff_exists.mp
        (touching_isSome name.bytes (readable_memberRows hremoved.members))
      have hdropped := mirrors_dropped hremoved (hclean (by simp [hrole])) hkeys
      simpa [perform, hrole, dropRole, revokeAll, hkeys] using hdropped
  | grantMembership member group =>
    cases hjoin : grantMembership s.tables (.of member group) with
    | error e => simpa [perform, hjoin] using h
    | ok tables' =>
      obtain rfl := grantMembership_ok (readable_memberRows h.members) hjoin
      simpa [perform, hjoin] using mirrors_joined h
  | revokeMembership member group => exact mirrors_left h
  | grant g => exact mirrors_granted h
  | revoke g =>
    by_cases hall : g.privilege = .all
    · obtain ⟨keys, hkeys⟩ := isSome_iff_exists.mp
        (heldOn_isSome h.grants)
      have hrevoked := h.revoked (removeAll_other tables_distinct.1) (grantRows_removeAll h.grants)
        fun role p o => granted_removeAll h.grants hall hkeys
      simpa [perform, revoke, hall, hkeys] using hrevoked
    · have hnone : ¬ Granted s.tables g.grantee.bytes .all g.on.object := by
        rw [h.granted, hclean hall]
        simp
      have hrevoked := h.revoked (remove_other tables_distinct.1) (grantRows_remove h.grants g.key)
        fun role p o => granted_remove h.grants hall hnone
      simpa [perform, revoke, hall] using hrevoked

theorem readable_of_mirrors (h : Mirrors tables history) : Readable tables := by
  refine ⟨readable_memberRows h.members, fun kv hkv => ?_⟩
  obtain ⟨g, rfl⟩ := h.grants kv hkv
  exact g.readable

/-- From empty catalogs, by operations that drop no role with privileges and take no single
privilege from one who was granted ALL: the check finds a privilege if and only if its history gives
it. -/
theorem privileges_as_granted (prims : Primitives) {ops : List Op}
    (hclean : Along (perform prims) Clean ⟨fun _ => .empty, []⟩ ops) (role : Bytes) (p : Privilege)
    (o : GrantObject) :
    let s := run (perform prims) ⟨fun _ => .empty, []⟩ ops
    hasPrivilege s.tables role p o = some true ↔ Entitled s.history role p o := by
  intro s
  have h : Mirrors s.tables s.history :=
    hclean.invariant
      (fun s op hs hop => mirrors_perform hs hop) mirrors_empty
  have hmembers : Member s.tables = InForce s.history := by
    funext a b
    exact propext (h.membership a b)
  rw [hasPrivilege_iff (readable_of_mirrors h), Holds, Entitled, hmembers]
  simp [h.granted]

def bob : Name := ⟨utf8 "bob", by decide, by decide, by decide⟩

def onTable : Object := ⟨.table (utf8 "t"), by decide, by decide, by decide⟩

def createBob : Op := .createRole ⟨utf8 "salt", 0⟩ bob false true none []

theorem privileges_as_granted_bob :
    let ops := [createBob, .grant ⟨bob, .select, onTable⟩, .revoke ⟨bob, .select, onTable⟩,
      .dropRole bob false]
    let s := run (perform plainPrimitives) ⟨fun _ => .empty, []⟩ ops
    Along (perform plainPrimitives) Clean ⟨fun _ => .empty, []⟩ ops ∧
      (hasPrivilege s.tables (utf8 "bob") .select onTable.object = some true ↔
        Entitled s.history (utf8 "bob") .select onTable.object) := by
  intro ops s
  have hclean : Along (perform plainPrimitives) Clean ⟨fun _ => .empty, []⟩ ops := by
    refine ⟨trivial, trivial, fun _ => ?_, fun _ p o => ?_, trivial⟩
    · decide +kernel
    · change lastWord _ ([.created bob] ++ [.granted ⟨bob, .select, onTable⟩] ++
        [.revoked ⟨bob, .select, onTable⟩]) = false
      rw [lastWord_append, lastWord_append]
      by_cases hthis : Grant.Concerns ⟨bob, .select, onTable⟩ bob.bytes p o
      · simp [entitlement, hthis]
      · simp [entitlement, hthis, lastWord]
  exact ⟨hclean, privileges_as_granted plainPrimitives hclean ..⟩

/-- Where nobody joined, only the role itself counts. -/
theorem entitled_alone (h : ∀ e ∈ history, ∀ a b, membership a b e ≠ some true)
    (hlast : lastWord (entitlement role p o) history = false) : ¬ Entitled history role p o := by
  rintro ⟨group, hreach, hword⟩
  rcases hreach.cases_head with heq | ⟨next, hnext, -⟩
  · rw [← heq, hlast] at hword
    cases hword
  · have hsome : history.reverse.findSome? (membership role next) = some true := by
      rw [InForce, lastWord] at hnext
      cases hword : history.reverse.findSome? (membership role next) with
      | none => simp [hword] at hnext
      | some b => simpa [hword] using hnext
    obtain ⟨e, he, hjoined⟩ := exists_of_findSome?_eq_some hsome
    exact h e (mem_reverse.mp he) _ _ hjoined

/-- A role that is created again has the privileges of the one that was dropped; and what is revoked
behind ALL is still held. -/
theorem privileges_outlive :
    let again := run (perform plainPrimitives) ⟨fun _ => .empty, []⟩
      [createBob, .grant ⟨bob, .select, onTable⟩, .dropRole bob false, createBob]
    let all := run (perform plainPrimitives) ⟨fun _ => .empty, []⟩
      [createBob, .grant ⟨bob, .all, onTable⟩, .revoke ⟨bob, .select, onTable⟩]
    (hasPrivilege again.tables (utf8 "bob") .select onTable.object = some true ∧
        ¬ Entitled again.history (utf8 "bob") .select onTable.object) ∧
      hasPrivilege all.tables (utf8 "bob") .select onTable.object = some true ∧
        ¬ Entitled all.history (utf8 "bob") .select onTable.object := by
  intro again all
  have hagain : again.history = [.created bob, .granted ⟨bob, .select, onTable⟩, .dropped bob,
    .created bob] := by
    rfl
  have hall : all.history = [.created bob, .granted ⟨bob, .all, onTable⟩,
    .revoked ⟨bob, .select, onTable⟩] := by
    rfl
  refine ⟨⟨by decide +kernel, entitled_alone ?_ (by decide +kernel)⟩, by decide +kernel,
    entitled_alone ?_ (by decide +kernel)⟩
  · rw [hagain]
    simp [membership]
  · rw [hall]
    simp [membership]

end WirePrivileges
