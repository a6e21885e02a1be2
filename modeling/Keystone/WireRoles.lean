import Keystone.GuardedRuns
import Keystone.WireAuth

/-! # The catalogs of roles and memberships

Roles and memberships are rows of two tables; the key of a membership is its two names with a zero
between them. A membership is granted after two walks over the catalog, and sessions may take turns
between any two scans. -/
namespace WireRoles

open ByteCodecs DecimalText ExecutorRbac ExecutorSelect GuardedRuns List Option OrderedMaps
  StorageInternalKey WireAuth WireSession WorklistSearch

def textCells (cells : List Bytes) : Bytes := (cells.map some).flatMap encodeCell

def put (tables : Tables) (table : String) (key : Bytes) (cells : List Bytes) : Tables :=
  applyChange tables ⟨table, key, some (textCells cells)⟩

def remove (tables : Tables) (table : String) (key : Bytes) : Tables :=
  applyChange tables ⟨table, key, none⟩

def removeAll (tables : Tables) (table : String) (keys : List Bytes) : Tables :=
  keys.foldl (fun t key => remove t table key) tables

section Rows

variable {tables : Tables} {table : String} {key : Bytes} {cells keys : List Bytes}

theorem cellStr_textCells (hshort : ∀ c ∈ cells, c.length < 2 ^ 31)
    (hc : cells[i]? = some c) (htext : validUtf8 c = true) :
    cellStr (textCells cells) i = some c := by
  have hcells : ∀ data, some data ∈ cells.map some → data.length < 2 ^ 31 := by
    intro data hdata
    obtain ⟨c', hc', heq⟩ := mem_map.mp hdata
    cases heq
    exact hshort _ hc'
  have hparse : parseCells (fun _ => none) (textCells cells).length (textCells cells) =
      (cells.map some).map (Option.map fun data => data) :=
    parseCells_encodeCells hcells (length_le_encodeCells _)
  rw [cellStr, decodeCells_eq, hparse]
  simp [ExecutorEval.cellAt, hc, htext]

@[simp] theorem put_same : put tables table key cells table = (tables table).insert key
    (textCells cells) := by
  simp [put, applyChange, changeRows]

variable {other : String}

theorem put_other (h : other ≠ table) : put tables table key cells other = tables other := by
  simp [put, applyChange, h]

@[simp] theorem remove_same : remove tables table key table = (tables table).erase key := by
  simp [remove, applyChange, changeRows]

theorem remove_other (h : other ≠ table) : remove tables table key other = tables other := by
  simp [remove, applyChange, h]

theorem mem_remove : kv ∈ (remove tables table key table).entries ↔
    kv ∈ (tables table).entries ∧ kv.1 ≠ key := by
  rw [remove_same, OrderedMap.erase, mem_filter]
  simp

theorem mem_removeAll :
    kv ∈ (removeAll tables table keys table).entries ↔ kv ∈ (tables table).entries ∧
      kv.1 ∉ keys := by
  unfold removeAll
  induction keys generalizing tables with
  | nil => simp
  | cons key keys ih => rw [foldl_cons, ih, mem_remove, mem_cons, not_or, and_assoc]

theorem removeAll_other (h : other ≠ table) : removeAll tables table keys other = tables other := by
  unfold removeAll
  induction keys generalizing tables with
  | nil => rfl
  | cons key keys ih => rw [foldl_cons, ih, remove_other h]

end Rows

def memberKey (member group : Bytes) : Bytes := member ++ 0 :: group

structure Membership where
  member : Bytes
  group : Bytes
  memberText : validUtf8 member = true
  groupText : validUtf8 group = true
  short : (memberKey member group).length < 2 ^ 31

def Membership.key (p : Membership) : Bytes := memberKey p.member p.group

def Membership.cells (p : Membership) : List Bytes := [fromUtf8Lossy p.key, p.member, p.group]

inductive GrantError where
  | itself
  | cycle
  | unreadable
  deriving DecidableEq

def memberships (tables : Tables) (role : Bytes) : Except GrantError (List Bytes) :=
  match allMemberships tables role with
  | some groups => .ok groups
  | none => .error .unreadable

def addMembership (tables : Tables) (p : Membership) : Tables :=
  put tables roleMembersTable p.key p.cells

/-- Both directions are asked for, though only one closes a cycle. -/
def grantMembership (tables : Tables) (p : Membership) : Except GrantError Tables := do
  if p.member = p.group then throw .itself
  let groups ← memberships tables p.member
  if p.group ∈ groups then throw .cycle
  let groups ← memberships tables p.group
  if p.member ∈ groups then throw .cycle
  pure (addMembership tables p)

def revokeMembership (tables : Tables) (member group : Bytes) : Tables :=
  remove tables roleMembersTable (memberKey member group)

def touching (role : Bytes) : List KeyValue → Option (List Bytes)
  | [] => some []
  | kv :: rows => do
    let member ← cellStr kv.2 1
    let group ← cellStr kv.2 2
    let rest ← touching role rows
    some (if member = role ∨ group = role then kv.1 :: rest else rest)

def revokeAll (tables : Tables) (role : Bytes) : Except GrantError Tables :=
  match touching role (tables roleMembersTable).entries with
  | some keys => .ok (removeAll tables roleMembersTable keys)
  | none => .error .unreadable

section Members

variable {tables : Tables} (p : Membership) {a b : Bytes}

theorem Membership.key_text : validUtf8 p.key = true := by
  have hzero : validUtf8 [0] = true := by decide
  have hrest : validUtf8 (0 :: p.group) = true := validUtf8_append hzero p.groupText
  exact validUtf8_append p.memberText hrest

theorem Membership.cells_eq : p.cells = [p.key, p.member, p.group] := by
  rw [cells, fromUtf8Lossy_valid p.key_text]

theorem Membership.short_cells : ∀ c ∈ p.cells, c.length < 2 ^ 31 := by
  have hkey : p.key.length < 2 ^ 31 := p.short
  have hlength : p.key.length = p.member.length + p.group.length +
    1 := by simp [Membership.key, memberKey, add_assoc]
  rw [p.cells_eq]
  intro c hc
  simp only [mem_cons, not_mem_nil, or_false] at hc
  rcases hc with rfl | rfl | rfl <;> omega

theorem Membership.cellStr_member : cellStr (textCells p.cells) 1 = some p.member :=
  cellStr_textCells p.short_cells rfl p.memberText

theorem Membership.cellStr_group : cellStr (textCells p.cells) 2 = some p.group :=
  cellStr_textCells p.short_cells rfl p.groupText

theorem mem_addMembership (kv : KeyValue) : kv ∈ (addMembership tables p roleMembersTable).entries ↔
    kv = (p.key, textCells p.cells) ∨ (kv.1 ≠ p.key ∧ kv ∈ (tables roleMembersTable).entries) := by
  rw [addMembership, put_same, OrderedMap.mem_insert]

theorem member_addMembership : Member (addMembership tables p) p.member p.group :=
  ⟨_, (mem_addMembership p _).mpr (.inl rfl), p.cellStr_member, p.cellStr_group⟩

theorem member_of_addMembership (h : Member (addMembership tables p) a b) :
    Member tables a b ∨ a = p.member ∧ b = p.group := by
  obtain ⟨kv, hkv, ha, hb⟩ := h
  rcases (mem_addMembership p kv).mp hkv with rfl | ⟨-, hold⟩
  · refine .inr ⟨?_, ?_⟩
    · exact Option.some.inj (ha.symm.trans p.cellStr_member)
    · exact Option.some.inj (hb.symm.trans p.cellStr_group)
  · exact .inl ⟨kv, hold, ha, hb⟩

theorem readable_addMembership (h : ReadableMembers tables) :
    ReadableMembers (addMembership tables p) := by
  intro kv hkv
  rcases (mem_addMembership p kv).mp hkv with rfl | ⟨-, hold⟩
  · simp [p.cellStr_member, p.cellStr_group]
  · exact h kv hold

variable {key : Bytes}

theorem readable_remove (h : ReadableMembers tables) :
    ReadableMembers (remove tables roleMembersTable key) :=
  fun kv hkv => h kv (mem_remove.mp hkv).1

structure Sound (tables : Tables) : Prop where
  readable : ReadableMembers tables
  acyclic : Acyclic (Member tables)

theorem sound_empty (h : (tables roleMembersTable).entries = []) : Sound tables := by
  refine ⟨fun kv hkv => ?_, fun a ha => ?_⟩
  · rw [h] at hkv
    cases hkv
  · obtain ⟨b, -, kv, hkv, -⟩ := Relation.TransGen.tail'_iff.mp ha
    rw [h] at hkv
    cases hkv

theorem sound_remove (h : Sound tables) : Sound (remove tables roleMembersTable key) :=
  ⟨readable_remove h.readable, h.acyclic.mono fun _ _ ⟨kv, hkv, hcells⟩ =>
    ⟨kv, (mem_remove.mp hkv).1, hcells⟩⟩

theorem sound_removeAll (h : Sound tables) : Sound (removeAll tables roleMembersTable gone) := by
  induction gone generalizing tables with
  | nil => exact h
  | cons key gone ih => exact ih (sound_remove h)

variable {p}

theorem sound_addMembership (h : Sound tables)
    (hback : ¬ Relation.ReflTransGen (Member (addMembership tables p)) p.group p.member) :
    Sound (addMembership tables p) :=
  ⟨readable_addMembership p h.readable, h.acyclic.add (fun _ _ => member_of_addMembership p) hback⟩

theorem touching_isSome (role : Bytes) (h : ∀ kv ∈ rows, (cellStr kv.2 1).isSome ∧
    (cellStr kv.2 2).isSome) :
    (touching role rows).isSome := by
  induction rows with
  | nil => rfl
  | cons kv rows ih =>
    obtain ⟨hmember, hgroup⟩ := h kv (by simp)
    obtain ⟨member, hmember⟩ := isSome_iff_exists.mp hmember
    obtain ⟨group, hgroup⟩ := isSome_iff_exists.mp hgroup
    obtain ⟨rest, hrest⟩ := isSome_iff_exists.mp (ih fun kv' hkv' => h kv' (by simp [hkv']))
    simp [touching, hmember, hgroup, hrest]

theorem memberships_spec (h : ReadableMembers tables) (role : Bytes) :
    ∃ groups, memberships tables role = .ok groups ∧
      ∀ group, group ∈ groups ↔ Relation.TransGen (Member tables) role group := by
  obtain ⟨groups, hgroups, -, hall⟩ := allMemberships_spec h role
  exact ⟨groups, by simp [memberships, hgroups], hall⟩

structure Grantable (tables : Tables) (p : Membership) : Prop where
  distinct : p.member ≠ p.group
  back : ¬ Relation.TransGen (Member tables) p.group p.member
  redundant : ¬ Relation.TransGen (Member tables) p.member p.group

theorem grantMembership_grantable (h : ReadableMembers tables) (hp : Grantable tables p) :
    grantMembership tables p = .ok (addMembership tables p) := by
  obtain ⟨groups, hgroups, hall⟩ := memberships_spec h p.member
  obtain ⟨groups', hgroups', hall'⟩ := memberships_spec h p.group
  have hno : p.group ∉ groups := fun hmem => hp.redundant ((hall _).mp hmem)
  have hno' : p.member ∉ groups' := fun hmem => hp.back ((hall' _).mp hmem)
  simp [grantMembership, hp.distinct, hgroups, hno, hgroups', hno', bind, Except.bind, pure,
    Except.pure]

theorem grantMembership_refused (h : ReadableMembers tables) (hp : ¬ Grantable tables p) :
    ∃ e, grantMembership tables p = .error e := by
  obtain ⟨groups, hgroups, hall⟩ := memberships_spec h p.member
  obtain ⟨groups', hgroups', hall'⟩ := memberships_spec h p.group
  simp only [grantMembership, bind, Except.bind, throw, throwThe, MonadExceptOf.throw]
  by_cases hself : p.member = p.group
  · exact ⟨.itself, by simp [hself]⟩
  · by_cases hbelow : p.group ∈ groups
    · exact ⟨.cycle, by simp [hself, hgroups, hbelow]⟩
    · by_cases habove : p.member ∈ groups'
      · exact ⟨.cycle, by simp [hself, hgroups, hgroups', habove]⟩
      · exact absurd ⟨hself, fun hpath => habove ((hall' _).mpr hpath),
          fun hpath => hbelow ((hall _).mpr hpath)⟩ hp

theorem grantMembership_isOk (h : ReadableMembers tables) :
    (grantMembership tables p).isOk = true ↔ Grantable tables p := by
  by_cases hp : Grantable tables p
  · simp [grantMembership_grantable h hp, hp, Except.toBool]
  · obtain ⟨e, he⟩ := grantMembership_refused h hp
    simp [he, hp, Except.toBool]

theorem no_way_back (hp : Grantable tables p) :
    ¬ Relation.ReflTransGen (Member (addMembership tables p)) p.group p.member := by
  intro hback
  rcases Relation.reflTransGen_iff_eq_or_transGen.mp hback with heq | hpath
  · exact hp.distinct heq
  · have hshort c (hc : Relation.TransGen (Member (addMembership tables p)) p.group c) :
        Relation.ReflTransGen (Member tables) p.group c := by
      induction hc with
      | single hedge =>
        rcases member_of_addMembership p hedge with hold | ⟨-, rfl⟩
        · exact .single hold
        · exact .refl
      | tail _ hedge ih =>
        rcases member_of_addMembership p hedge with hold | ⟨-, rfl⟩
        · exact .tail ih hold
        · exact .refl
    rcases Relation.reflTransGen_iff_eq_or_transGen.mp (hshort _ hpath) with heq | hold
    · exact hp.distinct heq
    · exact hp.back hold

end Members

inductive Request where
  | grant (p : Membership)
  | revoke (member group : Bytes)
  | revokeAll (role : Bytes)

def perform (tables : Tables) : Request → Tables
  | .grant p => (grantMembership tables p).toOption.getD tables
  | .revoke member group => revokeMembership tables member group
  | .revokeAll role => (revokeAll tables role).toOption.getD tables

theorem sound_perform (h : Sound tables) : Sound (perform tables r) := by
  cases r with
  | grant p =>
    by_cases hp : Grantable tables p
    · have hadd := sound_addMembership h (no_way_back hp)
      simpa [perform, grantMembership_grantable h.readable hp, Except.toOption] using hadd
    · obtain ⟨e, he⟩ := grantMembership_refused h.readable hp
      simpa [perform, he, Except.toOption] using h
  | revoke member group => exact sound_remove h
  | revokeAll role =>
    obtain ⟨keys, hkeys⟩ := isSome_iff_exists.mp (touching_isSome role h.readable)
    simpa [perform, revokeAll, hkeys, Except.toOption] using sound_removeAll h

/-- A call between two of its steps: on one of the two walks, before the write, or with rows left
to delete. -/
inductive Call where
  | below (p : Membership) (stack found : List Bytes)
  | above (p : Membership) (stack found : List Bytes)
  | write (p : Membership)
  | delete (keys : List Bytes)

structure State (ι : Type) where
  tables : Tables
  calls : ι → Option Call

inductive Event (ι : Type) where
  | grant (session : ι) (p : Membership)
  | revoke (member group : Bytes)
  | revokeAll (session : ι) (role : Bytes)
  | resume (session : ι)

section Turns

variable {ι : Type} [DecidableEq ι]

def State.set (s : State ι) (i : ι) (call : Option Call) : State ι :=
  { s with calls := Function.update s.calls i call }

def scan (tables : Tables) (stack found : List Bytes) : Option (List Bytes × List Bytes) :=
  match stack with
  | [] => none
  | a :: stack =>
    (directMemberships a (tables roleMembersTable).entries).map fun bs =>
      bs.foldl note (found, stack)

def State.resume (s : State ι) (i : ι) : Call → State ι
  | .below p [] found => s.set i (if p.group ∈ found then none else some (.above p [p.group] []))
  | .below p stack found =>
    s.set i ((scan s.tables stack found).map fun acc => .below p acc.2 acc.1)
  | .above p [] found => s.set i (if p.member ∈ found then none else some (.write p))
  | .above p stack found =>
    s.set i ((scan s.tables stack found).map fun acc => .above p acc.2 acc.1)
  | .write p => State.set { s with tables := addMembership s.tables p } i none
  | .delete [] => s.set i none
  | .delete (key :: keys) =>
    State.set { s with tables := remove s.tables roleMembersTable key } i (some (.delete keys))

def next (s : State ι) : Event ι → State ι
  | .grant i p =>
    if (s.calls i).isSome ∨ p.member = p.group then s else s.set i (some (.below p [p.member] []))
  | .revoke member group => { s with tables := revokeMembership s.tables member group }
  | .revokeAll i role =>
    if (s.calls i).isSome then s
    else s.set i ((touching role (s.tables roleMembersTable).entries).map .delete)
  | .resume i =>
    match s.calls i with
    | none => s
    | some call => s.resume i call

def start (tables : Tables) : State ι := ⟨tables, fun _ => none⟩

theorem next_tables (e : Event ι) : (next s e).tables = s.tables ∨
    (∃ key, (next s e).tables = remove s.tables roleMembersTable key) ∨
    ∃ i p, e = .resume i ∧ s.calls i = some (.write p) ∧
      (next s e).tables = addMembership s.tables p := by
  cases e with
  | grant i p =>
    refine .inl ?_
    simp only [next]
    split <;> rfl
  | revoke member group => exact .inr (.inl ⟨_, rfl⟩)
  | revokeAll i role =>
    refine .inl ?_
    simp only [next]
    split <;> rfl
  | resume i =>
    cases hcall : s.calls i with
    | none => exact .inl (by simp [next, hcall])
    | some call =>
      simp only [next, hcall]
      cases call with
      | below p stack found | above p stack found => cases stack <;> exact .inl rfl
      | write p => exact .inr (.inr ⟨i, p, rfl, hcall, rfl⟩)
      | delete keys =>
        cases keys with
        | nil => exact .inl rfl
        | cons key keys => exact .inr (.inl ⟨key, rfl⟩)

/-- A membership is written only while its group does not lead back to its member. -/
def Safe (s : State ι) (e : Event ι) : Prop :=
  ∀ i p, e = .resume i → s.calls i = some (.write p) →
    ¬ Relation.ReflTransGen (Member (addMembership s.tables p)) p.group p.member

variable {s : State ι}

theorem sound_next (h : Sound s.tables) (hsafe : Safe s e) : Sound (next s e).tables := by
  rcases next_tables e with hsame | ⟨key, hkey⟩ | ⟨i, p, he, hcall, hwrite⟩
  · rwa [hsame]
  · rw [hkey]
    exact sound_remove h
  · rw [hwrite]
    exact sound_addMembership h (hsafe i p he hcall)

theorem cyclic_next (hsafe : ¬ Safe s e) : ¬ Acyclic (Member (next s e).tables) := by
  simp only [Safe, not_forall, not_not] at hsafe
  obtain ⟨i, p, rfl, hcall, hback⟩ := hsafe
  have hwrite : (next s (.resume i)).tables = addMembership s.tables p := by
    simp [next, hcall, State.resume, State.set]
  rw [hwrite]
  exact not_acyclic_of_back (member_addMembership p) hback

theorem readable_next (h : ReadableMembers s.tables) : ReadableMembers (next s e).tables := by
  rcases next_tables e with hsame | ⟨key, hkey⟩ | ⟨i, p, -, -, hwrite⟩
  · rwa [hsame]
  · rw [hkey]
    exact readable_remove h
  · rw [hwrite]
    exact readable_addMembership p h

theorem set_set (i : ι) (call call' : Option Call) :
    (s.set i call).set i call' = s.set i call' := by
  simp [State.set]

variable {i : ι}

theorem set_self (h : s.calls i = call) : s.set i call = s := by
  simp [State.set, ← h]

theorem next_resume (h : s.calls i = some call) : next s (.resume i) = s.resume i call := by
  simp [next, h]

@[simp] theorem set_calls (i : ι) : (s.set i call).calls i = call := by
  simp [State.set]

/-- The scans of a walk, one after another, are the search. -/
theorem walk_alone (walking : List Bytes → List Bytes → Call)
    (hwalk : ∀ (s : State ι) a stack found, s.resume i (walking (a :: stack) found) =
      s.set i ((scan s.tables (a :: stack) found).map fun acc => walking acc.2 acc.1))
    (hcall : s.calls i = some (walking stack found))
    (hsearch : search (fun r => directMemberships r (s.tables roleMembersTable).entries) fuel stack
      found = some result) :
    ∃ n, run next s (List.replicate n (.resume i)) = s.set i (some (walking [] result)) := by
  induction fuel generalizing s stack found with
  | zero =>
    cases stack with
    | nil =>
      obtain rfl := Option.some.inj hsearch
      exact ⟨0, (set_self hcall).symm⟩
    | cons a stack => cases hsearch
  | succ fuel ih =>
    cases stack with
    | nil =>
      obtain rfl := Option.some.inj hsearch
      exact ⟨0, (set_self hcall).symm⟩
    | cons a stack =>
      cases hscan : directMemberships a (s.tables roleMembersTable).entries with
      | none => simp [search, hscan] at hsearch
      | some bs =>
        set acc := bs.foldl note (found, stack)
        have hstep : next s (.resume i) = s.set i (some (walking acc.2 acc.1)) := by
          rw [next_resume hcall, hwalk]
          simp [scan, hscan, acc]
        obtain ⟨n, hn⟩ := ih (set_calls ..)
          (by simpa [search, hscan, State.set] using hsearch)
        refine ⟨n + 1, ?_⟩
        rw [replicate_succ, run_cons, hstep, hn, set_set]

/-- A call whose steps follow each other is the whole call. -/
theorem grant_alone (hidle : s.calls i = none) (h : ReadableMembers s.tables) :
    ∃ n, run next s (.grant i p :: List.replicate n (.resume i)) =
      { s with tables := perform s.tables (.grant p) } := by
  obtain ⟨groups, hgroups, -, hall⟩ := allMemberships_spec h p.member
  obtain ⟨groups', hgroups', -, hall'⟩ := allMemberships_spec h p.group
  have hrefused (hp : ¬ Grantable s.tables p) : perform s.tables (.grant p) = s.tables := by
    obtain ⟨e, he⟩ := grantMembership_refused h hp
    simp [perform, he, Except.toOption]
  by_cases hself : p.member = p.group
  · exact ⟨0, by simp [next, hself, hrefused fun hp => hp.distinct hself]⟩
  have hbegin : next s (.grant i p) = s.set i (some (.below p [p.member] [])) := by
    simp [next, hidle, hself]
  obtain ⟨n, hn⟩ := walk_alone (.below p) (fun _ _ _ _ => rfl)
    (set_calls ..) hgroups
  rw [set_set] at hn
  by_cases hbelow : p.group ∈ groups
  · refine ⟨n + 1, ?_⟩
    rw [run_cons, hbegin, replicate_succ', run_append, hn, run_cons, run_nil,
      next_resume (set_calls ..)]
    simp only [State.resume, hbelow, if_true, set_set, set_self hidle,
      hrefused fun hp => hp.redundant ((hall _).mp hbelow)]
  have habove : next (s.set i (some (.below p [] groups))) (.resume i) =
      s.set i (some (.above p [p.group] [])) := by
    rw [next_resume (set_calls ..)]
    simp [State.resume, hbelow, set_set]
  obtain ⟨n', hn'⟩ := walk_alone (.above p) (fun _ _ _ _ => rfl)
    (set_calls ..) hgroups'
  rw [set_set] at hn'
  by_cases hback : p.member ∈ groups'
  · refine ⟨n + (1 + (n' + 1)), ?_⟩
    rw [run_cons, hbegin, replicate_add, run_append, hn, replicate_add, run_append,
      replicate_one, run_cons,
      run_nil, habove, replicate_succ', run_append, hn', run_cons, run_nil,
        next_resume (set_calls ..)]
    simp only [State.resume, hback, if_true, set_set, set_self hidle,
      hrefused fun hp => hp.back ((hall' _).mp hback)]
  have hgranted : Grantable s.tables p := ⟨hself, fun hpath => hback ((hall' _).mpr hpath),
    fun hpath => hbelow ((hall _).mpr hpath)⟩
  have hwrite : next (s.set i (some (.above p [] groups'))) (.resume i) =
    s.set i (some (.write p)) := by
    rw [next_resume (set_calls ..)]
    simp [State.resume, hback, set_set]
  refine ⟨n + (1 + (n' + 2)), ?_⟩
  rw [run_cons, hbegin, replicate_add, run_append, hn, replicate_add, run_append,
    replicate_one, run_cons, run_nil, habove, replicate_add, run_append, hn']
  rw [replicate_succ, replicate_one, run_cons, run_cons, run_nil, hwrite,
    next_resume (set_calls ..)]
  simp only [State.resume, perform, grantMembership_grantable h hgranted]
  have hidle' : (State.mk (addMembership s.tables p) s.calls).set i none =
      State.mk (addMembership s.tables p) s.calls := set_self hidle
  simpa [State.set, Except.toOption] using hidle'

end Turns

/-- From a catalog that can be read and has no cycle. One call after another keeps it so; a
membership is granted if and only if neither of the two roles reaches the other; the walk gives the
roles that are reached, each once. Calls that take turns keep it so if and only if no membership is
written while its group leads back to its member; a call that is not interrupted is one of the first
kind. -/
theorem memberships_without_cycles {ι : Type} [DecidableEq ι] {tables : Tables} (h : Sound tables) :
    (∀ requests : List Request,
      let t := run perform tables requests
      Acyclic (Member t) ∧
        (∀ p : Membership, (grantMembership t p).isOk = true ↔ p.member ≠ p.group ∧
          ¬ Relation.TransGen (Member t) p.group p.member ∧
          ¬ Relation.TransGen (Member t) p.member p.group) ∧
        ∀ role, ∃ groups, allMemberships t role = some groups ∧ groups.Nodup ∧
          ∀ group, group ∈ groups ↔ Relation.TransGen (Member t) role group) ∧
    ∀ events : List (Event ι),
      ((∀ n, Acyclic (Member (run next (start tables) (events.take n)).tables)) ↔
        Along next Safe (start tables) events) ∧
      (let s := run next (start tables) events
      (∀ role, ∃ groups, allMemberships s.tables role = some groups ∧ groups.Nodup ∧
        ∀ group, group ∈ groups ↔ Relation.TransGen (Member s.tables) role group) ∧
      ∀ i p, s.calls i = none → ∃ n, run next s (.grant i p :: List.replicate n (.resume i)) =
        { s with tables := perform s.tables (.grant p) }) := by
  refine ⟨fun requests => ?_, fun events => ⟨?_, ?_⟩⟩
  · have hsound : Sound (run perform tables requests) :=
      run_invariant (I := Sound) (fun t r ht => sound_perform ht) h requests
    refine ⟨hsound.acyclic, fun p => ?_, allMemberships_spec hsound.readable⟩
    rw [grantMembership_isOk hsound.readable]
    exact ⟨fun hp => ⟨hp.distinct, hp.back, hp.redundant⟩, fun ⟨hd, hb, hr⟩ => ⟨hd, hb, hr⟩⟩
  · exact always_iff_along (I := fun s : State ι => Sound s.tables) (fun s hs => hs.acyclic)
      (fun s e hs he => sound_next hs he) (fun s e _ he => cyclic_next he) h events
  · have hreadable : ReadableMembers (run next (start tables) events).tables :=
      run_invariant (I := fun s : State ι => ReadableMembers s.tables)
        (fun s e hs => readable_next hs)
        h.readable events
    exact ⟨allMemberships_spec hreadable, fun i p hidle => grant_alone hidle hreadable⟩

def aInB : Membership := ⟨utf8 "a", utf8 "b", by decide, by decide, by decide⟩
def bInA : Membership := ⟨utf8 "b", utf8 "a", by decide, by decide, by decide⟩
def bInC : Membership := ⟨utf8 "b", utf8 "c", by decide, by decide, by decide⟩
def aInC : Membership := ⟨utf8 "a", utf8 "c", by decide, by decide, by decide⟩

theorem memberships_without_cycles_chain :
    Sound (fun _ => .empty) ∧
      Acyclic (Member (run perform (fun _ => .empty) [.grant aInB, .grant bInC])) ∧
      ((∀ n, Acyclic
        (Member (run next (start fun _ => .empty) ([.grant true aInB].take n)).tables)) ↔
        Along next Safe (start fun _ => .empty) [.grant true aInB]) := by
  have hempty : Sound (fun _ => .empty) := sound_empty rfl
  have h := memberships_without_cycles (ι := Bool) hempty
  exact ⟨hempty, (h.1 [.grant aInB, .grant bInC]).1, (h.2 [.grant true aInB]).1⟩

/-- Two calls that both look before either writes put `a` into itself; and `a`, in `b` and so in
`c`, cannot be put into `c` though nothing leads back. -/
theorem memberships_cycle_and_refusal :
    let walks := [.grant false aInB, .grant true bInA] ++ List.replicate 4 (.resume false) ++
      List.replicate 4 (.resume true)
    let s : State Bool := run next (start fun _ => .empty) (walks ++ [.resume false, .resume true])
    let t := run perform (fun _ => .empty) [.grant aInB, .grant bInC]
    ¬ Acyclic (Member s.tables) ∧
      allMemberships t (utf8 "c") = some [] ∧ (grantMembership t aInC).isOk = false := by
  intro walks s t
  have hedge : Member s.tables (utf8 "a") (utf8 "b") := by
    unfold Member
    decide +kernel
  have hback : Member s.tables (utf8 "b") (utf8 "a") := by
    unfold Member
    decide +kernel
  refine ⟨not_acyclic_of_back hedge (.single hback), ?_, ?_⟩
  all_goals decide +kernel

structure Name where
  bytes : Bytes
  text : validUtf8 bytes = true
  plain : 0 ∉ bytes
  short : bytes.length < 2 ^ 29

theorem Name.eq_of_bytes {m n : Name} (h : m.bytes = n.bytes) : m = n := by
  cases m
  cases h
  rfl

instance : DecidableEq Name := fun m n =>
  decidable_of_iff (m.bytes = n.bytes) ⟨Name.eq_of_bytes, congrArg Name.bytes⟩

def Membership.of (member group : Name) : Membership where
  member := member.bytes
  group := group.bytes
  memberText := member.text
  groupText := group.text
  short := by
    have hmember := member.short
    have hgroup := group.short
    simp only [memberKey, List.length_append, List.length_cons]
    omega

structure Fresh where
  salt : Bytes
  now : ℤ
  deriving DecidableEq

def flag (b : Bool) : Bytes := if b then utf8 "t" else utf8 "f"

section Roles

variable (prims : Primitives) (fresh : Fresh)

/-- Salt, iterations and keys; a role without a password has none. -/
def credentialCells : Option Bytes → List Bytes
  | some password =>
    let cred := deriveCredential prims password fresh.salt 4096
    [prims.encode cred.salt, printNat cred.iterations, prims.encode cred.storedKey,
      prims.encode cred.serverKey]
  | none => [[], utf8 "0", [], []]

def upsertWithAttrs (tables : Tables) (name : Name) (password : Option Bytes)
    (superuser canLogin : Bool) :
    Tables :=
  put tables rolesTable name.bytes (name.bytes :: credentialCells prims fresh password ++
    [printInt fresh.now, flag superuser, flag canLogin])

inductive RoleError where
  | alreadyExists
  | doesNotExist
  | membership (e : GrantError)
  deriving DecidableEq

/-- One after another; those before the first that is refused stay. -/
def joinAll (tables : Tables) (name : Name) : List Name → Tables × List Name × Option RoleError
  | [] => (tables, [], none)
  | group :: groups =>
    match grantMembership tables (.of name group) with
    | .error e => (tables, [], some (.membership e))
    | .ok tables =>
      let (tables, joined, error) := joinAll tables name groups
      (tables, group :: joined, error)

/-- The tables, the groups that were joined, and why it failed. -/
def createRole (tables : Tables) (name : Name) (superuser canLogin : Bool) (password : Option Bytes)
    (inRole : List Name) : Tables × List Name × Option RoleError :=
  if (findRole tables name.bytes).isSome then (tables, [], some .alreadyExists)
  else joinAll (upsertWithAttrs prims fresh tables name password superuser canLogin) name inRole

def keptCells (value : Bytes) : List Bytes :=
  [(cellStr value 1).getD [], (cellStr value 2).getD (utf8 "0"), (cellStr value 3).getD [],
    (cellStr value 4).getD [], printInt ((parseBits 64 ((cellStr value 5).getD (utf8 "0"))).getD 0)]

def alterRole (tables : Tables) (name : Name) (superuser canLogin : Option Bool)
    (password : Option Bytes) :
    Except RoleError Tables :=
  match (tables rolesTable).get? name.bytes with
  | none => .error .doesNotExist
  | some value =>
    let superuser := superuser.getD (cellStr value 6 = some (utf8 "t"))
    let canLogin := canLogin.getD ((cellStr value 7).elim true (· = utf8 "t"))
    match password with
    | some password =>
      .ok (upsertWithAttrs prims fresh tables name (some password) superuser canLogin)
    | none => .ok (put tables rolesTable name.bytes
        (name.bytes :: keptCells value ++ [flag superuser, flag canLogin]))

end Roles

/-- The memberships go with the role, its privileges stay. -/
def dropRole (tables : Tables) (name : Name) (ifExists : Bool) : Tables × Option RoleError :=
  if (findRole tables name.bytes).isNone then
    (tables, if ifExists then none else some .doesNotExist)
  else
    let tables := remove tables rolesTable name.bytes
    match revokeAll tables name.bytes with
    | .ok tables => (tables, none)
    | .error e => (tables, some (.membership e))

end WireRoles
