import Keystone.WireRoles

/-! # From the startup message to an actor

A connection asks twice whether there are roles: before it authenticates, and before its actor is
made. Other sessions create, alter and drop roles between any two of its steps. -/
namespace WireStartup

open DecimalText ExecutorRbac GuardedRuns List StorageInternalKey WireAuth WireRoles WireSession

inductive RoleOp where
  | create (fresh : Fresh) (name : Name) (superuser canLogin : Bool) (password : Option Bytes)
      (inRole : List Name)
  | alter (fresh : Fresh) (name : Name) (superuser canLogin : Option Bool) (password : Option Bytes)
  | drop (name : Name) (ifExists : Bool)

def applyRole (prims : Primitives) (tables : Tables) : RoleOp → Tables
  | .create fresh name superuser canLogin password inRole =>
    (createRole prims fresh tables name superuser canLogin password inRole).1
  | .alter fresh name superuser canLogin password =>
    (alterRole prims fresh tables name superuser canLogin password).toOption.getD tables
  | .drop name ifExists => (dropRole tables name ifExists).1

/-- An exchange with the client; `catalog` is where the credential was read. -/
structure Exchange where
  catalog : Tables
  cred : ScramCredential
  nonce : Bytes
  clientFirst : Bytes
  first : ServerFirst
  clientFinal : Bytes

/-- It was against the credential of the role, and to its end. -/
structure Exchange.Completed (prims : Primitives) (role : Bytes) (x : Exchange) : Prop where
  found : find prims x.catalog role = .ok (some x.cred)
  opened : serverFirst prims x.nonce x.clientFirst x.cred = .ok x.first
  proved : (verifyClientFinal prims x.clientFinal x.first x.cred).isOk = true

/-- What comes next; without an exchange the connection was let in as there were no roles. -/
inductive Phase where
  | firstCheck
  | findRole
  | find
  | initialResponse (catalog : Tables) (cred : ScramCredential)
  | response (catalog : Tables) (cred : ScramCredential) (nonce clientFirst : Bytes)
      (first : ServerFirst)
  | secondCheck (exchange : Option Exchange)
  | attributes (exchange : Option Exchange)
  | memberships (exchange : Option Exchange) (attrs : RoleAttributes)
  | running (exchange : Option Exchange) (actor : Actor)
  | refused

/-- `checked` are the catalogs of the checks so far, `past` those of all moments. -/
structure State where
  tables : Tables
  phase : Phase
  checked : List Tables
  past : List Tables

/-- `nonce` are the random bytes of the server. -/
inductive Event where
  | role (op : RoleOp)
  | proceed
  | receive (nonce : Bytes) (message : Option Frontend)

def isEmpty (tables : Tables) : Bool := (tables rolesTable).entries.isEmpty

section Steps

variable (prims : Primitives) (user : Bytes)

/-- A step that reads the catalog. -/
def proceed (tables : Tables) : Phase → Phase
  | .firstCheck => if isEmpty tables then .secondCheck none else .findRole
  | .findRole =>
    match findRole tables user with
    | some ⟨_, false⟩ => .refused
    | _ => .find
  | .find =>
    match find prims tables user with
    | .ok (some cred) => .initialResponse tables cred
    | _ => .refused
  | .secondCheck exchange =>
    if isEmpty tables then .running exchange unrestrictedActor else .attributes exchange
  | .attributes exchange =>
    match findRole tables user with
    | some attrs => .memberships exchange attrs
    | none => .refused
  | .memberships exchange attrs =>
    match allMemberships tables user with
    | some _ => .running exchange ⟨user, attrs.superuser, false⟩
    | none => .refused
  | phase => phase

def receive (nonce : Bytes) (message : Option Frontend) : Phase → Phase
  | .initialResponse catalog cred =>
    match message with
    | some (.passwordData initial) =>
      match parseSaslInitialResponse initial with
      | .ok (mechanism, clientFirst) =>
        if mechanism = mechanismName then
          match serverFirst prims nonce clientFirst cred with
          | .ok first => .response catalog cred nonce clientFirst first
          | .error _ => .refused
        else .refused
      | .error _ => .refused
    | _ => .refused
  | .response catalog cred nonce clientFirst first =>
    match message with
    | some (.passwordData clientFinal) =>
      if (verifyClientFinal prims clientFinal first cred).isOk then
        .secondCheck (some ⟨catalog, cred, nonce, clientFirst, first, clientFinal⟩)
      else .refused
    | _ => .refused
  | phase => phase

def checks : Phase → Bool
  | .firstCheck | .secondCheck _ => true
  | _ => false

def next (s : State) : Event → State
  | .role op => { s with tables := applyRole prims s.tables op, past := s.past ++ [s.tables] }
  | .proceed => ⟨s.tables, proceed prims user s.tables s.phase,
      if checks s.phase then s.checked ++ [s.tables] else s.checked, s.past ++ [s.tables]⟩
  | .receive nonce message =>
    { s with phase := receive prims nonce message s.phase, past := s.past ++ [s.tables] }

def start (tables : Tables) : State := ⟨tables, .firstCheck, [], []⟩

/-- The actor of a role is for whoever completed an exchange against the credential of that role;
the unrestricted one is for times without roles. -/
def Earned (s : State) (exchange : Option Exchange) (actor : Actor) : Prop :=
  (actor.unrestricted = false →
    ∃ x, exchange = some x ∧ x.catalog ∈ s.past ∧ x.Completed prims actor.rolname) ∧
  (actor.unrestricted = true → ∀ t ∈ s.checked, isEmpty t = true)

def Admitted (past : List Tables) (first : Tables) : Option Exchange → Prop
  | none => isEmpty first = true
  | some x => isEmpty first = false ∧ x.catalog ∈ past ∧ x.Completed prims user

def Inv (past checked : List Tables) : Phase → Prop
  | .firstCheck => checked = []
  | .findRole | .find => ∃ t, checked = [t] ∧ isEmpty t = false
  | .initialResponse catalog cred => (∃ t, checked = [t] ∧ isEmpty t = false) ∧ catalog ∈ past ∧
      find prims catalog user = .ok (some cred)
  | .response catalog cred nonce clientFirst first => (∃ t, checked = [t] ∧ isEmpty t = false) ∧
      catalog ∈ past ∧ find prims catalog user = .ok (some cred) ∧
      serverFirst prims nonce clientFirst cred = .ok first
  | .secondCheck exchange => ∃ t, checked = [t] ∧ Admitted prims user past t exchange
  | .attributes exchange | .memberships exchange _ =>
    ∃ t t', checked = [t, t'] ∧ isEmpty t' = false ∧ Admitted prims user past t exchange
  | .running exchange actor => ∃ t t', checked = [t, t'] ∧ Admitted prims user past t exchange ∧
      (isEmpty t' = true ∧ actor = unrestrictedActor ∨
        isEmpty t' = false ∧ actor.rolname = user ∧ actor.unrestricted = false)
  | .refused => True

variable {prims user} {past checked : List Tables}

theorem Admitted.mono (more : Tables)
    (h : Admitted prims user past first exchange) :
    Admitted prims user (past ++ [more]) first exchange := by
  cases exchange with
  | none => exact h
  | some x => exact ⟨h.1, mem_append_left _ h.2.1, h.2.2⟩

variable {phase : Phase}

theorem Inv.mono (more : Tables) (h : Inv prims user past checked phase) :
    Inv prims user (past ++ [more]) checked phase := by
  cases phase with
  | firstCheck | findRole | find | refused => exact h
  | initialResponse catalog cred | response catalog cred nonce clientFirst first =>
    exact ⟨h.1, mem_append_left _ h.2.1, h.2.2⟩
  | secondCheck exchange =>
    obtain ⟨t, hchecked, hadmitted⟩ := h
    exact ⟨t, hchecked, hadmitted.mono more⟩
  | attributes exchange | memberships exchange attrs =>
    obtain ⟨t, t', hchecked, hroles, hadmitted⟩ := h
    exact ⟨t, t', hchecked, hroles, hadmitted.mono more⟩
  | running exchange actor =>
    obtain ⟨t, t', hchecked, hadmitted, hactor⟩ := h
    exact ⟨t, t', hchecked, hadmitted.mono more, hactor⟩

theorem inv_proceed (h : Inv prims user past checked phase) :
    Inv prims user (past ++ [tables]) (if checks phase then checked ++ [tables] else checked)
      (proceed prims user tables phase) := by
  have hmore := h.mono tables
  cases phase with simp only [checks, Bool.false_eq_true, if_false, if_true, proceed]
  | firstCheck =>
    obtain rfl : checked = [] := h
    split
    · rename_i hempty
      exact ⟨tables, rfl, hempty⟩
    · rename_i hroles
      exact ⟨tables, rfl, by simpa using hroles⟩
  | findRole =>
    split
    · trivial
    · exact hmore
  | find =>
    split
    · rename_i cred hfind
      exact ⟨hmore, by simp, hfind⟩
    · trivial
  | secondCheck exchange =>
    obtain ⟨t, rfl, hadmitted⟩ := hmore
    split
    · rename_i hempty
      exact ⟨t, tables, rfl, hadmitted, .inl ⟨hempty, rfl⟩⟩
    · rename_i hroles
      exact ⟨t, tables, rfl, by simpa using hroles, hadmitted⟩
  | attributes exchange =>
    split
    · exact hmore
    · trivial
  | memberships exchange attrs =>
    obtain ⟨t, t', hchecked, hroles, hadmitted⟩ := hmore
    split
    · exact ⟨t, t', hchecked, hadmitted, .inr ⟨hroles, rfl, rfl⟩⟩
    · trivial
  | initialResponse catalog cred | response catalog cred nonce clientFirst first
  | running exchange actor => exact hmore
  | refused => trivial

theorem inv_receive (h : Inv prims user past checked phase) :
    Inv prims user past checked (receive prims nonce message phase) := by
  cases phase with
  | initialResponse catalog cred =>
    obtain ⟨hchecked, hpast, hfind⟩ := h
    simp only [receive]
    split
    · split
      · split
        · split
          · rename_i first hfirst
            exact ⟨hchecked, hpast, hfind, hfirst⟩
          · trivial
        · trivial
      · trivial
    · trivial
  | response catalog cred nonce' clientFirst first =>
    obtain ⟨⟨t, hchecked, hroles⟩, hpast, hfind, hfirst⟩ := h
    simp only [receive]
    split
    · split
      · rename_i hproof
        exact ⟨t, hchecked, hroles, hpast, hfind, hfirst, hproof⟩
      · trivial
    · trivial
  | _ => exact h

theorem inv_next (s : State) (e : Event) (h : Inv prims user s.past s.checked s.phase) :
    Inv prims user (next prims user s e).past (next prims user s e).checked
      (next prims user s e).phase := by
  cases e with
  | role op => exact h.mono _
  | proceed => exact inv_proceed h
  | receive nonce message => exact (inv_receive h).mono _

/-- Whatever the other sessions do, a connection that gets an actor has earned it if and only if the
two checks gave the same answer. -/
theorem actor_earned (tables : Tables) (events : List Event) {exchange : Option Exchange}
    {actor : Actor} :
    let s := run (next prims user) (start tables) events
    s.phase = .running exchange actor →
      ∃ t t', s.checked = [t, t'] ∧ (Earned prims s exchange actor ↔ isEmpty t = isEmpty t') := by
  intro s hphase
  have hinv : Inv prims user s.past s.checked s.phase :=
    run_invariant inv_next
      (show Inv prims user [] [] .firstCheck from rfl) events
  rw [hphase] at hinv
  obtain ⟨t, t', hchecked, hadmitted, hactor⟩ := hinv
  refine ⟨t, t', hchecked, ?_⟩
  unfold Earned
  rw [hchecked]
  rcases hactor with ⟨hempty, rfl⟩ | ⟨hroles, hname, hrestricted⟩
  · simp [unrestrictedActor, hempty]
  · rw [hrestricted, hname, hroles]
    cases exchange with
    | none =>
      have hfirst : isEmpty t = true := hadmitted
      simp [hfirst]
    | some x => simp [hadmitted.1, hadmitted.2.1, hadmitted.2.2]

end Steps

def Phase.outcome : Phase → Option (Bool × Actor)
  | .running exchange actor => some (exchange.isSome, actor)
  | _ => none

theorem outcome_eq_some {phase : Phase} (h : phase.outcome = some (proved, actor)) :
    ∃ exchange, phase = .running exchange actor ∧ exchange.isSome = proved := by
  cases phase with
  | running exchange actor' =>
    simp only [Phase.outcome, Option.some.injEq, Prod.mk.injEq] at h
    exact ⟨exchange, by rw [h.2], h.1⟩
  | _ => simp [Phase.outcome] at h

def alice : Name := ⟨utf8 "alice", by decide +kernel, by decide +kernel, by decide +kernel⟩

def aliceCreated : RoleOp := .create ⟨utf8 "salt", 0⟩ alice true true (some (key 65)) []

def afterAlice : Tables := applyRole plainPrimitives (fun _ => .empty) aliceCreated

def loggingIn : List Event :=
  [.proceed, .proceed, .proceed,
    .receive (utf8 "cd")
      (some (.passwordData (mechanismName ++ [0, 0, 0, 0, 10] ++ utf8 "n,,n=,r=ab"))),
    .receive [] (some (.passwordData (utf8 "c=biws,r=abcd,p=" ++ key 0)))]

theorem actor_earned_alice :
    let s := run (next plainPrimitives alice.bytes) (start afterAlice)
      (loggingIn ++ List.replicate 3 .proceed)
    ∃ exchange t t', s.phase = .running exchange ⟨alice.bytes, true, false⟩ ∧ s.checked = [t, t'] ∧
      (Earned plainPrimitives s exchange ⟨alice.bytes, true, false⟩ ↔ isEmpty t = isEmpty t') := by
  intro s
  have houtcome : s.phase.outcome = some (true, ⟨alice.bytes, true, false⟩) := by decide +kernel
  obtain ⟨exchange, hphase, -⟩ := outcome_eq_some houtcome
  obtain ⟨t, t', hchecked, hearned⟩ := actor_earned afterAlice _ hphase
  exact ⟨exchange, t, t', hphase, hchecked, hearned⟩

/-- Let in while there were no roles, a connection is a superuser that was created a moment later;
authenticated as the only role, it is unrestricted when that role is dropped. -/
theorem actor_not_earned :
    let s := run (next plainPrimitives alice.bytes) (start fun _ => .empty)
      [.proceed, .role aliceCreated, .proceed, .proceed, .proceed]
    let s' := run (next plainPrimitives alice.bytes) (start afterAlice)
      (loggingIn ++ [.role (.drop alice false), .proceed])
    (∃ exchange, s.phase = .running exchange ⟨alice.bytes, true, false⟩ ∧
      ¬ Earned plainPrimitives s exchange ⟨alice.bytes, true, false⟩) ∧
    ∃ exchange, s'.phase = .running exchange unrestrictedActor ∧
      ¬ Earned plainPrimitives s' exchange unrestrictedActor := by
  intro s s'
  have hnamed : s.phase.outcome = some (false, ⟨alice.bytes, true, false⟩) := by decide +kernel
  have hunrestricted : s'.phase.outcome = some (true, unrestrictedActor) := by decide +kernel
  obtain ⟨exchange, hphase, hnone⟩ := outcome_eq_some hnamed
  obtain ⟨exchange', hphase', -⟩ := outcome_eq_some hunrestricted
  refine ⟨⟨exchange, hphase, fun h => ?_⟩, exchange', hphase', fun h => ?_⟩
  · obtain ⟨x, rfl, -⟩ := h.1 rfl
    cases hnone
  · have hall : s'.checked.all isEmpty = true := all_eq_true.2 (h.2 rfl)
    cases hall

end WireStartup
