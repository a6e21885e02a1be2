import Keystone.GuardedRuns
import Keystone.StorageLsmEngine

/-! # The write lease

One lease object in the shared store, taken over and renewed by compare-and-swap. To acquire
is two requests, a `get` and a conditional `put`, and anything may happen between them. The
clock is an argument of every step, so clocks of different nodes need not agree. -/
namespace StorageLease

open Function GuardedRuns List StorageLsmEngine StorageManifest

structure Lease where
  holderId : String
  fencingToken : ℕ
  expiresAtMs : ℕ
  deriving DecidableEq

inductive LeaseError where
  | get
  | held (holderId : String) (expiresAtMs fencingToken : ℕ)
  | acquiring (cause : CasError Lease)
  | renewing (cause : CasError Lease)
  deriving DecidableEq

/-- `attempt` is what a `try_acquire` between its two requests goes on with: the ETag it
expects and the token it will carry. -/
structure LeaseManager where
  holderId : String
  ttlMs : ℕ
  handle : LeaseHandle
  currentEtag : Option Lease
  attempt : Option (Option Lease × ℕ)
  deriving DecidableEq

namespace LeaseManager

def new (holderId : String) (ttlMs : ℕ) : LeaseManager := ⟨holderId, ttlMs, ⟨0, false⟩, none, none⟩

def invalidate (m : LeaseManager) : LeaseManager :=
  { m with handle := { m.handle with valid := false } }

def acquireGet (m : LeaseManager) (object : Option Lease) (now : ℕ) (io : Bool) :
    LeaseManager × Except LeaseError Unit :=
  if !io then (m, .error .get)
  else match object with
    | none => ({ m with attempt := some (none, 1) }, .ok ())
    | some existing =>
      if ¬ existing.expiresAtMs < now ∧ existing.holderId ≠ m.holderId then
        (m.invalidate,
          .error (.held existing.holderId existing.expiresAtMs existing.fencingToken))
      else ({ m with attempt := some (some existing, existing.fencingToken + 1) }, .ok ())

def acquirePut (m : LeaseManager) (object : Option Lease) (now : ℕ) (io : Bool) :
    LeaseManager × Option Lease × Option (Except LeaseError ℕ) :=
  match m.attempt with
  | none => (m, object, none)
  | some (expectedEtag, nextToken) =>
    match putIfMatch object ⟨m.holderId, nextToken, now + m.ttlMs⟩ expectedEtag io with
    | .ok etag =>
      ({ m with currentEtag := some etag, handle := ⟨nextToken, true⟩, attempt := none },
        some etag, some (.ok nextToken))
    | .error cause =>
      ({ m.invalidate with attempt := none }, object, some (.error (.acquiring cause)))

/-- `renew`: without a lease of its own it begins a `try_acquire`. -/
def renew (m : LeaseManager) (object : Option Lease) (now : ℕ) (io : Bool) :
    LeaseManager × Option Lease × Except LeaseError Unit :=
  match m.currentEtag with
  | none =>
    let (m, result) := m.acquireGet object now io
    (m, object, result)
  | some expectedEtag =>
    match putIfMatch object ⟨m.holderId, m.handle.token, now + m.ttlMs⟩ (some expectedEtag) io with
    | .ok etag => ({ m with currentEtag := some etag }, some etag, .ok ())
    | .error cause => (m.invalidate, object, .error (.renewing cause))

/-- The conditional put of `renew`, with the ETag and the token that were read before it. -/
def renewPut (m : LeaseManager) (expectedEtag : Lease) (token : ℕ) (object : Option Lease)
    (now : ℕ) (io : Bool) : LeaseManager × Option Lease × Except LeaseError Unit :=
  match putIfMatch object ⟨m.holderId, token, now + m.ttlMs⟩ (some expectedEtag) io with
  | .ok etag => ({ m with currentEtag := some etag }, some etag, .ok ())
  | .error cause => (m.invalidate, object, .error (.renewing cause))

end LeaseManager

inductive Call where
  | acquire (expectedEtag : Option Lease) (nextToken : ℕ)
  | renew (expectedEtag : Lease) (token : ℕ)

structure LeaseSystem (ι : Type) where
  manager : ι → LeaseManager
  object : Option Lease
  calls : List (ι × Call)
  granted : List ℕ

/-- A step of a call: `try_acquire` up to its `get`, `renew` up to its put, and the put of any
call in flight. The calls of one manager may overlap. -/
inductive LeaseEvent (ι : Type) where
  | tryAcquire (i : ι) (now : ℕ) (io : Bool)
  | renew (i : ι) (now : ℕ) (io : Bool)
  | put (call : ℕ) (now : ℕ) (io : Bool)

namespace LeaseSystem

variable {ι : Type} [DecidableEq ι]

def setManager (s : LeaseSystem ι) (i : ι) (m : LeaseManager) : LeaseSystem ι :=
  { s with manager := Function.update s.manager i m }

def beginAcquire (s : LeaseSystem ι) (i : ι) (now : ℕ) (io : Bool) : LeaseSystem ι :=
  let (m, _) := (s.manager i).acquireGet s.object now io
  let s := s.setManager i { m with attempt := none }
  match m.attempt with
  | some (expectedEtag, nextToken) =>
    { s with calls := s.calls ++ [(i, .acquire expectedEtag nextToken)] }
  | none => s

def beginRenew (s : LeaseSystem ι) (i : ι) (now : ℕ) (io : Bool) : LeaseSystem ι :=
  match (s.manager i).currentEtag with
  | none => s.beginAcquire i now io
  | some expectedEtag =>
    { s with calls := s.calls ++ [(i, .renew expectedEtag (s.manager i).handle.token)] }

def finish (s : LeaseSystem ι) (call : ℕ) (now : ℕ) (io : Bool) : LeaseSystem ι :=
  match s.calls[call]? with
  | none => s
  | some (i, .acquire expectedEtag nextToken) =>
    let (m, object, result) :=
      { s.manager i with attempt := some (expectedEtag, nextToken) }.acquirePut s.object now io
    { s.setManager i m with
      object := object
      calls := s.calls.eraseIdx call
      granted := match result with
        | some (.ok token) => token :: s.granted
        | _ => s.granted }
  | some (i, .renew expectedEtag token) =>
    let (m, object, _) := (s.manager i).renewPut expectedEtag token s.object now io
    { s.setManager i m with object := object, calls := s.calls.eraseIdx call }

def step (s : LeaseSystem ι) : LeaseEvent ι → LeaseSystem ι
  | .tryAcquire i now io => s.beginAcquire i now io
  | .renew i now io => s.beginRenew i now io
  | .put call now io => s.finish call now io

def initial (holderId : ι → String) (ttlMs : ι → ℕ) (object : Option Lease) : LeaseSystem ι :=
  ⟨fun i => .new (holderId i) (ttlMs i), object, [], []⟩

end LeaseSystem

def tokenOf : Option Lease → ℕ
  | none => 0
  | some lease => lease.fencingToken

def Call.Follows (m : LeaseManager) : Call → Prop
  | .acquire expectedEtag nextToken => nextToken = tokenOf expectedEtag + 1
  | .renew expectedEtag token => token = expectedEtag.fencingToken ∧ token ≤ m.handle.token

theorem Call.Follows.mono (h : m.handle.token ≤ m'.handle.token) {call : Call}
    (hcall : call.Follows m) : call.Follows m' := by
  cases call with
  | acquire => exact hcall
  | renew => exact ⟨hcall.1, hcall.2.trans h⟩

structure LeaseManager.Follows (m : LeaseManager) (stored : ℕ) : Prop where
  in_step : ∀ etag ∈ m.currentEtag, etag.fencingToken = m.handle.token
  idle : m.attempt = none
  bounded : m.handle.token ≤ stored

namespace LeaseManager

theorem acquireGet_spec (m : LeaseManager) (object : Option Lease) :
    (m.acquireGet object now io).1.currentEtag = m.currentEtag ∧
      (m.acquireGet object now io).1.handle.token = m.handle.token ∧
      ((m.acquireGet object now io).1.attempt = m.attempt ∨
        (m.acquireGet object now io).1.attempt = some (object, tokenOf object + 1)) := by
  unfold acquireGet
  cases io with
  | false => exact ⟨rfl, rfl, .inl rfl⟩
  | true =>
    cases object with
    | none => exact ⟨rfl, rfl, .inr rfl⟩
    | some existing =>
      simp only [Bool.not_true, Bool.false_eq_true, if_false]
      split_ifs
      · exact ⟨rfl, rfl, .inl rfl⟩
      · exact ⟨rfl, rfl, .inr rfl⟩

/-- The put of an acquisition replaces the content it expects, under the token it carries, or
changes nothing but the validity. -/
theorem acquirePut_spec (m : LeaseManager) (expectedEtag : Option Lease) (nextToken : ℕ)
    (object : Option Lease) (now : ℕ) (io : Bool) :
    let put := { m with attempt := some (expectedEtag, nextToken) }.acquirePut object now io
    (∃ lease : Lease, expectedEtag = object ∧ lease.fencingToken = nextToken ∧
      put = ({ m with currentEtag := some lease, handle := ⟨nextToken, true⟩, attempt := none },
        some lease, some (.ok nextToken))) ∨
    ∃ err, put = ({ m.invalidate with attempt := none }, object, some (.error err)) := by
  intro put
  simp only [put, acquirePut]
  cases hput : putIfMatch object ⟨m.holderId, nextToken, now + m.ttlMs⟩ expectedEtag io with
  | ok etag =>
    obtain ⟨he, rfl⟩ := putIfMatch_ok hput
    exact .inl ⟨_, he, rfl, rfl⟩
  | error cause => exact .inr ⟨_, rfl⟩

theorem renewPut_spec (m : LeaseManager) (object : Option Lease) (now : ℕ) (io : Bool) :
    let put := m.renewPut expectedEtag token object now io
    (∃ lease : Lease, some expectedEtag = object ∧ lease.fencingToken = token ∧
      put = ({ m with currentEtag := some lease }, some lease, .ok ())) ∨
    ∃ err, put = (m.invalidate, object, .error err) := by
  intro put
  simp only [put, renewPut]
  cases hput : putIfMatch object ⟨m.holderId, token, now + m.ttlMs⟩ (some expectedEtag) io with
  | ok etag =>
    obtain ⟨he, rfl⟩ := putIfMatch_ok hput
    exact .inl ⟨_, he, rfl, rfl⟩
  | error cause => exact .inr ⟨_, rfl⟩

end LeaseManager

namespace LeaseSystem

variable {ι : Type}

/-- Every call in flight and every manager follows from some content of the lease object, and
the stored token counts the acquisitions. -/
structure Counted (first : ℕ) (s : LeaseSystem ι) : Prop where
  managers : ∀ i, (s.manager i).Follows (tokenOf s.object)
  calls : ∀ c ∈ s.calls, c.2.Follows (s.manager c.1)
  stored : tokenOf s.object = first + s.granted.length
  granted : s.granted.reverse = List.range' (first + 1) s.granted.length

theorem initial_counted (object : Option Lease) :
    Counted (tokenOf object) (initial holderId ttlMs object) where
  managers := fun i => ⟨by simp [initial, LeaseManager.new], rfl, Nat.zero_le _⟩
  calls := by simp [initial]
  stored := rfl
  granted := rfl

variable [DecidableEq ι]

namespace Counted

variable {first : ℕ} {s : LeaseSystem ι}

variable {i : ι} (h : Counted first s)

include h

/-- Neither the token of a manager nor the stored one goes back, so what the others hold and
what is in flight still follows. -/
theorem update {object : Option Lease}
    (hm : m.Follows (tokenOf object)) (htoken : (s.manager i).handle.token ≤ m.handle.token)
    (hobject : tokenOf s.object ≤ tokenOf object) {calls : List (ι × Call)}
    (hcalls : ∀ c ∈ calls, c.2.Follows (s.manager c.1)) {granted : List ℕ}
    (hstored : tokenOf object = first + granted.length)
    (hgranted : granted.reverse = List.range' (first + 1) granted.length) :
    Counted first ⟨Function.update s.manager i m, object, calls, granted⟩ where
  managers := (forall_update_iff s.manager (p := fun _ m => m.Follows (tokenOf object))).mpr
    ⟨hm, fun j _ => { h.managers j with bounded := (h.managers j).bounded.trans hobject }⟩
  calls := by
    intro c hc
    refine (hcalls c hc).mono ?_
    dsimp only
    by_cases hi : c.1 = i
    · rw [hi, update_self]
      exact htoken
    · rw [update_of_ne hi]
  stored := hstored
  granted := hgranted

theorem beginAcquire (i : ι) (now : ℕ) (io : Bool) : Counted first (s.beginAcquire i now io) := by
  obtain ⟨hetag, htoken, hattempt⟩ := (s.manager i).acquireGet_spec s.object
  have hi := h.managers i
  have hm : ({ ((s.manager i).acquireGet s.object now io).1 with attempt := none } :
      LeaseManager).Follows (tokenOf s.object) := by
    refine ⟨fun etag he => ?_, rfl, htoken.trans_le hi.bounded⟩
    rw [hetag] at he
    exact (hi.in_step etag he).trans htoken.symm
  unfold LeaseSystem.beginAcquire
  rcases hattempt with hattempt | hattempt
  · rw [hi.idle] at hattempt
    simp only [hattempt]
    exact h.update hm htoken.ge le_rfl h.calls h.stored h.granted
  · simp only [hattempt]
    refine h.update hm htoken.ge le_rfl (fun c hc => ?_) h.stored h.granted
    rcases mem_append.mp hc with hc | hc
    · exact h.calls c hc
    · rw [mem_singleton.mp hc]
      rfl

theorem beginRenew (i : ι) (now : ℕ) (io : Bool) : Counted first (s.beginRenew i now io) := by
  unfold LeaseSystem.beginRenew
  cases hetag : (s.manager i).currentEtag with
  | none => exact h.beginAcquire i now io
  | some etag =>
    refine { h with calls := fun c hc => ?_ }
    rcases mem_append.mp hc with hc | hc
    · exact h.calls c hc
    · rw [mem_singleton.mp hc]
      exact ⟨((h.managers i).in_step etag hetag).symm, le_rfl⟩

theorem acquired (hcall : s.calls[call]? = some (i, .acquire expectedEtag nextToken)) :
    Counted first (s.finish call now io) := by
  have hi := h.managers i
  have hfollows : nextToken = tokenOf expectedEtag + 1 := h.calls _ (mem_of_getElem? hcall)
  have hcalls : ∀ c ∈ s.calls.eraseIdx call, c.2.Follows (s.manager c.1) :=
    fun c hc => h.calls c (mem_of_mem_eraseIdx hc)
  simp only [LeaseSystem.finish, hcall]
  rcases (s.manager i).acquirePut_spec expectedEtag nextToken s.object now io with
    ⟨lease, rfl, htoken, hput⟩ | ⟨err, hput⟩
  · -- the content is the one the token was counted from
    have hnext : nextToken = first + 1 + s.granted.length := by
      rw [hfollows, h.stored]
      omega
    have hlease : tokenOf (some lease) = nextToken := htoken
    simp only [hput]
    refine h.update ⟨?_, rfl, hlease.ge⟩ ?_ ?_ hcalls ?_ ?_
    · intro etag he
      obtain rfl := Option.some.inj he
      exact htoken
    · have := hi.bounded
      change _ ≤ nextToken
      omega
    · omega
    · rw [hlease, hnext, length_cons]
      omega
    · rw [reverse_cons, h.granted, length_cons, List.range'_1_concat, ← hnext]
  · have hm : ({ (s.manager i).invalidate with attempt := none } : LeaseManager).Follows
        (tokenOf s.object) := ⟨hi.in_step, rfl, hi.bounded⟩
    simp only [hput]
    exact h.update hm le_rfl le_rfl hcalls h.stored h.granted

theorem renewed (hcall : s.calls[call]? = some (i, .renew expectedEtag token)) :
    Counted first (s.finish call now io) := by
  have hi := h.managers i
  obtain ⟨hfollows, hle⟩ : token = expectedEtag.fencingToken ∧ token ≤ (s.manager i).handle.token :=
    h.calls _ (mem_of_getElem? hcall)
  have hcalls : ∀ c ∈ s.calls.eraseIdx call, c.2.Follows (s.manager c.1) :=
    fun c hc => h.calls c (mem_of_mem_eraseIdx hc)
  simp only [LeaseSystem.finish, hcall]
  rcases (s.manager i).renewPut_spec s.object now io with
    ⟨lease, hobject, htoken, hput⟩ | ⟨err, hput⟩
  · -- the stored token has not moved since the call read it, so neither has the manager's
    have hstored : tokenOf s.object = token := by
      rw [← hobject, hfollows]
      rfl
    have hsame : (s.manager i).handle.token = token :=
      le_antisymm (hstored ▸ hi.bounded) hle
    have hlease : tokenOf (some lease) = token := htoken
    have hm : ({ s.manager i with currentEtag := some lease } : LeaseManager).Follows
        (tokenOf (some lease)) := by
      refine ⟨fun etag he => ?_, hi.idle, (hsame.trans hlease.symm).le⟩
      obtain rfl := Option.some.inj he
      exact htoken.trans hsame.symm
    simp only [hput]
    refine h.update hm le_rfl (hstored.trans hlease.symm).le hcalls ?_ h.granted
    exact hlease.trans (hstored.symm.trans h.stored)
  · have hm : (s.manager i).invalidate.Follows (tokenOf s.object) :=
      { hi with }
    simp only [hput]
    exact h.update hm le_rfl le_rfl hcalls h.stored h.granted

theorem step (e : LeaseEvent ι) : Counted first (s.step e) := by
  cases e with
  | tryAcquire i now io => exact h.beginAcquire i now io
  | renew i now io => exact h.beginRenew i now io
  | put call now io =>
    cases hcall : s.calls[call]? with
    | none =>
      simp only [LeaseSystem.step, LeaseSystem.finish, hcall]
      exact h
    | some found =>
      obtain ⟨i, c⟩ := found
      cases c with
      | acquire => exact h.acquired hcall
      | renew => exact h.renewed hcall

theorem run (events : List (LeaseEvent ι)) : Counted first (run LeaseSystem.step s events) :=
  (along_of_forall fun _ _ => trivial).invariant
    (fun _ e hs _ => hs.step e) h

end Counted

theorem beginAcquire_granted (s : LeaseSystem ι) :
    (s.beginAcquire i now io).granted = s.granted := by
  unfold beginAcquire
  dsimp only
  split <;> rfl

theorem length_granted_le (s : LeaseSystem ι) : s.granted.length ≤ (s.step e).granted.length := by
  cases e with
  | tryAcquire i now io => exact (congrArg List.length s.beginAcquire_granted).ge
  | renew i now io =>
    simp only [step, beginRenew]
    split
    · exact (congrArg List.length s.beginAcquire_granted).ge
    · exact le_rfl
  | put call now io =>
    simp only [step, finish]
    split
    · exact le_rfl
    · split
      · exact Nat.le_succ _
      · exact le_rfl
    · exact le_rfl

theorem length_granted_le_run (s : LeaseSystem ι) (events : List (LeaseEvent ι)) :
    s.granted.length ≤ (run step s events).granted.length := by
  induction events generalizing s with
  | nil => exact le_rfl
  | cons e events ih => exact s.length_granted_le.trans (ih (s.step e))

end LeaseSystem

/-- Any number of managers with any holder ids, time to live and clocks, on one lease object
with any content to begin with, and any interleaving of the requests of their calls: the
tokens of the successful acquisitions, in the order of their puts, increase (each is one more
than the last), and the stored token never goes back. -/
theorem lease_tokens_increase {ι : Type} [DecidableEq ι] (holderId : ι → String) (ttlMs : ι → ℕ)
    (object : Option Lease) (events later : List (LeaseEvent ι)) :
    let s := run LeaseSystem.step (.initial holderId ttlMs object) events
    s.granted.reverse.Pairwise (· < ·) ∧
      s.granted.reverse = List.range' (tokenOf object + 1) s.granted.length ∧
      tokenOf s.object ≤ tokenOf (run LeaseSystem.step s later).object := by
  intro s
  have hs : s.Counted (tokenOf object) := (LeaseSystem.initial_counted object).run events
  refine ⟨?_, hs.granted, ?_⟩
  · rw [hs.granted]
    exact pairwise_lt_range'
  · rw [hs.stored, (hs.run later).stored]
    have := s.length_granted_le_run later
    omega

end StorageLease
