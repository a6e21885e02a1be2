import Keystone.GuardedRuns

/-! # The circuit breaker of the object store

Admission, the request itself and the update of the breaker are separate steps, so calls overlap. A
call that is shed fails, and is counted as the failures of the store are. -/
namespace StorageGuard

open GuardedRuns

inductive Outcome where
  | ok | conflict | other

structure Breaker where
  failures : ℕ
  openedAt : Option ℕ
  probing : Bool
  deriving DecidableEq

section Guarded

variable (threshold openFor : ℕ)

def admitCall (b : Breaker) (now : ℕ) : Bool × Breaker :=
  match b.openedAt with
  | none => (true, b)
  | some opened =>
    if openFor ≤ now - opened then (true, { b with probing := true, openedAt := none })
      else (false, b)

def onSuccess (_ : Breaker) : Breaker := ⟨0, none, false⟩

def onFailure (b : Breaker) (now : ℕ) : Breaker :=
  let failures := if b.probing then b.failures else b.failures + 1
  ⟨failures, if threshold ≤ failures then some now else b.openedAt, false⟩

def update (b : Breaker) (now : ℕ) : Outcome → Breaker
  | .ok | .conflict => onSuccess b
  | .other => onFailure threshold b now

/-- The calls between their admission and their update, with whether they were admitted, and the
times at which the store was reached. -/
structure Guard where
  breaker : Breaker
  calls : ℕ → Option Bool
  reached : List ℕ

def Guard.new : Guard := ⟨⟨0, none, false⟩, fun _ => none, []⟩

inductive Event where
  | arrive (call now : ℕ)
  | update (call now : ℕ) (outcome : Outcome)

def next (g : Guard) : Event → Guard
  | .arrive call now =>
    let (admitted, breaker) := admitCall openFor g.breaker now
    ⟨breaker, Function.update g.calls call (some admitted),
      g.reached ++ if admitted then [now] else []⟩
  | .update call now outcome =>
    match g.calls call with
    | none => g
    | some admitted =>
      { g with
        breaker := update threshold g.breaker now (if admitted then outcome else .other)
        calls := Function.update g.calls call none }

/-- What the breaker is documented to be in. -/
inductive Phase where
  | closed (failures : ℕ)
  | tripped (since : ℕ)
  | probing (call : ℕ)

/-- The documented machine: a shed call leaves it as it is, and so does a call that was admitted
before a trip and ends behind it. `clock` is the time of the last event. -/
structure Documented where
  phase : Phase
  calls : ℕ → Option Bool
  reached : List ℕ
  clock : ℕ

def Documented.new : Documented := ⟨.closed 0, fun _ => none, [], 0⟩

def Phase.arrive (p : Phase) (call now : ℕ) : Bool × Phase :=
  match p with
  | .closed failures => (true, .closed failures)
  | .tripped since =>
    if openFor ≤ now - since then (true, .probing call) else (false, .tripped since)
  | .probing probe => (false, .probing probe)

def Phase.finish (p : Phase) (call now : ℕ) (failed : Bool) : Phase :=
  match p with
  | .closed failures =>
    if failed then if threshold ≤ failures + 1 then .tripped now else .closed (failures + 1)
      else .closed 0
  | .tripped since => .tripped since
  | .probing probe =>
    if call = probe then if failed then .tripped now else .closed 0 else .probing probe

def Outcome.failed : Outcome → Bool
  | .ok | .conflict => false
  | .other => true

def Documented.next (d : Documented) : Event → Documented
  | .arrive call now =>
    let (admitted, phase) := d.phase.arrive openFor call now
    ⟨phase, Function.update d.calls call (some admitted), d.reached ++ if admitted then [now]
      else [], now⟩
  | .update call now outcome =>
    match d.calls call with
    | none => { d with clock := now }
    | some admitted =>
      { d with
        phase := if admitted then d.phase.finish threshold call now outcome.failed else d.phase
        calls := Function.update d.calls call none
        clock := now }

/-- The breaker and the documented machine on the same events. -/
def both (x : Guard × Documented) (e : Event) : Guard × Documented :=
  (next threshold openFor x.1 e, x.2.next threshold openFor e)

/-- A call that arrives after the period arrives as late after the last failure that was counted in
it; one that arrives during the probe finds the period counted anew. -/
def Phase.Arrives (openedAt : Option ℕ) (now : ℕ) : Phase → Prop
  | .closed _ => True
  | .tripped since => openFor ≤ now - since → ∀ counted ∈ openedAt, openFor ≤ now - counted
  | .probing _ => ∃ counted ∈ openedAt, now - counted < openFor

/-- A call from before the trip does not succeed behind it, and a shed call does not end when the
breaker is closed again. -/
def Phase.Ends (admitted : Option Bool) (call : ℕ) (outcome : Outcome) : Phase → Prop
  | .closed _ => admitted ≠ some false
  | .tripped _ => admitted = some true → outcome.failed = true
  | .probing probe => admitted = some true → call ≠ probe → outcome.failed = true

/-- The clock does not go back, and the event comes at a time when the breaker can tell what it
is. -/
def Untroubled (x : Guard × Documented) : Event → Prop
  | .arrive _ now => x.2.clock ≤ now ∧ x.2.phase.Arrives openFor x.1.breaker.openedAt now
  | .update call now outcome => x.2.clock ≤ now ∧ x.2.phase.Ends (x.2.calls call) call outcome

instance (openedAt now) : (p : Phase) → Decidable (p.Arrives openFor openedAt now)
  | .closed _ => .isTrue trivial
  | .tripped since =>
    inferInstanceAs (Decidable (openFor ≤ now - since →
      ∀ counted ∈ openedAt, openFor ≤ now - counted))
  | .probing _ => inferInstanceAs (Decidable (∃ counted ∈ openedAt, now - counted < openFor))

instance (admitted call outcome) : (p : Phase) → Decidable (p.Ends admitted call outcome)
  | .closed _ => inferInstanceAs (Decidable (admitted ≠ some false))
  | .tripped _ => inferInstanceAs (Decidable (admitted = some true → outcome.failed = true))
  | .probing probe =>
    inferInstanceAs (Decidable (admitted = some true → call ≠ probe → outcome.failed = true))

instance (x) : (e : Event) → Decidable (Untroubled openFor x e)
  | .arrive _ _ => inferInstanceAs (Decidable (_ ∧ _))
  | .update _ _ _ => inferInstanceAs (Decidable (_ ∧ _))

/-- While tripped the breaker keeps the time of the last failure it counted, shed calls included. -/
def Phase.Shown (clock : ℕ) (b : Breaker) : Phase → Prop
  | .closed failures => b = ⟨failures, none, false⟩ ∧ failures < threshold
  | .tripped since => ∃ failures counted, threshold ≤ failures ∧ since ≤ counted ∧ counted ≤ clock ∧
      b = ⟨failures, some counted, false⟩
  | .probing _ => ∃ failures, threshold ≤ failures ∧
      (b = ⟨failures, none, true⟩ ∨ ∃ counted, b = ⟨failures, some counted, false⟩)

structure AsDocumented (x : Guard × Documented) : Prop where
  phase : x.2.phase.Shown threshold x.2.clock x.1.breaker
  calls : x.1.calls = x.2.calls
  reached : x.1.reached = x.2.reached

variable {threshold openFor}

/-- A counted failure of a call that the machine does not count. -/
theorem Phase.Shown.failure {p : Phase} (h : p.Shown threshold clock b)
    (hp : ∀ failures, p ≠ .closed failures)
    (hclock : clock ≤ now) : p.Shown threshold now (onFailure threshold b now) := by
  cases p with
  | closed failures => exact absurd rfl (hp failures)
  | tripped since =>
    obtain ⟨failures, counted, hle, hsince, hcounted, rfl⟩ := h
    exact ⟨failures + 1, now, by omega, by omega,
      Nat.le_refl _, by simp [onFailure, show threshold ≤ failures + 1 by omega]⟩
  | probing probe =>
    obtain ⟨failures, hle, rfl | ⟨counted, rfl⟩⟩ := h
    · exact ⟨failures, hle, .inr ⟨now, by simp [onFailure, hle]⟩⟩
    · exact ⟨failures + 1, by omega,
        .inr ⟨now, by simp [onFailure, show threshold ≤ failures + 1 by omega]⟩⟩

theorem Phase.Shown.arrive {p : Phase} (h : p.Shown threshold clock b) (hclock : clock ≤ now)
    (hp : p.Arrives openFor b.openedAt now) :
    (admitCall openFor b now).1 = (p.arrive openFor call now).1 ∧
      (p.arrive openFor call now).2.Shown threshold now (admitCall openFor b now).2 := by
  cases p with
  | closed failures =>
    obtain ⟨rfl, hlt⟩ := h
    exact ⟨rfl, rfl, hlt⟩
  | tripped since =>
    obtain ⟨failures, counted, hle, hsince, hcounted, rfl⟩ := h
    by_cases hdue : openFor ≤ now - since
    · have hlate : openFor ≤ now - counted := hp hdue counted rfl
      simp only [admitCall, if_pos hlate, Phase.arrive, if_pos hdue, true_and]
      exact ⟨failures, hle, .inl rfl⟩
    · have hearly : ¬ openFor ≤ now - counted := by omega
      simp only [admitCall, if_neg hearly, Phase.arrive, if_neg hdue, true_and]
      exact ⟨failures, counted, hle, hsince, Nat.le_trans hcounted hclock, rfl⟩
  | probing probe =>
    obtain ⟨counted, hcounted, hearly⟩ := hp
    obtain ⟨failures, hle, rfl | ⟨counted', rfl⟩⟩ := h
    · cases hcounted
    · cases hcounted
      simp only [admitCall, if_neg (Nat.not_le.mpr hearly), Phase.arrive, true_and]
      exact ⟨failures, hle, .inr ⟨counted, rfl⟩⟩

/-- An admitted call ends. -/
theorem Phase.Shown.finish {p : Phase} (h : p.Shown threshold clock b) (hpos : 0 < threshold)
    (hclock : clock ≤ now)
    (hlate : ∀ since, p = .tripped since → outcome.failed = true)
    (hother : ∀ probe, p = .probing probe → call ≠ probe → outcome.failed = true) :
    (p.finish threshold call now outcome.failed).Shown threshold now
      (update threshold b now outcome) := by
  have hcases : outcome.failed = false ∧ update threshold b now outcome = ⟨0, none, false⟩ ∨
      outcome.failed = true ∧ update threshold b now outcome = onFailure threshold b now := by
    cases outcome <;> simp [Outcome.failed, update, onSuccess]
  rcases hcases with ⟨hok, hupdate⟩ | ⟨hfailed, hupdate⟩
  · rw [hok, hupdate]
    cases p with
    | closed failures => exact ⟨rfl, hpos⟩
    | tripped since => exact absurd (hlate since rfl) (by simp [hok])
    | probing probe =>
      have hprobe : call = probe := by
        by_contra hne
        exact absurd (hother probe rfl hne) (by simp [hok])
      simp only [Phase.finish, hprobe, if_true, Bool.false_eq_true, if_false]
      exact ⟨rfl, hpos⟩
  · rw [hfailed, hupdate]
    cases p with
    | closed failures =>
      obtain ⟨rfl, hlt⟩ := h
      by_cases htrip : threshold ≤ failures + 1
      · simp only [Phase.finish, onFailure, htrip, if_true]
        exact ⟨failures + 1, now, htrip, Nat.le_refl _, Nat.le_refl _, by simp [htrip]⟩
      · simp only [Phase.finish, onFailure, htrip, if_true, if_false, Bool.false_eq_true]
        exact ⟨rfl, Nat.not_le.mp htrip⟩
    | tripped since => exact h.failure (by simp) hclock
    | probing probe =>
      have hfailure := h.failure (by simp) hclock
      by_cases hprobe : call = probe
      · -- the failed probe trips the breaker again, from its own end on
        simp only [Phase.finish, hprobe, if_true]
        obtain ⟨failures, hle, rfl | ⟨counted, rfl⟩⟩ := h
        · exact ⟨failures, now, hle, Nat.le_refl _, Nat.le_refl _, by simp [onFailure, hle]⟩
        · exact ⟨failures + 1, now, by omega, Nat.le_refl _,
            Nat.le_refl _, by simp [onFailure, show threshold ≤ failures + 1 by omega]⟩
      · simpa [Phase.finish, hprobe] using hfailure

theorem AsDocumented.both {x : Guard × Documented} (h : AsDocumented threshold x)
    (hpos : 0 < threshold)
    (hx : Untroubled openFor x e) : AsDocumented threshold (both threshold openFor x e) := by
  obtain ⟨⟨b, calls, reached⟩, p, calls', reached', clock⟩ := x
  obtain ⟨hphase, hcalls, hreached⟩ := h
  simp only at hphase hcalls hreached
  subst hcalls hreached
  cases e with
  | arrive call now =>
    obtain ⟨hpasses, hshown⟩ := hphase.arrive hx.1 hx.2
    refine ⟨hshown, ?_, ?_⟩ <;> simp only [StorageGuard.both, next, Documented.next, hpasses]
  | update call now outcome =>
    obtain ⟨hclock, hx⟩ := hx
    simp only at hclock hx
    rcases hcall : calls call with _ | _ | _
    · simp only [StorageGuard.both, next, Documented.next, hcall]
      refine ⟨?_, rfl, rfl⟩
      cases p with
      | closed failures => exact hphase
      | tripped since =>
        obtain ⟨failures, counted, hle, hsince, hcounted, hb⟩ := hphase
        exact ⟨failures, counted, hle, hsince, Nat.le_trans hcounted hclock, hb⟩
      | probing probe => exact hphase
    · simp only [StorageGuard.both, next, Documented.next, hcall]
      refine ⟨hphase.failure (fun failures hp => ?_) hclock, rfl, rfl⟩
      subst hp
      exact hx hcall
    · simp only [StorageGuard.both, next, Documented.next, hcall]
      refine ⟨hphase.finish hpos hclock (fun since hp => ?_) (fun probe hp => ?_), rfl, rfl⟩
      · subst hp
        exact hx hcall
      · subst hp
        exact hx hcall

/-- Calls that overlap in any way meet the breaker as documented, as long as no step is a troubled
one: the same calls are shed and reach the store, and the breaker is in the documented phase. -/
theorem calls_as_documented (hpos : 0 < threshold)
    (h : Along (both threshold openFor) (Untroubled openFor) (.new, .new) events) :
    let g := run (next threshold openFor) .new events
    let d := run (Documented.next threshold openFor) .new events
    g.reached = d.reached ∧ g.calls = d.calls ∧ d.phase.Shown threshold d.clock g.breaker := by
  have hnew : AsDocumented threshold (.new, .new) := ⟨⟨rfl, hpos⟩, rfl, rfl⟩
  have hrun := h.invariant (fun x e hx htrouble => hx.both hpos htrouble) hnew
  have hboth : ∀ x : Guard × Documented, run (both threshold openFor) x events =
      (run (next threshold openFor) x.1 events,
        run (Documented.next threshold openFor) x.2 events) := by
    clear h hrun
    induction events with
    | nil => exact fun x => rfl
    | cons e events ih => exact fun x => ih _
  rw [hboth] at hrun
  exact ⟨hrun.reached, hrun.calls, hrun.phase⟩

end Guarded

/-- A call is shed, the probe behind the period fails, one more is shed, and the second probe closes
the breaker for two calls at once. -/
theorem calls_as_documented_shed :
    let events : List Event := [.arrive 0 0, .update 0 0 .other, .arrive 1 5, .update 1 5 .other,
      .arrive 2 15,
      .update 2 16 .other, .arrive 3 20, .update 3 21 .other, .arrive 4 31, .update 4 32 .conflict,
      .arrive 5 33, .arrive 6 33]
    (run (next 1 10) .new events).reached = [0, 15, 31, 33, 33] :=
  (calls_as_documented Nat.one_pos (by decide)).1

/-- A shed call puts the end of the period off, two probes reach the store, and a call from before
the trip closes the breaker. -/
theorem breaker_not_as_documented :
    let run := run (next 1 10) .new
    let trip : List Event := [.arrive 0 0, .update 0 0 .other]
    (run (trip ++ [.arrive 1 9, .update 1 9 .other, .arrive 2 10])).reached = [0] ∧
      (run (trip ++ [.arrive 1 10, .arrive 2 11])).reached = [0, 10, 11] ∧
      (run (.arrive 1 0 :: trip ++ [.update 1 2 .ok, .arrive 2 3])).reached = [0, 0, 3] := by
  decide

end StorageGuard
