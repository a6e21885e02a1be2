import Keystone.DatabaseWrites
import Keystone.DecimalText

/-! # Sequences

A sequence is a counter in memory with a copy in the object store. `nextval` moves the counter
first and writes the copy after that; opening the database takes the counters from the store. -/
namespace DatabaseSequences

open DatabaseWrites DecimalText Function GuardedRuns List StorageInternalKey

def InI64 (n : ℤ) : Prop := -2 ^ 63 ≤ n ∧ n < 2 ^ 63

instance (n : ℤ) : Decidable (InI64 n) := inferInstanceAs (Decidable (_ ∧ _))

/-- The two build profiles of the package differ in what an overflow does. -/
inductive Profile where
  | dev
  | release
  deriving DecidableEq

def Profile.i64 (profile : Profile) (n : ℤ) : Option ℤ :=
  if InI64 n then some n
  else match profile with
    | .dev => none
    | .release => some (n.bmod (2 ^ 64))

theorem Profile.i64_of_inI64 {profile : Profile} {n : ℤ} (h : InI64 n) :
    profile.i64 n = some n := by
  simp [Profile.i64, h]

structure Sequence where
  name : Bytes
  value : ℤ
  increment : ℤ
  deriving DecidableEq

/-- How `put` ends: an error can come before the rename of the temporary file, and after it, when
the directory is synced. -/
inductive PutOutcome where
  | stored
  | refused
  | unsynced
  deriving DecidableEq

structure Objects (K : Type) where
  visible : K → Option Sequence
  synced : K → Option Sequence

variable {K : Type} [DecidableEq K]

def Objects.put (o : Objects K) (key : K) (seq : Sequence) : PutOutcome → Objects K
  | .stored => ⟨Function.update o.visible key (some seq), Function.update o.synced key (some seq)⟩
  | .refused => o
  | .unsynced => { o with visible := Function.update o.visible key (some seq) }

/-- A power cut takes back the renames of `reverted`, as far as they were not synced. -/
def Objects.powerCut (o : Objects K) (reverted : List K) : Objects K :=
  let left k := if k ∈ reverted then o.synced k else o.visible k
  ⟨left, left⟩

inductive SequenceError where
  | readOnlyReplica
  | alreadyExists (name : Bytes)
  | doesNotExist (name : Bytes)
  | store
  deriving DecidableEq

inductive Reply (α : Type) where
  | ok (a : α)
  | err (e : SequenceError)
  | panicked
  deriving DecidableEq

/-- A panic under the lock of `sequences` poisons it: from then on every `lock().unwrap()`
panics. -/
structure Db (K : Type) where
  role : NodeRole
  sequences : Bytes → Option Sequence
  poisoned : Bool
  objects : Objects K

def objectKey (name : Bytes) : Bytes := utf8 "sequences/" ++ name ++ utf8 ".bin"

-- the object that a key stands for: a file system may take several keys for the same file
variable (profile : Profile) (resolve : Bytes → K)

def keyOf (name : Bytes) : K := resolve (objectKey name)

/-- The counter is changed in memory, and stays so when the store then fails. -/
def replace (s : Db K) (name : Bytes) (seq : Sequence) (put : PutOutcome) : Db K :=
  { s with
    sequences := Function.update s.sequences name (some seq)
    objects := s.objects.put (keyOf resolve name) seq put }

def replyTo {α : Type} (put : PutOutcome) (a : α) : Reply α :=
  match put with
  | .stored => .ok a
  | .refused | .unsynced => .err .store

/-- Here, and only here, the store comes first. -/
def createSequence (name : Bytes) (start increment : ℤ) (put : PutOutcome) (s : Db K) :
    Db K × Reply Unit :=
  if s.role = .reader then (s, .err .readOnlyReplica)
  else if s.poisoned then (s, .panicked)
  else if (s.sequences name).isSome then (s, .err (.alreadyExists name))
  else match profile.i64 (start - increment) with
    | none => ({ s with poisoned := true }, .panicked)
    | some value =>
      match put with
      | .stored => (replace resolve s name ⟨name, value, increment⟩ .stored, .ok ())
      | put =>
        ({ s with objects := s.objects.put (keyOf resolve name) ⟨name, value, increment⟩ put },
          .err .store)

def advance (name : Bytes) (value : Sequence → ℤ) (put : PutOutcome) (s : Db K) :
    Db K × Reply ℤ :=
  if s.role = .reader then (s, .err .readOnlyReplica)
  else if s.poisoned then (s, .panicked)
  else match s.sequences name with
    | none => (s, .err (.doesNotExist name))
    | some seq =>
      match profile.i64 (value seq) with
      | none => ({ s with poisoned := true }, .panicked)
      | some v => (replace resolve s name { seq with value := v } put, replyTo put v)

def nextval (name : Bytes) (put : PutOutcome) (s : Db K) : Db K × Reply ℤ :=
  advance profile resolve name (fun seq => seq.value + seq.increment) put s

def currval (name : Bytes) (s : Db K) : Reply ℤ :=
  if s.poisoned then .panicked
  else match s.sequences name with
    | none => .err (.doesNotExist name)
    | some seq => .ok seq.value

/-- It answers with the value it was given, not with the one it stores. -/
def setval (name : Bytes) (value : ℤ) (isCalled : Bool) (put : PutOutcome) (s : Db K) :
    Db K × Reply ℤ :=
  let (s, reply) := advance profile resolve name
    (fun seq => if isCalled then value else value - seq.increment) put s
  match reply with
  | .ok _ => (s, .ok value)
  | reply => (s, reply)

/-- `Database::open` reads the objects in the order the store lists them, and files each one under
the name it has inside. -/
def openSequences (objects : Objects K) (listing : List K) : Bytes → Option Sequence :=
  listing.foldl
    (fun sequences key =>
      match objects.visible key with
      | some seq => Function.update sequences seq.name (some seq)
      | none => sequences)
    (fun _ => none)

def reopen (role : NodeRole) (listing reverted : List K) (s : Db K) : Db K :=
  let objects := s.objects.powerCut reverted
  ⟨role, openSequences objects listing, false, objects⟩

def Db.empty (K : Type) : Db K := ⟨.writer, fun _ => none, false, fun _ => none, fun _ => none⟩

/-- A process that dies inside `nextval` is a call whose `put` fails, followed by a `reopen`. -/
inductive Event (K : Type) where
  | create (name : Bytes) (start increment : ℤ) (put : PutOutcome)
  | nextval (name : Bytes) (put : PutOutcome)
  | currval (name : Bytes)
  | setval (name : Bytes) (value : ℤ) (isCalled : Bool) (put : PutOutcome)
  | reopen (role : NodeRole) (listing reverted : List K)
  deriving DecidableEq

def step (s : Db K) : Event K → Db K
  | .create name start increment put =>
    (createSequence profile resolve name start increment put s).1
  | .nextval name put => (nextval profile resolve name put s).1
  | .currval _ => s
  | .setval name value isCalled put => (setval profile resolve name value isCalled put s).1
  | .reopen role listing reverted => reopen role listing reverted s

structure World (K : Type) where
  db : Db K
  answers : List (Reply ℤ)

def answerOf (name : Bytes) (s : Db K) : Event K → List (Reply ℤ)
  | .nextval called put => if called = name then [(nextval profile resolve called put s).2] else []
  | _ => []

def next (name : Bytes) (w : World K) (e : Event K) : World K :=
  ⟨step profile resolve w.db e, w.answers ++ answerOf profile resolve name w.db e⟩

def Reply.value? : Reply ℤ → Option ℤ
  | .ok v => some v
  | _ => none

def given (answers : List (Reply ℤ)) : List ℤ := answers.filterMap Reply.value?

@[simp] theorem given_ok (answers : List (Reply ℤ)) (v : ℤ) :
    given (answers ++ [.ok v]) = given answers ++ [v] := by
  simp [given, Reply.value?]

@[simp] theorem given_err : given (answers ++ [.err e]) = given answers := by
  simp [given, Reply.value?]

def Ahead (increment a b : ℤ) : Prop := 0 < increment ∧ a < b ∨ increment < 0 ∧ b < a

instance (increment a b : ℤ) : Decidable (Ahead increment a b) :=
  inferInstanceAs (Decidable (_ ∨ _))

variable {increment : ℤ}

theorem ahead_add (h : increment ≠ 0) (a : ℤ) : Ahead increment a (a + increment) := by
  unfold Ahead
  omega

structure Orderly (start increment : ℤ) (answers : List (Reply ℤ)) : Prop where
  answered : Reply.panicked ∉ answers
  first : ∀ v, (given answers).head? = some v → v = start
  ahead : (given answers).Pairwise (Ahead increment)
  distinct : (given answers).Nodup

instance (start increment : ℤ) (answers : List (Reply ℤ)) :
    Decidable (Orderly start increment answers) :=
  decidable_of_iff
    (Reply.panicked ∉ answers ∧ (∀ v ∈ (given answers).head?, v = start) ∧
      (given answers).Pairwise (Ahead increment) ∧ (given answers).Nodup)
    ⟨fun h => ⟨h.1, h.2.1, h.2.2.1, h.2.2.2⟩, fun h => ⟨h.1, h.2, h.3, h.4⟩⟩

section Orderly

variable {start increment : ℤ} {answers : List (Reply ℤ)}

theorem Orderly.err (h : Orderly start increment answers) (e : SequenceError) :
    Orderly start increment (answers ++ [.err e]) := by
  refine ⟨by simpa using h.answered, ?_, ?_, ?_⟩ <;> rw [given_err]
  · exact h.first
  · exact h.ahead
  · exact h.distinct

theorem Orderly.ok (h : Orderly start increment answers)
    (hahead : ∀ a ∈ given answers, Ahead increment a v) (hfirst : given answers = [] → v = start) :
    Orderly start increment (answers ++ [.ok v]) := by
  have hpairwise : (given answers ++ [v]).Pairwise (Ahead increment) :=
    pairwise_append.mpr ⟨h.ahead, pairwise_singleton .., by simpa using hahead⟩
  refine ⟨by simpa using h.answered, ?_, ?_, ?_⟩ <;> rw [given_ok]
  · intro a ha
    cases hgiven : given answers with
    | nil =>
      rw [hgiven] at ha
      exact (Option.some.inj ha) ▸ hfirst hgiven
    | cons b rest =>
      exact h.first a (by simpa [hgiven] using ha)
  · exact hpairwise
  · exact hpairwise.imp fun h => by unfold Ahead at h; omega

end Orderly

section Calls

variable {profile : Profile} {resolve : Bytes → K} {s : Db K} {name : Bytes} {put : PutOutcome}

theorem advance_cases (s : Db K) :
    let r := advance profile resolve name value put s
    (∃ e, r = (s, .err e)) ∨ (s.poisoned = true ∧ r = (s, .panicked)) ∨
    (∃ seq, s.sequences name = some seq ∧ profile.i64 (value seq) = none ∧
      r = ({ s with poisoned := true }, .panicked)) ∨
    (∃ seq v, s.sequences name = some seq ∧ profile.i64 (value seq) = some v ∧
      r = (replace resolve s name { seq with value := v } put, replyTo put v)) := by
  unfold advance
  by_cases hrole : s.role = .reader
  · exact .inl ⟨_, if_pos hrole⟩
  · rw [if_neg hrole]
    cases hpoisoned : s.poisoned with
    | true => exact .inr (.inl ⟨rfl, rfl⟩)
    | false =>
      cases hseq : s.sequences name with
      | none => exact .inl ⟨_, rfl⟩
      | some seq =>
        cases hv : profile.i64 (value seq) with
        | none => exact .inr (.inr (.inl ⟨seq, rfl, hv, by simp [hv]⟩))
        | some v => exact .inr (.inr (.inr ⟨seq, v, rfl, hv, by simp [hv]⟩))

theorem createSequence_cases (s : Db K) (start increment : ℤ) :
    let r := createSequence profile resolve name start increment put s
    (∃ e, r = (s, .err e)) ∨ (s.poisoned = true ∧ r = (s, .panicked)) ∨
    (profile.i64 (start - increment) = none ∧ s.sequences name = none ∧
      r = ({ s with poisoned := true }, .panicked)) ∨
    (∃ v, profile.i64 (start - increment) = some v ∧ s.poisoned = false ∧ put = .stored ∧
      r = (replace resolve s name ⟨name, v, increment⟩ .stored, .ok ())) ∨
    (∃ v, profile.i64 (start - increment) = some v ∧
      r = ({ s with objects := s.objects.put (keyOf resolve name) ⟨name, v, increment⟩ put },
        .err .store)) := by
  unfold createSequence
  by_cases hrole : s.role = .reader
  · exact .inl ⟨_, if_pos hrole⟩
  · rw [if_neg hrole]
    cases hpoisoned : s.poisoned with
    | true => exact .inr (.inl ⟨rfl, rfl⟩)
    | false =>
      cases hseq : s.sequences name with
      | some seq => exact .inl ⟨_, rfl⟩
      | none =>
        cases hv : profile.i64 (start - increment) with
        | none => exact .inr (.inr (.inl ⟨rfl, rfl, rfl⟩))
        | some v =>
          cases put with
          | stored => exact .inr (.inr (.inr (.inl ⟨v, rfl, rfl, rfl, rfl⟩)))
          | refused | unsynced => exact .inr (.inr (.inr (.inr ⟨v, rfl, rfl⟩)))

theorem setval_state : (setval profile resolve name value isCalled put s).1 =
    (advance profile resolve name
        (fun seq => if isCalled then value else value - seq.increment) put s).1 := by
  unfold setval
  cases h : (advance profile resolve name
    (fun seq => if isCalled then value else value - seq.increment) put s).2 <;> simp [h]

omit [DecidableEq K] in
theorem openSequences_eq_some (h : openSequences objects listing n = some seq) :
    seq.name = n ∧ ∃ k, objects.visible k = some seq := by
  -- for any map that the loop starts with
  suffices hall : ∀ (start : Bytes → Option Sequence),
      (∀ n seq, start n = some seq → seq.name = n ∧ ∃ k, objects.visible k = some seq) →
      ∀ n seq, listing.foldl (fun sequences key =>
          match objects.visible key with
          | some seq => Function.update sequences seq.name (some seq)
          | none => sequences) start n = some seq →
        seq.name = n ∧ ∃ k, objects.visible k = some seq from
    hall (fun _ => none) (by simp) n seq h
  clear h
  induction listing with
  | nil => exact fun start hstart => hstart
  | cons key listing ih =>
    intro start hstart
    refine ih _ fun n seq hn => ?_
    cases hkey : objects.visible key with
    | none => exact hstart n seq (by simpa [hkey] using hn)
    | some found =>
      by_cases hname : n = found.name
      · subst hname
        have : found = seq := by simpa [hkey] using hn
        exact this ▸ ⟨rfl, key, hkey⟩
      · exact hstart n seq (by simpa [hkey, update_of_ne hname] using hn)

end Calls

section Tidy

variable {resolve : Bytes → K}

def Filed (resolve : Bytes → K) (objects : K → Option Sequence) : Prop :=
  ∀ k seq, objects k = some seq → keyOf resolve seq.name = k

theorem Filed.update (h : Filed resolve objects) (seq : Sequence) :
    Filed resolve (Function.update objects (keyOf resolve seq.name) (some seq)) := by
  intro k found hfound
  by_cases hk : k = keyOf resolve seq.name
  · subst hk
    have : seq = found := by simpa using hfound
    rw [this]
  · exact h k found (by simpa [update_of_ne hk] using hfound)

structure Tidy (resolve : Bytes → K) (s : Db K) : Prop where
  named : ∀ n seq, s.sequences n = some seq → seq.name = n
  visible : Filed resolve s.objects.visible
  synced : Filed resolve s.objects.synced

variable (profile : Profile) {s : Db K} (h : Tidy resolve s)

include h

theorem Tidy.put (seq : Sequence) (put : PutOutcome) :
    Tidy resolve { s with objects := s.objects.put (keyOf resolve seq.name) seq put } := by
  cases put with
  | stored => exact ⟨h.named, h.visible.update seq, h.synced.update seq⟩
  | refused => exact h
  | unsynced => exact ⟨h.named, h.visible.update seq, h.synced⟩

theorem Tidy.replace (seq : Sequence) (hseq : seq.name = name) (put : PutOutcome) :
    Tidy resolve (replace resolve s name seq put) := by
  subst hseq
  refine ⟨fun n found hfound => ?_, (h.put seq put).visible, (h.put seq put).synced⟩
  by_cases hn : n = seq.name
  · subst hn
    have : seq = found := by simpa [DatabaseSequences.replace] using hfound
    rw [this]
  · exact h.named n found (by simpa [DatabaseSequences.replace, update_of_ne hn] using hfound)

theorem Tidy.advance (name : Bytes) (value : Sequence → ℤ) (put : PutOutcome) :
    Tidy resolve (advance profile resolve name value put s).1 := by
  obtain ⟨e, heq⟩ | ⟨-, heq⟩ | ⟨seq, -, -, heq⟩ | ⟨seq, v, hseq, -, heq⟩ :=
    advance_cases s <;> rw [heq]
  · exact h
  · exact h
  · exact { h with }
  · exact h.replace { seq with value := v } (h.named name seq hseq) put

theorem Tidy.create (name : Bytes) (start increment : ℤ) (put : PutOutcome) :
    Tidy resolve (createSequence profile resolve name start increment put s).1 := by
  obtain ⟨e, heq⟩ | ⟨-, heq⟩ | ⟨-, -, heq⟩ | ⟨v, -, -, -, heq⟩ | ⟨v, -, heq⟩ :=
    createSequence_cases s start increment <;> rw [heq]
  · exact h
  · exact h
  · exact { h with }
  · exact h.replace ⟨name, v, increment⟩ rfl .stored
  · exact h.put ⟨name, v, increment⟩ put

theorem Tidy.reopen (role : NodeRole) (listing reverted : List K) :
    Tidy resolve (reopen role listing reverted s) := by
  have hleft : Filed resolve (s.objects.powerCut reverted).visible := by
    intro k seq hk
    by_cases hrev : k ∈ reverted
    · exact h.synced k seq (by simpa [Objects.powerCut, hrev] using hk)
    · exact h.visible k seq (by simpa [Objects.powerCut, hrev] using hk)
  exact ⟨fun n seq hn => (openSequences_eq_some hn).1, hleft, hleft⟩

theorem Tidy.step (e : Event K) : Tidy resolve (step profile resolve s e) := by
  cases e with
  | create name start increment put => exact h.create profile name start increment put
  | nextval name put => exact h.advance profile name _ put
  | currval name => exact h
  | setval name value isCalled put =>
    have hset := h.advance profile name
      (fun seq => if isCalled then value else value - seq.increment) put
    rwa [← setval_state] at hset
  | reopen role listing reverted => exact h.reopen role listing reverted

end Tidy

section Copies

variable {profile : Profile} {resolve : Bytes → K} {name : Bytes} {P : Sequence → Prop} {s : Db K}

structure Copies (resolve : Bytes → K) (name : Bytes) (P : Sequence → Prop) (s : Db K) : Prop where
  memory : ∀ seq, s.sequences name = some seq → P seq
  visible : ∀ seq, s.objects.visible (keyOf resolve name) = some seq → P seq
  synced : ∀ seq, s.objects.synced (keyOf resolve name) = some seq → P seq

theorem copies_stored (hseq : P seq) : Copies resolve name P (replace resolve s name seq .stored) :=
  ⟨by simpa [replace] using hseq, by simpa [replace, Objects.put] using hseq,
    by simpa [replace, Objects.put] using hseq⟩

theorem Copies.replaced (h : Copies resolve name P s) (hseq : P seq) (put : PutOutcome) :
    Copies resolve name P (replace resolve s name seq put) := by
  have hstored : Copies resolve name P (replace resolve s name seq .stored) := copies_stored hseq
  cases put with
  | stored => exact hstored
  | refused => exact ⟨hstored.memory, h.visible, h.synced⟩
  | unsynced => exact ⟨hstored.memory, hstored.visible, h.synced⟩

variable {other : Bytes}

theorem Copies.put_other (h : Copies resolve name P s)
    (hother : keyOf resolve other ≠ keyOf resolve name)
    (seq : Sequence) (put : PutOutcome) :
    Copies resolve name P { s with objects := s.objects.put (keyOf resolve other) seq put } := by
  cases put with
  | refused => exact h
  | stored | unsynced =>
    exact ⟨h.memory, by simpa [Objects.put, update_of_ne hother.symm] using h.visible,
      by simpa [Objects.put, update_of_ne hother.symm] using h.synced⟩

theorem Copies.other_replaced (h : Copies resolve name P s)
    (hother : keyOf resolve other ≠ keyOf resolve name) :
    Copies resolve name P (replace resolve s other seq put) := by
  have hne : name ≠ other := fun heq => hother (by rw [heq])
  have hput := h.put_other hother seq put
  exact ⟨by simpa [replace, update_of_ne hne] using h.memory, hput.visible, hput.synced⟩

/-- A sequence is reopened from the object under its own key and from no other. -/
theorem Copies.reopen (h : Copies resolve name P s) (htidy : Tidy resolve s) (role : NodeRole)
    (listing reverted : List K) :
    Copies resolve name P (reopen role listing reverted s) := by
  have hleft : ∀ seq, (s.objects.powerCut reverted).visible (keyOf resolve name) = some seq →
    P seq := by
    intro seq hseq
    by_cases hrev : keyOf resolve name ∈ reverted
    · exact h.synced seq (by simpa [Objects.powerCut, hrev] using hseq)
    · exact h.visible seq (by simpa [Objects.powerCut, hrev] using hseq)
  refine ⟨fun seq hseq => ?_, hleft, hleft⟩
  obtain ⟨hname, k, hk⟩ := openSequences_eq_some hseq
  have hfiled : keyOf resolve seq.name = k :=
    (htidy.reopen role listing reverted).visible k seq hk
  rw [← hfiled, hname] at hk
  exact hleft seq hk

end Copies

section Serving

variable {profile : Profile} {resolve : Bytes → K} {name : Bytes} {start increment : ℤ}

def Fits (s : Db K) : Event K → Prop
  | .create n start increment _ => s.sequences n = none → InI64 (start - increment)
  | .nextval n _ => ∀ seq ∈ s.sequences n, InI64 (seq.value + seq.increment)
  | .setval n value isCalled _ =>
    ∀ seq ∈ s.sequences n, InI64 (if isCalled then value else value - seq.increment)
  | .currval _ | .reopen _ _ _ => True

def Alone (resolve : Bytes → K) (name : Bytes) : Event K → Prop
  | .create n _ _ _ | .setval n _ _ _ => keyOf resolve n ≠ keyOf resolve name
  | .nextval n _ => keyOf resolve n = keyOf resolve name → n = name
  | .currval _ | .reopen _ _ _ => True

def Starts (name : Bytes) (w : World K) : Event K → Prop
  | .nextval n put => n = name → given w.answers = [] → put = .stored
  | _ => True

instance (s : Db K) : (e : Event K) → Decidable (Fits s e)
  | .create .. => inferInstanceAs (Decidable (_ = _ → InI64 _))
  | .nextval .. | .setval .. => inferInstanceAs (Decidable (∀ seq ∈ s.sequences _, InI64 _))
  | .currval _ | .reopen .. => .isTrue trivial

instance (resolve : Bytes → K) (name : Bytes) : (e : Event K) → Decidable (Alone resolve name e)
  | .create .. | .setval .. => inferInstanceAs (Decidable (_ ≠ _))
  | .nextval .. => inferInstanceAs (Decidable (_ = _ → _ = _))
  | .currval _ | .reopen .. => .isTrue trivial

instance (name : Bytes) (w : World K) : (e : Event K) → Decidable (Starts name w e)
  | .nextval .. => inferInstanceAs (Decidable (_ = _ → _ = _ → _ = _))
  | .create .. | .setval .. | .currval _ | .reopen .. => .isTrue trivial

def Safe (resolve : Bytes → K) (name : Bytes) (w : World K) (e : Event K) : Prop :=
  Fits w.db e ∧ Alone resolve name e ∧ Starts name w e

instance (resolve : Bytes → K) (name : Bytes) (w : World K) (e : Event K) :
    Decidable (Safe resolve name w e) := inferInstanceAs (Decidable (_ ∧ _ ∧ _))

structure Behind (start increment : ℤ) (values : List ℤ) (seq : Sequence) : Prop where
  increment_eq : seq.increment = increment
  reached : ∀ v ∈ values, v = seq.value ∨ Ahead increment v seq.value
  untouched : values = [] → seq.value = start - increment

theorem Behind.advanced (h : Behind start increment values seq) (hincr : increment ≠ 0) :
    ∀ v ∈ values, Ahead increment v (seq.value + seq.increment) := by
  intro v hv
  rw [h.increment_eq]
  rcases h.reached v hv with heq | hahead
  · rw [heq]
    exact ahead_add hincr seq.value
  · have hadd := ahead_add hincr seq.value
    unfold Ahead at *
    omega

structure Serving (resolve : Bytes → K) (name : Bytes) (start increment : ℤ) (w : World K) :
    Prop where
  tidy : Tidy resolve w.db
  healthy : w.db.poisoned = false
  copies : Copies resolve name (Behind start increment (given w.answers)) w.db
  orderly : Orderly start increment w.answers

variable {w : World K}

/-- A step that answers no `nextval` of the sequence only has to keep the database in order. -/
theorem Serving.of_db (h : Serving resolve name start increment w)
    (hanswer : answerOf profile resolve name w.db e = [])
    (hhealthy : (step profile resolve w.db e).poisoned = false)
    (hcopies : Copies resolve name (Behind start increment (given w.answers))
      (step profile resolve w.db e)) :
    Serving resolve name start increment (next profile resolve name w e) := by
  have hsame : (next profile resolve name w e).answers = w.answers := by simp [next, hanswer]
  refine ⟨h.tidy.step profile e, hhealthy, ?_, ?_⟩
  · rw [hsame]
    exact hcopies
  · rw [hsame]
    exact h.orderly

variable {s : Db K}

theorem advance_other {value : Sequence → ℤ} (hhealthy : s.poisoned = false)
    (hcopies : Copies resolve name P s)
    (hfits : ∀ seq ∈ s.sequences other, InI64 (value seq))
      (hother : keyOf resolve other ≠ keyOf resolve name) :
    (advance profile resolve other value put s).1.poisoned = false ∧
      Copies resolve name P (advance profile resolve other value put s).1 := by
  obtain ⟨e, heq⟩ | ⟨hpoisoned, -⟩ | ⟨seq, hseq, hnone, -⟩ | ⟨seq, v, hseq, -, heq⟩ :=
    advance_cases s
  · rw [heq]
    exact ⟨hhealthy, hcopies⟩
  · simp [hhealthy] at hpoisoned
  · simp [Profile.i64_of_inI64 (hfits seq hseq)] at hnone
  · rw [heq]
    exact ⟨hhealthy, hcopies.other_replaced hother⟩

theorem create_other (hhealthy : s.poisoned = false) (hcopies : Copies resolve name P s)
    (hfits : s.sequences other = none → InI64 (start - increment))
    (hother : keyOf resolve other ≠ keyOf resolve name) :
    (createSequence profile resolve other start increment put s).1.poisoned = false ∧
      Copies resolve name P (createSequence profile resolve other start increment put s).1 := by
  obtain ⟨e, heq⟩ | ⟨hpoisoned, -⟩ | ⟨hnone, hfree, -⟩ | ⟨v, -, -, -, heq⟩ | ⟨v, -, heq⟩ :=
    createSequence_cases s start increment
  · rw [heq]
    exact ⟨hhealthy, hcopies⟩
  · simp [hhealthy] at hpoisoned
  · simp [Profile.i64_of_inI64 (hfits hfree)] at hnone
  · rw [heq]
    exact ⟨hhealthy, hcopies.other_replaced hother⟩
  · rw [heq]
    exact ⟨hhealthy, hcopies.put_other hother _ put⟩

theorem serving_nextval (h : Serving resolve name start increment w) (hincr : increment ≠ 0)
    (hfits : ∀ seq ∈ w.db.sequences name, InI64 (seq.value + seq.increment))
    (hstarts : given w.answers = [] → put = .stored) :
    Serving resolve name start increment (next profile resolve name w (.nextval name put)) := by
  have hanswers : (next profile resolve name w (.nextval name put)).answers =
      w.answers ++ [(nextval profile resolve name put w.db).2] := by
    simp [next, answerOf]
  have htidy := h.tidy.step profile (.nextval name put)
  have hdb : (next profile resolve name w (.nextval name put)).db =
      (nextval profile resolve name put w.db).1 := rfl
  obtain ⟨e, heq⟩ | ⟨hpoisoned, -⟩ | ⟨seq, hseq, hnone, -⟩ | ⟨seq, v, hseq, hv, heq⟩ :=
    advance_cases w.db
  · have heq : nextval profile resolve name put w.db = (w.db, .err e) := heq
    rw [heq] at hanswers hdb
    refine ⟨htidy, hdb ▸ h.healthy, ?_, hanswers ▸ h.orderly.err e⟩
    rw [hdb, hanswers, given_err]
    exact h.copies
  · simp [h.healthy] at hpoisoned
  · simp [Profile.i64_of_inI64 (hfits seq hseq)] at hnone
  · have hvalue : seq.value + seq.increment = v := by
      rw [Profile.i64_of_inI64 (hfits seq hseq)] at hv
      exact Option.some.inj hv
    have heq : nextval profile resolve name put w.db = _ := heq
    rw [heq] at hanswers hdb
    have hbehind := h.copies.memory seq hseq
    have hahead := hbehind.advanced hincr
    rw [hvalue] at hahead
    cases put with
    | stored =>
      -- the value is handed out, and no copy is older than it
      have hfirst : given w.answers = [] → v = start := by
        intro hnil
        rw [← hvalue, hbehind.untouched hnil, hbehind.increment_eq]
        omega
      refine ⟨htidy, hdb ▸ h.healthy, ?_, hanswers ▸ h.orderly.ok hahead hfirst⟩
      have hgiven : given (w.answers ++ [replyTo .stored v]) = given w.answers ++ [v] :=
        given_ok _ _
      rw [hdb, hanswers, hgiven]
      refine copies_stored ⟨hbehind.increment_eq, fun a ha => ?_, by simp⟩
      rcases mem_append.mp ha with ha | ha
      · exact .inr (hahead a ha)
      · exact .inl (mem_singleton.mp ha)
    | refused | unsynced =>
      have hsome : given w.answers ≠ [] := fun hnil => nomatch hstarts hnil
      refine ⟨htidy, hdb ▸ h.healthy, ?_, hanswers ▸ h.orderly.err .store⟩
      have hmoved : Behind start increment (given w.answers) { seq with value := v } :=
        ⟨hbehind.increment_eq, fun a ha => .inr (hahead a ha), fun hnil => absurd hnil hsome⟩
      rw [hdb, hanswers, replyTo, given_err]
      exact h.copies.replaced hmoved _

theorem serving_next (hincr : increment ≠ 0) (w : World K) (e : Event K)
    (h : Serving resolve name start increment w) (hsafe : Safe resolve name w e) :
    Serving resolve name start increment (next profile resolve name w e) := by
  obtain ⟨hfits, halone, hstarts⟩ := hsafe
  cases e with
  | create n first incr put =>
    obtain ⟨hhealthy, hcopies⟩ := create_other h.healthy h.copies hfits halone
    exact h.of_db rfl hhealthy hcopies
  | nextval n put =>
    by_cases hn : n = name
    · subst hn
      exact serving_nextval h hincr hfits (hstarts rfl)
    · have hother : keyOf resolve n ≠ keyOf resolve name := fun heq => hn (halone heq)
      obtain ⟨hhealthy, hcopies⟩ := advance_other h.healthy h.copies hfits hother
      exact h.of_db (by simp [answerOf, hn]) hhealthy hcopies
  | currval n => exact h.of_db rfl h.healthy h.copies
  | setval n value isCalled put =>
    obtain ⟨hhealthy, hcopies⟩ := advance_other h.healthy h.copies hfits halone
    rw [← setval_state] at hhealthy hcopies
    exact h.of_db rfl hhealthy hcopies
  | reopen role listing reverted =>
    exact h.of_db rfl rfl (h.copies.reopen h.tidy role listing reverted)

theorem serving_created (htidy : Tidy resolve s) (hfits : InI64 (start - increment))
    (hcreated : (createSequence profile resolve name start increment put s).2 = .ok ()) :
    Serving resolve name start increment
      ⟨(createSequence profile resolve name start increment put s).1, []⟩ := by
  have hafter := htidy.create profile name start increment put
  obtain ⟨e, heq⟩ | ⟨-, heq⟩ | ⟨-, -, heq⟩ | ⟨v, hv, hhealthy, -, heq⟩ | ⟨v, -, heq⟩ :=
    createSequence_cases s start increment <;> rw [heq] at hcreated hafter ⊢
  · cases hcreated
  · cases hcreated
  · cases hcreated
  · obtain rfl : start - increment = v := by
      rw [Profile.i64_of_inI64 hfits] at hv
      exact Option.some.inj hv
    refine ⟨hafter, hhealthy, copies_stored ⟨rfl, by simp [given], fun _ => rfl⟩, ?_⟩
    exact ⟨by simp, by simp [given], by simp [given], by simp [given]⟩
  · cases hcreated

/-- Whatever happened to the database before, however often the store fails and the process dies
after the first value: a sequence counts from its start in the direction of its increment and hands
out no value twice, as long as no sum leaves the range of `i64`. -/
theorem sequence_never_repeats (profile : Profile) (resolve : Bytes → K) (before : List (Event K))
    (name : Bytes) (start increment : ℤ) (put : PutOutcome) (hincr : increment ≠ 0)
    (hfits : InI64 (start - increment))
    (hcreated : (createSequence profile resolve name start increment put
      (run (step profile resolve) (Db.empty K) before)).2 = .ok ())
    (es : List (Event K))
    (hsafe : Along (next profile resolve name) (Safe resolve name)
      ⟨(createSequence profile resolve name start increment put
        (run (step profile resolve) (Db.empty K) before)).1, []⟩ es) :
    Orderly start increment (run (next profile resolve name)
      ⟨(createSequence profile resolve name start increment put
        (run (step profile resolve) (Db.empty K) before)).1, []⟩ es).answers := by
  have htidy : Tidy resolve (run (step profile resolve) (Db.empty K) before) :=
    run_invariant (fun s e h => h.step profile e) ⟨nofun, nofun, nofun⟩ before
  have hserving := hsafe.invariant (serving_next hincr) (serving_created htidy hfits hcreated)
  exact hserving.orderly

end Serving

def answersOf (profile : Profile) (start increment : ℤ) (es : List (Event Bytes)) :
    List (Reply ℤ) :=
  (run (next profile id (utf8 "s"))
    ⟨(createSequence profile id (utf8 "s") start increment .stored (Db.empty Bytes)).1,
      []⟩ es).answers

def storedCalls (n : ℕ) : List (Event Bytes) := List.replicate n (.nextval (utf8 "s") .stored)

def failingRun : List (Event Bytes) :=
  [.nextval (utf8 "s") .stored, .nextval (utf8 "s") .refused, .nextval (utf8 "s") .stored,
    .nextval (utf8 "s") .unsynced, .reopen .writer [objectKey (utf8 "s")] [objectKey (utf8 "s")],
    .nextval (utf8 "s") .stored]

theorem sequence_never_repeats_failing :
    answersOf .release 5 (-2) failingRun = [.ok 5, .err .store, .ok 1, .err .store, .ok (-1)] ∧
      Orderly 5 (-2) (answersOf .release 5 (-2) failingRun) :=
  ⟨by decide +kernel,
    sequence_never_repeats .release id [] (utf8 "s") 5 (-2) .stored (by decide)
      (by decide) rfl failingRun
      (by decide +kernel)⟩

/-- One failed `put` and the sequence starts one increment late; past the end of the range the
release build goes round and hands out its first value again, and the dev build panics, then and
ever after. -/
theorem sequence_repeats : answersOf .dev 1 1 [.nextval (utf8 "s") .refused,
    .nextval (utf8 "s") .stored] =
        [.err .store, .ok 2] ∧
      ¬ Orderly 1 1 (answersOf .dev 1 1 [.nextval (utf8 "s") .refused,
        .nextval (utf8 "s") .stored]) ∧
      answersOf .release 0 (2 ^ 62) (storedCalls 5) =
        [.ok 0, .ok (2 ^ 62), .ok (-2 ^ 63), .ok (-2 ^ 62), .ok 0] ∧
      ¬ Orderly 0 (2 ^ 62) (answersOf .release 0 (2 ^ 62) (storedCalls 5)) ∧
      answersOf .dev 0 (2 ^ 62) (storedCalls 4) = [.ok 0, .ok (2 ^ 62), .panicked, .panicked] ∧
      ¬ Orderly 0 (2 ^ 62) (answersOf .dev 0 (2 ^ 62) (storedCalls 4)) := by
  decide +kernel

end DatabaseSequences
