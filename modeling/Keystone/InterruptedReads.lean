import Keystone.GuardedRuns

/-! # Reads that are given up halfway

A loop waits for a frame or for an event, whichever comes first. What a read of a frame has taken
off the stream is gone when an event ends it. -/
namespace InterruptedReads

open GuardedRuns List

inductive Status (φ : Type) where
  | more
  | frame (f : φ)
  | fail
  deriving DecidableEq

/-- `status` tells how far a read is that has taken these bytes; a frame that `closes` ends the
loop. -/
structure Framing (β φ : Type) where
  status : List β → Status φ
  closes : φ → Bool

/-- `finished` are the bytes of the frames so far, `taken` those of the pending read. -/
structure Reader (β φ : Type) where
  finished : List β := []
  taken : List β := []
  handed : List φ := []
  ended : Bool := false
  deriving DecidableEq

inductive Action (β : Type) where
  | bytes (chunk : List β)
  | event

variable {β φ : Type} (p : Framing β φ)

def read (r : Reader β φ) (b : β) : Reader β φ :=
  if r.ended then { r with taken := r.taken ++ [b] }
  else match p.status (r.taken ++ [b]) with
    | .more => { r with taken := r.taken ++ [b] }
    | .frame f => ⟨r.finished ++ (r.taken ++ [b]), [], r.handed ++ [f], p.closes f⟩
    | .fail => { r with taken := r.taken ++ [b], ended := true }

def act (r : Reader β φ) : Action β → Reader β φ
  | .bytes chunk => chunk.foldl (read p) r
  | .event => if r.ended then r else { r with taken := [] }

def readAll (bytes : List β) : Reader β φ := bytes.foldl (read p) {}

/-- The frames of a stream that is read without interruption. -/
def framing (bytes : List β) : List φ := (readAll p bytes).handed

def Reader.kept (r : Reader β φ) : List β := r.finished ++ r.taken

def stream (acts : List (Action β)) : List β :=
  acts.flatMap fun | .bytes chunk => chunk | .event => []

def AtBoundary (r : Reader β φ) (a : Action β) : Prop :=
  match a with
  | .bytes _ => True
  | .event => r.ended ∨ r.taken = []

variable {p} {r : Reader β φ}

theorem kept_foldl_read (chunk : List β) : (chunk.foldl (read p) r).kept = r.kept ++ chunk := by
  induction chunk generalizing r with
  | nil => simp
  | cons b chunk ih =>
    have hread : (read p r b).kept = r.kept ++ [b] := by
      unfold read
      split
      · simp [Reader.kept]
      · split <;> simp [Reader.kept]
    rw [foldl_cons, ih, hread, append_assoc, singleton_append]

/-- The reader is as if it had read the kept bytes without interruption, and as if it had stopped
behind the last frame before. -/
structure Resumes (p : Framing β φ) (r : Reader β φ) : Prop where
  kept : readAll p r.kept = r
  finished : r.ended = false → readAll p r.finished = { r with taken := [] }

theorem Resumes.read (h : Resumes p r) (b : β) : Resumes p (read p r b) := by
  have hkept : readAll p (r.kept ++ [b]) = InterruptedReads.read p r b := by
    rw [readAll, foldl_concat, ← readAll, h.kept]
  have hsame : (InterruptedReads.read p r b).kept = r.kept ++ [b] := kept_foldl_read [b]
  refine ⟨by rw [hsame, hkept], ?_⟩
  intro hended
  rw [Reader.kept, append_assoc] at hkept
  unfold InterruptedReads.read at hended hkept ⊢
  split at hended
  · simp_all
  · rename_i hr
    have hfin := h.finished (by simpa using hr)
    split at hended
    · simpa using hfin
    · simp_all
    · simp at hended

theorem Resumes.foldl_read (h : Resumes p r) (chunk : List β) :
    Resumes p (chunk.foldl (InterruptedReads.read p) r) := by
  induction chunk generalizing r with
  | nil => exact h
  | cons b chunk ih => exact ih (h.read b)

theorem Resumes.act (h : Resumes p r) (a : Action β) : Resumes p (act p r a) := by
  cases a with
  | bytes chunk => exact h.foldl_read chunk
  | event =>
    by_cases hended : r.ended
    · simpa [InterruptedReads.act, hended] using h
    · have hfin := h.finished (by simpa using hended)
      rw [InterruptedReads.act, if_neg hended]
      exact ⟨by simpa [Reader.kept] using hfin, fun _ => hfin⟩

/-- What is handed on is the framing of the bytes that no event has dropped. -/
theorem handed_run (acts : List (Action β)) :
    (run (act p) {} acts).handed = framing p (run (act p) {} acts).kept := by
  have hstart : Resumes p {} := ⟨rfl, fun _ => rfl⟩
  have h : Resumes p (run (act p) {} acts) := run_invariant (fun _ a h => h.act a) hstart acts
  rw [framing, h.kept]

theorem kept_act (a : Action β) : AtBoundary r a ∧ (act p r a).kept = r.kept ++ stream [a] ∨
      ¬ AtBoundary r a ∧ (act p r a).kept.length < (r.kept ++ stream [a]).length := by
  cases a with
  | bytes chunk => simp [act, kept_foldl_read, stream, AtBoundary]
  | event =>
    by_cases hended : r.ended
    · simp [act, hended, stream, AtBoundary]
    · by_cases htaken : r.taken = []
      · simp [act, hended, stream, AtBoundary, Reader.kept, htaken]
      · simp [act, hended, stream, AtBoundary, Reader.kept, htaken, length_pos_iff]

theorem kept_run (acts : List (Action β)) :
    Along (act p) AtBoundary r acts ∧ (run (act p) r acts).kept = r.kept ++ stream acts ∨
      ¬ Along (act p) AtBoundary r acts ∧
        (run (act p) r acts).kept.length < (r.kept ++ stream acts).length := by
  induction acts generalizing r with
  | nil => simp [stream, Along]
  | cons a acts ih =>
    have hcons : stream (a :: acts) = stream [a] ++ stream acts := by simp [stream]
    rw [run_cons, hcons, ← append_assoc, Along, length_append]
    obtain ⟨ha, hkept⟩ | ⟨ha, hlt⟩ := kept_act (p := p) (r := r) a
    · simpa [ha, hkept, Nat.add_assoc] using ih (r := act p r a)
    · -- a byte that is lost does not come back
      obtain ⟨-, hkept⟩ | ⟨-, hlt'⟩ := ih
      · exact .inr ⟨fun h => ha h.1, by rw [hkept, length_append]; omega⟩
      · rw [length_append] at hlt'
        exact .inr ⟨fun h => ha h.1, by omega⟩

/-- No byte is lost if and only if every event comes between two frames. -/
theorem kept_eq_stream_iff (acts : List (Action β)) :
    (run (act p) {} acts).kept = stream acts ↔ Along (act p) AtBoundary {} acts := by
  obtain ⟨ha, hkept⟩ | ⟨ha, hlt⟩ := kept_run acts
  · exact iff_of_true hkept ha
  · refine iff_of_false (fun h => ?_) ha
    rw [h] at hlt
    exact Nat.lt_irrefl _ hlt

end InterruptedReads
