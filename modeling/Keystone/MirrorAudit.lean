import Keystone.ExecutorValue
import Keystone.FileNames
import Keystone.GuardedRuns
import Mathlib.Data.List.Induction

/-! # The audit log

Every entry holds the hash of the entry before it in its session. A recorder reads that hash, draws
a number and writes its row in three steps; the chain is read back in the order of the numbers.
`sha` is SHA-256 in hexadecimal digits. -/
namespace MirrorAudit

open DecimalText ExecutorValue FileNames GuardedRuns List StorageInternalKey

structure AuditEntry where
  id : Bytes
  sessionId : Bytes
  seq : ℤ
  ts : ℤ
  actor : Bytes
  action : Bytes
  details : Bytes
  prevHash : Bytes
  hash : Bytes
  deriving DecidableEq

def newId (ms : ℤ) (seq : ℕ) : Bytes :=
  [97, 117, 100, 105, 116, 45] ++ printInt ms ++ 45 :: printInt seq

def genesis : Bytes := replicate 64 48

def entriesFor (rows : List AuditEntry) (sessionId : Bytes) : List AuditEntry :=
  (rows.filter (·.sessionId = sessionId)).insertionSort (·.seq ≤ ·.seq)

def hashAfter (expectedPrev : Bytes) (entries : List AuditEntry) : Bytes :=
  (entries.getLast?.map AuditEntry.hash).getD expectedPrev

section Hash

variable (sha : Bytes → Bytes)

def hashedText (prevHash : Bytes) (seq ts : ℤ) (actor action details : Bytes) : Bytes :=
  prevHash ++ 124 :: (printInt seq ++ 124 :: (printInt ts ++ 124 ::
    (actor ++ 124 :: (action ++ 124 :: details))))

def computeHash (prevHash : Bytes) (seq ts : ℤ) (actor action details : Bytes) : Bytes :=
  sha (hashedText prevHash seq ts actor action details)

def AuditEntry.recomputed (e : AuditEntry) : Bytes :=
  computeHash sha e.prevHash e.seq e.ts e.actor e.action e.details

def verifyFrom (expectedPrev : Bytes) : List AuditEntry → Bool
  | [] => true
  | e :: entries =>
    e.prevHash = expectedPrev && e.recomputed sha = e.hash && verifyFrom e.hash entries

def verifyChain (rows : List AuditEntry) (sessionId : Bytes) : Bool :=
  verifyFrom sha genesis (entriesFor rows sessionId)

/-- A call of `record`: its session, the hash it has read and the number it has drawn. -/
structure Recording where
  sessionId : Bytes
  prevHash : Bytes
  seq : Option ℕ

structure Log where
  rows : List AuditEntry
  nextSeq : ℕ
  calls : ℕ → Option Recording

def Log.empty : Log := ⟨[], 0, fun _ => none⟩

/-- A row is stored under the time and the number of its id, over a row of the same id. A scan goes
by the ids, so the row is found at any place of it. The numbers of the ids start at 0 with the
process, and other components draw them too. -/
inductive Event where
  | read (call : ℕ) (sessionId : Bytes)
  | draw (call : ℕ)
  | write (call : ℕ) (ts : ℤ) (actor action details : Bytes) (ms : ℤ) (idSeq place : ℕ)
  | restart

def next (s : Log) : Event → Log
  | .read call sessionId =>
    let prevHash := hashAfter genesis (entriesFor s.rows sessionId)
    { s with calls := Function.update s.calls call (some ⟨sessionId, prevHash, none⟩) }
  | .draw call =>
    match s.calls call with
    | some ⟨sessionId, prevHash, none⟩ =>
      { s with
        nextSeq := s.nextSeq + 1
        calls := Function.update s.calls call (some ⟨sessionId, prevHash, some s.nextSeq⟩) }
    | _ => s
  | .write call ts actor action details ms idSeq place =>
    match s.calls call with
    | some ⟨sessionId, prevHash, some seq⟩ =>
      let hash := computeHash sha prevHash seq ts actor action details
      let id := newId ms idSeq
      let others := s.rows.filter (·.id ≠ id)
      { s with
        rows := others.take place ++
          ⟨id, sessionId, seq, ts, actor, action, details, prevHash, hash⟩ :: others.drop place
        calls := Function.update s.calls call none }
    | _ => s
  | .restart => { s with nextSeq := 0, calls := fun _ => none }

/-- No other call records the session, the number drawn is above those of the session's rows, and
the id is new. -/
def Orderly (s : Log) : Event → Prop
  | .read _ sessionId => ∀ call r, s.calls call = some r → r.sessionId ≠ sessionId
  | .draw call =>
    ∀ r, s.calls call = some r → ∀ e ∈ s.rows, e.sessionId = r.sessionId → e.seq < s.nextSeq
  | .write _ _ _ _ _ ms idSeq _ => ∀ e ∈ s.rows, e.id ≠ newId ms idSeq
  | .restart => True

theorem hashAfter_cons : hashAfter seed (e :: entries) = hashAfter e.hash entries := by
  cases h : entries.getLast? <;> simp [hashAfter, getLast?_cons]

theorem verifyFrom_concat (entries : List AuditEntry) :
    verifyFrom sha seed (entries ++ [e]) = true ↔
      verifyFrom sha seed entries = true ∧ e.prevHash = hashAfter seed entries ∧
        e.recomputed sha = e.hash := by
  induction entries generalizing seed with
  | nil => simp [verifyFrom, hashAfter]
  | cons a entries ih => simp [verifyFrom, ih, hashAfter_cons, and_assoc]

theorem entriesFor_eq (hperm : rows.filter (·.sessionId = sessionId) ~ entries)
    (hlt : entries.Pairwise (·.seq < ·.seq)) : entriesFor rows sessionId = entries := by
  have hsorted := (perm_insertionSort (·.seq ≤ ·.seq) _).trans hperm
  have hnodup : (entries.map AuditEntry.seq).Nodup := pairwise_map.mpr (hlt.imp ne_of_lt)
  exact hsorted.eq_of_pairwise
    (fun a b ha hb hab hba => inj_on_of_nodup_map hnodup (hsorted.mem_iff.mp ha) hb
      (le_antisymm hab hba))
    (pairwise_insertionSort ..) (hlt.imp le_of_lt)

/-- The rows of a session are a chain in the order of their numbers. -/
def Chained (rows : List AuditEntry) (sessionId : Bytes) : Prop :=
  verifyChain sha rows sessionId = true ∧ (entriesFor rows sessionId).Pairwise (·.seq < ·.seq)

structure Recording.Current (rows : List AuditEntry) (r : Recording) : Prop where
  prevHash : r.prevHash = hashAfter genesis (entriesFor rows r.sessionId)
  above : ∀ seq : ℕ, r.seq = some seq → ∀ e ∈ rows, e.sessionId = r.sessionId → e.seq < seq

structure Kept (s : Log) : Prop where
  chained : ∀ sessionId, Chained sha s.rows sessionId
  alone : ∀ i j r r', s.calls i = some r → s.calls j = some r' → r.sessionId = r'.sessionId → i = j
  current : ∀ call r, s.calls call = some r → r.Current s.rows

variable {sha}

theorem mem_entriesFor : e ∈ entriesFor rows sessionId ↔ e ∈ rows ∧ e.sessionId = sessionId := by
  simp [entriesFor]

theorem entriesFor_other (h : e.sessionId ≠ sessionId) :
    entriesFor (front ++ e :: back) sessionId = entriesFor (front ++ back) sessionId := by
  simp [entriesFor, h]

theorem Chained.insert (h : Chained sha (front ++ back) e.sessionId)
    (hprev : e.prevHash = hashAfter genesis (entriesFor (front ++ back) e.sessionId))
    (hhash : e.recomputed sha = e.hash)
    (habove : ∀ a ∈ front ++ back, a.sessionId = e.sessionId → a.seq < e.seq) :
    Chained sha (front ++ e :: back) e.sessionId := by
  have hlt : (entriesFor (front ++ back) e.sessionId ++ [e]).Pairwise (·.seq < ·.seq) := by
    refine pairwise_append.mpr ⟨h.2, pairwise_singleton .., fun a ha b hb => ?_⟩
    obtain ⟨ha, hsession⟩ := mem_entriesFor.mp ha
    exact mem_singleton.mp hb ▸ habove a ha hsession
  have hentries : entriesFor (front ++ e :: back) e.sessionId =
    entriesFor (front ++ back) e.sessionId ++ [e] := by
    refine entriesFor_eq (.trans ?_ ((perm_insertionSort ..).symm.append_right [e])) hlt
    simpa using perm_middle.trans (perm_append_singleton e _).symm
  exact ⟨by rw [verifyChain, hentries, verifyFrom_concat]; exact ⟨h.1, hprev, hhash⟩,
    hentries ▸ hlt⟩

theorem Kept.write (h : Kept sha s) (hcall : s.calls call = some ⟨sessionId, prevHash, some seq⟩)
    (hnew : ∀ e ∈ s.rows, e.id ≠ newId ms idSeq) :
    Kept sha (next sha s (.write call ts actor action details ms idSeq place)) := by
  obtain ⟨rows, n, calls⟩ := s
  simp only at hcall hnew
  have hothers : rows.filter (·.id ≠ newId ms idSeq) = rows :=
    filter_eq_self.mpr (by simpa using hnew)
  simp only [next, hcall, hothers]
  have hrows := take_append_drop place rows
  generalize rows.take place = front, rows.drop place = back at hrows
  subst hrows
  have hr := h.current call _ hcall
  refine ⟨fun session => ?_, fun i j r r' hi hj => ?_, fun i r hi => ?_⟩
  · by_cases hs : sessionId = session
    · exact hs ▸ (h.chained sessionId).insert hr.prevHash rfl (hr.above seq rfl)
    · rw [Chained, verifyChain, entriesFor_other hs]
      exact h.chained session
  · simp only [Function.update_apply] at hi hj
    split_ifs at hi hj
    exact h.alone i j r r' hi hj
  · simp only [Function.update_apply] at hi
    split_ifs at hi with hne
    have hother : sessionId ≠ r.sessionId := fun heq => hne (h.alone call i _ r hcall hi heq).symm
    have hcurrent := h.current i r hi
    refine ⟨by rw [hcurrent.prevHash, entriesFor_other hother], fun n hn a ha hsession => ?_⟩
    rcases perm_middle.mem_iff.mp ha with _ | ⟨_, ha⟩
    · exact absurd hsession hother
    · exact hcurrent.above n hn a ha hsession

theorem Kept.setCall (h : Kept sha s) (hr : r.Current s.rows)
    (halone : ∀ i r', s.calls i = some r' → r'.sessionId = r.sessionId → i = call) :
    Kept sha { s with nextSeq := n, calls := Function.update s.calls call (some r) } := by
  refine ⟨h.chained, fun i j r₁ r₂ hi hj hsession => ?_, fun i r₁ hi => ?_⟩
  · simp only [Function.update_apply] at hi hj
    split_ifs at hi hj with hc hc' hc'
    · rw [hc, hc']
    · cases hi
      exact absurd (halone j r₂ hj hsession.symm) hc'
    · cases hj
      exact absurd (halone i r₁ hi hsession) hc
    · exact h.alone i j r₁ r₂ hi hj hsession
  · simp only [Function.update_apply] at hi
    split_ifs at hi
    · cases hi
      exact hr
    · exact h.current i r₁ hi

theorem Kept.next (h : Kept sha s) (horderly : Orderly s e) : Kept sha (next sha s e) := by
  cases e with
  | read call sessionId =>
    exact h.setCall (r := ⟨sessionId, _, none⟩) ⟨rfl, nofun⟩
      (fun i r hi hsession => absurd hsession (horderly i r hi))
  | draw call =>
    rcases hcall : s.calls call with _ | ⟨sessionId, prevHash, _ | seq⟩
    · simpa [MirrorAudit.next, hcall] using h
    · simp only [MirrorAudit.next, hcall]
      refine h.setCall (r := ⟨sessionId, _, some _⟩) ⟨(h.current call _ hcall).prevHash, ?_⟩
        (fun i r hi => h.alone i call r ⟨sessionId, prevHash, none⟩ hi hcall)
      rintro seq ⟨⟩
      exact horderly ⟨sessionId, prevHash, none⟩ hcall
    · simpa [MirrorAudit.next, hcall] using h
  | write call ts actor action details ms idSeq place =>
    rcases hcall : s.calls call with _ | ⟨sessionId, prevHash, _ | seq⟩
    · simpa [MirrorAudit.next, hcall] using h
    · simpa [MirrorAudit.next, hcall] using h
    · exact h.write hcall horderly
  | restart => exact ⟨h.chained, nofun, nofun⟩

theorem kept_of_orderly (h : Along (next sha) Orderly .empty events) :
    Kept sha (run (next sha) .empty events) := by
  have hempty : Kept sha .empty := ⟨fun _ => ⟨rfl, .nil⟩, nofun, nofun⟩
  exact h.invariant (fun _ _ hkept horderly => hkept.next horderly) hempty

/-- An orderly log verifies. -/
theorem recorded_chain_verifies (h : Along (next sha) Orderly .empty events) (sessionId : Bytes) :
    verifyChain sha (run (next sha) .empty events).rows sessionId = true :=
  ((kept_of_orderly h).chained sessionId).1

/-- Two sessions with two records each, the calls of one between the steps of the other. -/
theorem recorded_chain_verifies_two :
    let round (a b : ℕ) (ms : ℤ) : List Event := [.read 0 [65], .read 1 [66], .draw a, .draw b,
      .write 0 7 [1] [2] [3] ms 0 9, .write 1 6 [4] [5] [6] ms 1 0]
    let rows := (run (next hexEncode) .empty (round 0 1 7 ++ round 1 0 8)).rows
    verifyChain hexEncode rows [65] = true ∧ verifyChain hexEncode rows [66] = true := by
  intro round rows
  have horderly : Along (next hexEncode) Orderly .empty (round 0 1 7 ++ round 1 0 8) := by
    refine ⟨nofun, ?_, fun _ _ => nofun, fun _ _ => nofun, nofun, by unfold Orderly; decide +kernel,
      ?_, ?_, ?_, ?_,
      by unfold Orderly; decide +kernel, by unfold Orderly; decide +kernel, trivial⟩
    · rintro (_ | _ | call) r ⟨⟩
      decide
    · rintro (_ | _ | call) r ⟨⟩
    · rintro (_ | _ | call) r ⟨⟩
      decide
    · rintro r ⟨⟩
      decide +kernel
    · rintro r ⟨⟩
      decide +kernel
  exact ⟨recorded_chain_verifies horderly [65], recorded_chain_verifies horderly [66]⟩

/-- Two recorders of one session, a session that goes on after a restart, and a row over another one
of the same id. -/
theorem recorded_chain_broken :
    let run := run (next hexEncode) .empty
    let record (session : Bytes) (ms : ℤ) (idSeq : ℕ) : List Event :=
      [.read 0 session, .draw 0, .write 0 7 [1] [2] [3] ms idSeq 0]
    let mixed : List Event :=
      [.read 0 [], .read 1 [], .draw 0, .draw 1, .write 0 7 [1] [2] [3] 7 0 0,
        .write 1 7 [1] [2] [3] 7 1 0]
    verifyChain hexEncode (run mixed).rows [] = false ∧
      verifyChain hexEncode (run (record [] 7 0 ++ record [] 7 1 ++ .restart :: record [] 8 0)).rows
        [] = false ∧
      verifyChain hexEncode (run (record [] 7 0 ++ record [] 7 1 ++ .restart :: record
        [66] 7 0)).rows [] = false := by
  decide +kernel

/-- What a row says of an action. -/
def AuditEntry.said (e : AuditEntry) : Bytes × Bytes × Bytes × ℤ × ℤ :=
  (e.actor, e.action, e.details, e.seq, e.ts)

def AuditEntry.text (e : AuditEntry) : Bytes :=
  hashedText e.prevHash e.seq e.ts e.actor e.action e.details

/-- What the chain reads of a row. -/
def AuditEntry.seal (e : AuditEntry) : Bytes × Bytes × Bytes := (e.prevHash, e.text, e.hash)

/-- Where the actor and the action end in the text that is hashed. -/
def AuditEntry.cuts (e : AuditEntry) : ℕ × ℕ := (e.actor.length, e.action.length)

/-- Rows of a session that are the beginning of any recorded chain are all of the session's own,
with the fields cut where they were. -/
def Undisguised (rows rows' : List AuditEntry) (sessionId : Bytes) : Prop :=
  ∀ recorded, (entriesFor rows' sessionId).map AuditEntry.seal <+:
    (entriesFor rows recorded).map AuditEntry.seal →
    (entriesFor rows' sessionId).map AuditEntry.seal =
      (entriesFor rows sessionId).map AuditEntry.seal ∧
      (entriesFor rows' sessionId).map AuditEntry.cuts =
        (entriesFor rows sessionId).map AuditEntry.cuts

theorem verifyFrom_congr {L M : List AuditEntry}
    (h : L.map AuditEntry.seal = M.map AuditEntry.seal) :
    verifyFrom sha seed L = verifyFrom sha seed M := by
  induction L generalizing M seed with
  | nil => rw [map_eq_nil_iff.mp h.symm]
  | cons a L ih =>
    obtain ⟨b, M, rfl, hb, hM⟩ := map_eq_cons_iff.mp h.symm
    obtain ⟨hprev, htext, hhash⟩ : b.prevHash = a.prevHash ∧ b.text = a.text ∧ b.hash = a.hash := by
      simpa [AuditEntry.seal] using hb
    have hre : b.recomputed sha = a.recomputed sha := congrArg sha htext
    rw [verifyFrom, verifyFrom, hprev, hre, hhash, ih hM.symm]

theorem verifyFrom_of_prefix (h : L <+: M) (hM : verifyFrom sha seed M = true) :
    verifyFrom sha seed L = true := by
  obtain ⟨rest, rfl⟩ := h
  induction L generalizing seed with
  | nil => rfl
  | cons e L ih =>
    simp only [cons_append, verifyFrom, Bool.and_eq_true] at hM ⊢
    exact ⟨hM.1, ih hM.2⟩

theorem said_of_seal {e e' : AuditEntry} (hseal : e.seal = e'.seal) (hcuts : e.cuts = e'.cuts)
    (hprev : 124 ∉ e.prevHash) : e.said = e'.said := by
  obtain ⟨hp, htext, -⟩ : e.prevHash = e'.prevHash ∧ e.text = e'.text ∧ e.hash = e'.hash := by
    simpa [AuditEntry.seal] using hseal
  obtain ⟨hactor, haction⟩ : e.actor.length = e'.actor.length ∧
    e.action.length = e'.action.length := by
    simpa [AuditEntry.cuts] using hcuts
  have hint n : 124 ∉ printInt n := fun hn => absurd (printInt_le n 124 hn) (by decide)
  obtain ⟨-, htext⟩ := (append_cons_inj hprev (hp ▸ hprev)).mp htext
  obtain ⟨hseq, htext⟩ := (append_cons_inj (hint _) (hint _)).mp htext
  obtain ⟨hts, htext⟩ := (append_cons_inj (hint _) (hint _)).mp htext
  obtain ⟨hactor, htext⟩ := append_inj htext hactor
  obtain ⟨haction, hdetails⟩ := append_inj (cons.inj htext).2 haction
  simp [AuditEntry.said, printInt_injective hseq, printInt_injective hts, hactor, haction,
    (cons.inj hdetails).2]

/-- A chain is told by what its rows say. -/
theorem seals_of_said (hL : verifyFrom sha seed L = true) (hM : verifyFrom sha seed M = true)
    (h : L.map AuditEntry.said = M.map AuditEntry.said) :
    L.map AuditEntry.seal = M.map AuditEntry.seal := by
  induction L generalizing M seed with
  | nil => rw [map_eq_nil_iff.mp h.symm]
  | cons a L ih =>
    obtain ⟨b, M, rfl, hb, hsaid⟩ := map_eq_cons_iff.mp h.symm
    simp only [verifyFrom, Bool.and_eq_true, decide_eq_true_eq] at hL hM
    obtain ⟨⟨haprev, hahash⟩, hL⟩ := hL
    obtain ⟨⟨hbprev, hbhash⟩, hM⟩ := hM
    have htext : a.text = b.text := by
      simp only [AuditEntry.said, Prod.mk.injEq] at hb
      simp [AuditEntry.text, haprev, hbprev, hb]
    have hhash : a.hash = b.hash := by
      rw [← hahash, ← hbhash]
      exact congrArg sha htext
    have hseal : a.seal = b.seal := by simp [AuditEntry.seal, haprev, hbprev, htext, hhash]
    simp only [map_cons, hseal, ih hL (hhash ▸ hM) hsaid.symm]

theorem cuts_of_said {L M : List AuditEntry} (h : L.map AuditEntry.said = M.map AuditEntry.said) :
    L.map AuditEntry.cuts = M.map AuditEntry.cuts := by
  have hcuts := congrArg (map fun t : Bytes × Bytes × Bytes × ℤ × ℤ => (t.1.length, t.2.1.length)) h
  rwa [map_map, map_map] at hcuts

section Injective

variable (hinj : Function.Injective sha) (hhex : ∀ text, 124 ∉ sha text)
  (hgenesis : ∀ text, sha text ≠ genesis)

include hhex in
theorem verified_prevHash (h : verifyFrom sha genesis entries = true) :
    124 ∉ hashAfter genesis entries := by
  cases entries using reverseRecOn with
  | nil => decide
  | append_singleton entries e =>
    rw [verifyFrom_concat] at h
    simpa [hashAfter, ← h.2.2, AuditEntry.recomputed, computeHash] using hhex _

include hhex in
theorem said_of_seals {M : List AuditEntry} (hL : verifyFrom sha genesis L = true)
    (hseals : L.map AuditEntry.seal = M.map AuditEntry.seal)
    (hcuts : L.map AuditEntry.cuts = M.map AuditEntry.cuts) :
    L.map AuditEntry.said = M.map AuditEntry.said := by
  induction L using reverseRecOn generalizing M with
  | nil => simp_all
  | append_singleton L e ih =>
    cases M using reverseRecOn with
    | nil => simp at hseals
    | append_singleton M e' =>
      simp only [map_append, map_cons, map_nil] at hseals hcuts ⊢
      obtain ⟨hseals, hseal⟩ := append_inj' hseals rfl
      obtain ⟨hcuts, hcut⟩ := append_inj' hcuts rfl
      rw [verifyFrom_concat] at hL
      have hprev : 124 ∉ e.prevHash := hL.2.1 ▸ verified_prevHash hhex hL.1
      rw [ih hL.1 hseals hcuts, said_of_seal (cons.inj hseal).1 (cons.inj hcut).1 hprev]

include hinj hhex hgenesis in
/-- The last hash tells the whole chain. -/
theorem verified_unique (hL : verifyFrom sha genesis L = true)
    (hM : verifyFrom sha genesis M = true)
    (hlast : hashAfter genesis L = hashAfter genesis M) :
    L.map AuditEntry.seal = M.map AuditEntry.seal := by
  induction L using reverseRecOn generalizing M with
  | nil =>
    cases M using reverseRecOn with
    | nil => rfl
    | append_singleton M e =>
      rw [verifyFrom_concat] at hM
      exact absurd (by simpa [hashAfter, ← hM.2.2] using! hlast.symm) (hgenesis _)
  | append_singleton L e ih =>
    rw [verifyFrom_concat] at hL
    cases M using reverseRecOn with
    | nil => exact absurd (by simpa [hashAfter, ← hL.2.2] using! hlast) (hgenesis _)
    | append_singleton M e' =>
      rw [verifyFrom_concat] at hM
      have hhash : e.hash = e'.hash := by simpa [hashAfter] using hlast
      have htext : e.text = e'.text := hinj (hL.2.2.trans (hhash.trans hM.2.2.symm))
      have hprev : 124 ∉ e.prevHash ∧ 124 ∉ e'.prevHash :=
        ⟨hL.2.1 ▸ verified_prevHash hhex hL.1, hM.2.1 ▸ verified_prevHash hhex hM.1⟩
      have hsame : e.prevHash = e'.prevHash := ((append_cons_inj hprev.1 hprev.2).mp htext).1
      have hseal : e.seal = e'.seal := by simp [AuditEntry.seal, hsame, htext, hhash]
      simp only [map_append, map_cons, ih hL.1 hM.1 (hL.2.1.symm.trans (hsame.trans hM.2.1)),
        hseal, map_nil]

include hinj hhex hgenesis in
/-- Rows whose hashes were not computed anew verify only as the beginning of a recorded chain. -/
theorem verified_prefix (hrows : ∀ recorded, verifyChain sha rows recorded = true)
    (hL : verifyFrom sha genesis L = true)
    (hstored : ∀ e ∈ L, e.recomputed sha = e.hash → e.hash ∈ rows.map AuditEntry.hash) :
    ∃ recorded, L.map AuditEntry.seal <+: (entriesFor rows recorded).map AuditEntry.seal := by
  cases L using reverseRecOn with
  | nil => exact ⟨[], nil_prefix⟩
  | append_singleton L e =>
    have hhash := ((verifyFrom_concat sha L).mp hL).2.2
    obtain ⟨a, ha, hae⟩ := mem_map.mp (hstored e (by simp) hhash)
    obtain ⟨front, back, hsplit⟩ := append_of_mem (mem_entriesFor.mpr ⟨ha, rfl⟩)
    have hprefix : front ++ [a] <+: entriesFor rows a.sessionId := ⟨back, by simp [hsplit]⟩
    have hunique := verified_unique hinj hhex hgenesis hL
      ( verifyFrom_of_prefix hprefix (hrows a.sessionId))
      (by simp [hashAfter, hae])
    exact ⟨a.sessionId, hunique ▸ hprefix.map _⟩

include hinj hhex hgenesis in
/-- A change of the rows of an orderly log shows exactly where it is undisguised. -/
theorem tampering_shows (h : Along (next sha) Orderly .empty events) (rows' : List AuditEntry)
    (sessionId : Bytes)
    (hstored : ∀ e ∈ rows', e.recomputed sha = e.hash →
      e.hash ∈ (run (next sha) .empty events).rows.map AuditEntry.hash) :
    (verifyChain sha rows' sessionId = false ∨ (entriesFor rows' sessionId).map AuditEntry.said =
        (entriesFor (run (next sha) .empty events).rows sessionId).map AuditEntry.said) ↔
      Undisguised (run (next sha) .empty events).rows rows' sessionId := by
  have hrows u : verifyChain sha (run (next sha) .empty events).rows u = true :=
    ((kept_of_orderly h).chained u).1
  constructor
  · intro hshows recorded hprefix
    obtain ⟨L, hL, hseals⟩ : ∃ L, L <+: entriesFor (run (next sha) .empty events).rows recorded ∧
        L.map AuditEntry.seal = (entriesFor rows' sessionId).map AuditEntry.seal := by
      refine ⟨_, take_prefix (entriesFor rows' sessionId).length _, ?_⟩
      rw [map_take, prefix_iff_eq_take.mp hprefix, length_map]
    have hverified : verifyFrom sha genesis (entriesFor rows' sessionId) = true := by
      rw [← verifyFrom_congr hseals]
      exact verifyFrom_of_prefix hL (hrows recorded)
    have hsaid := hshows.resolve_left (by simp [verifyChain, hverified])
    exact ⟨seals_of_said hverified (hrows sessionId) hsaid, cuts_of_said hsaid⟩
  · intro hplain
    cases hverified : verifyChain sha rows' sessionId with
    | false => exact .inl rfl
    | true =>
      obtain ⟨recorded, hprefix⟩ := verified_prefix hinj hhex hgenesis hrows hverified
        fun e he => hstored e (mem_entriesFor.mp he).1
      obtain ⟨hseals, hcuts⟩ := hplain recorded hprefix
      exact .inr (said_of_seals hhex hverified hseals hcuts)

end Injective

end Hash

theorem not_mem_hexEncode : 124 ∉ hexEncode text := by
  have hdigit : ∀ n : Fin 16, hexDigit n ≠ 124 := by decide
  intro h
  obtain ⟨b, -, hb⟩ := mem_flatMap.mp h
  have := b.toNat_lt
  simp only [mem_cons, not_mem_nil, or_false] at hb
  exact hb.elim (fun h => hdigit ⟨_, by omega⟩ h.symm) fun h => hdigit ⟨_, by omega⟩ h.symm

/-- The details of the first of two rows are changed, and the last row gets a hash that is none. -/
theorem tampering_shows_details :
    let sha : Bytes → Bytes := fun text => hexEncode text ++ [97]
    let record (ms : ℤ) : List Event := [.read 0 [], .draw 0, .write 0 7 [1] [2] [3] ms 0 9]
    let rows := (run (next sha) .empty (record 7 ++ record 8)).rows
    let first := rows.map fun e => if e.seq = 0 then { e with details := [4] } else e
    let last := rows.map fun e => if e.seq = 1 then { e with details := [4], hash := [48] } else e
    verifyChain sha first [] = false ∧ verifyChain sha last [] = false := by
  intro sha record rows first last
  have hinj : Function.Injective sha := fun a b h => hexEncode_injective (append_cancel_right h)
  have hhex text : 124 ∉ sha text := by simp [sha, not_mem_hexEncode]
  have hgenesis text : sha text ≠ genesis := fun h =>
    absurd (congrArg getLast? h) (by simp [sha, genesis])
  have horderly : Along (next sha) Orderly .empty (record 7 ++ record 8) := by
    refine ⟨nofun, nofun, nofun, ?_, ?_, by unfold Orderly; decide +kernel, trivial⟩
    · rintro (_ | call) r ⟨⟩
    · rintro r ⟨⟩
      decide +kernel
  have hrows : ∀ e ∈ rows, e.sessionId = [] := by decide +kernel
  have hother recorded (h : recorded ≠ []) : entriesFor rows recorded = [] :=
    eq_nil_iff_forall_not_mem.mpr fun e he =>
      h ((mem_entriesFor.mp he).2 ▸ hrows e (mem_entriesFor.mp he).1)
  have hfirst : Undisguised rows first [] := by
    intro recorded hprefix
    by_cases hr : recorded = []
    · exact absurd (hr ▸ hprefix) (by decide +kernel)
    · exact absurd (hother recorded hr ▸ hprefix) (by decide +kernel)
  have hlast : Undisguised rows last [] := by
    intro recorded hprefix
    by_cases hr : recorded = []
    · exact absurd (hr ▸ hprefix) (by decide +kernel)
    · exact absurd (hother recorded hr ▸ hprefix) (by decide +kernel)
  exact ⟨((tampering_shows hinj hhex hgenesis horderly first [] (by decide +kernel)).mpr
    hfirst).resolve_right
      (by decide +kernel),
    ((tampering_shows hinj hhex hgenesis horderly last [] (by decide +kernel)).mpr
      hlast).resolve_right
      (by decide +kernel)⟩

/-- The last entries removed, characters moved from one field to the next, and a session renamed. -/
theorem tampering_unseen :
    let record (actor action : Bytes) (ms : ℤ) : List Event :=
      [.read 0 [], .draw 0, .write 0 7 actor action [] ms 0 9]
    let rows := (run (next hexEncode) .empty (record [1, 124, 2] [3] 7 ++ record [4] [5] 8)).rows
    let moved := rows.map fun e => if e.seq = 0 then { e with actor := [1], action := [2, 124, 3] }
      else e
    let renamed := rows.map fun e => { e with sessionId := [9] }
    verifyChain hexEncode rows [] = true ∧ rows.length = 2 ∧ verifyChain hexEncode (rows.take 1)
      [] = true ∧
      verifyChain hexEncode moved [] = true ∧ moved ≠ rows ∧
      verifyChain hexEncode renamed [] = true ∧ verifyChain hexEncode renamed [9] = true := by
  decide +kernel

end MirrorAudit
