import Keystone.WireFrames
import Mathlib.Data.List.Infix
import Mathlib.Data.List.TakeWhile

/-! # Flow control of a gRPC connection

Messages and bodies are as long as they are: only lengths count for the windows. What a request is
answered with is part of the DATA frame that ends it. -/
namespace WireGrpc

open Function GuardedRuns List StorageInternalKey WireFrames

structure Stream where
  sendWindow : ℤ := 65535
  outbound : List ℕ := []
  pendingTrailers : Bool := false
  subscribedTopic : Option Bytes := none
  deriving DecidableEq

inductive Out where
  | windowUpdate (id delta : ℕ)
  | data (id len : ℕ)
  deriving DecidableEq

/-- `sent` are the frames that flow control is about; `ended` when the connection has failed. -/
structure Conn where
  connSendWindow : ℤ := 65535
  peerInitialWindow : ℕ := 65535
  streams : ℕ → Option Stream := fun _ => none
  sent : List Out := []
  ended : Bool := false

/-- `refused` stands for an error and for a request that is not authenticated. -/
inductive Answer where
  | unary (message : Option ℕ)
  | subscribe (topic : Bytes)
  | refused

/-- `headers` is a HEADERS or a CONTINUATION frame; `order` is the order of the hash map. -/
inductive Event where
  | settings (ack : Bool) (entries : List (ℕ × ℕ))
  | windowUpdate (id delta : ℕ)
  | headers (id : ℕ) (endHeaders : Bool)
  | data (frame : Frame) (answer : Answer)
  | rstStream (id : ℕ)
  | flux (topic : Bytes) (len : ℕ) (order : List ℕ)

def dataPayload (f : Frame) : Option Bytes :=
  if f.flag 0x8 then
    match f.payload with
    | [] => none
    | pad :: data =>
      if data.length < pad.toNat then none else some (data.take (data.length - pad.toNat))
  else some f.payload

namespace Conn

def put (c : Conn) (id : ℕ) (s : Option Stream) : Conn :=
  { c with streams := Function.update c.streams id s }

/-- Messages go out as long as they fit both windows; the others stay. -/
def drain : List ℕ → ℤ → ℤ → List ℕ × List ℕ
  | [], _, _ => ([], [])
  | l :: ls, c, w =>
    if l ≤ c ∧ l ≤ w then
      let rest := drain ls (c - l) (w - l)
      (l :: rest.1, rest.2)
    else ([], l :: ls)

/-- A message that does not fit a frame ends the connection. -/
def flushStream (c : Conn) (id : ℕ) : Conn :=
  match c.streams id with
  | none => c
  | some s =>
    let (out, left) := drain s.outbound c.connSendWindow s.sendWindow
    let written := out.takeWhile (· ≤ 0xffffff)
    let s' := { s with
      sendWindow := s.sendWindow - out.sum
      outbound := left
      pendingTrailers := s.pendingTrailers && left ≠ [] }
    { c with
      connSendWindow := c.connSendWindow - out.sum
      streams := Function.update c.streams id
        (if left = [] ∧ s.pendingTrailers ∧ s.subscribedTopic = none then none else some s')
      sent := c.sent ++ written.map (.data id)
      ended := written ≠ out }

def resize (c : Conn) (val : ℕ) : Conn :=
  { c with
    streams := fun id => (c.streams id).map fun s =>
      { s with sendWindow := s.sendWindow + (val - c.peerInitialWindow) }
    peerInitialWindow := val }

/-- SETTINGS_INITIAL_WINDOW_SIZE is 4. Nothing is flushed. -/
def onSettings (c : Conn) (entries : List (ℕ × ℕ)) : Conn :=
  ((entries.filter (·.1 = 4)).map Prod.snd).foldl resize c

def onWindowUpdate (c : Conn) (id delta : ℕ) : Conn :=
  if id = 0 then { c with connSendWindow := c.connSendWindow + delta }
  else (c.put id ((c.streams id).map fun s =>
    { s with sendWindow := s.sendWindow + delta })).flushStream id

def finishHeaders (c : Conn) (id : ℕ) : Conn :=
  c.put id (some { (c.streams id).getD {} with sendWindow := c.peerInitialWindow })

/-- The request is complete; `s` is its stream. -/
def respond (c : Conn) (id : ℕ) (s : Stream) : Answer → Conn
  | .unary message =>
    let replied := { s with outbound := s.outbound ++ message.toList, pendingTrailers := true }
    (c.put id (some replied)).flushStream id
  | .subscribe topic => c.put id (some { s with subscribedTopic := some topic })
  | .refused => c.put id none

/-- The update is for the stream, never for the connection, and counts no padding. -/
def onData (c : Conn) (f : Frame) (answer : Answer) : Conn :=
  match dataPayload f with
  | none => { c with ended := true }
  | some data =>
    let c' := { c with sent := c.sent ++ [.windowUpdate f.streamId (data.length % 2 ^ 32)] }
    match c.streams f.streamId with
    | none => c'
    | some s => if f.flag 0x1 then c'.respond f.streamId s answer else c'

def onRecord (topic : Bytes) (len : ℕ) (c : Conn) (id : ℕ) : Conn :=
  match c.streams id with
  | none => c
  | some s =>
    if s.subscribedTopic = some topic ∧ ¬ c.ended then
      (c.put id (some { s with outbound := s.outbound ++ [len] })).flushStream id
    else c

def step (c : Conn) (e : Event) : Conn :=
  if c.ended then c
  else match e with
    | .settings ack entries => if ack then c else c.onSettings entries
    | .windowUpdate id delta => c.onWindowUpdate id delta
    | .headers id endHeaders => if endHeaders then c.finishHeaders id else c
    | .data frame answer => c.onData frame answer
    | .rstStream id => c.put id none
    | .flux topic len order => order.foldl (onRecord topic len) c

end Conn

structure World where
  past : List Event := []
  conn : Conn := {}

def next (w : World) (e : Event) : World := ⟨w.past ++ [e], w.conn.step e⟩

/-- What WINDOW_UPDATE frames have granted; stream 0 is the connection. -/
def granted (past : List Event) (id : ℕ) : ℕ :=
  (past.map fun | .windowUpdate i delta => if i = id then delta else 0 | _ => 0).sum

/-- The client has ended the stream. -/
def closed (past : List Event) (id : ℕ) : Bool :=
  past.any fun
    | .data f _ => f.streamId = id ∧ f.flag 0x1
    | .rstStream i => i = id
    | _ => false

def Conforming (w : World) : Event → Prop
  | .headers id _ => id ≠ 0 ∧ closed w.past id = false
  | .data f _ => f.streamId ≠ 0 ∧ closed w.past f.streamId = false ∧ (dataPayload f).isSome ∧
      f.payload.length < 2 ^ 24
  | _ => True

instance (w : World) : (e : Event) → Decidable (Conforming w e)
  | .headers .. | .data .. => inferInstanceAs (Decidable (_ ∧ _))
  | .settings .. | .windowUpdate .. | .rstStream _ | .flux .. => inferInstanceAs (Decidable True)

def bytesSent (sent : List Out) (p : ℕ → Bool) : ℕ :=
  (sent.map fun | .data i n => if p i then n else 0 | _ => 0).sum

def Conn.sentOn (c : Conn) (id : ℕ) : ℕ := bytesSent c.sent (· = id)

def Blocked (window : ℤ) (s : Stream) : Prop := s.outbound ≠ [] → window ≤ 0 ∨ s.sendWindow ≤ 0

/-- No message is left of which the windows would let a byte pass. -/
def Settled (c : Conn) : Prop := ∀ id s, c.streams id = some s → Blocked c.connSendWindow s

section

variable {c : Conn} {id : ℕ} {g : ℕ → ℕ} {ended : ℕ → Bool}

theorem drain_spec (q : List ℕ) (cw w : ℤ) :
    (Conn.drain q cw w).1 ++ (Conn.drain q cw w).2 = q ∧
      ((Conn.drain q cw w).1 = [] ∨ ((Conn.drain q cw w).1.sum : ℤ) ≤ min cw w) := by
  induction q generalizing cw w with
  | nil => simp [Conn.drain]
  | cons l ls ih =>
    by_cases hfits : l ≤ cw ∧ l ≤ w
    · obtain ⟨hq, hsum⟩ := ih (cw - l) (w - l)
      simp only [Conn.drain, if_pos hfits, cons_append, hq, true_and, sum_cons]
      right
      obtain hnil | hsum := hsum
      · simp [hnil, hfits]
      · omega
    · simp [Conn.drain, if_neg hfits]

/-- The windows stay within what was granted, and a stream that the client has not ended has sent
nothing and has nothing to send. -/
structure Within (g : ℕ → ℕ) (ended : ℕ → Bool) (c : Conn) : Prop where
  nonneg : 0 ≤ c.connSendWindow
  conn : c.connSendWindow + bytesSent c.sent (fun _ => true) ≤ 65535 + g 0
  stream : ∀ id s, c.streams id = some s → s.sendWindow + c.sentOn id ≤ c.peerInitialWindow + g id
  fresh : ∀ id, ended id = false →
    c.sentOn id = 0 ∧ ∀ s, c.streams id = some s → s.outbound = [] ∧ s.subscribedTopic = none

/-- Whatever was sent on a stream on the way was within its credit. -/
structure Pays (g : ℕ → ℕ) (ended : ℕ → Bool) (c c' : Conn) : Prop where
  within : Within g ended c'
  initial : c'.peerInitialWindow = c.peerInitialWindow
  paid : ∀ id, c'.sentOn id = c.sentOn id ∨ c'.sentOn id ≤ c'.peerInitialWindow + g id

variable (h : Within g ended c)

include h

theorem Within.put {o : Option Stream}
    (ho : ∀ s, o = some s → s.sendWindow + c.sentOn id ≤ c.peerInitialWindow + g id ∧
      (ended id = false → s.outbound = [] ∧ s.subscribedTopic = none)) :
    Within g ended (c.put id o) := by
  refine ⟨h.nonneg, h.conn, fun i s hs => ?_, fun i hi => ⟨(h.fresh i hi).1, fun s hs => ?_⟩⟩
  all_goals
    obtain rfl | hne := eq_or_ne i id
    · simp only [Conn.put, update_self] at hs
      first | exact (ho s hs).1 | exact (ho s hs).2 hi
    · simp only [Conn.put, update_of_ne hne] at hs
      first | exact h.stream i s hs | exact (h.fresh i hi).2 s hs

omit h in
theorem bytesSent_append (out : List ℕ) :
    bytesSent (sent ++ out.map (.data id)) p = bytesSent sent p + if p id then out.sum else 0 := by
  simp only [bytesSent, map_append, map_map, comp_def]
  split <;> simp

theorem Within.flushStream (hid : ∀ s, c.streams id = some s → ended id = false → s.outbound = []) :
    Pays g ended c (c.flushStream id) := by
  cases hs : c.streams id with
  | none =>
    rw [Conn.flushStream, hs]
    exact ⟨h, rfl, fun _ => .inl rfl⟩
  | some s =>
    obtain ⟨hq, hsum⟩ := drain_spec s.outbound c.connSendWindow s.sendWindow
    simp only [Conn.flushStream, hs]
    generalize Conn.drain s.outbound c.connSendWindow s.sendWindow = r at hq hsum ⊢
    obtain ⟨out, left⟩ := r
    simp only at hq hsum ⊢
    have hwritten : (out.takeWhile (· ≤ 0xffffff)).sum ≤ out.sum := by
      have hsplit := congrArg List.sum (takeWhile_append_dropWhile (p := (· ≤ 0xffffff)) (l := out))
      rw [sum_append] at hsplit
      omega
    have hroom : out.sum ≤ c.connSendWindow ∧ (out.sum = 0 ∨ out.sum ≤ s.sendWindow) := by
      have := h.nonneg
      obtain hnil | hsum := hsum
      · simp [hnil, this]
      · omega
    have hstream := h.stream id s hs
    refine ⟨⟨?_, ?_, ?_, ?_⟩, rfl, ?_⟩
    · simp only
      omega
    · have := h.conn
      simp only [bytesSent_append, if_true]
      omega
    · intro i t ht
      simp only [Conn.sentOn, bytesSent_append, decide_eq_true_eq]
      obtain rfl | hne := eq_or_ne i id
      · simp only [update_self] at ht
        split at ht
        · cases ht
        · cases ht
          simp only [Conn.sentOn, if_true] at hstream ⊢
          omega
      · simp only [update_of_ne hne] at ht
        simpa [hne.symm, Conn.sentOn] using h.stream i t ht
    · intro i hi
      obtain ⟨hnone, hqueue⟩ := h.fresh i hi
      simp only [Conn.sentOn, bytesSent_append] at hnone ⊢
      obtain rfl | hne := eq_or_ne i id
      · rw [hid s hs hi, append_eq_nil_iff] at hq
        obtain ⟨rfl, rfl⟩ := hq
        refine ⟨by simp [hnone], fun t ht => ?_⟩
        simp only [update_self] at ht
        split at ht
        · cases ht
        · cases ht
          exact ⟨rfl, (hqueue s hs).2⟩
      · simpa [hne.symm, update_of_ne hne, hnone] using hqueue
    · intro i
      simp only [Conn.sentOn, bytesSent_append, decide_eq_true_eq] at hstream ⊢
      split
      · subst_vars
        omega
      · exact .inl rfl

omit h in
theorem Pays.trans (h : Pays g ended c c') (h' : Pays g ended c' c'') : Pays g ended c c'' := by
  refine ⟨h'.within, h'.initial.trans h.initial, fun id => ?_⟩
  obtain heq | hle := h'.paid id
  · rw [heq, h'.initial]
    exact h.paid id
  · exact .inr hle

omit h in
theorem Within.pays (h : Within g ended c') (hinit : c'.peerInitialWindow = c.peerInitialWindow)
    (hsent : c'.sent = c.sent) : Pays g ended c c' :=
  ⟨h, hinit, fun id => .inl (by rw [Conn.sentOn, hsent, Conn.sentOn])⟩

theorem Within.onRecord (topic : Bytes) (len : ℕ) : Pays g ended c (c.onRecord topic len id) := by
  unfold Conn.onRecord
  cases hs : c.streams id with
  | none => exact h.pays rfl rfl
  | some s =>
    dsimp only
    split
    · rename_i hsub
      have hended : ended id ≠ false := fun hid => by simp [((h.fresh id hid).2 s hs).2] at hsub
      have hput : Within g ended (c.put id (some { s with outbound := s.outbound ++ [len] })) :=
        h.put fun t ht => by cases ht; exact ⟨h.stream id s hs, fun hid => absurd hid hended⟩
      exact (hput.pays (c := c) rfl rfl).trans (hput.flushStream fun _ _ hid => absurd hid hended)
    · exact h.pays rfl rfl

theorem Within.flux (topic : Bytes) (len : ℕ) (order : List ℕ) :
    Pays g ended c (order.foldl (Conn.onRecord topic len) c) := by
  induction order generalizing c with
  | nil => exact h.pays rfl rfl
  | cons id order ih =>
    have hrec : Pays g ended c (c.onRecord topic len id) := h.onRecord topic len
    exact hrec.trans (ih hrec.within)

theorem Within.resize (val : ℕ) : Within g ended (c.resize val) := by
  refine ⟨h.nonneg, h.conn, fun id s hs => ?_, fun id hid => ⟨(h.fresh id hid).1, fun s hs => ?_⟩⟩
  all_goals
    simp only [Conn.resize, Option.map_eq_some_iff] at hs
    obtain ⟨t, ht, rfl⟩ := hs
  · have := h.stream id t ht
    simp only [Conn.resize, Conn.sentOn] at this ⊢
    omega
  · exact (h.fresh id hid).2 t ht

theorem Within.mono (hg : ∀ id, g id ≤ g' id)
    (hended : ∀ id, ended' id = false → ended id = false) : Within g' ended' c := by
  refine ⟨h.nonneg, ?_, fun id s hs => ?_, fun id hid => h.fresh id (hended id hid)⟩
  · have := h.conn
    have := hg 0
    omega
  · have := h.stream id s hs
    have := hg id
    omega

theorem Within.foldl_resize (vals : List ℕ) : Within g ended (vals.foldl Conn.resize c) := by
  induction vals generalizing c with
  | nil => exact h
  | cons val vals ih => exact ih (h.resize val)

omit h in
theorem sent_foldl_resize (vals : List ℕ) : (vals.foldl Conn.resize c).sent = c.sent := by
  induction vals generalizing c with
  | nil => rfl
  | cons val vals ih => rw [foldl_cons, ih, Conn.resize]

theorem Within.respond {s : Stream} (hs : c.streams id = some s)
    (hended : ended id = true) (answer : Answer) : Pays g ended c (c.respond id s answer) := by
  have hne : ended id ≠ false := by simp [hended]
  have hput : ∀ t : Stream, t.sendWindow = s.sendWindow → Within g ended (c.put id (some t)) := by
    intro t ht
    refine h.put fun t' ht' => ⟨?_, fun hid => absurd hid hne⟩
    cases ht'
    rw [ht]
    exact h.stream id s hs
  cases answer with
  | unary message =>
    let replied := { s with outbound := s.outbound ++ message.toList, pendingTrailers := true }
    have hmsg := hput replied rfl
    exact (hmsg.pays (c := c) rfl rfl).trans (hmsg.flushStream fun _ _ hid => absurd hid hne)
  | subscribe topic => exact (hput { s with subscribedTopic := some topic } rfl).pays rfl rfl
  | refused =>
    have hnone : Within g ended (c.put id none) := h.put (by simp)
    exact hnone.pays rfl rfl

theorem Within.onData (hended : f.flag 0x1 → ended f.streamId = true)
    (answer : Answer) : Pays g ended c (c.onData f answer) := by
  unfold Conn.onData
  cases dataPayload f with
  | none => exact Within.pays { h with } rfl rfl
  | some data =>
    have hsent : ∀ p, bytesSent (c.sent ++ [.windowUpdate f.streamId (data.length % 2 ^ 32)]) p =
        bytesSent c.sent p := fun p => by simp [bytesSent]
    have hupdate : Pays g ended c
        { c with sent := c.sent ++ [.windowUpdate f.streamId (data.length % 2 ^ 32)] } := by
      refine ⟨⟨h.nonneg, ?_, ?_, ?_⟩, rfl, fun id => .inl (hsent _)⟩
      · simpa only [hsent] using h.conn
      · simpa only [Conn.sentOn, hsent] using h.stream
      · simpa only [Conn.sentOn, hsent] using h.fresh
    cases hs : c.streams f.streamId with
    | none => exact hupdate
    | some s =>
      dsimp only
      split
      · rename_i hflag
        exact hupdate.trans (hupdate.within.respond hs (hended hflag) answer)
      · exact hupdate

end

def Granted (w : World) : Prop := Within (granted w.past) (closed w.past) w.conn

/-- What was sent in the step is within the credit of the connection and of its stream. -/
def WithinCredit (w : World) (e : Event) : Prop :=
  bytesSent (next w e).conn.sent (fun _ => true) ≤ 65535 + granted (next w e).past 0 ∧
    ∀ id, (next w e).conn.sentOn id = w.conn.sentOn id ∨
      (next w e).conn.sentOn id ≤ (next w e).conn.peerInitialWindow + granted (next w e).past id

theorem granted_update (past : List Event) (id delta : ℕ) :
    granted (past ++ [.windowUpdate id delta]) id = granted past id + delta := by simp [granted]

theorem closed_concat (id : ℕ) : closed (past ++ [e]) id =
    (closed past id || closed [e] id) := by simp [closed]

variable {w : World} {e : Event}

theorem Granted.step (h : Granted w) (hc : Conforming w e) :
    Granted (next w e) ∧ WithinCredit w e := by
  have hmono : Within (granted (w.past ++ [e])) (closed (w.past ++ [e])) w.conn :=
    h.mono (fun id => by simp [granted]) fun id hid => by
      rw [closed_concat, Bool.or_eq_false_iff] at hid
      exact hid.1
  suffices hstep : Within (granted (w.past ++ [e])) (closed (w.past ++ [e])) (w.conn.step e) ∧
      ∀ id, (w.conn.step e).sentOn id = w.conn.sentOn id ∨
        (w.conn.step e).sentOn id ≤ (w.conn.step e).peerInitialWindow + granted
          (w.past ++ [e]) id by
    have hconn := hstep.1.conn
    have hpos := hstep.1.nonneg
    exact ⟨hstep.1, by simp only [next]; omega, hstep.2⟩
  unfold Conn.step
  split
  · exact ⟨hmono, fun _ => .inl rfl⟩
  cases e with
  | settings ack entries =>
    cases ack with
    | true => exact ⟨hmono, fun _ => .inl rfl⟩
    | false =>
      refine ⟨hmono.foldl_resize _, fun id => .inl ?_⟩
      simp [Conn.sentOn, Conn.onSettings, sent_foldl_resize]
  | windowUpdate id delta =>
    dsimp only [Conn.onWindowUpdate]
    split
    · subst id
      refine ⟨⟨?_, ?_, hmono.stream, hmono.fresh⟩, fun _ => .inl rfl⟩
      · have := h.nonneg
        simp only
        omega
      · have := h.conn
        simp only [granted_update]
        omega
    · have hput : Within (granted (w.past ++ [.windowUpdate id delta]))
        (closed (w.past ++ [.windowUpdate id delta]))
          (w.conn.put id ((w.conn.streams id).map fun s =>
            { s with sendWindow := s.sendWindow + delta })) := by
        refine hmono.put fun t ht => ?_
        obtain ⟨s, hs, rfl⟩ := Option.map_eq_some_iff.mp ht
        refine ⟨?_, fun hid => (hmono.fresh id hid).2 s hs⟩
        have := h.stream id s hs
        simp only [granted_update]
        omega
      have hflush := hput.flushStream fun s hs hid => ((hput.fresh id hid).2 s hs).1
      exact ⟨hflush.within, hflush.paid⟩
  | headers id endHeaders =>
    cases endHeaders with
    | false => exact ⟨hmono, fun _ => .inl rfl⟩
    | true =>
      have hopen : closed (w.past ++ [.headers id true]) id = false := by
        rw [closed_concat, hc.2]
        rfl
      have hnew := hmono.fresh id hopen
      refine ⟨hmono.put fun t ht => ?_, fun _ => .inl rfl⟩
      cases ht
      refine ⟨by simp only; omega, fun _ => ?_⟩
      cases hs : w.conn.streams id with
      | none => exact ⟨rfl, rfl⟩
      | some s => exact hnew.2 s hs
  | data f answer =>
    have hdata := hmono.onData (f := f) (fun hflag => by simp [closed, hflag]) answer
    exact ⟨hdata.within, hdata.paid⟩
  | rstStream id => exact ⟨hmono.put (by simp), fun _ => .inl rfl⟩
  | flux topic len order =>
    have hflux := hmono.flux topic len order
    exact ⟨hflux.within, hflux.paid⟩

section

variable {c : Conn} {id : ℕ}

/-- The queue goes out whole, or its first messages use the window up to the last byte. -/
def Even (q : List ℕ) (window : ℤ) : Prop :=
  window ≤ 0 ∨ (q.sum : ℤ) ≤ window ∨ ∃ p, p <+: q ∧ (p.sum : ℤ) = window

instance (q : List ℕ) (window : ℤ) : Decidable (Even q window) :=
  decidable_of_iff (window ≤ 0 ∨ (q.sum : ℤ) ≤ window ∨ ∃ p ∈ q.inits, (p.sum : ℤ) = window)
    (by simp [Even, mem_inits])

theorem Even.tail {l : ℕ} {ls : List ℕ} (h : Even (l :: ls) window) (hl : l ≤ window) :
    Even ls (window - l) := by
  obtain h | h | ⟨p, hp, hsum⟩ := h
  · exact .inl (by omega)
  · exact .inr (.inl (by simp only [sum_cons] at h; omega))
  · obtain rfl | ⟨t, rfl, ht⟩ := prefix_cons_iff.mp hp
    · exact .inl (by simp only [sum_nil] at hsum; omega)
    · exact .inr (.inr ⟨t, ht, by simp only [sum_cons] at hsum; omega⟩)

theorem Even.stopped {l : ℕ} {ls : List ℕ} (h : Even (l :: ls) window) (hl : window < l) :
    window ≤ 0 := by
  obtain h | h | ⟨p, hp, hsum⟩ := h
  · exact h
  · simp only [sum_cons] at h
    omega
  · obtain rfl | ⟨t, rfl, ht⟩ := prefix_cons_iff.mp hp
    · simp only [sum_nil] at hsum
      omega
    · simp only [sum_cons] at hsum
      omega

theorem drain_even {cw w : ℤ} (h : Even q (min cw w)) (hleft : (Conn.drain q cw w).2 ≠ []) :
    cw - (Conn.drain q cw w).1.sum ≤ 0 ∨ w - (Conn.drain q cw w).1.sum ≤ 0 := by
  induction q generalizing cw w with
  | nil => exact absurd rfl hleft
  | cons l ls ih =>
    by_cases hfits : l ≤ cw ∧ l ≤ w
    · have hmin : min (cw - l) (w - l) = min cw w - l := by omega
      simp only [Conn.drain, if_pos hfits] at hleft ⊢
      have hrest := ih (hmin ▸ h.tail (by omega)) hleft
      simp only [sum_cons]
      omega
    · have hstopped := h.stopped (by omega)
      simp only [Conn.drain, if_neg hfits, sum_nil]
      omega

theorem settled_flushStream
    (h : ∀ i s, i ≠ id → c.streams i = some s → Blocked c.connSendWindow s)
    (heven : ∀ s ∈ c.streams id, Even s.outbound (min c.connSendWindow s.sendWindow)) :
    Settled (c.flushStream id) := by
  intro i t ht
  cases hs : c.streams id with
  | none =>
    rw [Conn.flushStream, hs] at ht ⊢
    refine h i t ?_ ht
    rintro rfl
    rw [hs] at ht
    cases ht
  | some s =>
    have hleft := drain_even (heven s hs)
    simp only [Conn.flushStream, hs] at ht ⊢
    obtain rfl | hne := eq_or_ne i id
    · simp only [update_self] at ht
      split at ht
      · cases ht
      · cases ht
        exact hleft
    · simp only [update_of_ne hne] at ht
      intro hqueue
      have := h i t hne ht hqueue
      omega

theorem Settled.put (h : Settled c) (hi : i ≠ id)
    (hs : (c.put id o).streams i = some s) : Blocked (c.put id o).connSendWindow s := by
  simp only [Conn.put, update_of_ne hi] at hs
  exact h i s hs

theorem Settled.put_blocked (h : Settled c) (ho : ∀ s ∈ o, Blocked c.connSendWindow s) :
    Settled (c.put id o) := by
  intro i s hs
  obtain rfl | hne := eq_or_ne i id
  · simp only [Conn.put, update_self] at hs
    exact ho s hs
  · exact h.put hne hs

theorem Settled.put_flush (h : Settled c)
    (ho : ∀ s ∈ o, Even s.outbound (min c.connSendWindow s.sendWindow)) :
    Settled ((c.put id o).flushStream id) :=
  settled_flushStream (fun i s hi hs => h.put hi hs) (by simpa [Conn.put] using ho)

/-- `more` joins the queue of the stream and the window grows by `delta`. -/
def Conn.EvenOn (c : Conn) (id : ℕ) (more : List ℕ) (delta : ℕ) : Prop :=
  ∀ s ∈ c.streams id, Even (s.outbound ++ more) (min c.connSendWindow (s.sendWindow + delta))

def Conn.RecordEven (topic : Bytes) (len : ℕ) (c : Conn) (id : ℕ) : Prop :=
  ∀ s ∈ c.streams id, s.subscribedTopic = some topic → c.ended = false →
    Even (s.outbound ++ [len]) (min c.connSendWindow s.sendWindow)

/-- What a frame queues or makes room for uses the windows up, and a frame that raises windows
without a flush comes while no queue waits for them. -/
def Conn.Passes (c : Conn) : Event → Prop
  | .settings ack entries => ack = false →
      ∀ val ∈ ((entries.filter (·.1 = 4)).map Prod.snd).getLast?, ∀ id s,
        c.streams id = some s → s.outbound ≠ [] →
          c.connSendWindow ≤ 0 ∨ s.sendWindow + (val - c.peerInitialWindow) ≤ 0
  | .windowUpdate id delta =>
    if id = 0 then ∀ i s, c.streams i = some s → s.outbound ≠ [] →
      c.connSendWindow + delta ≤ 0 ∨ s.sendWindow ≤ 0
    else c.EvenOn id [] delta
  | .data f (.unary message) => f.flag 0x1 → c.EvenOn f.streamId message.toList 0
  | .flux topic len order => Along (Conn.onRecord topic len) (Conn.RecordEven topic len) c order
  | _ => True

theorem Settled.onRecord (h : Settled c) (heven : Conn.RecordEven topic len c id) :
    Settled (Conn.onRecord topic len c id) := by
  unfold Conn.onRecord
  split
  · exact h
  · rename_i s hs
    split
    · rename_i hsubscribed
      exact h.put_flush (by simpa using heven s hs hsubscribed.1 (by simpa using hsubscribed.2))
    · exact h

theorem Settled.foldl_onRecord (h : Settled c)
    (heven : Along (Conn.onRecord topic len) (Conn.RecordEven topic len) c order) :
    Settled (order.foldl (Conn.onRecord topic len) c) := by
  induction order generalizing c with
  | nil => exact h
  | cons id order ih => exact ih (h.onRecord heven.1) heven.2

theorem Settled.onData (h : Settled c) (hpasses : c.Passes (.data f answer)) :
    Settled (c.onData f answer) := by
  unfold Conn.onData
  split
  · exact h
  · cases hs : c.streams f.streamId with
    | none => exact h
    | some s =>
      dsimp only
      split
      · rename_i hends
        cases answer with
        | unary message =>
          refine Settled.put_flush h ?_
          simpa using hpasses hends s hs
        | subscribe topic => exact Settled.put_blocked h (by simpa [Blocked] using h _ s hs)
        | refused => exact Settled.put_blocked h (by simp)
      · exact h

theorem foldl_resize (vals : List ℕ) (hval : vals.getLast? = some val) :
    vals.foldl Conn.resize c = c.resize val := by
  induction vals generalizing c with
  | nil => cases hval
  | cons first vals ih =>
    cases vals with
    | nil =>
      obtain rfl : first = val := by simpa using hval
      rfl
    | cons second vals =>
      rw [foldl_cons, ih (by simpa using hval)]
      simp only [Conn.resize, Option.map_map, Conn.mk.injEq, true_and]
      refine ⟨?_, trivial⟩
      funext id
      cases c.streams id with
      | none => rfl
      | some s =>
        simp only [Option.map_some, comp_apply, Option.some.injEq, Stream.mk.injEq, and_self,
          and_true]
        omega

theorem Settled.onSettings (h : Settled c) (hpasses : c.Passes (.settings false entries)) :
    Settled (c.onSettings entries) := by
  unfold Conn.onSettings
  cases hlast : ((entries.filter (·.1 = 4)).map Prod.snd).getLast? with
  | none =>
    rw [getLast?_eq_none_iff.mp hlast]
    exact h
  | some val =>
    rw [foldl_resize _ hlast]
    intro id t ht
    obtain ⟨s, hs, rfl⟩ := Option.map_eq_some_iff.mp ht
    exact hpasses rfl val hlast id s hs

theorem drain_all {cw w : ℤ} (hc : (q.sum : ℤ) ≤ cw) (hw : (q.sum : ℤ) ≤ w) :
    Conn.drain q cw w = (q, []) := by
  induction q generalizing cw w with
  | nil => rfl
  | cons l ls ih =>
    simp only [sum_cons] at hc hw
    rw [Conn.drain, if_pos (by omega), ih (by omega) (by omega)]

end

theorem Settled.step (h : Settled w.conn) (hg : Granted w) (hc : Conforming w e)
    (hpasses : w.conn.ended = false → w.conn.Passes e) : Settled (next w e).conn := by
  simp only [next, Conn.step]
  split
  · exact h
  rename_i hended
  replace hpasses := hpasses (by simpa using hended)
  cases e with
  | settings ack entries =>
    cases ack with
    | true => exact h
    | false => exact h.onSettings hpasses
  | windowUpdate id delta =>
    dsimp only [Conn.onWindowUpdate]
    simp only [Conn.Passes] at hpasses
    split
    · rw [if_pos ‹_›] at hpasses
      exact hpasses
    · rw [if_neg ‹_›] at hpasses
      refine h.put_flush fun s hs => ?_
      obtain ⟨t, ht, rfl⟩ := Option.map_eq_some_iff.mp hs
      simpa using hpasses t ht
  | headers id endHeaders =>
    dsimp only
    split
    · refine h.put_blocked fun s hs => ?_
      cases hs
      cases hopen : w.conn.streams id with
      | none => simp [Blocked]
      | some s => simp [Blocked, ((hg.fresh id hc.2).2 s hopen).1]
    · exact h
  | data f answer => exact h.onData hpasses
  | rstStream id => exact h.put_blocked (by simp)
  | flux topic len order => exact h.foldl_onRecord hpasses

/-- What is sent is within the credit. As long as the frames pass, no message is left of which a
byte could be sent. A client that makes room, for the stream at last, gets what waits. -/
theorem send_flow_control {evs : List Event} (h : Along next Conforming {} evs) :
    Along next WithinCredit {} evs ∧
      (Along next (fun w e => w.conn.ended = false → w.conn.Passes e) {} evs →
        Settled (run next {} evs).conn) ∧
      ∀ id s a b, id ≠ 0 → (run next {} evs).conn.ended = false →
        (run next {} evs).conn.streams id = some s → (∀ l ∈ s.outbound, l ≤ 0xffffff) →
        s.outbound.sum ≤ (run next {} evs).conn.connSendWindow + (a : ℕ) →
        s.outbound.sum ≤ s.sendWindow + (b : ℕ) →
        (run next {} (evs ++ [.windowUpdate 0 a, .windowUpdate id b])).conn.sent =
          (run next {} evs).conn.sent ++ s.outbound.map (.data id) := by
  have hstart : Granted {} := ⟨by decide, by decide, by simp, fun id _ => ⟨rfl, by simp⟩⟩
  refine ⟨h.of_invariant (fun _ _ hg hc => (hg.step hc).1) (fun _ _ hg hc => (hg.step hc).2) hstart,
    fun hpasses => ?_, ?_⟩
  · refine ((h.and hpasses).invariant (I := fun w => Granted w ∧ Settled w.conn) ?_
      ⟨hstart, by simp [Settled]⟩).2
    exact fun w e hw he => ⟨(hw.1.step he.1).1, hw.2.step hw.1 he.1 he.2⟩
  · intro id s a b hid hended hs hlen ha hb
    rw [run_append]
    have hwritten : s.outbound.takeWhile (· ≤ 0xffffff) = s.outbound :=
      takeWhile_eq_self_iff.mpr fun l hl => by simpa using hlen l hl
    simp [next, Conn.step, hended, Conn.onWindowUpdate, hid, hs, Conn.put, Conn.flushStream,
      drain_all ha hb, hwritten]

def subscribed : List Event := [.headers 1 true, .data ⟨0, 1, 1, [0, 0, 0, 0, 0]⟩ (.subscribe [])]

/-- Two records use the windows up; a third one waits for both and is sent when they grow. -/
theorem send_flow_control_subscribed :
    let evs := subscribed ++ [.flux [] 65000 [1], .flux [] 535 [1], .flux [] 100 [1]]
    Along next WithinCredit {} evs ∧ Settled (run next {} evs).conn ∧
      (run next {} (evs ++ [.windowUpdate 0 100, .windowUpdate 1 100])).conn.sent =
        [.windowUpdate 1 5, .data 1 65000, .data 1 535, .data 1 100] := by
  intro evs
  have hevs : Along next Conforming {} evs := by decide +kernel
  have hflux len (c : Conn) (s : Stream) (hs : c.streams 1 = some s)
      (heven : Even (s.outbound ++ [len]) (min c.connSendWindow s.sendWindow)) :
      c.Passes (.flux [] len [1]) := by
    refine ⟨fun t ht _ _ => ?_, trivial⟩
    rw [hs] at ht
    exact Option.some.inj ht ▸ heven
  obtain ⟨hcredit, hsettled, hdelivered⟩ := send_flow_control hevs
  refine ⟨hcredit, hsettled ⟨fun _ => trivial, fun _ => trivial, ?_, ?_, ?_, trivial⟩,
    hdelivered 1 _ 100 100 (by decide) rfl rfl (by decide) (by decide) (by decide)⟩
  · exact fun _ => hflux _ _ _ rfl (by decide +kernel)
  · exact fun _ => hflux _ _ _ rfl (by decide +kernel)
  · exact fun _ => hflux _ _ _ rfl (by decide +kernel)

/-- A record that is longer than the windows waits in front of open ones, and still waits when the
connection is granted room at last, or SETTINGS make it. One of 2²⁴ bytes ends the connection. -/
theorem queued_message_waits :
    let waits (evs : List Event) (window : ℤ) :=
      Along next Conforming {} (subscribed ++ evs) ∧
        (run next {} (subscribed ++ evs)).conn.sent = [.windowUpdate 1 5] ∧
        (run next {} (subscribed ++ evs)).conn.connSendWindow = window ∧
        (run next {} (subscribed ++ evs)).conn.streams 1 =
          some { sendWindow := window, outbound := [70000], subscribedTopic := some [] }
    waits [.flux [] 70000 [1]] 65535 ∧
      waits [.flux [] 70000 [1], .windowUpdate 1 5000, .windowUpdate 0 5000] 70535 ∧
      waits [.flux [] 70000 [1], .windowUpdate 0 5000, .settings false [(4, 70535)]] 70535 ∧
      (run next {} (subscribed ++ [.windowUpdate 0 (2 ^ 24), .windowUpdate 1 (2 ^ 24),
        .flux [] (2 ^ 24) [1]])).conn.ended = true := by
  decide +kernel

def frames (past : List Event) : List Frame := past.filterMap fun | .data f _ => some f | _ => none

def updates (sent : List Out) : List (ℕ × ℕ) :=
  sent.filterMap fun | .windowUpdate id delta => some (id, delta) | _ => none

/-- The receive window of the stream, or for 0 of the connection, as the client counts it: padding
counts too. -/
def recvWindow (w : World) (id : ℕ) : ℤ :=
  65535 - (((frames w.past).filter fun f => id = 0 ∨ f.streamId = id).map (·.payload.length)).sum +
    (((updates w.conn.sent).filter (·.1 = id)).map Prod.snd).sum

def Served (w : World) (e : Event) : Prop := w.conn.ended = false ∧ Conforming w e

instance (w : World) (e : Event) : Decidable (Served w e) := inferInstanceAs (Decidable (_ ∧ _))

def received (f : Frame) : ℕ := ((dataPayload f).getD []).length

section

variable {c : Conn} {id : ℕ}

@[simp] theorem updates_flushStream : updates (c.flushStream id).sent = updates c.sent := by
  unfold Conn.flushStream
  split
  · rfl
  · simp only [updates]
    simp

theorem updates_foldl_onRecord (order : List ℕ) :
    updates (order.foldl (Conn.onRecord topic len) c).sent = updates c.sent := by
  induction order generalizing c with
  | nil => rfl
  | cons id order ih =>
    rw [foldl_cons, ih, Conn.onRecord]
    split
    · rfl
    · split
      · rw [updates_flushStream, Conn.put]
      · rfl

theorem received_spec (hdata : (dataPayload f).isSome) :
    received f ≤ f.payload.length ∧ (received f = f.payload.length ↔ f.flag 0x8 = false) := by
  unfold received
  unfold dataPayload at hdata ⊢
  by_cases hpad : f.flag 0x8
  · cases hp : f.payload with
    | nil => simp [hpad, hp] at hdata
    | cons pad data =>
      by_cases hshort : data.length < pad.toNat
      · simp [hpad, hp, hshort] at hdata
      · simp [hpad, hshort]
        omega
  · simp [hpad]

theorem updates_onData (hdata : (dataPayload f).isSome) (hlen : f.payload.length < 2 ^ 24) :
    updates (c.onData f answer).sent = updates c.sent ++ [(f.streamId, received f)] := by
  have hle := (received_spec hdata).1
  obtain ⟨data, hsome⟩ := Option.isSome_iff_exists.mp hdata
  have hdelta : data.length % 2 ^ 32 = received f := by
    rw [received, hsome] at hle ⊢
    exact Nat.mod_eq_of_lt (by simp only [Option.getD_some] at hle; omega)
  have hupdate : updates (c.sent ++ [.windowUpdate f.streamId (received f)]) =
      updates c.sent ++ [(f.streamId, received f)] := by simp [updates]
  simp only [Conn.onData, hsome, hdelta]
  split
  · exact hupdate
  · split
    · cases answer with
      | unary message => simpa [Conn.respond, Conn.put] using hupdate
      | subscribe topic | refused => exact hupdate
    · exact hupdate

end

theorem updates_step (h : Served w e) : updates (next w e).conn.sent =
      updates w.conn.sent ++ (frames [e]).map fun f => (f.streamId, received f) := by
  simp only [next, Conn.step, h.1, Bool.false_eq_true, if_false]
  cases e with
  | settings ack entries =>
    cases ack <;> simp [frames, Conn.onSettings, sent_foldl_resize]
  | windowUpdate id delta =>
    dsimp only [Conn.onWindowUpdate]
    split <;> simp [frames, Conn.put]
  | headers id endHeaders => cases endHeaders <;> simp [frames, Conn.finishHeaders, Conn.put]
  | data f answer => simpa [frames] using updates_onData h.2.2.2.1 h.2.2.2.2
  | rstStream id => simp [frames, Conn.put]
  | flux topic len order => simp [frames, updates_foldl_onRecord]

/-- What the run has received, and what was sent for it. -/
structure Accounts (w : World) : Prop where
  updates : updates w.conn.sent = (frames w.past).map fun f => (f.streamId, received f)
  streams : ∀ f ∈ frames w.past, f.streamId ≠ 0
  whole : ∀ f ∈ frames w.past, (dataPayload f).isSome ∧ f.payload.length < 2 ^ 24

theorem Accounts.step (h : Accounts w) (he : Served w e) : Accounts (next w e) := by
  have hframes : frames (next w e).past = frames w.past ++ frames [e] := by simp [next, frames]
  have hnew : ∀ f ∈ frames [e], f.streamId ≠ 0 ∧ (dataPayload f).isSome ∧
    f.payload.length < 2 ^ 24 := by
    intro f hf
    cases e with
    | data f' answer =>
      simp only [frames, filterMap_cons, filterMap_nil, mem_singleton] at hf
      subst hf
      exact ⟨he.2.1, he.2.2.2⟩
    | _ => simp [frames] at hf
  refine ⟨?_, ?_, ?_⟩
  · rw [updates_step he, h.updates, hframes, map_append]
  all_goals
    rw [hframes]
    intro f hf
    rcases mem_append.mp hf with hf | hf
  · exact h.streams f hf
  · exact (hnew f hf).1
  · exact h.whole f hf
  · exact (hnew f hf).2

theorem sum_eq_sum_iff {l : List Frame} {p d : Frame → ℕ} (h : ∀ f ∈ l, d f ≤ p f) :
    (l.map d).sum ≤ (l.map p).sum ∧ ((l.map p).sum = (l.map d).sum ↔ ∀ f ∈ l, d f = p f) := by
  induction l with
  | nil => simp
  | cons f l ih =>
    obtain ⟨hle, hiff⟩ := ih fun x hx => h x (.tail _ hx)
    have hf := h f mem_cons_self
    simp only [map_cons, sum_cons, forall_mem_cons, ← hiff]
    omega

theorem past_run : (run next w evs).past = w.past ++ evs := by
  induction evs generalizing w with
  | nil => simp
  | cons e evs ih => simp [ih, next]

/-- The connection gets no credit back, streams do except for padding; an update is for what was
received, also if that is nothing or ends the stream. -/
theorem receive_credit_iff {evs : List Event} (h : Along next Served {} evs) :
    (recvWindow (run next {} evs) 0 = 65535 ↔ ∀ f ∈ frames evs, f.payload = []) ∧
      (∀ id, id ≠ 0 → (recvWindow (run next {} evs) id = 65535 ↔
        ∀ f ∈ frames evs, f.streamId = id → f.flag 0x8 = false)) ∧
      ((∀ u ∈ updates (run next {} evs).conn.sent, 1 ≤ u.2 ∧ u.2 < 2 ^ 31) ↔
        ∀ f ∈ frames evs, dataPayload f ≠ some []) ∧
      ((∀ i u, (updates (run next {} evs).conn.sent)[i]? = some u →
          ∀ f ∈ (frames evs).take (i + 1), f.streamId = u.1 → f.flag 0x1 = false) ↔
        ∀ f ∈ frames evs, f.flag 0x1 = false) := by
  have hpast : (run next {} evs).past = evs := by simp [past_run]
  have hacc : Accounts (run next {} evs) :=
    h.invariant (fun _ _ hw he => hw.step he) ⟨rfl, by simp [frames], by simp [frames]⟩
  obtain ⟨hupdates, hstreams, hwhole⟩ := hacc
  simp only [recvWindow, hpast] at hupdates hstreams hwhole ⊢
  rw [hupdates]
  refine ⟨?_, fun id hid => ?_, ?_, ?_⟩
  · have hnone : ((frames evs).map fun f => (f.streamId, received f)).filter (·.1 = 0) = [] := by
      simpa using hstreams
    have hsum : ((frames evs).map (·.payload.length)).sum = 0 ↔
      ∀ f ∈ frames evs, f.payload = [] := by
      simpa [eq_comm] using (sum_eq_sum_iff (p := (·.payload.length)) (d := fun _ => 0)
        (by simp)).2
    rw [hnone, ← hsum]
    simp only [true_or, decide_true, filter_true, map_nil, sum_nil]
    omega
  · have hsum := sum_eq_sum_iff (l := (frames evs).filter (·.streamId = id))
      fun f hf => (received_spec (hwhole f (mem_of_mem_filter hf)).1).1
    have hcredit :
      (((frames evs).map fun f => (f.streamId, received f)).filter (·.1 = id)).map Prod.snd =
        ((frames evs).filter (·.streamId = id)).map received := by
      rw [filter_map, map_map]
      rfl
    simp only [hcredit, hid, false_or]
    have hpadded : (∀ f ∈ (frames evs).filter (·.streamId = id), received f = f.payload.length) ↔
        ∀ f ∈ frames evs, f.streamId = id → f.flag 0x8 = false := by
      simp only [mem_filter, decide_eq_true_eq, and_imp]
      exact forall₂_congr fun f hf => imp_congr_right fun _ => (received_spec (hwhole f hf).1).2
    rw [← hpadded, ← hsum.2]
    omega
  · simp only [forall_mem_map]
    refine forall₂_congr fun f hf => ?_
    obtain ⟨hdata, hlen⟩ := hwhole f hf
    have hle := (received_spec hdata).1
    obtain ⟨data, hsome⟩ := Option.isSome_iff_exists.mp hdata
    simp only [received, hsome, Option.getD_some, ne_eq, Option.some.injEq] at hle ⊢
    rw [← length_eq_zero_iff]
    omega
  · constructor
    · intro hall f hf
      obtain ⟨i, hi⟩ := mem_iff_getElem?.mp hf
      refine hall i (f.streamId, received f) (by simp [hi]) f ?_ rfl
      exact mem_iff_getElem?.mpr ⟨i, by rw [List.getElem?_take_of_lt (by omega), hi]⟩
    · intro hall i u _ f hf _
      exact hall f (mem_of_mem_take hf)

theorem receive_credit_iff_unpadded :
    let evs := [.headers 1 true, .data ⟨0, 0, 1, [7, 7, 7]⟩ .refused]
    recvWindow (run next {} evs) 0 = 65532 ∧ recvWindow (run next {} evs) 1 = 65535 ∧
      updates (run next {} evs).conn.sent = [(1, 3)] := by
  intro evs
  have hserved : Along next Served {} evs := by decide +kernel
  refine ⟨by decide +kernel, ?_, by decide +kernel⟩
  exact ((receive_credit_iff hserved).2.1 1 (by decide)).mpr (by decide +kernel)

/-- A frame with two bytes of padding, an empty one, and one that ends its stream. -/
theorem receive_credit_lost :
    let evs := [.headers 1 true, .data ⟨0, 8, 1, [2, 7, 0, 0]⟩ .refused,
      .data ⟨0, 0, 1, []⟩ .refused,
      .headers 3 true, .data ⟨0, 1, 3, [7]⟩ (.unary none)]
    Along next Served {} evs ∧ recvWindow (run next {} evs) 0 = 65530 ∧
      recvWindow (run next {} evs) 1 = 65532 ∧ closed evs 3 ∧
      updates (run next {} evs).conn.sent = [(1, 1), (1, 0), (3, 1)] := by
  decide +kernel

end WireGrpc
