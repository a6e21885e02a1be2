import Keystone.FileNames
import Keystone.Utf8Text
import Keystone.WireStatus

/-! # COPY there and back

A row is a line of cells between tabs, with control characters and backslashes escaped. The lines of
the client are cut out of the data as it comes; what follows the last line feed is left behind. -/
namespace WireCopy

open ByteCodecs DecimalText ExecutorDml ExecutorValue FileNames GuardedRuns List StorageInternalKey
  Utf8Text WireExtended WireSession WireSessionRbac WireStatus

theorem escapeByte_cases (b : UInt8) :
    (∃ c, escapeByte b = [92, c] ∧ c.toNat < 128 ∧ c ≠ 9 ∧ c ≠ 10 ∧
      ∀ rest, unescape (92 :: c :: rest) = b :: unescape rest) ∨
      escapeByte b = [b] ∧ b ≠ 9 ∧ b ≠ 10 ∧ ∀ rest, unescape (b :: rest) = b :: unescape rest := by
  by_cases htab : b = 9
  · subst htab
    exact .inl ⟨116, by decide, by decide, by decide, by decide, fun rest => rfl⟩
  by_cases hline : b = 10
  · subst hline
    exact .inl ⟨110, by decide, by decide, by decide, by decide, fun rest => rfl⟩
  by_cases hreturn : b = 13
  · subst hreturn
    exact .inl ⟨114, by decide, by decide, by decide, by decide, fun rest => rfl⟩
  by_cases hslash : b = 92
  · subst hslash
    exact .inl ⟨92, by decide, by decide, by decide, by decide, fun rest => rfl⟩
  · refine .inr ⟨by simp [escapeByte, htab, hline, hreturn, hslash], htab, hline, fun rest => ?_⟩
    rw [unescape]
    all_goals simp [hslash]

theorem unescape_escape (data : Bytes) : unescape (data.flatMap escapeByte) = data := by
  induction data with
  | nil => rfl
  | cons b data ih =>
    obtain ⟨c, hc, -, -, -, hun⟩ | ⟨hb, -, -, hun⟩ := escapeByte_cases b
    · simp [hc, hun, ih]
    · simp [hb, hun, ih]

def encodeCopyCell : Cell → Bytes
  | none => utf8 "\\N"
  | some data => data.flatMap escapeByte

theorem decode_encodeCopyCell : decodeCopyCell (encodeCopyCell cell) = cell := by
  cases cell with
  | none => rfl
  | some data =>
    have hne : data.flatMap escapeByte ≠ utf8 "\\N" := by
      intro h
      have hdata := unescape_escape data
      rw [h] at hdata
      subst hdata
      exact absurd h (by decide)
    rw [encodeCopyCell, decodeCopyCell, if_neg hne, unescape_escape]

theorem plain_encodeCopyCell : 9 ∉ encodeCopyCell cell ∧ 10 ∉ encodeCopyCell cell := by
  cases cell with
  | none => decide
  | some data =>
    have hplain : ∀ b : UInt8, 9 ∉ escapeByte b ∧ 10 ∉ escapeByte b := by
      intro b
      obtain ⟨c, hc, -, htab, hline, -⟩ | ⟨hb, htab, hline, -⟩ := escapeByte_cases b
      · simp [hc, htab.symm, hline.symm]
      · simp [hb, htab.symm, hline.symm]
    simp only [encodeCopyCell, mem_flatMap, not_exists, not_and]
    exact ⟨fun b _ => (hplain b).1, fun b _ => (hplain b).2⟩

theorem validUtf8_escapeByte (h : b.toNat < 128) : validUtf8 (escapeByte b) = true := by
  obtain ⟨c, hc, hlt, -⟩ | ⟨hb, -⟩ := escapeByte_cases b
  · rw [hc]
    exact validUtf8_append (validUtf8_ascii (by decide)) (validUtf8_ascii hlt)
  · rw [hb]
    exact validUtf8_ascii h

theorem validUtf8_encodeCopyCell (h : ∀ data ∈ cell, validUtf8 data = true) :
    validUtf8 (encodeCopyCell cell) = true := by
  cases cell with
  | none => exact validUtf8_utf8 _
  | some data =>
    obtain ⟨cs, rfl⟩ := validUtf8_iff.mp (h data rfl)
    have hchar : ∀ c : Char, validUtf8 ((String.utf8EncodeChar c).flatMap escapeByte) = true := by
      intro c
      obtain ⟨hlt, heq⟩ | ⟨-, hhigh⟩ := utf8EncodeChar_cases c
      · rw [heq, flatMap_singleton]
        exact validUtf8_escapeByte (by rw [UInt8.toNat_ofNat']; omega)
      · have hsame : (String.utf8EncodeChar c).flatMap escapeByte = String.utf8EncodeChar c := by
          have hb : ∀ b ∈ String.utf8EncodeChar c, escapeByte b = [b] := by
            intro b hb
            have := hhigh b hb
            simp only [escapeByte]
            split_ifs <;> simp_all
          rw [flatMap_congr hb, flatMap_singleton']
        rw [hsame]
        exact validUtf8_iff.mpr ⟨[c], by simp⟩
    simp only [encodeCopyCell, flatMap_assoc]
    clear h
    induction cs with
    | nil => exact validUtf8_utf8 ""
    | cons c cs ih =>
      exact validUtf8_append (hchar c) ih

theorem joinTexts_eq (ts : List Bytes) : joinTexts sep ts = sep.intercalate ts := by
  induction ts using joinTexts.induct with
  | case1 | case2 => simp [joinTexts]
  | case3 t ts hne ih =>
    cases ts with
    | nil => exact absurd rfl (hne ·)
    | cons u ts => simp_all [joinTexts]

theorem joinTexts_of {P : Bytes → Prop} (hnil : P []) (happend : ∀ a b, P a → P b → P (a ++ b))
    (hsep : P sep) (h : ∀ t ∈ ts, P t) : P (joinTexts sep ts) := by
  induction ts using joinTexts.induct with
  | case1 => exact hnil
  | case2 t => exact h t (by simp)
  | case3 t ts _ ih =>
    rw [joinTexts]
    · exact happend _ _ (happend _ _ (h t (by simp)) hsep) (ih fun u hu => h u (by simp [hu]))
    · assumption

def copyCells (line : Bytes) : Row := ((fromUtf8Lossy line).splitOn 9).map decodeCopyCell

theorem cells_round_trip (hne : row ≠ []) (hrow : ∀ data, some data ∈ row → validUtf8 data = true) :
    copyCells (joinTexts [9] (row.map encodeCopyCell)) = row := by
  have hvalid : validUtf8 (joinTexts [9] (row.map encodeCopyCell)) = true := by
    refine joinTexts_of (P := fun t => validUtf8 t = true) (validUtf8_utf8 "")
      (fun _ _ => validUtf8_append)
      (validUtf8_utf8 "\t") fun t ht => ?_
    obtain ⟨cell, hcell, rfl⟩ := mem_map.mp ht
    exact validUtf8_encodeCopyCell fun data hdata => hrow data (hdata ▸ hcell)
  have htabs :
    ∀ t ∈ row.map encodeCopyCell, 9 ∉ t := by simpa using fun cell _ => plain_encodeCopyCell.1
  rw [copyCells, fromUtf8Lossy_valid hvalid, joinTexts_eq,
    splitOn_intercalate 9 htabs (by simpa using hne),
    map_map]
  simp [Function.comp_def, decode_encodeCopyCell]

theorem splitOn_chunk (a b : Bytes) :
    (a ++ b).splitOn 10 = (a.splitOn 10).dropLast ++
      ((a.splitOn 10).getLastD [] ++ b).splitOn 10 := by
  induction a with
  | nil => simp
  | cons x a ih =>
    have hne : a.splitOn 10 ≠ [] := by simp
    have hcons l : (x :: l).splitOn 10 =
        if x = 10 then [] :: l.splitOn 10 else (l.splitOn 10).modifyHead (List.cons x) := by
      simp [List.splitOn, splitOnP_cons_eq_if_modifyHead]
    rw [cons_append, hcons, hcons, ih]
    cases hparts : a.splitOn 10 with
    | nil => exact absurd hparts hne
    | cons l ls =>
      by_cases hx : x = 10
      · simp [hx]
      · cases ls with
        | nil => simp [hx, hcons]
        | cons m ls => simp [hx]

theorem splitOn_lines {last : Bytes} (hlines : ∀ line ∈ lines, 10 ∉ line) (hlast : 10 ∉ last) :
    (lines.flatMap (· ++ [10]) ++ last).splitOn 10 = lines ++ [last] := by
  induction lines with
  | nil =>
    have h : ([10].intercalate [last]).splitOn 10 = [last] :=
      splitOn_intercalate 10 (by simpa using hlast) (by simp)
    simpa using h
  | cons line lines ih =>
    have hline : (line ++ [10]).splitOn 10 = [line, []] := by
      have h : ([10].intercalate [line, []]).splitOn 10 = [line, []] :=
        splitOn_intercalate 10 (by simpa using hlines line (by simp)) (by simp)
      simpa using h
    rw [flatMap_cons, append_assoc, splitOn_chunk, hline]
    simp [ih fun l hl => hlines l (by simp [hl])]

/-- A row without columns comes back as one empty cell. -/
theorem rows_round_trip {rows : List Row} (h : ∀ row ∈ rows, ∀ data, some data ∈ row →
    validUtf8 data = true) :
    (copyLines (rows.flatMap encodeCopyLine)).map copyCells = rows.map fun row =>
      if row = [] then [some []] else row := by
  have hlines : ∀ line ∈ rows.map fun row => joinTexts [9] (row.map encodeCopyCell), 10 ∉ line := by
    simpa using fun row _ => joinTexts_of (P := fun t => 10 ∉ t) (by simp) (by simp +contextual)
      (by decide)
      (by simpa using fun cell _ => plain_encodeCopyCell.2)
  have hsplit := splitOn_lines hlines (not_mem_nil)
  rw [append_nil, flatMap_map] at hsplit
  change (((rows.flatMap fun row => joinTexts [9] (row.map encodeCopyCell) ++ [10]).splitOn
    10).dropLast).map copyCells = _
  rw [hsplit, dropLast_concat, map_map]
  refine map_congr_left fun row hrow => ?_
  by_cases hne : row = []
  · subst hne
    decide
  · simpa [hne] using cells_round_trip hne (h row hrow)

section Serving

variable {F ρ δ : Type} {srv : Server F ρ δ} {c : Copying}

theorem copyAll_append : copyAll srv (ls ++ ms) c w = match copyAll srv ls c w with
      | (none, w) => (none, w)
      | (some c, w) => copyAll srv ms c w := by
  induction ls generalizing c w with
  | nil => rfl
  | cons l ls ih =>
    rw [cons_append, copyAll, copyAll]
    split <;> simp [ih]

theorem copyLine_buf : copyLine srv line { c with buf := buf } w =
      ((copyLine srv line c w).1.map ({ · with buf := buf }), (copyLine srv line c w).2) := by
  simp only [copyLine]
  split
  · rfl
  · split <;> rfl

theorem copyAll_buf (w : World ρ) : copyAll srv lines { c with buf := buf } w =
      ((copyAll srv lines c w).1.map ({ · with buf := buf }), (copyAll srv lines c w).2) := by
  induction lines generalizing c w with
  | nil => rfl
  | cons line lines ih =>
    simp only [copyAll, copyLine_buf]
    rcases copyLine srv line c w with ⟨_ | c', w'⟩
    · rfl
    · exact ih w'

variable {s : Session F ρ δ}

/-- The lines are written, and `last` is left in the buffer. -/
def ingest (srv : Server F ρ δ) (s : Session F ρ δ) (c : Copying) (lines : List Bytes)
    (last : Bytes) :
    Session F ρ δ :=
  match copyAll srv lines c s.world with
  | (none, w) => { s with world := w, mode := .closed }
  | (some c, w) => { s with world := w, mode := .copying { c with buf := last } }

theorem ingest_append (h : copyAll srv lines c s.world = (some c', w)) :
    ingest srv s c (lines ++ more) last =
      ingest srv { s with world := w, mode := .copying { c' with buf := buf } }
        { c' with buf := buf } more last := by
  simp only [ingest, copyAll_append, h, copyAll_buf]
  rcases copyAll srv more c' w with ⟨_ | c', w⟩ <;> rfl

variable [Scalars F]

def receive (srv : Server F ρ δ) (s : Session F ρ δ) (data : Bytes) : Session F ρ δ :=
  (respondTo srv s (.message (.copyData data))).1

theorem receive_copying (hmode : s.mode = .copying c) :
    receive srv s data = ingest srv s c (copyLines (c.buf ++ data))
      (((c.buf ++ data).splitOn 10).getLastD []) := by
  simp only [receive, respondTo, hmode, serveCopy, ingest, copyLines]
  rcases copyAll srv ((c.buf ++ data).splitOn 10).dropLast c s.world with ⟨_ | c', w⟩ <;> rfl

theorem run_receive_closed (h : s.mode = .closed) : run (receive srv) s chunks = s := by
  induction chunks with
  | nil => rfl
  | cons d ds ih => simpa [receive, respondTo, h] using ih

theorem run_receive (hmode : s.mode = .copying c) (hbuf : 10 ∉ c.buf) (chunks : List Bytes) :
    run (receive srv) s chunks = ingest srv s c (copyLines (c.buf ++ chunks.flatten))
      (((c.buf ++ chunks.flatten).splitOn 10).getLastD []) := by
  induction chunks generalizing s c with
  | nil =>
    have hparts : c.buf.splitOn 10 = [c.buf] := splitOn_lines (forall_mem_nil _) hbuf
    simp [copyLines, hparts, ingest, copyAll, ← hmode]
  | cons d ds ih =>
    set rest := ((c.buf ++ d).splitOn 10).getLastD [] with hrest
    have hlast : 10 ∉ rest := by
      have hne : (c.buf ++ d).splitOn 10 ≠ [] := by simp
      rw [hrest, getLastD_eq_getLast?, List.getLast?_eq_some_getLast hne]
      exact not_mem_of_mem_splitOn (getLast_mem hne)
    have hsplit := splitOn_chunk (c.buf ++ d) ds.flatten
    rw [append_assoc, ← hrest] at hsplit
    have hne : (rest ++ ds.flatten).splitOn 10 ≠ [] := by simp
    have hlines : copyLines (c.buf ++ (d ++ ds.flatten)) = copyLines (c.buf ++ d) ++ copyLines
      (rest ++ ds.flatten) := by
      rw [copyLines, hsplit, dropLast_append_of_ne_nil hne]
      rfl
    have hend : ((c.buf ++ (d ++ ds.flatten)).splitOn 10).getLastD [] =
        ((rest ++ ds.flatten).splitOn 10).getLastD [] := by
      simp only [hsplit, getLastD_eq_getLast?, List.getLast?_append_of_ne_nil _ hne]
    rw [run_cons, receive_copying hmode, flatten_cons, hlines, hend]
    rcases hcopy : copyAll srv (copyLines (c.buf ++ d)) c s.world with ⟨_ | c', w⟩
    · simp only [ingest, copyAll_append, hcopy]
      exact run_receive_closed rfl
    · rw [ingest_append hcopy, ← ih rfl hlast, ingest, hcopy]

/-- The data is written line by line however it is cut; `last` is not. -/
theorem rows_and_lines_of_copy {rows : List Row} {lines chunks : List Bytes} {last : Bytes}
    (hrows : ∀ row ∈ rows, ∀ data, some data ∈ row → validUtf8 data = true)
      (hmode : s.mode = .copying c)
    (hbuf : c.buf = []) (hlines : ∀ line ∈ lines, 10 ∉ line) (hlast : 10 ∉ last)
    (hchunks : chunks.flatten = lines.flatMap (· ++ [10]) ++ last) :
    (copyLines (rows.flatMap encodeCopyLine)).map copyCells =
      rows.map (fun row => if row = [] then [some []] else row) ∧
      run (receive srv) s chunks = ingest srv s c lines last ∧
      (respondTo srv (run (receive srv) s chunks) (.message .copyDone)).1.world =
        (copyAll srv lines c s.world).2 := by
  have hrun : run (receive srv) s chunks = ingest srv s c lines last := by
    rw [run_receive hmode (by simp [hbuf]), hbuf, nil_append, copyLines, hchunks,
      splitOn_lines hlines hlast]
    simp
  refine ⟨rows_round_trip hrows, hrun, ?_⟩
  rw [hrun, ingest]
  rcases copyAll srv lines c s.world with ⟨_ | c', w⟩
  · rfl
  · simp only [respondTo, serveCopy, endCopy]
    split <;> rfl

end Serving

def copying : Copying := ⟨"t", .plain "t" ["id"], [0], [], 0, none⟩

theorem rows_and_lines_of_copy_cut_in_line :
    let s := { starting (granted []) with mode := .copying copying }
    let rows := [[some (utf8 "a\t\\N"), none]]
    (copyLines (rows.flatMap encodeCopyLine)).map copyCells =
      rows.map (fun row => if row = [] then [some []] else row) ∧
      run (receive scripts) s [[50], [10, 51]] = ingest scripts s copying [[50]] [51] ∧
      (respondTo scripts (run (receive scripts) s [[50], [10, 51]]) (.message .copyDone)).1.world =
        (copyAll scripts [[50]] copying s.world).2 :=
  rows_and_lines_of_copy (by simpa using validUtf8_utf8 _) rfl rfl (by decide) (by decide) rfl

/-- The line of the row `3` has no line feed after it. -/
theorem last_line_dropped :
    let s := { starting (granted []) with mode := .copying copying }
    let written (data : Bytes) :=
      (respondTo scripts (receive scripts s data) (.message .copyDone)).1.world.commits.length
    written (utf8 "2\n3\n") = 3 ∧ written (utf8 "2\n3") = 2 ∧
      (copyLines (encodeCopyLine [])).map copyCells = [[some []]] := by
  decide

end WireCopy
