import Keystone.DatabaseTxnState
import Keystone.DecimalText
import Keystone.FileNames

/-! # The files of the indexes

An index is a file in one directory, named after its table and its column with an underscore in
between. Opening the database takes the names apart again, at the first underscore, and `DROP TABLE`
looks for its files the same way. -/
namespace DatabaseIndexFiles

open DatabaseTxnReads DatabaseWrites DecimalText FileNames List OrderedMaps StorageInternalKey

inductive Kind where
  | btree | geo | ts | graph | jsonpath | fts | vec | ivfpq
  deriving DecidableEq

/-- B-trees have none. -/
def Kind.extension : Kind → Option Bytes
  | .btree => none
  | .geo => some (utf8 "geo")
  | .ts => some (utf8 "ts")
  | .graph => some (utf8 "graph")
  | .jsonpath => some (utf8 "jsonpath")
  | .fts => some (utf8 "fts")
  | .vec => some (utf8 "vec")
  | .ivfpq => some (utf8 "ivfpq")

/-- Whatever has no other known extension is opened as a B-tree. -/
def Kind.ofExtension (ext : Option Bytes) : Kind :=
  ([.geo, .ts, .graph, .jsonpath, .fts, .vec, .ivfpq].find? fun k => k.extension = ext).getD .btree

/-- Kinds whose file is written when the index is opened for the first time; the others wait for a
row. -/
def Kind.eager : Kind → Bool
  | .geo | .ts | .graph | .vec => true
  | .btree | .jsonpath | .fts | .ivfpq => false

def underscore : UInt8 := 95
def dot : UInt8 := 46
def slash : UInt8 := 47

structure IndexId where
  kind : Kind
  table : Bytes
  column : Bytes
  deriving DecidableEq

def stem (table column : Bytes) : Bytes := table ++ underscore :: column

def withExtension (name : Bytes) : Option Bytes → Bytes
  | none => name
  | some ext => name ++ dot :: ext

def IndexId.fileName (id : IndexId) : Bytes :=
  withExtension (stem id.table id.column) id.kind.extension

def fileStem (name : Bytes) : Bytes := (stemAndExtension dot name).1

def fileExtension (name : Bytes) : Option Bytes := (stemAndExtension dot name).2

def IndexId.ofFile (name : Bytes) : Option IndexId :=
  (splitOnce underscore (fileStem name)).map fun p => ⟨.ofExtension (fileExtension name), p.1, p.2⟩

/-- What a file was made for: an index, or the name that a user gave to the index of a column. -/
inductive Owner where
  | index (id : IndexId)
  | name (table column : Bytes)
  deriving DecidableEq

/-- `tables` has the columns of each table, `attached` the file behind each index in memory. -/
structure State where
  tables : Bytes → Option (List Bytes)
  rows : OrderedMap Bytes Bytes
  files : List (Bytes × Owner)
  attached : List (IndexId × Bytes)

def State.empty : State := ⟨fun _ => none, .empty, [], []⟩

def hasFile (files : List (Bytes × Owner)) (path : Bytes) : Bool := files.any (·.1 = path)

def touch (path : Bytes) (owner : Owner) (files : List (Bytes × Owner)) : List (Bytes × Owner) :=
  if hasFile files path then files else files ++ [(path, owner)]

def attach (id : IndexId) (path : Bytes) (attached : List (IndexId × Bytes)) :
    List (IndexId × Bytes) :=
  (id, path) :: attached.filter (·.1 ≠ id)

/-- `others` are the further columns that a time or graph index names. -/
inductive Event where
  | createTable (table : Bytes) (columns : List Bytes)
  | dropTable (table : Bytes)
  | createIndex (id : IndexId) (others : List Bytes)
  | nameIndex (table column : Bytes)
  | dropIndex (table column : Bytes)
  | write (table key value : Bytes)
  | delete (table key : Bytes)
  | reopen (listing : List (Bytes × Owner))
  deriving DecidableEq

section Steps

-- whether a row with this value is put into an index of that kind on the column at that place
variable (picks : Kind → ℕ → Bytes → Bool)

def State.rowsOf (s : State) (table : Bytes) : List (Bytes × Bytes) :=
  s.rows.entries.filter fun e => (makePrefix table).isPrefixOf e.1

/-- The eager kinds write their file before the table is looked up. -/
def createIndex (id : IndexId) (others : List Bytes) (s : State) : State :=
  let opened := if id.kind.eager then touch id.fileName (.index id) s.files else s.files
  match s.tables id.table with
  | none => { s with files := opened }
  | some columns =>
    match columns.findIdx? (· = id.column) with
    | none => { s with files := opened }
    | some pos =>
      if others.all (· ∈ columns) then
        let picked := (s.rowsOf id.table).any fun e => picks id.kind pos e.2
        if id.kind = .ivfpq ∧ picked = false then s
        else { s with
          files := if picked then touch id.fileName (.index id) opened else opened
          attached := attach id id.fileName s.attached }
      else { s with files := opened }

def ofTable (table : Bytes) (file : Bytes × Owner) : Bool :=
  match splitOnce underscore (fileStem file.1) with
  | some (found, _) => found = table
  | none => false

def dropTable (table : Bytes) (s : State) : State :=
  match s.tables table with
  | none => s
  | some _ =>
    { tables := Function.update s.tables table none
      rows := s.rows.filterKeys fun key => !(makePrefix table).isPrefixOf key
      files := s.files.filter fun f => !ofTable table f
      attached := s.attached.filter fun e => e.1.table ≠ table }

def dropIndex (table column : Bytes) (s : State) : State :=
  if s.attached.any fun e => e.1.table = table ∧ e.1.column = column then
    { s with
      files := s.files.filter fun f => fileStem f.1 ≠ stem table column
      attached := s.attached.filter fun e => ¬ (e.1.table = table ∧ e.1.column = column) }
  else s

def maintain (s : State) (table value : Bytes) (files : List (Bytes × Owner))
    (e : IndexId × Bytes) : List (Bytes × Owner) :=
  if e.1.table = table then
    match (s.tables table).bind fun columns => columns.findIdx? (· = e.1.column) with
    | some pos => if picks e.1.kind pos value then touch e.2 (.index e.1) files else files
    | none => files
  else files

def openFile (attached : List (IndexId × Bytes)) (f : Bytes × Owner) : List (IndexId × Bytes) :=
  match IndexId.ofFile f.1 with
  | some id => attach id f.1 attached
  | none => attached

def openIndexes (listing : List (Bytes × Owner)) : List (IndexId × Bytes) :=
  listing.foldl openFile []

def step (s : State) : Event → State
  | .createTable table columns =>
    if (s.tables table).isSome then s
    else { s with tables := Function.update s.tables table (some columns) }
  | .dropTable table => dropTable table s
  | .createIndex id others => createIndex picks id others s
  | .nameIndex table column =>
    { s with files := touch (stem table column ++ utf8 ".name") (.name table column) s.files }
  | .dropIndex table column => dropIndex table column s
  | .write table key value =>
    { s with
      rows := s.rows.insert (makeKey table key) value
      files := s.attached.foldl (maintain picks s table value) s.files }
  | .delete table key => { s with rows := s.rows.erase (makeKey table key) }
  | .reopen listing =>
    -- the directory is listed in any order
    if listing.Perm s.files then { s with attached := openIndexes listing } else s

def run (events : List Event) : State := GuardedRuns.run (step picks) .empty events

end Steps

/-- No separator of file names, paths or keys. -/
def PlainTable (table : Bytes) : Prop := underscore ∉ table ∧ dot ∉ table ∧
    slash ∉ table ∧ 0 ∉ table

def PlainColumn (column : Bytes) : Prop := dot ∉ column ∧ slash ∉ column ∧ 0 ∉ column

def IndexId.Plain (id : IndexId) : Prop := PlainTable id.table ∧ PlainColumn id.column

theorem splitOnce_stem (h : PlainTable table) (column : Bytes) :
    splitOnce underscore (stem table column) = some (table, column) :=
  splitOnce_append h.1

theorem stem_inj (h : PlainTable table) (h' : PlainTable table')
    (heq : stem table column = stem table' column') : table = table' ∧ column = column' := by
  have hsplit := splitOnce_stem h column
  rw [heq, splitOnce_stem h' column'] at hsplit
  simpa [eq_comm] using hsplit

variable {id : IndexId}

theorem stemAndExtension_fileName (h : id.Plain) :
    stemAndExtension dot id.fileName = (stem id.table id.column, id.kind.extension) := by
  have hdot : dot ∉ stem id.table id.column := by
    simp only [stem, mem_append, mem_cons, not_or]
    exact ⟨h.1.2.1, by decide, h.2.1⟩
  have hne : stem id.table id.column ≠ [] := by simp [stem]
  have hext : ∀ ext, id.kind.extension = some ext → dot ∉ ext := by
    cases id.kind <;> simp only [Kind.extension] <;> decide
  cases hkind : id.kind.extension with
  | none =>
    rw [IndexId.fileName, hkind]
    exact stemAndExtension_plain hdot
  | some ext =>
    rw [IndexId.fileName, hkind]
    exact stemAndExtension_append hdot hne (hext ext hkind)

theorem ofFile_fileName (h : id.Plain) : IndexId.ofFile id.fileName = some id := by
  rw [IndexId.ofFile, fileStem, fileExtension, stemAndExtension_fileName h, splitOnce_stem h.1,
    show Kind.ofExtension id.kind.extension = id.kind by cases id.kind <;> decide]
  rfl

theorem fileName_inj (h : id.Plain) (h' : id'.Plain) (heq : id.fileName = id'.fileName) :
    id = id' := by
  have hfile := ofFile_fileName h
  rw [heq, ofFile_fileName h'] at hfile
  exact (Option.some.inj hfile).symm

theorem ofTable_fileName (h : id.Plain) : ofTable table (id.fileName, owner) =
    decide (id.table = table) := by
  simp [ofTable, fileStem, stemAndExtension_fileName h, splitOnce_stem h.1]

variable {files : List (Bytes × Owner)} {path : Bytes}

theorem hasFile_iff : hasFile files path = true ↔ ∃ owner, (path, owner) ∈ files := by
  simp [hasFile]

theorem mem_touch :
    f ∈ touch path owner files ↔ f ∈ files ∨ (hasFile files path = false ∧ f = (path, owner)) := by
  unfold touch
  cases hasFile files path <;> simp

theorem hasFile_touch : hasFile (touch path owner files) path = true := by
  unfold touch
  cases hfile : hasFile files path with
  | true => simpa using hfile
  | false => simp [hasFile]

theorem mem_attach : e ∈ attach id path attached ↔ e = (id, path) ∨ e ∈ attached ∧ e.1 ≠ id := by
  simp [attach]

def Made (files : List (Bytes × Owner)) : Prop :=
  ∀ f ∈ files, ∃ id : IndexId, id.Plain ∧ f = (id.fileName, .index id)

theorem mem_openIndexes {listing : List (Bytes × Owner)} (h : Made listing) :
    (id, path) ∈ openIndexes listing ↔ (path, .index id) ∈ listing := by
  suffices hall : ∀ acc : List (IndexId × Bytes), (∀ e ∈ acc, e.2 = e.1.fileName) →
      ((id, path) ∈ listing.foldl openFile acc ↔ (path, .index id) ∈ listing ∨ (id, path) ∈ acc) by
    simpa [openIndexes] using hall [] (by simp)
  induction listing with
  | nil => simp
  | cons f listing ih =>
    intro acc hacc
    obtain ⟨id', hid', rfl⟩ := h f (by simp)
    have hopen : openFile acc (id'.fileName, .index id') = attach id' id'.fileName acc := by
      simp [openFile, ofFile_fileName hid']
    have hacc' : ∀ e ∈ attach id' id'.fileName acc, e.2 = e.1.fileName := by
      intro e he
      rcases mem_attach.mp he with rfl | ⟨he, _⟩
      · rfl
      · exact hacc e he
    rw [foldl_cons, hopen, ih (fun f hf => h f (by simp [hf])) _ hacc']
    simp only [mem_attach, mem_cons, Prod.mk.injEq, Owner.index.injEq]
    constructor
    · rintro (hmem | ⟨rfl, rfl⟩ | ⟨hmem, _⟩)
      · exact .inl (.inr hmem)
      · exact .inl (.inl ⟨rfl, rfl⟩)
      · exact .inr hmem
    · rintro ((⟨rfl, rfl⟩ | hmem) | hmem)
      · exact .inr (.inl ⟨rfl, rfl⟩)
      · exact .inl hmem
      · by_cases heq : id = id'
        · subst heq
          exact .inr (.inl ⟨rfl, hacc _ hmem⟩)
        · exact .inr (.inr ⟨hmem, heq⟩)

def Kind.late : Kind → Bool
  | .btree | .jsonpath | .fts => true
  | .geo | .ts | .graph | .vec | .ivfpq => false

structure Tidy (s : State) : Prop where
  made : Made s.files
  attached : ∀ e ∈ s.attached, e.1.Plain ∧ e.2 = e.1.fileName
  live : ∀ e ∈ s.attached, e.1.kind.late = false → hasFile s.files e.2 = true

def Event.Plain : Event → Prop
  | .createTable table _ => PlainTable table
  | .dropTable table => PlainTable table
  | .createIndex id _ => id.Plain
  | .nameIndex _ _ => False
  | .dropIndex table column => PlainTable table ∧ PlainColumn column
  | .write table _ _ => PlainTable table
  | .delete table _ => PlainTable table
  | .reopen _ => True

section Invariant

variable (picks : Kind → ℕ → Bytes → Bool) {s : State}

theorem Tidy.more (h : Tidy s) (hmade : Made files)
    (hmore : ∀ path, hasFile s.files path = true → hasFile files path = true) :
    Tidy { s with files } :=
  ⟨hmade, h.attached, fun e he hlate => hmore e.2 (h.live e he hlate)⟩

theorem Tidy.filter (h : Tidy s) (hfiles : s'.files = s.files.filter keepFile)
    (hattached : s'.attached = s.attached.filter keepIndex)
    (hkeep : ∀ e ∈ s.attached, e.1.Plain → e.2 = e.1.fileName → keepIndex e = true →
      ∀ owner, keepFile (e.2, owner) = true) : Tidy s' := by
  obtain ⟨tables, rows, files, attached⟩ := s'
  obtain rfl := hfiles
  obtain rfl := hattached
  refine ⟨fun f hf => h.made f (mem_of_mem_filter hf),
    fun e he => h.attached e (mem_of_mem_filter he), ?_⟩
  intro e he hlate
  obtain ⟨hmem, hother⟩ := mem_filter.mp he
  obtain ⟨hplain, hpath⟩ := h.attached e hmem
  obtain ⟨owner, howner⟩ := hasFile_iff.mp (h.live e hmem hlate)
  exact hasFile_iff.mpr ⟨owner, mem_filter.mpr ⟨howner, hkeep e hmem hplain hpath hother owner⟩⟩

theorem tidy_dropTable (h : Tidy s) : Tidy (dropTable table s) := by
  unfold dropTable
  split
  case h_1 => exact h
  case h_2 =>
    refine h.filter rfl rfl fun e _ hplain hpath hother _ => ?_
    rw [hpath, ofTable_fileName hplain]
    simpa using hother

theorem tidy_dropIndex (h : Tidy s) (htable : PlainTable table) :
    Tidy (dropIndex table column s) := by
  unfold dropIndex
  split
  case isFalse => exact h
  case isTrue =>
    refine h.filter rfl rfl fun e _ hplain hpath hother _ => ?_
    have hstem : fileStem e.2 = stem e.1.table e.1.column := by
      rw [hpath, fileStem, stemAndExtension_fileName hplain]
    rw [hstem]
    simp only [decide_eq_true_eq] at hother ⊢
    exact fun heq => hother (stem_inj hplain.1 htable heq)

structure Added (id : IndexId) (files files' : List (Bytes × Owner)) : Prop where
  kept : ∀ f ∈ files, f ∈ files'
  new : ∀ f ∈ files', f ∈ files ∨ f = (id.fileName, .index id)

theorem Added.refl (id : IndexId) (files : List (Bytes × Owner)) : Added id files files :=
  ⟨fun _ hf => hf, fun _ hf => .inl hf⟩

variable {files files' : List (Bytes × Owner)}

theorem added_touch (h : Added id files files') :
    Added id files (touch id.fileName (.index id) files') := by
  refine ⟨fun f hf => mem_touch.mpr (.inl (h.kept f hf)), fun f hf => ?_⟩
  rcases mem_touch.mp hf with hf | ⟨_, rfl⟩
  · exact h.new f hf
  · exact .inr rfl

theorem added_if (h : Added id files files') (b : Bool) :
    Added id files (if b then touch id.fileName (.index id) files' else files') := by
  cases b with
  | true => exact added_touch h
  | false => exact h

variable {id : IndexId}

theorem Added.hasFile (h : Added id files files') (hpath : hasFile files path = true) :
    DatabaseIndexFiles.hasFile files' path = true := by
  obtain ⟨owner, howner⟩ := hasFile_iff.mp hpath
  exact hasFile_iff.mpr ⟨owner, h.kept _ howner⟩

theorem Added.made (h : Added id files files') (hid : id.Plain) (hmade : Made files) :
    Made files' := by
  intro f hf
  rcases h.new f hf with hf | rfl
  · exact hmade f hf
  · exact ⟨id, hid, rfl⟩

theorem createIndex_outcome :
    ∃ files, Added id s.files files ∧ (createIndex picks id others s = { s with files } ∨
      (createIndex picks id others s =
        { s with files, attached := attach id id.fileName s.attached } ∧
        (id.kind.late = false → hasFile files id.fileName = true))) := by
  have hopened := added_if (.refl id s.files) id.kind.eager
  unfold createIndex
  dsimp only
  split
  case h_1 => exact ⟨_, hopened, .inl rfl⟩
  case h_2 columns _ =>
    split
    case h_1 => exact ⟨_, hopened, .inl rfl⟩
    case h_2 pos _ =>
      split
      case isFalse => exact ⟨_, hopened, .inl rfl⟩
      case isTrue =>
        split
        case isTrue => exact ⟨s.files, .refl id s.files, .inl rfl⟩
        case isFalse hpicked =>
          refine ⟨_, added_if hopened _, .inr ⟨rfl, fun hlate => ?_⟩⟩
          split
          case isTrue => exact hasFile_touch
          case isFalse hnone =>
            cases heager : id.kind.eager with
            | true => exact hasFile_touch
            | false =>
              have hkind : id.kind = .ivfpq := by
                revert hlate heager
                cases id.kind <;> simp [Kind.late, Kind.eager]
              exact absurd ⟨hkind, by simpa using hnone⟩ hpicked

theorem tidy_createIndex (h : Tidy s) (hid : id.Plain) : Tidy (createIndex picks id others s) := by
  obtain ⟨files, hadded, heq | ⟨heq, hfile⟩⟩ := createIndex_outcome picks
  · rw [heq]
    exact h.more (hadded.made hid h.made) fun _ => hadded.hasFile
  · rw [heq]
    refine ⟨hadded.made hid h.made, fun e he => ?_, fun e he hlate => ?_⟩
    · rcases mem_attach.mp he with rfl | ⟨he, _⟩
      · exact ⟨hid, rfl⟩
      · exact h.attached e he
    · rcases mem_attach.mp he with rfl | ⟨he, _⟩
      · exact hfile hlate
      · exact hadded.hasFile (h.live e he hlate)

theorem added_maintain (table value : Bytes) (files : List (Bytes × Owner))
    (hpath : e.2 = e.1.fileName) : Added e.1 files (maintain picks s table value files e) := by
  unfold maintain
  split
  case isFalse => exact .refl _ _
  case isTrue =>
    split
    case h_1 pos _ =>
      rw [hpath]
      exact added_if (.refl ..) _
    case h_2 => exact .refl _ _

theorem tidy_maintain (h : Tidy s) (table value : Bytes) {es : List (IndexId × Bytes)}
    (hes : ∀ e ∈ es, e.1.Plain ∧ e.2 = e.1.fileName) :
    Tidy { s with files := es.foldl (maintain picks s table value) s.files } := by
  suffices hall : ∀ files, Made files → Made (es.foldl (maintain picks s table value) files) ∧
      ∀ path, hasFile files path = true →
        hasFile (es.foldl (maintain picks s table value) files) path = true from
    h.more (hall s.files h.made).1 (hall s.files h.made).2
  induction es with
  | nil => exact fun files hmade => ⟨hmade, fun _ hpath => hpath⟩
  | cons e es ih =>
    intro files hmade
    obtain ⟨hplain, hpath⟩ := hes e (by simp)
    have hadded := added_maintain picks (s := s) table value files hpath
    obtain ⟨hmade', hkept⟩ := ih (fun e he => hes e (by simp [he])) _ (hadded.made hplain hmade)
    exact ⟨hmade', fun path hpath => hkept path (hadded.hasFile hpath)⟩

theorem tidy_reopen (h : Tidy s) {listing : List (Bytes × Owner)} (hperm : listing.Perm s.files) :
    Tidy { s with attached := openIndexes listing } := by
  have hmade : Made listing := fun f hf => h.made f (hperm.mem_iff.mp hf)
  have hfile (e : IndexId × Bytes) he : (e.2, .index e.1) ∈ s.files :=
    hperm.mem_iff.mp ((mem_openIndexes hmade).mp he)
  refine ⟨h.made, fun e he => ?_, fun e he _ => hasFile_iff.mpr ⟨_, hfile e he⟩⟩
  obtain ⟨id, hid, heq⟩ := h.made _ (hfile e he)
  simp only [Prod.mk.injEq, Owner.index.injEq] at heq
  obtain ⟨hpath, rfl⟩ := heq
  exact ⟨hid, hpath⟩

theorem tidy_step (h : Tidy s) (plain : event.Plain) : Tidy (step picks s event) := by
  cases event with
  | createTable table columns =>
    simp only [step]
    split
    · exact h
    · exact { h with }
  | dropTable table => exact tidy_dropTable h
  | createIndex id others => exact tidy_createIndex picks h plain
  | nameIndex table column => exact plain.elim
  | dropIndex table column => exact tidy_dropIndex h plain.1
  | write table key value =>
    have htidy := tidy_maintain picks h table value h.attached
    exact { htidy with }
  | delete table key => exact { h with }
  | reopen listing =>
    simp only [step]
    split
    case isTrue hperm => exact tidy_reopen h hperm
    case isFalse => exact h

def Owner.table : Owner → Bytes
  | .index id => id.table
  | .name table _ => table

def Owner.column : Owner → Bytes
  | .index id => id.column
  | .name _ column => column

structure OtherTables (table : Bytes) (s s' : State) : Prop where
  tables : ∀ other, other ≠ table → s'.tables other = s.tables other
  rows : ∀ other key, other ≠ table → 0 ∉ other →
    s'.rows.get? (makeKey other key) = s.rows.get? (makeKey other key)
  files : ∀ f : Bytes × Owner, f.2.table ≠ table → (f ∈ s'.files ↔ f ∈ s.files)
  attached : ∀ e : IndexId × Bytes, e.1.table ≠ table → (e ∈ s'.attached ↔ e ∈ s.attached)

structure OtherColumns (table column : Bytes) (s s' : State) : Prop where
  tables : s'.tables = s.tables
  rows : s'.rows = s.rows
  files : ∀ f : Bytes × Owner, ¬ (f.2.table = table ∧ f.2.column = column) →
    (f ∈ s'.files ↔ f ∈ s.files)
  attached : ∀ e : IndexId × Bytes, ¬ (e.1.table = table ∧ e.1.column = column) →
    (e ∈ s'.attached ↔ e ∈ s.attached)

omit picks in
theorem not_prefix_other (htable : 0 ∉ table) (hother : 0 ∉ other) (hne : other ≠ table) :
    (makePrefix table).isPrefixOf (makeKey other key) = false := by
  rw [Bool.eq_false_iff]
  intro hprefix
  obtain ⟨rest, hrest⟩ := isPrefixOf_iff_prefix.mp hprefix
  rw [← makeKey_eq] at hrest
  exact hne (DatabaseTxnState.makeKey_inj htable hother hrest).1.symm

omit picks in
theorem dropTable_frame (h : Tidy s) (htable : PlainTable table) :
    OtherTables table s (dropTable table s) := by
  unfold dropTable
  split
  case h_1 => exact ⟨fun _ _ => rfl, fun _ _ _ _ => rfl, fun _ _ => .rfl, fun _ _ => .rfl⟩
  case h_2 =>
    refine ⟨fun other hne => Function.update_of_ne hne .., fun other key hne hnul => ?_,
      fun f hf => ?_, fun e he => ?_⟩
    · rw [OrderedMap.get?_filterKeys, not_prefix_other htable.2.2.2 hnul hne]
      rfl
    · refine ⟨mem_of_mem_filter, fun hmem => mem_filter.mpr ⟨hmem, ?_⟩⟩
      obtain ⟨id, hid, rfl⟩ := h.made f hmem
      have hne : id.table ≠ table := hf
      rw [ofTable_fileName hid]
      simp [hne]
    · refine ⟨mem_of_mem_filter, fun hmem => mem_filter.mpr ⟨hmem, by simpa using he⟩⟩

omit picks in
theorem dropIndex_frame (h : Tidy s) (htable : PlainTable table) :
    OtherColumns table column s (dropIndex table column s) := by
  unfold dropIndex
  split
  case isFalse => exact ⟨rfl, rfl, fun _ _ => .rfl, fun _ _ => .rfl⟩
  case isTrue =>
    refine ⟨rfl, rfl, fun f hf => ?_, fun e he => ?_⟩
    · refine ⟨mem_of_mem_filter, fun hmem => mem_filter.mpr ⟨hmem, ?_⟩⟩
      obtain ⟨id, hid, rfl⟩ := h.made f hmem
      rw [fileStem, stemAndExtension_fileName hid, decide_eq_true_eq]
      exact fun heq => hf (stem_inj hid.1 htable heq)
    · exact ⟨mem_of_mem_filter, fun hmem => mem_filter.mpr ⟨hmem, decide_eq_true he⟩⟩

theorem createIndex_frame : OtherColumns id.table id.column s (createIndex picks id others s) := by
  have hfiles {files : List (Bytes × Owner)} (hadded : Added id s.files files) f
      (hf : ¬ (f.2.table = id.table ∧ f.2.column = id.column)) : f ∈ files ↔ f ∈ s.files := by
    refine ⟨fun hmem => (hadded.new f hmem).resolve_right ?_, hadded.kept f⟩
    rintro rfl
    exact hf ⟨rfl, rfl⟩
  obtain ⟨files, hadded, heq | ⟨heq, _⟩⟩ := createIndex_outcome picks
  · rw [heq]
    exact ⟨rfl, rfl, hfiles hadded, fun _ _ => .rfl⟩
  · rw [heq]
    refine ⟨rfl, rfl, hfiles hadded, fun e he => ?_⟩
    have hne : e.1 ≠ id := fun heq => he (by simp [heq])
    have hne' : e ≠ (id, id.fileName) := fun heq => hne (by simp [heq])
    simp [mem_attach, hne, hne']

/-- With plain names, different indexes have different files, what is done to a table or a column
leaves the others alone, and reopening attaches every file to the index it was made for. -/
theorem index_files_apart (events : List Event) (plain : ∀ e ∈ events, e.Plain) :
    let s := run picks events
    (∀ id id' : IndexId, id.Plain → id'.Plain → id.fileName = id'.fileName → id = id') ∧
      (∀ table, PlainTable table → OtherTables table s (step picks s (.dropTable table))) ∧
      (∀ table column, PlainTable table → PlainColumn column →
        OtherColumns table column s (step picks s (.dropIndex table column))) ∧
      (∀ id others, id.Plain →
        OtherColumns id.table id.column s (step picks s (.createIndex id others))) ∧
      ∀ listing : List (Bytes × Owner), listing.Perm s.files →
        (∀ id path, (id, path) ∈ (step picks s (.reopen listing)).attached ↔
          (path, .index id) ∈ s.files) ∧
        ∀ e ∈ s.attached, e.1.kind.late = false ∨ hasFile s.files e.2 = true →
          e ∈ (step picks s (.reopen listing)).attached := by
  intro s
  have htidy : Tidy s := (GuardedRuns.along_of_forall plain).invariant
    (fun _ _ h hplain => tidy_step picks h hplain)
      ⟨by simp [Made, State.empty], by simp [State.empty], by simp [State.empty]⟩
  refine ⟨fun _ _ => fileName_inj, fun _ => dropTable_frame htidy,
    fun _ _ htable _ => dropIndex_frame htidy htable,
    fun id others _ => createIndex_frame picks, fun listing hperm => ?_⟩
  have hmade : Made listing := fun f hf => htidy.made f (hperm.mem_iff.mp hf)
  have hreopened id path :
      (id, path) ∈ (step picks s (.reopen listing)).attached ↔ (path, .index id) ∈ s.files := by
    rw [step, if_pos hperm, mem_openIndexes hmade, hperm.mem_iff]
  refine ⟨hreopened, fun e he hfile => ?_⟩
  obtain ⟨hplain, hpath⟩ := htidy.attached e he
  have hthere : hasFile s.files e.2 = true := hfile.elim (htidy.live e he) id
  obtain ⟨owner, howner⟩ := hasFile_iff.mp hthere
  obtain ⟨id, hid, heq⟩ := htidy.made _ howner
  simp only [Prod.mk.injEq] at heq
  obtain ⟨hname, rfl⟩ := heq
  obtain rfl : e.1 = id := fileName_inj hplain hid (hpath.symm.trans hname)
  exact (hreopened e.1 e.2).mpr howner

end Invariant

def picksAll : Kind → ℕ → Bytes → Bool := fun _ _ value => !value.isEmpty

def createT : List Event := [.createTable (utf8 "t") [utf8 "c"], .write (utf8 "t") [1] [1]]

theorem index_files_apart_plain :
    let s := run picksAll (createT ++ [.createIndex ⟨.btree, utf8 "t", utf8 "c"⟩ []])
    (⟨.btree, utf8 "t", utf8 "c"⟩, utf8 "t_c") ∈ (step picksAll s (.reopen s.files)).attached := by
  intro s
  have plain : ∀ e ∈ createT ++ [.createIndex ⟨.btree, utf8 "t", utf8 "c"⟩ []], e.Plain := by
    have htable : PlainTable (utf8 "t") := by unfold PlainTable; decide
    have hcolumn : PlainColumn (utf8 "c") := by unfold PlainColumn; decide
    simp [createT, Event.Plain, IndexId.Plain, htable, hcolumn]
  obtain ⟨-, -, -, -, hreopen⟩ := index_files_apart picksAll _ plain
  exact (hreopen s.files (.refl _)).2 _ (by decide +kernel) (.inr (by decide +kernel))

/-- The index of `a_b.c` comes back as one of `a.b_c`, and dropping `a` deletes its file; an index
over an empty table is gone after reopening; the name of a spatial index comes back as a B-tree. -/
theorem index_files_confused :
    let ab : IndexId := ⟨.btree, utf8 "a_b", utf8 "c"⟩
    let a : IndexId := ⟨.btree, utf8 "a", utf8 "b_c"⟩
    let s := run picksAll [.createTable (utf8 "a_b") [utf8 "c"],
      .createTable (utf8 "a") [utf8 "b_c"],
      .write (utf8 "a_b") [1] [1], .createIndex ab []]
    let reopened := step picksAll s (.reopen s.files)
    let empty := run picksAll [.createTable (utf8 "t") [utf8 "c"],
      .createIndex ⟨.btree, utf8 "t", utf8 "c"⟩ []]
    let named := run picksAll (createT ++ [.createIndex ⟨.geo, utf8 "t", utf8 "c"⟩ [],
      .nameIndex (utf8 "t") (utf8 "c")])
    ab.fileName = a.fileName ∧ reopened.attached.map Prod.fst = [a] ∧
      s.files.length = 1 ∧ (step picksAll s (.dropTable (utf8 "a"))).files = [] ∧
      empty.attached.length = 1 ∧ (step picksAll empty (.reopen empty.files)).attached = [] ∧
      (step picksAll named (.reopen named.files)).attached.map Prod.fst =
        [⟨.btree, utf8 "t", utf8 "c"⟩, ⟨.geo, utf8 "t", utf8 "c"⟩] := by
  refine ⟨?_, ?_, ?_, ?_, ?_, ?_, ?_⟩ <;> decide +kernel

end DatabaseIndexFiles
