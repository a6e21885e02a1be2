import Keystone.ExecutorRowCodecs

/-! # Tables whose columns change

ADD COLUMN puts a cell behind every row, DROP COLUMN takes one out, and the constraints, which are
positions, are moved along. -/
namespace DatabaseAlterTable

open ExecutorEval ExecutorRowCodecs ExecutorSelect ExecutorValue List SqlAst StorageInternalKey

variable {F : Type} [Scalars F]

/-- `cells.remove(idx)` panics behind the end of the row. -/
def removeCell (idx : ℕ) (cells : Row) : Option Row :=
  if idx < cells.length then some (cells.eraseIdx idx) else none

def shift (idx i : ℕ) : ℕ := if idx < i then i - 1 else i

def shiftGroup (idx : ℕ) (group : List ℕ) : List ℕ := (group.filter (· ≠ idx)).map (shift idx)

def addToSchema (schema : TableSchema) (column : ColumnDef) : TableSchema :=
  { schema with columns := schema.columns ++ [column] }

def dropFromSchema (schema : TableSchema) (idx : ℕ) : TableSchema :=
  { schema with
    columns := schema.columns.eraseIdx idx
    pkColumns := shiftGroup idx schema.pkColumns
    uniqueGroups := schema.uniqueGroups.map (shiftGroup idx)
    foreignKeys := (schema.foreignKeys.filter (·.column ≠ idx)).map fun fk =>
      { fk with column := shift idx fk.column } }

def positions (schema : TableSchema) : List ℕ :=
  schema.pkColumns ++ (schema.uniqueGroups.flatten ++ schema.foreignKeys.map ForeignKey.column)

structure Table where
  schema : TableSchema
  rows : Bytes → Option Bytes

def Table.mapRows (t : Table) (schema : TableSchema) (f : Row → Row) : Table :=
  ⟨schema, fun key => (t.rows key).map fun value => encodeRowCells (f (decodeRowCells F value))⟩

def Table.addColumn (F : Type) [Scalars F] (t : Table) (column : ColumnDef) (cell : Cell) : Table :=
  t.mapRows (F := F) (addToSchema t.schema column) (· ++ [cell])

def Table.dropColumn (F : Type) [Scalars F] (t : Table) (idx : ℕ) : Table :=
  t.mapRows (F := F) (dropFromSchema t.schema idx) (·.eraseIdx idx)

def Rewritable (F : Type) [Scalars F] (cell : Cell) : Prop :=
  ∀ data, cell = some data → data.length < 2 ^ 31 ∧ Scalars.jsonbDecode F data = none

def RulesNamed (schema : TableSchema) : Prop :=
  ∀ rule ∈ schema.jsonSchemas, rule.column ∈ schema.columns.map ColumnDef.name

structure Sound (F : Type) [Scalars F] (t : Table) : Prop where
  names : (t.schema.columns.map ColumnDef.name).Nodup
  rules : RulesNamed t.schema
  positions : ∀ i ∈ positions t.schema, i < t.schema.columns.length
  length : ∀ key value, t.rows key = some value →
    (decodeRowCells F value).length = t.schema.columns.length
  cells : ∀ key value, t.rows key = some value → ∀ cell ∈ decodeRowCells F value, Rewritable F cell

def nameAt (schema : TableSchema) (i : ℕ) : Option String := schema.columns[i]?.map ColumnDef.name

structure Kept (F : Type) [Scalars F] (dropped : List String) (t t' : Table) : Prop where
  keys : ∀ key, (t'.rows key).isSome = (t.rows key).isSome
  cells : ∀ name, name ∉ dropped → ∀ i, t.schema.columnIndex name = some i →
    ∃ i', t'.schema.columnIndex name = some i' ∧ ∀ key value value',
      t.rows key = some value → t'.rows key = some value' →
        cellAt (decodeRowCells F value') i' = cellAt (decodeRowCells F value) i
  primary : t'.schema.pkColumns.map (nameAt t'.schema) = t.schema.pkColumns.map (nameAt t.schema)
  unique : t'.schema.uniqueGroups.map (·.map (nameAt t'.schema)) =
    t.schema.uniqueGroups.map (·.map (nameAt t.schema))
  foreign : t'.schema.foreignKeys.map
      (fun fk => (nameAt t'.schema fk.column, fk.refTable, fk.refColumn)) =
    t.schema.foreignKeys.map fun fk => (nameAt t.schema fk.column, fk.refTable, fk.refColumn)
  rules : t'.schema.jsonSchemas = t.schema.jsonSchemas

theorem Kept.refl (t : Table) : Kept F [] t t where
  keys _ := rfl
  cells _ _ i hi := ⟨i, hi, fun _ _ _ h h' => by rw [Option.some.inj (h.symm.trans h')]⟩
  primary := rfl
  unique := rfl
  foreign := rfl
  rules := rfl

variable {dropped : List String}

theorem Kept.weaken (h : Kept F [] t t') : Kept F dropped t t' :=
  ⟨h.keys, fun name _ => h.cells name (by simp), h.primary, h.unique, h.foreign, h.rules⟩

theorem Kept.trans (hab : Kept F dropped a b)
    (hbc : Kept F dropped' b c) : Kept F (dropped ++ dropped') a c where
  keys key := (hbc.keys key).trans (hab.keys key)
  cells name hname i hi := by
    simp only [mem_append, not_or] at hname
    obtain ⟨j, hj, hcells⟩ := hab.cells name hname.1 i hi
    obtain ⟨k, hk, hcells'⟩ := hbc.cells name hname.2 j hj
    refine ⟨k, hk, fun key value value' ha hc => ?_⟩
    obtain ⟨mid, hb⟩ := Option.isSome_iff_exists.mp ((hab.keys key).trans (by simp [ha]))
    rw [hcells' key mid value' hb hc, hcells key value mid ha hb]
  primary := hbc.primary.trans hab.primary
  unique := hbc.unique.trans hab.unique
  foreign := hbc.foreign.trans hab.foreign
  rules := hbc.rules.trans hab.rules

theorem decodeRowCells_encodeRowCells (h : ∀ cell ∈ cells, Rewritable F cell) :
    decodeRowCells F (encodeRowCells cells) = cells := by
  have hshort (data : Bytes) hdata : data.length < 2 ^ 31 := (h _ hdata data rfl).1
  rw [decodeRowCells, encodeRowCells, parseCells_encodeCells hshort (length_le_encodeCells cells)]
  refine (map_congr_left fun cell hcell => ?_).trans (map_id cells)
  cases cell with
  | none => rfl
  | some data => simp [(h _ hcell data rfl).2]

section Rewriting

variable {t : Table} (sound : Sound F t) {schema : TableSchema} {f : Row → Row}
  (hf : ∀ cells : Row, (∀ cell ∈ cells, Rewritable F cell) → ∀ cell ∈ f cells, Rewritable F cell)

include sound hf

theorem decode_mapRows (h : t.rows key = some value)
    (h' : (t.mapRows (F := F) schema f).rows key = some value') :
    decodeRowCells F value' = f (decodeRowCells F value) := by
  have hvalue : encodeRowCells (f (decodeRowCells F value)) = value' := by
    simpa [Table.mapRows, h] using h'
  rw [← hvalue, decodeRowCells_encodeRowCells (hf _ (sound.cells key value h))]

theorem sound_mapRows (names : (schema.columns.map ColumnDef.name).Nodup)
    (rules : RulesNamed schema)
    (hpositions : ∀ i ∈ positions schema, i < schema.columns.length)
    (length : ∀ cells : Row, cells.length = t.schema.columns.length →
      (f cells).length = schema.columns.length) :
    Sound F (t.mapRows (F := F) schema f) := by
  have hrow (key value') (h' : (t.mapRows (F := F) schema f).rows key = some value') :
      ∃ value, t.rows key = some value ∧ decodeRowCells F value' = f (decodeRowCells F value) := by
    obtain ⟨value, hvalue, _⟩ := Option.map_eq_some_iff.mp h'
    exact ⟨value, hvalue, decode_mapRows sound hf hvalue h'⟩
  refine ⟨names, rules, hpositions, fun key value' h' => ?_, fun key value' h' => ?_⟩
  · obtain ⟨value, hvalue, heq⟩ := hrow key value' h'
    rw [heq]
    exact length _ (sound.length key value hvalue)
  · obtain ⟨value, hvalue, heq⟩ := hrow key value' h'
    rw [heq]
    exact hf _ (sound.cells key value hvalue)

end Rewriting

variable {schema : TableSchema}

theorem kept_mapRows (g : ℕ → ℕ) (sound : Sound F t)
    (hf : ∀ cells : Row, (∀ cell ∈ cells, Rewritable F cell) → ∀ cell ∈ f cells, Rewritable F cell)
    (columns : ∀ name, name ∉ dropped → ∀ i, t.schema.columnIndex name = some i →
      schema.columnIndex name = some (g i) ∧
        ∀ cells : Row, cells.length = t.schema.columns.length → (f cells)[g i]? = cells[i]?)
    (names : ∀ i ∈ positions t.schema, nameAt schema (g i) = nameAt t.schema i)
    (primary : schema.pkColumns = t.schema.pkColumns.map g)
    (unique : schema.uniqueGroups = t.schema.uniqueGroups.map (·.map g))
    (foreign : schema.foreignKeys =
      t.schema.foreignKeys.map fun fk => { fk with column := g fk.column })
    (rules : schema.jsonSchemas = t.schema.jsonSchemas) :
    Kept F dropped t (t.mapRows (F := F) schema f) where
  keys key := by simp [Table.mapRows]
  cells name hname i hi := by
    obtain ⟨hindex, hcells⟩ := columns name hname i hi
    refine ⟨g i, hindex, fun key value value' h h' => ?_⟩
    rw [decode_mapRows sound hf h h', cellAt, cellAt, hcells _ (sound.length key value h)]
  primary := by
    simp only [Table.mapRows, primary, map_map]
    refine map_congr_left fun i hi => names i ?_
    simp [positions, hi]
  unique := by
    simp only [Table.mapRows, unique, map_map]
    refine map_congr_left fun group hgroup => ?_
    simp only [Function.comp_apply, map_map]
    refine map_congr_left fun i hi => names i ?_
    simp only [positions, mem_append, mem_flatten]
    exact .inr (.inl ⟨group, hgroup, hi⟩)
  foreign := by
    simp only [Table.mapRows, foreign, map_map]
    refine map_congr_left fun fk hfk => ?_
    have hposition : fk.column ∈ positions t.schema := by
      simp only [positions, mem_append, mem_map]
      exact .inr (.inr ⟨fk, hfk, rfl⟩)
    simp [names fk.column hposition]
  rules := rules

variable {i : ℕ}

theorem mem_names : name ∈ schema.columns.map ColumnDef.name ↔
    ∃ i, nameAt schema i = some name := by
  simp only [nameAt, ← List.getElem?_map]
  exact List.mem_iff_getElem?

theorem columnIndex_eq_some (names : (schema.columns.map ColumnDef.name).Nodup) :
    schema.columnIndex name = some i ↔ nameAt schema i = some name := by
  rw [TableSchema.columnIndex, List.findIdx?_eq_some_iff_getElem, nameAt]
  constructor
  · rintro ⟨hi, hname, _⟩
    simpa [List.getElem?_eq_getElem hi] using hname
  · intro h
    obtain ⟨c, hc, rfl⟩ := Option.map_eq_some_iff.mp h
    obtain ⟨hi, rfl⟩ := List.getElem?_eq_some_iff.mp hc
    refine ⟨hi, by simp, fun j hj => ?_⟩
    have hne := nodup_iff_getElem?_ne_getElem?.mp names j i hj (by simpa using hi)
    simpa [List.getElem?_eq_getElem hi, List.getElem?_eq_getElem (hj.trans hi)] using hne

section Add

variable {t : Table} {column : ColumnDef} {cell : Cell} (sound : Sound F t)
  (hnew : column.name ∉ t.schema.columns.map ColumnDef.name) (hcell : Rewritable F cell)

theorem rewritable_append (hcell : Rewritable F cell) (cells : Row)
    (h : ∀ c ∈ cells, Rewritable F c) : ∀ c ∈ cells ++ [cell], Rewritable F c := by
  simp only [forall_mem_append, forall_mem_singleton]
  exact ⟨h, hcell⟩

variable {schema : TableSchema}

theorem nameAt_addToSchema (hi : i < schema.columns.length) :
    nameAt (addToSchema schema column) i = nameAt schema i := by
  simp [nameAt, addToSchema, List.getElem?_append_left hi]

theorem nodup_addToSchema (names : (schema.columns.map ColumnDef.name).Nodup)
    (hnew : column.name ∉ schema.columns.map ColumnDef.name) :
    ((addToSchema schema column).columns.map ColumnDef.name).Nodup := by
  simpa [addToSchema, nodup_append, names] using hnew

theorem lt_of_nameAt (h : nameAt schema i = some name) : i < schema.columns.length := by
  obtain ⟨c, hc, _⟩ := Option.map_eq_some_iff.mp h
  exact (List.getElem?_eq_some_iff.mp hc).1

include sound hnew hcell

theorem sound_addColumn : Sound F (t.addColumn F column cell) := by
  refine sound_mapRows sound (rewritable_append hcell) ?_ (fun rule hrule => ?_) (fun i hi => ?_)
    fun cells hcells => by simp [addToSchema, hcells]
  · exact nodup_addToSchema sound.names hnew
  · have hnamed := sound.rules rule hrule
    simp only [addToSchema, map_append, mem_append]
    exact .inl hnamed
  · have hlt := sound.positions i hi
    simp only [addToSchema, length_append]
    omega

theorem kept_addColumn : Kept F [] t (t.addColumn F column cell) := by
  refine kept_mapRows id sound (rewritable_append hcell) (fun name _ i hi => ?_) (fun i hi => ?_)
    ?_ ?_ ?_ rfl
  · have hname := (columnIndex_eq_some sound.names).mp hi
    have hlt := lt_of_nameAt hname
    refine ⟨(columnIndex_eq_some (nodup_addToSchema sound.names hnew)).mpr ?_,
      fun cells hcells => ?_⟩
    · rw [id, nameAt_addToSchema hlt, hname]
    · exact List.getElem?_append_left (hcells ▸ hlt)
  · exact nameAt_addToSchema (sound.positions i hi)
  · simp [addToSchema]
  · simp [addToSchema]
  · simp [addToSchema]

end Add

section Drop

variable {idx : ℕ}

theorem getElem?_eraseIdx_shift (l : List α) (h : i ≠ idx) :
    (l.eraseIdx idx)[shift idx i]? = l[i]? := by
  rw [List.getElem?_eraseIdx, shift]
  split_ifs with hlt hlt' hlt'
  · omega
  · congr 1
    omega
  · rfl
  · omega

theorem nameAt_dropFromSchema (h : i ≠ idx) :
    nameAt (dropFromSchema schema idx) (shift idx i) = nameAt schema i :=
  congrArg (Option.map ColumnDef.name) (getElem?_eraseIdx_shift schema.columns h)

theorem nodup_dropFromSchema (names : (schema.columns.map ColumnDef.name).Nodup) :
    ((dropFromSchema schema idx).columns.map ColumnDef.name).Nodup :=
  names.sublist ((eraseIdx_sublist schema.columns idx).map ColumnDef.name)

/-- The other names are still there. -/
theorem mem_names_dropFromSchema (hidx : nameAt schema idx = some column)
    (hname : name ∈ schema.columns.map ColumnDef.name) (hne : name ≠ column) :
    name ∈ (dropFromSchema schema idx).columns.map ColumnDef.name := by
  obtain ⟨i, hi⟩ := mem_names.mp hname
  have hother : i ≠ idx := by
    rintro rfl
    exact hne (Option.some.inj (hi.symm.trans hidx))
  exact mem_names.mpr ⟨shift idx i, (nameAt_dropFromSchema hother).trans hi⟩

theorem shiftGroup_eq (h : idx ∉ group) : shiftGroup idx group = group.map (shift idx) := by
  have hall : ∀ i ∈ group, decide (i ≠ idx) = true := fun i hi =>
    decide_eq_true fun heq => h (heq ▸ hi)
  rw [shiftGroup, filter_eq_self.mpr hall]

variable {t : Table} {column : String} {idx : ℕ} (sound : Sound F t)
  (hidx : t.schema.columnIndex column = some idx) (hfree : idx ∉ positions t.schema)
  (hrules : ∀ rule ∈ t.schema.jsonSchemas, rule.column ≠ column)

theorem rewritable_eraseIdx (cells : Row) (h : ∀ c ∈ cells, Rewritable F c) :
    ∀ c ∈ cells.eraseIdx idx, Rewritable F c :=
  fun c hc => h c (mem_of_mem_eraseIdx hc)

omit [Scalars F] in
include hfree in
theorem dropFromSchema_free :
    (dropFromSchema t.schema idx).pkColumns = t.schema.pkColumns.map (shift idx) ∧
    (dropFromSchema t.schema idx).uniqueGroups = t.schema.uniqueGroups.map (·.map (shift idx)) ∧
    (dropFromSchema t.schema idx).foreignKeys =
      t.schema.foreignKeys.map fun fk => { fk with column := shift idx fk.column } := by
  simp only [positions, mem_append, mem_flatten, mem_map, not_or, not_exists, not_and] at hfree
  obtain ⟨hpk, hunique, hforeign⟩ := hfree
  refine ⟨shiftGroup_eq hpk, ?_, ?_⟩
  · exact map_congr_left fun group hgroup => shiftGroup_eq (hunique group hgroup)
  · have hall : ∀ fk ∈ t.schema.foreignKeys, decide (fk.column ≠ idx) = true := fun fk hfk =>
      decide_eq_true (hforeign fk hfk)
    simp only [dropFromSchema, filter_eq_self.mpr hall]

include sound hidx hfree

include hrules in
theorem sound_dropColumn : Sound F (t.dropColumn F idx) := by
  have hname := (columnIndex_eq_some sound.names).mp hidx
  have hlt := lt_of_nameAt hname
  refine sound_mapRows sound rewritable_eraseIdx (nodup_dropFromSchema sound.names)
    (fun rule hrule => ?_) (fun i hi => ?_) fun cells hcells => ?_
  · exact mem_names_dropFromSchema hname (sound.rules rule hrule) (hrules rule hrule)
  · obtain ⟨hprimary, hunique, hforeign⟩ := dropFromSchema_free hfree
    rw [show positions (dropFromSchema t.schema idx) = (positions t.schema).map (shift idx) by
      simp [positions, hprimary, hunique, hforeign]] at hi
    obtain ⟨j, hj, rfl⟩ := mem_map.mp hi
    have hj' := sound.positions j hj
    have hne : j ≠ idx := fun heq => hfree (heq ▸ hj)
    simp only [dropFromSchema, length_eraseIdx, shift]
    split_ifs <;> omega
  · simp only [dropFromSchema, length_eraseIdx, hcells]

theorem kept_dropColumn : Kept F [column] t (t.dropColumn F idx) := by
  obtain ⟨hprimary, hunique, hforeign⟩ := dropFromSchema_free hfree
  refine kept_mapRows (shift idx) sound rewritable_eraseIdx (fun name hname i hi => ?_)
    (fun i hi => nameAt_dropFromSchema fun heq => hfree (heq ▸ hi)) hprimary hunique hforeign rfl
  have hother : i ≠ idx := by
    rintro rfl
    have heq := ((columnIndex_eq_some sound.names).mp hi).symm.trans
      ((columnIndex_eq_some sound.names).mp hidx)
    exact hname (by simp [Option.some.inj heq])
  refine ⟨(columnIndex_eq_some (nodup_dropFromSchema sound.names)).mpr ?_,
    fun cells _ => getElem?_eraseIdx_shift cells hother⟩
  rw [nameAt_dropFromSchema hother, (columnIndex_eq_some sound.names).mp hi]

end Drop

section Same

variable {t : Table} {schema : TableSchema} (hcolumns : schema.columns.map ColumnDef.name =
  t.schema.columns.map ColumnDef.name) (hpositions : positions schema = positions t.schema)

include hcolumns

include hpositions in
theorem sound_same (rules : schema.jsonSchemas = t.schema.jsonSchemas) (sound : Sound F t) :
    Sound F ⟨schema, t.rows⟩ := by
  have hlength : schema.columns.length = t.schema.columns.length := by
    simpa using congrArg List.length hcolumns
  refine ⟨hcolumns ▸ sound.names, ?_, ?_, ?_, sound.cells⟩
  · unfold RulesNamed
    rw [rules, hcolumns]
    exact sound.rules
  · rw [hpositions, hlength]
    exact sound.positions
  · rw [hlength]
    exact sound.length

theorem kept_same (sound : Sound F t) (primary : schema.pkColumns = t.schema.pkColumns)
    (unique : schema.uniqueGroups = t.schema.uniqueGroups)
    (foreign : schema.foreignKeys = t.schema.foreignKeys)
    (rules : schema.jsonSchemas = t.schema.jsonSchemas) : Kept F [] t ⟨schema, t.rows⟩ := by
  have hnames : nameAt schema = nameAt t.schema := by
    funext i
    simp only [nameAt, ← List.getElem?_map, hcolumns]
  refine ⟨fun _ => rfl, fun name _ i hi => ⟨i, ?_, fun _ _ _ h h' => ?_⟩, ?_, ?_, ?_, rules⟩
  · rw [columnIndex_eq_some (hcolumns ▸ sound.names), hnames]
    exact (columnIndex_eq_some sound.names).mp hi
  · rw [Option.some.inj (h.symm.trans h')]
  · rw [primary, hnames]
  · rw [unique, hnames]
  · rw [foreign, hnames]

end Same

end DatabaseAlterTable
