import Keystone.WireSessionRows

/-! # Declared constraints

UNIQUE groups, foreign keys and JSON schemas are checked for every row that INSERT and UPDATE write,
so they hold as long as COPY is not used on tables that have them. NOT NULL and the primary key hold
as long as the statements give values for their columns and UPDATE leaves the key alone. -/
namespace WireSessionConstraints

open EffectPredicates ExecutorDml ExecutorDmlEffects ExecutorEffects ExecutorEval ExecutorSelect
  ExecutorValue FallibleLists List OrderedMaps SqlAst StorageInternalKey WireSession
    WireSessionReads
  WireSessionRows OrderedMap

variable {F ρ : Type}

section Constraints

variable [Scalars F]

def Required (schema : TableSchema) (i : ℕ) : Prop :=
  i ∈ schema.pkColumns ∨ ∃ col, schema.columns[i]? = some col ∧ col.nullable = false

structure TableConstraints (db : WriteDb (M ρ) F Unit) (schema : TableSchema)
    (rows : OrderedMap Bytes Bytes) : Prop where
  key : schema.pkColumns ≠ [] → ∀ kv ∈ rows.entries, kv.1 = pkKey schema.pkColumns (parseRow F kv.2)
  notNull : ∀ kv ∈ rows.entries, ∀ i, Required schema i → cellAt (parseRow F kv.2) i ≠ none
  unique : ∀ group ∈ schema.uniqueGroups, ∀ kv ∈ rows.entries, ∀ kv' ∈ rows.entries,
    (∀ i ∈ group, cellAt (parseRow F kv.2) i ≠ none) →
    (∀ i ∈ group, cellAt (parseRow F kv.2) i = cellAt (parseRow F kv'.2) i) → kv = kv'
  json : ∀ kv ∈ rows.entries, ∀ rule ∈ schema.jsonSchemas,
    jsonRuleError db schema (parseRow F kv.2) rule = none

variable {db : WriteDb (M ρ) F Unit} {schema : TableSchema} {rows : OrderedMap Bytes Bytes}
  {kv : KeyValue}

omit [Scalars F] in
theorem pkKey_congr {cells cells' : Row} (h : ∀ i ∈ pkColumns, cellAt cells i = cellAt cells' i) :
    pkKey pkColumns cells = pkKey pkColumns cells' := by
  unfold pkKey
  split
  · rename_i single
    rw [h single (by simp)]
  · exact flatMap_congr fun i hi => by rw [h i hi]

theorem TableConstraints.primary (h : TableConstraints db schema rows) (hpk : schema.pkColumns ≠ [])
    (hkv : kv ∈ rows.entries) (hkv' : kv' ∈ rows.entries)
    (heq : ∀ i ∈ schema.pkColumns, cellAt (parseRow F kv.2) i = cellAt (parseRow F kv'.2) i) :
    kv = kv' := by
  have hkeys : kv.1 = kv'.1 := by
    rw [h.key hpk kv hkv, h.key hpk kv' hkv', pkKey_congr heq]
  obtain ⟨key, value⟩ := kv
  obtain ⟨key', value'⟩ := kv'
  rw [← OrderedMap.get?_eq_some] at hkv hkv'
  simp_all

/-- Every foreign key that is not NULL had its row when the row was written. -/
def Referenced (F : Type) [Scalars F] (schemas : String → Option TableSchema) : Event → Prop
  | .wrote _ schema _ cells before => ∀ fk ∈ schema.foreignKeys, ∀ val,
      cellAt cells fk.column = some val →
        ∃ ref idx, schemas fk.refTable = some ref ∧ ref.columnIndex fk.refColumn = some idx ∧
          ∃ kv ∈ (before fk.refTable).entries, cellAt (parseRow F kv.2) idx = some val
  | .read _ _ _ _ => True

/-- What may stand in column `i`: NULL only where it is allowed, and bytes that are read back as
they were written. -/
def Fits (F : Type) [Scalars F] (binaryJson : Bool) (schema : TableSchema) (i : ℕ) : Cell → Prop
  | none => ¬ Required schema i
  | some data => Storable F binaryJson schema.columns[i]? data

structure SoundCells (F : Type) [Scalars F] (binaryJson : Bool) (schema : TableSchema)
    (cells : Row) : Prop where
  length : cells.length = schema.columns.length
  fits : ∀ i cell, cells[i]? = some cell → Fits F binaryJson schema i cell

structure SoundRow (F : Type) [Scalars F] (binaryJson : Bool) (schema : TableSchema) (key : Bytes)
    (cells : Row) : Prop extends SoundCells F binaryJson schema cells where
  key : schema.pkColumns ≠ [] → key = pkKey schema.pkColumns cells

/-- A table as CREATE TABLE makes it, if no column of the key is declared NULL; without vectors,
whose text the statements change. -/
structure Declared (name : String) (schema : TableSchema) : Prop where
  name_eq : schema.name = name
  key : ∀ i ∈ schema.pkColumns, ∃ col, schema.columns[i]? = some col ∧ col.nullable = false
  plain : ∀ col ∈ schema.columns, col.colType ≠ .vector

theorem Required.lt (declared : Declared name schema) (h : Required schema i) :
    i < schema.columns.length := by
  obtain hpk | ⟨col, hcol, -⟩ := h
  · obtain ⟨col, hcol, -⟩ := declared.key i hpk
    exact (List.getElem?_eq_some_iff.mp hcol).1
  · exact (List.getElem?_eq_some_iff.mp hcol).1

theorem SoundCells.notNull (h : SoundCells F binaryJson schema cells)
    (declared : Declared name schema) (hi : Required schema i) : cellAt cells i ≠ none := by
  intro hnone
  have hlt : i < cells.length := h.length ▸ hi.lt declared
  obtain ⟨cell, hcell⟩ : ∃ cell, cells[i]? = some cell := ⟨_, getElem?_eq_getElem hlt⟩
  obtain rfl : cell = none := by simpa [cellAt, hcell] using hnone
  exact h.fits i none hcell hi

theorem SoundCells.set (h : SoundCells F binaryJson schema cells)
    (hcell : Fits F binaryJson schema i cell) :
    SoundCells F binaryJson schema (cells.set i cell) := by
  refine ⟨by rw [length_set, h.length], fun j cell' hj => ?_⟩
  rw [getElem?_set] at hj
  split_ifs at hj with hij hlt
  · cases hj
    exact hij ▸ hcell
  · exact h.fits j cell' hj

/-- The rows of a table that the statements keep: what `TableConstraints` says, and that each row is
read back as it was written. -/
structure TableRows (db : WriteDb (M ρ) F Unit) (binaryJson : Bool) (schema : TableSchema)
    (rows : OrderedMap Bytes Bytes) : Prop where
  sound : ∀ kv ∈ rows.entries, SoundRow F binaryJson schema kv.1 (parseRow F kv.2)
  unique : ∀ group ∈ schema.uniqueGroups, ∀ kv ∈ rows.entries, ∀ kv' ∈ rows.entries,
    (∀ i ∈ group, cellAt (parseRow F kv.2) i ≠ none) →
    (∀ i ∈ group, cellAt (parseRow F kv.2) i = cellAt (parseRow F kv'.2) i) → kv = kv'
  json : ∀ kv ∈ rows.entries, ∀ rule ∈ schema.jsonSchemas,
    jsonRuleError db schema (parseRow F kv.2) rule = none

theorem TableRows.constraints (h : TableRows db binaryJson schema rows)
    (declared : Declared name schema) : TableConstraints db schema rows where
  key hpk kv hkv := (h.sound kv hkv).key hpk
  notNull kv hkv _ hi := (h.sound kv hkv).notNull declared hi
  unique := h.unique
  json := h.json

theorem not_violated {rows : List KeyValue}
    (h : violatesGroup F rows cells excludeKey group = false)
    (hkv : kv ∈ rows) (hkey : excludeKey ≠ some kv.1) (hsome : ∀ i ∈ group, cellAt cells i ≠ none) :
    ¬ ∀ i ∈ group, cellAt (parseRow F kv.2) i = cellAt cells i := by
  intro hagree
  have hall : (group.all fun i => (cellAt cells i).isSome) = true := by
    simpa [Option.isSome_iff_ne_none] using hsome
  have hany : (rows.any fun kv => excludeKey ≠ some kv.1 &&
      group.all fun i => cellAt (parseRow F kv.2) i = cellAt cells i) = true := by
    rw [any_eq_true]
    exact ⟨kv, hkv, by simpa [hkey] using hagree⟩
  simp only [violatesGroup, hall, Bool.true_and] at h
  rw [h] at hany
  cases hany

theorem TableRows.insert {key : Bytes} (h : TableRows db binaryJson schema rows)
    (sound : SoundRow F binaryJson schema key cells)
    (hexclude : excludeKey = none ∨ excludeKey = some key)
    (hunique : ∀ group ∈ schema.uniqueGroups,
      violatesGroup F rows.entries cells excludeKey group = false)
    (hjson : ∀ rule ∈ schema.jsonSchemas, jsonRuleError db schema cells rule = none) :
    TableRows db binaryJson schema
      (rows.insert key (buildRowValue F binaryJson schema cells)) := by
  have hparse : parseRow F (buildRowValue F binaryJson schema cells) = cells :=
    parseRow_buildRowValue fun i data hdata => sound.fits i (some data) hdata
  have fresh {group : List ℕ} (hgroup : group ∈ schema.uniqueGroups) {kv : KeyValue}
      (hkv : kv ∈ rows.entries) (hne : kv.1 ≠ key) (hsome : ∀ i ∈ group, cellAt cells i ≠ none) :
      ¬ ∀ i ∈ group, cellAt (parseRow F kv.2) i = cellAt cells i := by
    refine not_violated (hunique group hgroup) hkv ?_ hsome
    rcases hexclude with rfl | rfl
    · nofun
    · simpa using hne.symm
  constructor
  case sound =>
    intro kv hkv
    rcases mem_insert.mp hkv with rfl | ⟨_, hkv⟩
    · simpa only [hparse] using sound
    · exact h.sound kv hkv
  case unique =>
    intro group hgroup kv hkv kv' hkv' hsome hagree
    rcases mem_insert.mp hkv with rfl | ⟨hne, hkv⟩ <;>
      rcases mem_insert.mp hkv' with rfl | ⟨hne', hkv'⟩
    · rfl
    · simp only [hparse] at hsome hagree
      exact absurd (fun i hi => (hagree i hi).symm) (fresh hgroup hkv' hne' hsome)
    · simp only [hparse] at hagree
      have hsome' : ∀ i ∈ group, cellAt cells i ≠ none := fun i hi => hagree i hi ▸ hsome i hi
      exact absurd hagree (fresh hgroup hkv hne hsome')
    · exact h.unique group hgroup kv hkv kv' hkv' hsome hagree
  case json =>
    intro kv hkv rule hrule
    rcases mem_insert.mp hkv with rfl | ⟨_, hkv⟩
    · simpa [hparse] using hjson rule hrule
    · exact h.json kv hkv rule hrule

theorem TableRows.subset (h : TableRows db binaryJson schema rows)
    (hsub : ∀ kv ∈ rows'.entries, kv ∈ rows.entries) : TableRows db binaryJson schema rows' where
  sound kv hkv := h.sound kv (hsub kv hkv)
  unique group hgroup kv hkv kv' hkv' := h.unique group hgroup kv (hsub kv hkv) kv' (hsub kv' hkv')
  json kv hkv := h.json kv (hsub kv hkv)

theorem mem_of_mem_erase (h : kv ∈ (rows.erase key).entries) : kv ∈ rows.entries := by
  rw [← OrderedMap.get?_eq_some, OrderedMap.get?_erase] at h
  split at h
  · cases h
  · exact OrderedMap.get?_eq_some.mp h

end Constraints

section Values

variable [Scalars F] {env : EvalEnv (M ρ) F} {binaryJson : Bool} {schema : TableSchema}
  {ctx : RowContext F} {w w' : World ρ}

/-- Expressions are evaluated over the tables of the session. -/
abbrev sessionEnv (binaryJson : Bool) (rest : WriteDb (M ρ) F Unit) (depth : ℕ) : EvalEnv (M ρ) F :=
  evalEnv (sessionDb binaryJson rest).toDb (executeSelect (sessionDb binaryJson rest).toDb depth)

theorem run_mapM {f : α → M ρ β} (h : (xs.mapM f).run.run w = (.ok ys, w')) :
    Forall₂ (fun x y => ∃ v v', (f x).run.run v = (.ok y, v')) xs ys := by
  induction xs generalizing w ys with
  | nil =>
    cases h
    exact .nil
  | cons x xs ih =>
    rw [mapM_cons] at h
    obtain ⟨y, w₁, hy, h⟩ := run_bind_eq_ok.mp h
    obtain ⟨more, w₂, hmore, h⟩ := run_bind_eq_ok.mp h
    cases h
    exact .cons ⟨w, w₁, hy⟩ (ih hmore)

/-- In every state the expression fails or gives what may stand in column `i`. -/
def Gives (env : EvalEnv (M ρ) F) (binaryJson : Bool) (schema : TableSchema) (ctx : RowContext F)
    (i : ℕ) (e : Expr F) : Prop :=
  ∀ w v w', (eval env ctx e).run.run w = (.ok v, w') → Fits F binaryJson schema i v.toWireBytes

/-- The columns that a row of VALUES fills. -/
def filled (schema : TableSchema) (columns : List String) (values : List (Expr F)) :
    List (Option ℕ × Expr F) :=
  if columns.isEmpty then values.zipIdx.map fun p => (some p.2, p.1)
  else (columns.zip values).map fun p => (schema.columnIndex p.1, p.2)

structure GivesRow (db : WriteDb (M ρ) F Unit) (env : EvalEnv (M ρ) F) (binaryJson : Bool)
    (schema : TableSchema) (ctx : RowContext F) (columns : List String)
    (values : List (Expr F)) : Prop where
  given : ∀ i e, (some i, e) ∈ filled schema columns values → Gives env binaryJson schema ctx i e
  default : ∀ i col text e, schema.columns[i]? = some col → col.default = some text →
    db.parseExprText text = .ok e → Gives env binaryJson schema ctx i e

structure SlotsFit (F : Type) [Scalars F] (binaryJson : Bool) (schema : TableSchema)
    (slots : List (Option Cell)) : Prop where
  length : slots.length = schema.columns.length
  fits : ∀ i cell, slots[i]? = some (some cell) → Fits F binaryJson schema i cell

theorem SlotsFit.set (h : SlotsFit F binaryJson schema slots)
    (hcell : Fits F binaryJson schema i cell) :
    SlotsFit F binaryJson schema (slots.set i (some cell)) := by
  refine ⟨by rw [length_set, h.length], fun j cell' hj => ?_⟩
  rw [getElem?_set] at hj
  split_ifs at hj with hij hlt
  · cases hj
    exact hij ▸ hcell
  · exact h.fits j cell' hj

theorem provideCells_fit
    (h : ∀ p ∈ pairs, ∀ i, schema.columnIndex p.1 = some i → Gives env binaryJson schema ctx i p.2)
    (hslots : SlotsFit F binaryJson schema slots)
    (hrun : (provideCells env ctx schema pairs slots).run.run w = (.ok slots', w')) :
    SlotsFit F binaryJson schema slots' := by
  induction pairs generalizing slots w with
  | nil =>
    cases hrun
    exact hslots
  | cons p pairs ih =>
    unfold provideCells at hrun
    cases hidx : schema.columnIndex p.1 with
    | none =>
      rw [hidx] at hrun
      cases hrun
    | some i =>
      rw [hidx] at hrun
      obtain ⟨v, w₁, hv, hrun⟩ := run_bind_eq_ok.mp hrun
      exact ih (fun q hq => h q (mem_cons_of_mem _ hq))
        (hslots.set (h p mem_cons_self i hidx w v w₁ hv)) hrun

theorem insertSlots_fit
    (h : ∀ i e, (some i, e) ∈ filled schema columns values → Gives env binaryJson schema ctx i e)
    (hrun : (insertSlots env ctx schema columns values).run.run w = (.ok slots, w')) :
    SlotsFit F binaryJson schema slots := by
  unfold insertSlots at hrun
  split at hrun
  · rename_i hcolumns
    split at hrun
    · cases hrun
    · rename_i hlength
      have hall := run_mapM hrun
      refine ⟨hall.length_eq.symm.trans (not_not.mp hlength), fun i cell hi => ?_⟩
      obtain ⟨-, hnone⟩ | ⟨e, slot, he, hslot, v, v', hrun⟩ := forall₂_getElem? hall i
      · simp [hnone] at hi
      · obtain rfl : some cell = slot := Option.some.inj (hi.symm.trans hslot)
        obtain ⟨x, v₁, hx, hrun⟩ := run_bind_eq_ok.mp hrun
        cases hrun
        refine h i e ?_ v x _ hx
        rw [filled, if_pos hcolumns]
        exact mem_map.mpr ⟨(e, i), mem_zipIdx_iff_getElem?.mpr he, rfl⟩
  · rename_i hcolumns
    split at hrun
    · cases hrun
    · refine provideCells_fit (fun p hp i hi => h i p.2 ?_) ⟨length_replicate, ?_⟩ hrun
      · rw [filled, if_neg hcolumns]
        exact mem_map.mpr ⟨p, hp, by rw [hi]⟩
      · intro i cell hi
        simp [getElem?_replicate] at hi

omit [Scalars F] in
theorem normalizeVectorCells_eq (db : WriteDb (M ρ) F Unit) (declared : Declared name schema)
    (cells : Row) : normalizeVectorCells db schema cells = cells := by
  have hplain (i : ℕ) : schema.columns[i]?.any (·.colType = .vector) = false := by
    cases hcol : schema.columns[i]? with
    | none => rfl
    | some col => simpa using declared.plain col (mem_of_getElem? hcol)
  simp only [normalizeVectorCells, hplain, Bool.false_eq_true, if_false]
  exact zipIdx_map_fst 0 cells

theorem fillCell_fits {db : WriteDb (M ρ) F Unit} (declared : Declared name schema)
    (h : GivesRow db env binaryJson schema ctx columns values)
    (hcol : schema.columns[i]? = some col)
    (hslot : ∀ cell, slot = some cell → Fits F binaryJson schema i cell)
    (hrun : (fillCell db env ctx (col, slot)).run.run w = (.ok cell, w')) :
    Fits F binaryJson schema i cell := by
  cases slot with
  | some given =>
    cases hrun
    exact hslot _ rfl
  | none =>
    cases hdefault : col.default with
    | none =>
      simp only [fillCell, hdefault] at hrun
      split at hrun
      · rename_i hnullable
        cases hrun
        rintro (hpk | ⟨col', hcol', hrequired⟩)
        · obtain ⟨col', hcol', hrequired⟩ := declared.key i hpk
          simp_all
        · simp_all
      · cases hrun
    | some text =>
      cases hparse : db.parseExprText text with
      | error e =>
        simp only [fillCell, hdefault, hparse] at hrun
        cases hrun
      | ok e =>
        simp only [fillCell, hdefault, hparse] at hrun
        obtain ⟨v, w₁, hv, hrun⟩ := run_bind_eq_ok.mp hrun
        cases hrun
        exact h.default i col text e hcol hdefault hparse w v _ hv

/-- NULL stands in a NOT NULL column only if VALUES or a default say so. -/
theorem resolveInsertRow_sound {db : WriteDb (M ρ) F Unit} (declared : Declared name schema)
    (h : GivesRow db env binaryJson schema { RowContext.empty with params } columns values)
    (hrun : (resolveInsertRow db env schema columns values params).run.run w = (.ok cells, w')) :
    SoundCells F binaryJson schema cells := by
  obtain ⟨slots, w₁, hslots, hrun⟩ := run_bind_eq_ok.mp hrun
  obtain ⟨row, w₂, hrow, hrun⟩ := run_bind_eq_ok.mp hrun
  cases hrun
  rw [normalizeVectorCells_eq db declared]
  have hfit := insertSlots_fit h.given hslots
  have hall := run_mapM hrow
  refine ⟨?_, fun i cell hi => ?_⟩
  · rw [← hall.length_eq, length_zip, hfit.length, min_self]
  · obtain ⟨-, hnone⟩ | ⟨p, cell', hp, hcell, v, v', hfill⟩ := forall₂_getElem? hall i
    · simp [hnone] at hi
    · obtain rfl : cell = cell' := Option.some.inj (hi.symm.trans hcell)
      obtain ⟨hcol, hslot⟩ := getElem?_zip_eq_some.mp hp
      refine fillCell_fits declared h hcol (fun given hgiven => ?_) hfill
      exact hfit.fits i given (hgiven ▸ hslot)

/-- An assignment of UPDATE that leaves the key alone. -/
def GivesCell (env : EvalEnv (M ρ) F) (binaryJson : Bool) (schema : TableSchema)
    (ctx : RowContext F) (p : String × Expr F) : Prop :=
  ∀ i, schema.columnIndex p.1 = some i →
    i ∉ schema.pkColumns ∧ Gives env binaryJson schema ctx i p.2

theorem assignCells_sound (h : ∀ p ∈ assignments, GivesCell env binaryJson schema ctx p)
    (sound : SoundRow F binaryJson schema key row)
    (hrun : (assignCells env ctx schema assignments row).run.run w = (.ok row', w')) :
    SoundRow F binaryJson schema key row' := by
  induction assignments generalizing row w with
  | nil =>
    cases hrun
    exact sound
  | cons p assignments ih =>
    unfold assignCells at hrun
    cases hidx : schema.columnIndex p.1 with
    | none =>
      rw [hidx] at hrun
      cases hrun
    | some i =>
      rw [hidx] at hrun
      obtain ⟨v, w₁, hv, hrun⟩ := run_bind_eq_ok.mp hrun
      split at hrun
      · obtain ⟨hpk, hgives⟩ := h p mem_cons_self i hidx
        refine ih (fun q hq => h q (mem_cons_of_mem _ hq))
          ⟨sound.toSoundCells.set (hgives w v w₁ hv), fun hne => ?_⟩ hrun
        rw [sound.key hne]
        refine pkKey_congr fun j hj => ?_
        have hij : i ≠ j := fun hij => hpk (hij ▸ hj)
        rw [cellAt, cellAt, getElem?_set_ne hij]
      · cases hrun

theorem foldl_set_cases {pairs : List (ℕ × Cell)} {row : Row}
    (h : (pairs.foldl (fun row p => row.set p.1 p.2) row)[i]? = some cell) :
    (i, cell) ∈ pairs ∨ row[i]? = some cell ∧ ∀ p ∈ pairs, p.1 ≠ i := by
  induction pairs generalizing row with
  | nil => exact .inr ⟨h, nofun⟩
  | cons p pairs ih =>
    rcases ih h with hmem | ⟨hrow, hne⟩
    · exact .inl (mem_cons_of_mem _ hmem)
    · rw [getElem?_set] at hrow
      split_ifs at hrow with hi hlt
      · cases hrow
        exact .inl (hi ▸ mem_cons_self)
      · exact .inr ⟨hrow, forall_mem_cons.mpr ⟨hi, hne⟩⟩

/-- What COPY may bring into a table: a cell for every column that must have one. -/
structure GivesLine (F : Type) [Scalars F] (binaryJson : Bool) (schema : TableSchema)
    (target : List ℕ) (line : Bytes) : Prop where
  required : ∀ i, Required schema i → i ∈ target
  fits : ∀ p ∈ target.zip ((line.splitOn 9).map decodeCopyCell), Fits F binaryJson schema p.1 p.2

theorem GivesLine.sound {line : Bytes} (h : GivesLine F binaryJson schema target line)
    (hlength : ((line.splitOn 9).map decodeCopyCell).length = target.length) :
    SoundCells F binaryJson schema (copiedCells schema target line) := by
  refine ⟨?_, fun i cell hi => ?_⟩
  · have hsets (pairs : List (ℕ × Cell)) (row : Row) :
        (pairs.foldl (fun row p => row.set p.1 p.2) row).length = row.length := by
      induction pairs generalizing row with
      | nil => rfl
      | cons p pairs ih => rw [foldl_cons, ih, length_set]
    exact (hsets _ _).trans length_replicate
  · rcases foldl_set_cases hi with hmem | ⟨hempty, hne⟩
    · exact h.fits _ hmem
    · obtain rfl : cell = none := by
        rw [getElem?_replicate] at hempty
        split_ifs at hempty
        exact (Option.some.inj hempty).symm
      intro hrequired
      have htarget := h.required i hrequired
      rw [← map_fst_zip hlength.ge] at htarget
      obtain ⟨p, hp, rfl⟩ := mem_map.mp htarget
      exact hne p hp rfl

end Values

section State

variable [Scalars F] {rest : WriteDb (M ρ) F Unit} {binaryJson : Bool}
  {schemas : String → Option TableSchema} {w w' : World ρ}

def Constraints (db : WriteDb (M ρ) F Unit) (schemas : String → Option TableSchema) (t : Tables) :
    Prop :=
  ∀ name schema, schemas name = some schema → TableConstraints db schema (t name)

/-- One session without a transaction, whose tables meet their constraints. -/
structure Kept (rest : WriteDb (M ρ) F Unit) (binaryJson : Bool)
    (schemas : String → Option TableSchema) (w : World ρ) : Prop where
  schemas_eq : w.schemas = schemas
  others : w.others = []
  txn : w.txn = none
  rows : ∀ name schema, schemas name = some schema →
    TableRows (sessionDb binaryJson rest) binaryJson schema (w.latest name)
  referenced : ∀ e ∈ w.trace, Referenced F schemas e

theorem Kept.same (h : Kept rest binaryJson schemas w) (hsame : Same w w') :
    Kept rest binaryJson schemas w' := by
  obtain ⟨reads, htrace, hreads⟩ := hsame.trace
  have hlatest : w'.latest = w.latest := by simp only [World.latest, hsame.commits]
  refine ⟨hsame.schemas.trans h.schemas_eq, hsame.others.trans h.others, hsame.txn.trans h.txn,
    by simpa only [hlatest] using h.rows, ?_⟩
  rw [htrace, forall_mem_append]
  refine ⟨h.referenced, fun e he => ?_⟩
  obtain ⟨table, key, rows, seen, rfl⟩ := hreads e he
  trivial

theorem view_of_idle (h : w.txn = none) : w.view handle = w.latest := by
  simp [World.view, World.txnView, h]

theorem change_idle (h : w.txn = none) (handle : Option Unit) (c : Change) :
    w.change handle c = { w with commits := w.commits ++ [[c]] } := by
  unfold World.change
  split
  · simp_all
  · rfl

theorem latest_change (h : w.txn = none) : (w.change handle c).latest = applyChange w.latest c := by
  rw [change_idle h]
  simp [World.latest, tablesAfter]

theorem Kept.written (h : Kept rest binaryJson schemas w) {events : List CdcEvent}
    (hschema : schemas table = some schema) (hname : schema.name = table)
    (sound : SoundRow F binaryJson schema key cells)
    (hexclude : excludeKey = none ∨ excludeKey = some key)
    (hchecked : Checked (sessionDb binaryJson rest) schemas w.latest schema cells excludeKey) :
    Kept rest binaryJson schemas
      (WireSessionRows.written F binaryJson handle table schema key cells events w) := by
  set w' := WireSessionRows.written F binaryJson handle table schema key cells events w
  have hlatest : w'.latest =
      applyChange w.latest ⟨table, key, some (buildRowValue F binaryJson schema cells)⟩ :=
    latest_change (w := w.observe _) h.txn
  have htxn : w'.txn = none :=
    (congrArg World.txn (change_idle (w := w.observe _) h.txn handle _)).trans h.txn
  refine ⟨(written_schemas).trans h.schemas_eq, (written_others).trans h.others, htxn, ?_, ?_⟩
  · rw [hlatest]
    intro name schema' hschema'
    by_cases hname' : name = table
    · subst hname'
      obtain rfl := Option.some.inj (hschema.symm.trans hschema')
      have hunique := hchecked.unique
      rw [hname] at hunique
      simpa [applyChange, changeRows] using
        (h.rows name schema hschema).insert sound hexclude hunique hchecked.json
    · simpa [applyChange, hname'] using h.rows name schema' hschema'
  · rw [written_trace]
    simp only [forall_mem_append, forall_mem_singleton]
    refine ⟨h.referenced, ?_⟩
    rw [view_of_idle h.txn]
    exact hchecked.referenced

theorem Kept.deleted (h : Kept rest binaryJson schemas w) :
    Kept rest binaryJson schemas (WireSessionRows.deleted handle table key events w) := by
  have hchange := change_idle h.txn handle ⟨table, key, none⟩
  set w' := WireSessionRows.deleted handle table key events w
  have hlatest : w'.latest = applyChange w.latest ⟨table, key, none⟩ := latest_change h.txn
  have htrace : w'.trace = w.trace :=
    (change_keeps w handle _).2.2.2
  refine ⟨(change_keeps w handle _).1.trans h.schemas_eq,
    (change_keeps w handle _).2.1.trans h.others, (congrArg World.txn hchange).trans h.txn, ?_,
    htrace ▸ h.referenced⟩
  rw [hlatest]
  intro name schema hschema
  by_cases hname : name = table
  · subst hname
    simp only [applyChange, Function.update_self]
    exact (h.rows name schema hschema).subset fun kv hkv => mem_of_mem_erase hkv
  · simpa [applyChange, hname] using h.rows name schema hschema

end State

section Statements

variable [Scalars F] {rest : WriteDb (M ρ) F Unit} {binaryJson : Bool}
  {schemas : String → Option TableSchema}

variable {α : Type}

theorem keeps_of_outcome {Q : World ρ → α → World ρ → Prop}
    (hx : ∀ w, w.others = [] → Outcome w (x.run.run w) (Q w))
    (h : ∀ w a w', Kept rest binaryJson schemas w → Q w a w' → Kept rest binaryJson schemas w') :
    Keeps (Kept rest binaryJson schemas) _ x := by
  intro w hw
  have hout := hx w hw.others
  rcases hrun : x.run.run w with ⟨e | a, w'⟩
  · rw [hrun] at hout
    exact hw.same hout
  · rw [hrun] at hout
    exact h w a w' hw hout

variable (apart : Apart rest)
  (declared : ∀ name schema, schemas name = some schema → Declared name schema)

include apart declared

variable {schema : TableSchema}

theorem keeps_insertRow (hschema : schemas table = some schema)
    (h : GivesRow (sessionDb binaryJson rest) (sessionEnv binaryJson rest depth) binaryJson schema
      { RowContext.empty with params } columns values) :
    Keeps (Kept rest binaryJson schemas) _
      (insertRow (sessionDb binaryJson rest) (executeSelect (sessionDb binaryJson rest).toDb depth)
        handle table schema columns params values) := by
  refine keeps_of_outcome (fun w hw => insertRow_outcome apart hw depth columns params values) ?_
  rintro w _ w' hw ⟨mid, key, cells, ⟨hsame, ⟨w₁, hresolved⟩, hchecked, hnew, -⟩, rfl⟩
  have hmid := hw.same hsame
  rw [view_of_idle hw.txn, hw.schemas_eq] at hchecked
  have hlatest : mid.latest = w.latest := by simp only [World.latest, hsame.commits]
  have hdeclared := declared table schema hschema
  exact hmid.written hschema hdeclared.name_eq
    ⟨resolveInsertRow_sound hdeclared h hresolved, fun hpk => (hnew hpk).1⟩ (.inl rfl)
    (hlatest ▸ hchecked)

theorem keeps_updateRow (hschema : schemas stmt.table = some schema)
    (h : ∀ p ∈ stmt.assignments, ∀ row, GivesCell (sessionEnv binaryJson rest depth) binaryJson
      schema { RowContext.new row (some schema) with params } p)
    (sound : SoundRow F binaryJson schema kv.1 (parseRow F kv.2)) :
    Keeps (Kept rest binaryJson schemas) _
      (updateRow (sessionDb binaryJson rest) (executeSelect (sessionDb binaryJson rest).toDb depth)
        stmt handle schema params kv) := by
  refine keeps_of_outcome (fun w hw => updateRow_outcome apart hw depth stmt params kv) ?_
  rintro w hit w' hw hout
  cases hit with
  | false => exact hw.same hout
  | true =>
    obtain ⟨mid, cells, ⟨hsame, ⟨row, w₁, w₂, -, rfl, hassigned⟩, hchecked⟩, rfl⟩ := hout
    have hmid := hw.same hsame
    have hdeclared := declared stmt.table schema hschema
    rw [normalizeVectorCells_eq _ hdeclared] at hchecked ⊢
    rw [view_of_idle hw.txn, hw.schemas_eq] at hchecked
    have hlatest : mid.latest = w.latest := by simp only [World.latest, hsame.commits]
    exact hmid.written hschema hdeclared.name_eq
      (assignCells_sound (fun p hp => h p hp _) sound hassigned) (.inr rfl) (hlatest ▸ hchecked)

omit declared in
theorem keeps_deleteRow (schema : Option TableSchema) : Keeps (Kept rest binaryJson schemas) _
      (deleteRow (sessionDb binaryJson rest) (executeSelect (sessionDb binaryJson rest).toDb depth)
        stmt handle schema params kv) := by
  refine keeps_of_outcome (fun w hw => deleteRow_outcome apart hw depth stmt schema params kv) ?_
  rintro w hit w' hw hout
  cases hit with
  | false => exact hw.same hout
  | true =>
    obtain ⟨mid, hsame, rfl⟩ := hout
    exact (hw.same hsame).deleted

/-- A table whose rows COPY may write unchecked. -/
def Unchecked (schema : TableSchema) : Prop :=
  schema.uniqueGroups = [] ∧ schema.foreignKeys = [] ∧ schema.jsonSchemas = []

theorem keeps_insertCopyLine (hschema : schemas table = some schema) (hcopy : Unchecked schema)
    (h : GivesLine F binaryJson schema target line) : Keeps (Kept rest binaryJson schemas) _
      (insertCopyLine (sessionDb binaryJson rest) table schema target line) := by
  refine keeps_of_outcome (fun w hw => insertCopyLine_outcome apart hw target line) ?_
  rintro w _ w' hw ⟨hlength, key, mid, hsame, hnew, rfl⟩
  obtain ⟨hunique, hforeign, hjson⟩ := hcopy
  refine (hw.same hsame).written hschema (declared table schema hschema).name_eq
    ⟨h.sound hlength, fun hpk => (hnew hpk).1⟩ (.inl rfl) ⟨?_, ?_, ?_⟩
  · simp [hunique]
  · simp [hforeign]
  · simp [hjson]

/-- The statements that keep the constraints: the values they give may stand in their columns,
UPDATE leaves the key alone, and COPY goes only into tables it need not check. -/
def Suits (rest : WriteDb (M ρ) F Unit) (binaryJson : Bool) (depth : ℕ) (params : List (Value F))
    (schemas : String → Option TableSchema) : Stmt F → Prop
  | .insert stmt => ∀ schema, schemas stmt.table = some schema → ∀ values ∈ stmt.values,
      GivesRow (sessionDb binaryJson rest) (sessionEnv binaryJson rest depth) binaryJson schema
        { RowContext.empty with params } stmt.columns values
  | .update stmt => ∀ schema, schemas stmt.table = some schema → ∀ p ∈ stmt.assignments, ∀ row,
      GivesCell (sessionEnv binaryJson rest depth) binaryJson schema
        { RowContext.new row (some schema) with params } p
  | .delete _ => True
  | .copyIn stmt data => ∀ schema, schemas stmt.table = some schema → Unchecked schema ∧
      ∀ target, targetColumns schema stmt.columns = .ok target → ∀ line ∈ copyLines data,
        GivesLine F binaryJson schema target (ByteCodecs.fromUtf8Lossy line)
  | _ => False

omit apart declared in
theorem keeps_of_looks (h : Steps Looks _ x) : Keeps (Kept rest binaryJson schemas) _ x :=
  fun w hw => hw.same (h w hw.others)

omit declared in
theorem keeps_getTable (hnone : f none = throw e)
    (h : ∀ schema, schemas name = some schema →
      Keeps (Kept rest binaryJson schemas) _ (f (some schema))) :
    Keeps (Kept rest binaryJson schemas) _ ((sessionDb binaryJson rest).getTable name >>= f) := by
  refine Keeps.bind (Q := fun found => found = schemas name) ?_ ?_ ?_
  · exact keeps_of_looks ((reading_looks apart binaryJson none).getTable name)
  · intro w hw found w' hrun
    cases (run_getTable hw.others).symm.trans hrun
    rw [hw.schemas_eq]
  · rintro (_ | schema) hfound
    · exact hnone ▸ closed_keeps.throw _
    · exact h schema hfound.symm

omit declared in
/-- The rows that a statement reads are sound. -/
theorem keeps_txnScan (hschema : schemas table = some schema)
    (h : ∀ rows, (∀ kv ∈ rows, SoundRow F binaryJson schema kv.1 (parseRow F kv.2)) →
      Keeps (Kept rest binaryJson schemas) _ (f rows)) :
    Keeps (Kept rest binaryJson schemas) _
      ((sessionDb binaryJson rest).txnScan handle table >>= f) := by
  refine Keeps.bind (keeps_of_looks ((reading_looks apart binaryJson handle).txnScan table)) ?_ h
  intro w hw rows w' hrun
  obtain rfl : (w.view handle table).entries = rows :=
    Except.ok.inj (congrArg Prod.fst ((run_txnScan hw.others).symm.trans hrun))
  rw [view_of_idle hw.txn]
  exact (hw.rows table schema hschema).sound

theorem keeps_statement (h : Suits rest binaryJson depth params schemas stmt) :
    Keeps (Kept rest binaryJson schemas) _
      (execute (sessionDb binaryJson rest) depth params stmt) := by
  set P := Keeps (ε := EvalError) (Kept rest binaryJson schemas)
  have closed : Closed EvalError P := closed_keeps
  have handle : P _ (currentTxn) := fun w hw => hw
  match stmt with
  | .insert stmt =>
    refine closed.bind handle fun txn => closed.map ?_
    refine keeps_getTable apart rfl fun schema hschema => ?_
    have rows values (hvalues : ∀ row ∈ values, row ∈ stmt.values) :
        P _ (insertRows (sessionDb binaryJson rest)
          (executeSelect (sessionDb binaryJson rest).toDb depth)
          txn stmt.table schema stmt.columns params values) := by
      induction values with
      | nil => exact closed.pure _
      | cons values more ih =>
        obtain ⟨hfirst, hmore⟩ := forall_mem_cons.mp hvalues
        exact closed.bind (keeps_insertRow apart declared hschema (h schema hschema _ hfirst))
          fun _ => closed.map (ih hmore)
    exact rows stmt.values fun _ => id
  | .update stmt =>
    refine closed.bind handle fun txn => closed.map ?_
    refine keeps_getTable apart rfl fun schema hschema => ?_
    refine keeps_txnScan apart hschema fun rows hrows => countRows_closed closed fun kv hkv => ?_
    exact keeps_updateRow apart declared hschema (h schema hschema) (hrows kv hkv)
  | .delete stmt =>
    refine closed.bind handle fun txn => closed.map ?_
    refine closed.bind (keeps_of_looks ((reading_looks apart binaryJson none).getTable _)) fun _ =>
      ?_
    refine closed.bind (keeps_of_looks ((reading_looks apart binaryJson txn).txnScan _)) fun rows =>
      ?_
    exact countRows_closed closed fun kv _ => keeps_deleteRow apart _
  | .copyIn stmt data =>
    refine closed.map (keeps_getTable apart rfl fun schema hschema => ?_)
    obtain ⟨hcopy, hlines⟩ := h schema hschema
    refine Keeps.bind (Q := fun target => targetColumns schema stmt.columns = .ok target)
      (ofResult_closed closed _) ?_ fun target htarget => ?_
    · intro w _ target w' hrun
      cases hresult : targetColumns schema stmt.columns with
      | error e =>
        rw [hresult] at hrun
        cases hrun
      | ok target =>
        rw [hresult] at hrun
        cases hrun
        rfl
    · refine closed.map (closed.forM fun line hline => ?_)
      exact keeps_insertCopyLine apart declared hschema hcopy (hlines target htarget line hline)

structure Fresh (schemas : String → Option TableSchema) (w : World ρ) : Prop where
  schemas_eq : w.schemas = schemas
  commits : w.commits = []
  others : w.others = []
  txn : w.txn = none
  trace : w.trace = []

/-- From empty tables on, whatever suitable statements one session runs, every declared constraint
holds afterwards. -/
theorem constraints_hold (depth : ℕ) (params : List (Value F)) {w : World ρ}
    (fresh : Fresh schemas w)
    (stmts : List (Stmt F))
    (suits : ∀ stmt ∈ stmts, Suits rest binaryJson depth params schemas stmt) :
    Constraints (sessionDb binaryJson rest) schemas
        (stmts.foldl (after (sessionDb binaryJson rest) depth params) w).latest ∧
      (∀ name schema, schemas name = some schema → schema.pkColumns ≠ [] →
        ∀ kv ∈ ((stmts.foldl (after (sessionDb binaryJson rest) depth params) w).latest
          name).entries,
          ∀ kv' ∈ ((stmts.foldl (after (sessionDb binaryJson rest) depth params) w).latest
            name).entries,
            (∀ i ∈ schema.pkColumns, cellAt (parseRow F kv.2) i = cellAt (parseRow F kv'.2) i) →
              kv = kv') ∧
      ∀ e ∈ (stmts.foldl (after (sessionDb binaryJson rest) depth params) w).trace,
        Referenced F schemas e := by
  have start : Kept rest binaryJson schemas w := by
    refine ⟨fresh.schemas_eq, fresh.others, fresh.txn, fun name schema _ => ?_,
      by simp [fresh.trace]⟩
    have hempty : w.latest name = .empty := by simp [World.latest, fresh.commits, tablesAfter]
    rw [hempty]
    exact ⟨by simp, by simp, by simp⟩
  have run : Kept rest binaryJson schemas
      (stmts.foldl (after (sessionDb binaryJson rest) depth params) w) := by
    clear fresh
    induction stmts generalizing w with
    | nil => exact start
    | cons stmt stmts ih =>
      refine ih (fun s hs => suits s (by simp [hs])) ?_
      exact keeps_statement apart declared (suits stmt (by simp)) w start
  have hconstraints : Constraints (sessionDb binaryJson rest) schemas _ :=
    fun name schema hschema => (run.rows name schema hschema).constraints
      (declared name schema hschema)
  refine ⟨hconstraints, fun name schema hschema hpk kv hkv kv' hkv' heq => ?_, run.referenced⟩
  exact (hconstraints name schema hschema).primary hpk hkv hkv' heq

end Statements

theorem fits_text (s : String) (hlength : (DecimalText.utf8 s).length < 2 ^ 31) (i : ℕ) :
    Fits Unit false keyed i (some (DecimalText.utf8 s)) :=
  ⟨hlength, rfl⟩

theorem gives_text (s : String) (hlength : (DecimalText.utf8 s).length < 2 ^ 31)
    (ctx : RowContext Unit)
    (i : ℕ) : Gives (sessionEnv false (tablesOnly Unit) 3) false keyed ctx i (text s) := by
  rintro w v w' ⟨⟩
  exact fits_text s hlength i

theorem givesRow_texts (a b : String) (ha : (DecimalText.utf8 a).length < 2 ^ 31)
    (hb : (DecimalText.utf8 b).length < 2 ^ 31) (ctx : RowContext Unit) :
    GivesRow tableDb (sessionEnv false (tablesOnly Unit) 3) false keyed ctx []
      [text a, text b] where
  given i e h := by
    obtain ⟨rfl, rfl⟩ | ⟨rfl, rfl⟩ : (i = 0 ∧ e = text a) ∨ (i = 1 ∧ e = text b) := by
      simpa [filled] using h
    · exact gives_text a ha ctx 0
    · exact gives_text b hb ctx 1
  default _ _ _ _ _ _ h := by cases h

/-- Two rows are inserted, one is changed, and one is deleted. -/
theorem constraints_hold_insert :
    let stmts := [insertT [[text "1", text "a"], [text "2", text "b"]],
      .update ⟨"t", [("v", text "c")], some (.binaryOp .eq (.ident "id") (text "2"))⟩,
      .delete ⟨"t", some (.binaryOp .eq (.ident "id") (text "1"))⟩]
    let w := stmts.foldl (after tableDb 3 []) keyedWorld
    Constraints tableDb keyedWorld.schemas w.latest ∧
      (∀ name schema, keyedWorld.schemas name = some schema → schema.pkColumns ≠ [] →
        ∀ kv ∈ (w.latest name).entries, ∀ kv' ∈ (w.latest name).entries,
          (∀ i ∈ schema.pkColumns, cellAt (parseRow Unit kv.2) i = cellAt (parseRow Unit kv'.2) i) →
            kv = kv') ∧
      ∀ e ∈ w.trace, Referenced Unit keyedWorld.schemas e := by
  intro stmts w
  have hkeyed {name schema} (h : keyedWorld.schemas name = some schema) :
      name = "t" ∧ schema = keyed := by
    by_cases hname : name = "t"
    · subst hname
      exact ⟨rfl, (Option.some.inj h).symm⟩
    · simp [keyedWorld, hname] at h
  refine constraints_hold apart_tablesOnly ?_ 3 [] ⟨rfl, rfl, rfl, rfl, rfl⟩ stmts ?_
  · intro name schema h
    obtain ⟨rfl, rfl⟩ := hkeyed h
    refine ⟨rfl, ?_, by simp [keyed]⟩
    simp [keyed]
  · simp only [stmts, insertT, forall_mem_cons, Suits]
    refine ⟨?_, ?_, trivial, by simp⟩
    · intro schema h
      obtain ⟨-, rfl⟩ := hkeyed h
      refine ⟨?_, ?_, nofun⟩
      · exact givesRow_texts "1" "a" (by decide) (by decide) _
      · exact givesRow_texts "2" "b" (by decide) (by decide) _
    · intro schema h
      obtain ⟨-, rfl⟩ := hkeyed h
      refine ⟨fun row i hi => ?_, nofun⟩
      obtain rfl : 1 = i := Option.some.inj hi
      exact ⟨by decide, gives_text "c" (by decide) _ 1⟩

def rowsAfter (stmts : List (Stmt Unit)) : List (Bytes × Row) :=
  ((stmts.foldl (after tableDb 3 []) keyedWorld).latest "t").entries.map fun kv =>
    (kv.1, parseRow Unit kv.2)

/-- An explicit NULL is accepted, UPDATE gives a row the key of another one, and COPY repeats a
UNIQUE value. -/
theorem constraints_broken :
    let bytes := DecimalText.utf8
    let row (id v : String) : Row := [some (bytes id), some (bytes v)]
    rowsAfter [insertT [[text "1", .literal .null]]] = [(bytes "1", [some (bytes "1"), none])] ∧
      rowsAfter [insertT [[text "1", text "a"], [text "2", text "b"]],
          .update ⟨"t", [("id", text "1")], some (.binaryOp .eq (.ident "id") (text "2"))⟩] =
        [(bytes "1", row "1" "a"), (bytes "2", row "1" "b")] ∧
      rowsAfter [insertT [[text "1", text "a"]], .copyIn ⟨"t", []⟩ (bytes "2\ta\n")] =
        [(bytes "1", row "1" "a"), (bytes "2", row "2" "a")] := by
  refine ⟨rfl, rfl, rfl⟩

end WireSessionConstraints
