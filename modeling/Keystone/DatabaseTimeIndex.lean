import Keystone.ExecutorSelect
import Keystone.MaintainedIndexes
import Keystone.StorageTimeIndex

/-! # Range queries through a time index

The index hears of a row only if its timestamp is an integer and its value column a number, and it
forgets nothing. A query reads the rows that the index names, once for each entry, in place of the
table; WHERE is applied to them again. -/
namespace DatabaseTimeIndex

open DecimalText ExecutorEval ExecutorPlanner ExecutorSelect ExecutorValue GuardedRuns
  MaintainedIndexes OrderedMaps SqlAst StorageInternalKey StorageTimeIndex

section Where

open FallibleLists List

variable {F : Type} [Scalars F] {env : EvalEnv (Except EvalError) F} {e : Expr F}

def holds (env : EvalEnv (Except EvalError) F) (e : Expr F) (ctx : RowContext F) : Bool :=
  match eval env ctx e with
  | .ok v => v.isTruthy
  | .error _ => false

/-- WHERE succeeds if its predicate fails on no row, and keeps the rows on which it holds. -/
theorem filterWhere_eq_ok : filterWhere env e rows = .ok kept ↔
      (∀ ctx ∈ rows, ∃ v, eval env ctx e = .ok v) ∧ kept = rows.filter (holds env e) := by
  induction rows generalizing kept with
  | nil =>
    simp only [not_mem_nil, false_implies, implies_true, true_and]
    exact ⟨fun h => (Except.ok.inj h).symm, fun h => by rw [h]; rfl⟩
  | cons ctx rows ih =>
    simp only [filterWhere, bind_eq_ok, forall_mem_cons, ih]
    constructor
    · rintro ⟨v, hv, rest, ⟨hall, rfl⟩, hkept⟩
      have := (Except.ok.inj hkept).symm
      by_cases ht : v.isTruthy <;> simp_all [holds]
    · rintro ⟨⟨⟨v, hv⟩, hall⟩, rfl⟩
      refine ⟨v, hv, _, ⟨hall, rfl⟩, ?_⟩
      by_cases ht : v.isTruthy <;> simp [holds, hv, ht] <;> rfl

end Where

structure Policy where
  tsPos : ℕ
  valPos : ℕ
  granularity : ℤ

section Definitions

variable {V : Type} (F : Type) [Scalars F] (decodeF64 : Bytes → Option V) (p : Policy)

def timed (value : Bytes) : Option (ℤ × V) := do
  let ts ← decodeColumn F value p.tsPos
  let val ← decodeColumn F value p.valPos
  let t ← parseBits 64 ts
  let v ← decodeF64 val
  return (t, v)

def tableAfter (history : List (Op Bytes Bytes)) : Table Bytes Bytes (ℤ × V) :=
  run (step (timed F decodeF64 p)) .empty history

/-- The index file keeps what it was told when the index is created again. -/
def entriesOf (log : List (Event Bytes (ℤ × V))) : List (TsEntry V) :=
  log.filterMap fun
    | .add key (t, v) => some ⟨key, t, v⟩
    | .reopened => none

def rowsOf (rows : OrderedMap Bytes Bytes) (keys : List Bytes) : List KeyValue :=
  keys.filterMap fun key => (rows.get? key).map fun value => (key, value)

def timeRangeQuery (c : Compression V) (t : Table Bytes Bytes (ℤ × V)) (t0 t1 : ℤ) :
    Except EvalError (Option (List KeyValue)) :=
  match t.log with
  | none => .ok none
  | some log =>
    match (TimeIndex.replay c p.granularity (entriesOf log)).bind (·.queryRange t0 t1) with
    | none => .error .panic
    | some keys => .ok (some (rowsOf t.rows keys))

end Definitions

section Rows

variable {F V : Type} [Scalars F] {rows : OrderedMap Bytes Bytes}

theorem count_rowsOf : (rowsOf rows keys).count kv = if kv ∈ rows.entries then keys.count kv.1
    else 0 := by
  induction keys with
  | nil => simp [rowsOf]
  | cons key keys ih =>
    rw [rowsOf, List.filterMap_cons, ← rowsOf]
    by_cases hkey : key = kv.1
    · subst hkey
      cases hrow : rows.get? kv.1 with
      | none =>
        have hnot : kv ∉ rows.entries := fun h => OrderedMap.get?_eq_none.mp hrow kv h rfl
        simpa [hnot] using ih
      | some value =>
        by_cases hvalue : value = kv.2
        · have hmem : kv ∈ rows.entries := OrderedMap.get?_eq_some.mp (hvalue ▸ hrow)
          simp only [hmem] at ih ⊢
          simp [hvalue, ih]
        · have hnot : kv ∉ rows.entries := fun h => by
            rw [OrderedMap.get?_eq_some.mpr h] at hrow
            exact hvalue (Option.some.inj hrow).symm
          have hne : (kv.1, value) ≠ kv := fun h => hvalue (congrArg Prod.snd h)
          simp only [hnot] at ih ⊢
          simpa [List.count_cons_of_ne hne] using ih
    · have hne : ∀ value, (key, value) ≠ kv := fun value h => hkey (congrArg Prod.fst h)
      rw [List.count_cons_of_ne hkey, ← ih]
      cases rows.get? key with
      | none => rfl
      | some value => exact List.count_cons_of_ne (hne value)

theorem filter_rowsOf_perm_iff (passes : KeyValue → Bool) :
    ((rowsOf rows keys).filter passes).Perm (rows.entries.filter passes) ↔
      ∀ kv ∈ rows.entries, passes kv = true → keys.count kv.1 = 1 := by
  rw [List.perm_iff_count]
  refine forall_congr' fun kv => ?_
  by_cases hpass : passes kv = true
  · rw [List.count_filter hpass, List.count_filter hpass, count_rowsOf]
    by_cases hmem : kv ∈ rows.entries
    · simp [hmem, hpass, List.count_eq_one_of_mem (.of_map Prod.fst rows.nodup_keys) hmem]
    · simp [hmem, List.count_eq_zero_of_not_mem hmem]
  · have hout : ∀ l : List KeyValue, (l.filter passes).count kv = 0 := fun l =>
      List.count_eq_zero_of_not_mem fun h => hpass (List.mem_filter.mp h).2
    simp [hout, hpass]

def passes (env : EvalEnv (Except EvalError) F) (e : Expr F) (ctx : Row → RowContext F)
    (kv : KeyValue) : Bool :=
  holds env e (ctx (parseRow F kv.2))

theorem filterWhere_parseRows {env : EvalEnv (Except EvalError) F}
    (htotal : ∀ kv ∈ kvs, ∃ v, eval env (ctx (parseRow F kv.2)) e = .ok v) :
    filterWhere env e ((parseRows F kvs).map ctx) =
      .ok ((parseRows F (kvs.filter (passes env e ctx))).map ctx) := by
  rw [filterWhere_eq_ok]
  constructor
  · intro row hrow
    simp only [parseRows, List.map_map, List.mem_map] at hrow
    obtain ⟨kv, hkv, rfl⟩ := hrow
    exact htotal kv hkv
  · simp only [parseRows, List.filter_map]
    rfl

end Rows

theorem tryTimeBucketEq_ident [Scalars F] (hcol : schema.hasColumn col = true)
    (hparsed : parseInterval text = some parsed) (a : ℤ) :
    tryTimeBucketEq schema (.binaryOp .eq (.function "time_bucket" [.literal (.text text),
      .ident col] distinct)
        (.literal (.int a)) : Expr F) =
      parsed.bind fun ms => (bucketEnd a ms).map fun stop => some ⟨col, a, stop⟩ := by
  have hname : isFunction "time_bucket" "time_bucket" =
    true := by simp [isFunction, eqIgnoreAsciiCase]
  have hliteral : ∀ l : Literal F, okOf (evalConstant (.literal l)) = .ok (some l.value) :=
    fun l => by
    rfl
  have hident : identCol (.ident col : Expr F) schema =
    some col := by simp [identCol, columnName, hcol]
  simp only [tryTimeBucketEq, bucketSides, hname, if_true, bucketRange, hliteral, hident]
  simp only [Literal.value, bind, Except.bind, hparsed, Option.bind, boundOf]
  cases parsed with
  | error e => rfl
  | ok ms => cases h : bucketEnd a ms <;> simp [Except.map]

/-- The conjuncts that the index is used for are extracted without a panic unless the interval or
the end of the bucket leaves the range of `i64`. If the index could be built and the range has a
first bucket, its rows that pass WHERE are those of the scan exactly if each stored row that passes
has one entry in the range. -/
theorem time_range_agrees_iff {F V : Type} [Scalars F] (schema : TableSchema) (col : String)
    (hcol : schema.hasColumn col = true) (decodeF64 : Bytes → Option V) (c : Compression V)
      (p : Policy)
    (history : List (Op Bytes Bytes)) {log : List (Event Bytes (ℤ × V))}
    (hlog : (tableAfter F decodeF64 p history).log = some log)
    (hbuild : Buildable p.granularity (entriesOf log)) (t0 t1 : ℤ)
    (hstart : (bucketStart p.granularity t0).isSome = true) (env : EvalEnv (Except EvalError) F)
      (e : Expr F)
    (ctx : Row → RowContext F)
    (htotal : ∀ kv ∈ (tableAfter F decodeF64 p history).rows.entries,
      ∃ v, eval env (ctx (parseRow F kv.2)) e = .ok v) :
    (∀ a b : ℤ, tryTimeBucketBetween schema
        (.between (.ident col) (.literal (.int a)) (.literal (.int b)) false : Expr F) =
          .ok (some ⟨col, a, b⟩)) ∧
    (∀ (text : Bytes) (parsed : Except EvalError ℤ) (a : ℤ) (distinct : Bool),
      parseInterval text = some parsed →
      tryTimeBucketEq schema (.binaryOp .eq (.function "time_bucket" [.literal (.text text),
        .ident col] distinct)
          (.literal (.int a)) : Expr F) =
        parsed.bind fun ms =>
          if InRange 64 (a + ms) ∧ InRange 64 (a + ms - 1) then .ok (some ⟨col, a, a + ms - 1⟩)
          else .error .panic) ∧
    let t := tableAfter F decodeF64 p history
    filterWhere env e ((parseRows F t.rows.entries).map ctx) =
      .ok ((parseRows F (t.rows.entries.filter (passes env e ctx))).map ctx) ∧
    ∃ hits, timeRangeQuery p c t t0 t1 = .ok (some hits) ∧
      filterWhere env e ((parseRows F hits).map ctx) =
        .ok ((parseRows F (hits.filter (passes env e ctx))).map ctx) ∧
      ((hits.filter (passes env e ctx)).Perm (t.rows.entries.filter (passes env e ctx)) ↔
        ∀ kv ∈ t.rows.entries, passes env e ctx kv = true →
          (entriesOf log).countP (fun x => x.rowKey = kv.1 ∧ t0 ≤ x.ts ∧ x.ts ≤ t1) = 1) := by
  refine ⟨fun a b => ?_, fun text parsed a distinct hparsed => ?_, ?_⟩
  · simp [tryTimeBucketBetween, identCol, columnName, hcol]
    rfl
  · rw [tryTimeBucketEq_ident hcol hparsed]
    congr with ms
    unfold bucketEnd
    split <;> rfl
  · intro t
    obtain ⟨lo, hlo⟩ := Option.isSome_iff_exists.mp hstart
    obtain ⟨idx, hidx, hgran, hholds⟩ := replay_holds c hbuild
    rw [← hgran] at hlo
    obtain ⟨keys, hkeys, hperm⟩ := queryRange_perm hholds (hgran ▸ hbuild.range.1) hlo t1
    refine ⟨filterWhere_parseRows htotal, rowsOf t.rows keys, ?_, ?_, ?_⟩
    · simp [timeRangeQuery, t, hlog, hidx, hkeys]
    · refine filterWhere_parseRows fun kv hkv => htotal kv ?_
      obtain ⟨key, _, hrow⟩ := List.mem_filterMap.mp hkv
      obtain ⟨value, hvalue, rfl⟩ := Option.map_eq_some_iff.mp hrow
      exact OrderedMap.get?_eq_some.mp hvalue
    · rw [filter_rowsOf_perm_iff]
      refine forall₃_congr fun kv _ _ => ?_
      rw [hperm.count_eq, List.count, List.countP_map, List.countP_filter]
      simp [beq_eq_decide]

def readings : TableSchema :=
  .ofColumns "readings" [⟨"at", .int8, true, none, false⟩, ⟨"value", .float8, true, none, false⟩]

def readingRow (ts : String) (value : Cell) :
    Bytes := buildRowValue Unit false readings [some (utf8 ts), value]

def reading (key ts : String) (value : Cell) :
    Op Bytes Bytes := .write (utf8 key) (readingRow ts value)

def readingsAfter (history : List (Op Bytes Bytes)) : Table Bytes Bytes (ℤ × Unit) :=
  tableAfter Unit (fun _ => some ()) ⟨0, 1, 100⟩ history

def verbatim : Compression Unit := ⟨List (TsEntry Unit), id, id, fun _ _ _ _ => rfl⟩

def during (a b : ℤ) : Expr Unit := .between (.ident "at") (.literal (.int a))
    (.literal (.int b)) false

def passesDuring (a b : ℤ) : KeyValue → Bool :=
  passes (withoutDb Unit) (during a b) fun row => .new row (some readings)

def scanned (t : Table Bytes Bytes (ℤ × Unit)) (a b : ℤ) : List KeyValue :=
  t.rows.entries.filter (passesDuring a b)

def indexed (t : Table Bytes Bytes (ℤ × Unit)) (a b : ℤ) :
    Except EvalError (Option (List KeyValue)) :=
  (timeRangeQuery ⟨0, 1, 100⟩ verbatim t a b).map (Option.map (List.filter (passesDuring a b)))

theorem time_range_agrees_iff_readings :
    let t := readingsAfter [reading "a" "10" (some (utf8 "1")), .createIndex,
      reading "b" "150" (some (utf8 "2"))]
    ∃ hits, timeRangeQuery ⟨0, 1, 100⟩ verbatim t 0 99 = .ok (some hits) ∧
      (hits.filter (passesDuring 0 99)).Perm (scanned t 0 99) := by
  intro t
  have hlog : t.log = some [.reopened, .add (utf8 "a") (10, ()),
    .add (utf8 "b") (150, ())] := by decide +kernel
  have hbuild :
    Buildable 100 (entriesOf [.reopened, .add (utf8 "a") (10, ()), .add (utf8 "b") (150, ())]) :=
    ⟨by decide, by decide, by decide⟩
  have htotal : ∀ kv ∈ t.rows.entries,
      eval (withoutDb Unit) (.new (parseRow Unit kv.2) (some readings)) (during 0 99) =
        .ok (.bool (passesDuring 0 99 kv)) := by
    decide +kernel
  obtain ⟨-, -, -, hits, hhits, -, hiff⟩ :=
    time_range_agrees_iff readings "at" rfl (fun _ => some ())
    verbatim ⟨0, 1, 100⟩ _ hlog hbuild 0 99 rfl (withoutDb Unit) (during 0 99)
    (fun row => .new row (some readings)) fun kv hkv => ⟨_, htotal kv hkv⟩
  exact ⟨hits, hhits, hiff.mpr (by decide +kernel)⟩

/-- A row without a value is missing, an updated row is found twice, and two ranges at the ends of
`i64` panic. -/
theorem time_index_disagrees :
    let unmeasured := readingsAfter [.createIndex, reading "k" "10" none]
    let corrected := readingsAfter [.createIndex, reading "k" "10" (some (utf8 "1")),
      reading "k" "11" (some (utf8 "1"))]
    (scanned unmeasured 0 20 = [(utf8 "k", readingRow "10" none)] ∧
      indexed unmeasured 0 20 = .ok (some [])) ∧
    (scanned corrected 0 20 = [(utf8 "k", readingRow "11" (some (utf8 "1")))] ∧
      indexed corrected 0 20 = .ok (some [(utf8 "k", readingRow "11" (some (utf8 "1"))),
        (utf8 "k", readingRow "11" (some (utf8 "1")))])) ∧
    (scanned corrected (-2 ^ 63) 20 = [(utf8 "k", readingRow "11" (some (utf8 "1")))] ∧
      indexed corrected (-2 ^ 63) 20 = .error .panic) ∧
    tryTimeBucketEq readings (.binaryOp .eq
      (.function "time_bucket" [.literal (.text (utf8 "1 hour")), .ident "at"] false)
      (.literal (.int (2 ^ 63 - 1))) : Expr Unit) = .error .panic :=
  ⟨⟨by decide +kernel, by decide +kernel⟩, ⟨by decide +kernel, by decide +kernel⟩,
    ⟨by decide +kernel, by decide +kernel⟩, by decide +kernel⟩

end DatabaseTimeIndex
