import Keystone.ExecutorSelect
import Mathlib.Logic.Relation

/-! # Recursive common table expressions

Each round runs the recursive term on the rows of the round before. The set operator is not looked
at: the rows of all rounds are kept, and every row of a round feeds the next. -/
namespace ExecutorRecursion

open DecimalText ExecutorEval ExecutorSelect ExecutorValue List SqlAst

variable {F τ : Type} {run : CteContext → Except EvalError (QueryResult × CteContext)}
  {name : String}
  {schema : TableSchema} {T : ℕ → List Row} {P : CteContext → Prop}

/-- The recursive term turns each table into the next one, under the contexts that occur. -/
def Rounds (run : CteContext → Except EvalError (QueryResult × CteContext)) (name : String)
    (schema : TableSchema)
    (T : ℕ → List Row) (P : CteContext → Prop) : Prop :=
  ∀ i ctes, P ctes → ∃ fields after,
    run ((name, (T i, schema)) :: ctes) = .ok (⟨fields, T (i + 1)⟩, after) ∧ P after

section Rounds

variable (h : Rounds run name schema T P)
include h

theorem recursiveRounds_ends (hk : k + d = n) (hleft : d ≤ left) (hgoes : ∀ i < n, T (i + 1) ≠ [])
    (hends : T (n + 1) = []) (all : List Row) (hctes : P ctes) :
    ∃ after, recursiveRounds run name schema left (T k) all ctes =
      .ok (all ++ (range' (k + 1) d).flatMap T, after) := by
  induction d generalizing k left all ctes with
  | zero =>
    obtain ⟨fields, after, hrun, -⟩ := h k ctes hctes
    refine ⟨after, ?_⟩
    have hlast : T (k + 1) = [] := by rw [← hends, ← hk, Nat.add_zero]
    rw [recursiveRounds, hrun, hlast, range'_zero, flatMap_nil, append_nil]
    rfl
  | succ d ih =>
    obtain ⟨left, rfl⟩ : ∃ l, left = l + 1 := ⟨left - 1, by omega⟩
    obtain ⟨fields, after, hrun, hafter⟩ := h k ctes hctes
    have hne := hgoes k (by omega)
    have hleft' : d ≤ left := by omega
    obtain ⟨last, hlast⟩ := ih (k := k + 1) (by omega) hleft' (all ++ T (k + 1)) hafter
    refine ⟨last, ?_⟩
    rw [recursiveRounds, hrun]
    simp only [bind, Except.bind, List.isEmpty_iff, hne, if_false, hlast, range'_succ, flatMap_cons,
      append_assoc]

/-- Rounds that do not end before the limit fail. -/
theorem recursiveRounds_limit (hgoes : ∀ i ≤ left, T (k + i + 1) ≠ []) (all : List Row)
    (hctes : P ctes) :
    recursiveRounds run name schema left (T k) all ctes = .error (.recursionLimit name) := by
  induction left generalizing k all ctes with
  | zero =>
    obtain ⟨fields, after, hrun, -⟩ := h k ctes hctes
    have hne : T (k + 1) ≠ [] := hgoes 0 (Nat.le_refl 0)
    rw [recursiveRounds, hrun]
    simp only [bind, Except.bind, List.isEmpty_iff, hne, if_false]
    rfl
  | succ left ih =>
    obtain ⟨fields, after, hrun, hafter⟩ := h k ctes hctes
    have hne : T (k + 1) ≠ [] := hgoes 0 (by omega)
    rw [recursiveRounds, hrun]
    simp only [bind, Except.bind, List.isEmpty_iff, hne, if_false]
    refine ih (fun i hi => ?_) _ hafter
    rw [Nat.add_right_comm k 1 i]
    exact hgoes (i + 1) (by omega)

end Rounds

/-- When the term works row by row, the rows of all rounds are those its steps lead to. -/
theorem mem_rounds_iff (hends : T (n + 1) = []) {next : Row → List Row}
    (hnext : ∀ i, T (i + 1) = (T i).flatMap next) (row : Row) :
    row ∈ (range (n + 1)).flatMap T ↔
      ∃ r ∈ T 0, Relation.ReflTransGen (fun a b => b ∈ next a) r row := by
  simp only [mem_flatMap, mem_range]
  constructor
  · rintro ⟨i, hi, hrow⟩
    induction i generalizing row with
    | zero => exact ⟨row, hrow, .refl⟩
    | succ i ih =>
      rw [hnext i] at hrow
      obtain ⟨before, hbefore, hstep⟩ := mem_flatMap.mp hrow
      obtain ⟨r, hr, hpath⟩ := ih before (by omega) hbefore
      exact ⟨r, hr, hpath.tail hstep⟩
  · rintro ⟨r, hr, hpath⟩
    induction hpath with
    | refl => exact ⟨0, by omega, hr⟩
    | @tail before after _ hstep ih =>
      obtain ⟨i, hi, hbefore⟩ := ih
      have hafter : after ∈ T (i + 1) := by
        rw [hnext i]
        exact mem_flatMap.mpr ⟨before, hbefore, hstep⟩
      have hlt : i ≠ n := by
        rintro rfl
        rw [hends] at hafter
        cases hafter
      exact ⟨i + 1, by omega, hafter⟩

section Materialize

variable [Scalars F] {db : Db (Except EvalError) F τ} {depth : ℕ} {cte : Cte F} {op : UnionOp}
  {term : SelectStmt F} {ctes ctes' : CteContext} {outer : List OuterRow} {params : List (Value F)}
  {txn : Option τ} {fields : List FieldDescription}
  (hrecursive : cte.recursive = true) (hunion : cte.subquery.union = some (op, term))
  (hbase : executeSelect db depth { cte.subquery with union := none } ctes outer params txn =
    .ok (⟨fields, T 0⟩, ctes'))
include hrecursive hunion hbase

theorem materializeCte_eq_rounds :
    materializeCte (executeSelect db depth) outer params txn ctes cte =
      recursiveRounds (fun ctes => executeSelect db depth term ctes outer params txn) cte.name
        (cteSchema cte fields) 10000 (T 0) (T 0) ctes' >>= fun found =>
          pure ((cte.name, (found.1, cteSchema cte fields)) :: found.2) := by
  rw [materializeCte, hrecursive, hunion]
  simp only [hbase]
  rfl

variable (hctes : P ctes')
  (hrounds : Rounds (fun ctes => executeSelect db depth term ctes outer params txn) cte.name
    (cteSchema cte fields) T P)
include hctes hrounds

theorem materializeCte_ends (hlimit : n ≤ 10000) (hgoes : ∀ i < n, T (i + 1) ≠ [])
    (hends : T (n + 1) = []) :
    ∃ after, materializeCte (executeSelect db depth) outer params txn ctes cte =
      .ok ((cte.name, ((range (n + 1)).flatMap T, cteSchema cte fields)) :: after) := by
  obtain ⟨after, hall⟩ := recursiveRounds_ends hrounds (Nat.zero_add n) hlimit hgoes hends
    (T 0) hctes
  refine ⟨after, ?_⟩
  rw [materializeCte_eq_rounds hrecursive hunion hbase, hall, range_eq_range', range'_succ,
    flatMap_cons]
  rfl

theorem materializeCte_limit (hgoes : ∀ i ≤ 10000, T (i + 1) ≠ []) :
    materializeCte (executeSelect db depth) outer params txn ctes cte =
      .error (.recursionLimit cte.name) := by
  rw [materializeCte_eq_rounds hrecursive hunion hbase,
    recursiveRounds_limit hrounds (by simpa using hgoes) (T 0) hctes]
  rfl

end Materialize

def noTables : Db (Except EvalError) Unit Unit where
  getTable _ := .ok none
  txnScan _ _ := .ok []
  indexedColumn _ _ := .ok false
  indexLookup _ _ _ := .ok none
  indexedColumnSpatial _ _ := .ok false
  spatialQuery _ _ := .ok none
  indexedColumnTime _ _ := .ok false
  timeRangeQuery _ _ _ _ := .ok none
  rowCountEstimate _ := .ok none
  virtualTable _ := .ok none
  graphFunction _ _ _ := .error .panic
  call _ _ := .error .panic
  gpu := fun _ _ _ _ _ => none

/-- `SELECT next FROM x WHERE …`. -/
def termX (next : Expr Unit) (where_ : Option (Expr Unit)) : SelectStmt Unit :=
  ⟨[], false, [.expr next none], some (⟨"x", none, none, none⟩, []), where_, [], none, [], none,
    none, none⟩

/-- `WITH RECURSIVE x(a) AS (SELECT 1 UNION SELECT next FROM x WHERE …)`. -/
def recursiveX (next : Expr Unit) (where_ : Option (Expr Unit)) : Cte Unit :=
  ⟨"x", ["a"], ⟨[], false, [.expr (.literal (.int 1)) none], none, none, [], none, [], none, none,
    some (.union, termX next where_)⟩, true⟩

def runX (next : Expr Unit) (where_ : Option (Expr Unit)) : Except EvalError CteContext :=
  materializeCte (executeSelect noTables 2) [] [] none [] (recursiveX next where_)

end ExecutorRecursion
