import Keystone.ExecutorEval
import Keystone.RelationalJoins

/-! # Joins

An equality whose sides each refer to one of the two inputs is run as a hash join: the keys are
evaluated on the bare row of their side, without table scopes, and compared as text. Any other
predicate is evaluated on every pair, with the scopes of all tables joined so far. -/
namespace ExecutorJoin

open DecimalText ExecutorEval ExecutorValue List RelationalJoins SqlAst StorageInternalKey

variable {F : Type}

def width (s : Option TableSchema) : ℕ := (columnsOf s).length

def nulls (n : ℕ) : Row := List.replicate n none

def mergeSchema (left right : Option TableSchema) : Option TableSchema :=
  match left, right with
  | some l, some r => some (.ofColumns (l.name ++ "_" ++ r.name) (l.columns ++ r.columns))
  | some l, none => some l
  | none, r => r

def hasColumn (s : Option TableSchema) (name : String) : Bool :=
  match s with
  | some s => s.hasColumn name
  | none => false

mutual

def exprOnlyRefs (s : Option TableSchema) : Expr F → Bool
  | .ident name => hasColumn s name
  | .qualifiedIdent _ name => hasColumn s name
  | .literal _ => true
  | .param _ => true
  | .binaryOp _ lhs rhs => exprOnlyRefs s lhs && exprOnlyRefs s rhs
  | .unaryOp _ e => exprOnlyRefs s e
  | .cast e _ => exprOnlyRefs s e
  | .function _ args _ => exprsOnlyRefs s args
  | _ => false

def exprsOnlyRefs (s : Option TableSchema) : List (Expr F) → Bool
  | [] => true
  | e :: es => exprOnlyRefs s e && exprsOnlyRefs s es

end

def splitJoinKeys (on : Expr F) (left right : Option TableSchema) : Option (Expr F × Expr F) :=
  match on with
  | .binaryOp .eq lhs rhs =>
    if exprOnlyRefs left lhs && exprOnlyRefs right rhs then some (lhs, rhs)
    else if exprOnlyRefs left rhs && exprOnlyRefs right lhs then some (rhs, lhs)
    else none
  | _ => none

structure JoinPredicateCtx where
  mergedSchema : Option TableSchema
  scopes : List Scope
  deriving DecidableEq

def buildJoinPredicateCtx (left right : Option TableSchema) (leftScopes : List Scope)
    (rightAlias : String) : JoinPredicateCtx where
  mergedSchema := mergeSchema left right
  scopes := leftScopes ++ [⟨rightAlias, width left, width left + width right⟩]

section Rows

variable [Scalars F]

def combinedRow (ctx : JoinPredicateCtx) (l r : Row) : RowContext F :=
  { RowContext.new (l ++ r) ctx.mergedSchema with tableScopes := ctx.scopes }

/-- A predicate that fails does not match. A panic of the evaluation counts as a failure here; in
the code it ends the query. -/
def evalJoinPredicate (on : Expr F) (ctx : JoinPredicateCtx) (l r : Row) : Bool :=
  match eval (withoutDb F) (combinedRow ctx l r) on with
  | .ok v => v.isTruthy
  | .error _ => false

/-- A key that fails is none, like that of a NULL; so is one whose evaluation panics. -/
def joinKey (key : Expr F) (s : Option TableSchema) (row : Row) : Option Bytes :=
  match eval (withoutDb F) (RowContext.new row s) key with
  | .ok v => v.toWireBytes
  | .error _ => none

/-- Swaps the rows of a pair back into place when the right side is the one that probes. -/
def behind (r l : Row) : Row := l ++ r

variable (leftKey rightKey : Expr F) (ls rs : Option TableSchema)

def hashBuildRight (left right : List Row) : List Row :=
  probe (joinKey leftKey ls) (· ++ ·) left (Buckets.build (joinKey rightKey rs) right)

def hashBuildLeft (left right : List Row) : List Row :=
  probe (joinKey rightKey rs) behind right (Buckets.build (joinKey leftKey ls) left)

/-- The table is built from the smaller side. -/
def hashEquiJoin (left right : List Row) : List Row :=
  if right.length ≤ left.length then hashBuildRight leftKey rightKey ls rs left right
  else hashBuildLeft leftKey rightKey ls rs left right

def hashLeftJoin (left right : List Row) : List Row :=
  probeOuter (joinKey leftKey ls) (· ++ ·) (· ++ nulls (width rs)) left
    (Buckets.build (joinKey rightKey rs) right)

def hashRightJoin (left right : List Row) : List Row :=
  probeOuter (joinKey rightKey rs) behind (nulls (width ls) ++ ·) right
    (Buckets.build (joinKey leftKey ls) left)

end Rows

section Loops

variable (matched : Row → Row → Bool) (ls rs : Option TableSchema)

def nestedInner (left right : List Row) : List Row := loopJoin matched (· ++ ·) left right

def nestedLeft (left right : List Row) : List Row :=
  loopOuterJoin matched (· ++ ·) (· ++ nulls (width rs)) left right

def nestedRight (left right : List Row) : List Row :=
  loopOuterJoin (fun r l => matched l r) behind (nulls (width ls) ++ ·) right left

end Loops

abbrev GpuPairs (F : Type) :=
  Expr F → Option TableSchema → Option TableSchema → List Row → List Row → Option (List (ℕ × ℕ))

def buildRowsFromPairs (pairs : List (ℕ × ℕ)) (left right : List Row)
    (ls rs : Option TableSchema) (padLeft padRight : Bool) : List Row :=
  let unmatched (rows : List Row) (used : List ℕ) : List Row :=
    rows.zipIdx.filterMap fun (row, i) => if i ∈ used then none else some row
  pairs.map (fun (i, j) => (left[i]?).getD [] ++ (right[j]?).getD []) ++
    (if padLeft then (unmatched left (pairs.map Prod.fst)).map (· ++ nulls (width rs)) else []) ++
    (if padRight then (unmatched right (pairs.map Prod.snd)).map (nulls (width ls) ++ ·) else [])

/-- `apply_join`. FULL is run as INNER. -/
def applyJoin [Scalars F] (gpu : GpuPairs F) (left right : List Row) (join : Join F)
    (ls rs : Option TableSchema) (leftScopes : List Scope) (rightAlias : String) : List Row :=
  let matched on := evalJoinPredicate on (buildJoinPredicateCtx ls rs leftScopes rightAlias)
  let everyPair : Row → Row → Bool := fun _ _ => true
  match join.joinType, join.on with
  | .cross, _ => nestedInner everyPair left right
  | .inner, none | .full, none => nestedInner everyPair left right
  | .inner, some on | .full, some on =>
    match splitJoinKeys on ls rs with
    | some (lk, rk) => hashEquiJoin lk rk ls rs left right
    | none => match gpu on ls rs left right with
      | some pairs => buildRowsFromPairs pairs left right ls rs false false
      | none => nestedInner (matched on) left right
  | .left, none => nestedLeft everyPair rs left right
  | .left, some on =>
    match splitJoinKeys on ls rs with
    | some (lk, rk) => hashLeftJoin lk rk ls rs left right
    | none => match gpu on ls rs left right with
      | some pairs => buildRowsFromPairs pairs left right ls rs true false
      | none => nestedLeft (matched on) rs left right
  | .right, none => nestedRight everyPair ls left right
  | .right, some on =>
    match splitJoinKeys on ls rs with
    | some (lk, rk) => hashRightJoin lk rk ls rs left right
    | none => match gpu on ls rs left right with
      | some pairs => buildRowsFromPairs pairs left right ls rs false true
      | none => nestedRight (matched on) ls left right

/-! ## Where the two agree

Both evaluate the same two keys. The hash join takes them from the row of one side and compares
texts, the nested loop takes them from the combined row through the scopes and compares values. -/

section KeyRefs

mutual

variable {s : Option TableSchema}

theorem hasColumn_of_exprOnlyRefs (e : Expr F) (h : exprOnlyRefs s e = true) :
    ∀ a ∈ collect atomOf e, ∃ ref : ColumnRef, a = .inl ref ∧ hasColumn s ref.2 = true := by
  match e with
  | .literal l | .param n => simp [collect, atomOf]
  | .ident name =>
    intro a ha
    simp only [collect, atomOf, mem_singleton] at ha
    exact ⟨(none, name), ha, h⟩
  | .qualifiedIdent table col =>
    intro a ha
    simp only [collect, atomOf, mem_singleton] at ha
    exact ⟨(some table, col), ha, h⟩
  | .binaryOp op lhs rhs =>
    simp only [exprOnlyRefs, Bool.and_eq_true] at h
    simp only [collect, atomOf, nil_append, forall_mem_append]
    exact ⟨hasColumn_of_exprOnlyRefs lhs h.1, hasColumn_of_exprOnlyRefs rhs h.2⟩
  | .unaryOp op e | .cast e type =>
    simpa only [collect, atomOf, nil_append] using hasColumn_of_exprOnlyRefs e h
  | .function name args distinct =>
    simpa only [collect, atomOf, nil_append] using hasColumn_of_exprsOnlyRefs args h

theorem hasColumn_of_exprsOnlyRefs (es : List (Expr F)) (h : exprsOnlyRefs s es = true) :
    ∀ a ∈ collectList atomOf es, ∃ ref : ColumnRef, a = .inl ref ∧ hasColumn s ref.2 = true := by
  match es with
  | [] => simp [collectList]
  | e :: es =>
    simp only [exprsOnlyRefs, Bool.and_eq_true] at h
    simp only [collectList, forall_mem_append]
    exact ⟨hasColumn_of_exprOnlyRefs e h.1, hasColumn_of_exprsOnlyRefs es h.2⟩

end

theorem bareIndex_of_hasColumn (h : hasColumn s name = true) : ∃ i, bareIndex s name = some i := by
  cases s with
  | none => cases h
  | some s =>
    apply Option.isSome_iff_exists.mp
    simpa [bareIndex, TableSchema.columnIndex, hasColumn, TableSchema.hasColumn] using h

theorem splitJoinKeys_cases (h : splitJoinKeys on ls rs = some (leftKey, rightKey)) :
    exprOnlyRefs ls leftKey = true ∧ exprOnlyRefs rs rightKey = true ∧
      (on = .binaryOp .eq leftKey rightKey ∨ on = .binaryOp .eq rightKey leftKey) := by
  unfold splitJoinKeys at h
  split at h
  · rename_i lhs rhs
    by_cases h₁ : (exprOnlyRefs ls lhs && exprOnlyRefs rs rhs) = true
    · simp only [h₁] at h
      obtain ⟨rfl, rfl⟩ := h
      simp only [Bool.and_eq_true] at h₁
      exact ⟨h₁.1, h₁.2, .inl rfl⟩
    · by_cases h₂ : (exprOnlyRefs ls rhs && exprOnlyRefs rs lhs) = true
      · simp only [h₁, h₂] at h
        obtain ⟨rfl, rfl⟩ := h
        simp only [Bool.and_eq_true] at h₂
        exact ⟨h₂.1, h₂.2, .inr rfl⟩
      · simp [h₁, h₂] at h
  · cases h

end KeyRefs

/-- Every column of the two keys is, in the combined row, the column that the bare row of its
side gives. -/
structure NamesAgree (leftKey rightKey : Expr F) (ls rs : Option TableSchema)
    (ctx : JoinPredicateCtx) : Prop where
  left : ∀ ref ∈ columnRefs leftKey,
    resolvedIndex ctx.mergedSchema ctx.scopes ref = resolvedIndex ls [] ref
  right : ∀ ref ∈ columnRefs rightKey,
    resolvedIndex ctx.mergedSchema ctx.scopes ref = (resolvedIndex rs [] ref).map (width ls + ·)

instance (leftKey rightKey : Expr F) (ls rs : Option TableSchema) (ctx : JoinPredicateCtx) :
    Decidable (NamesAgree leftKey rightKey ls rs ctx) :=
  decidable_of_iff (_ ∧ _) ⟨fun h => ⟨h.1, h.2⟩, fun h => ⟨h.left, h.right⟩⟩

section Agreement

variable [Scalars F] {leftKey rightKey on : Expr F} {ls rs : Option TableSchema}
  {ctx : JoinPredicateCtx} {l r : Row}

theorem cellAt_append_right : cellAt (l ++ r) (l.length + i) = cellAt r i := by
  simp [cellAt, List.getElem?_append]

/-- A key over one side is evaluated in the combined row as in the row of its side, if every name of
it is found there, `offset` columns further right. -/
theorem eval_combinedRow (offset : ℕ) (refs : exprOnlyRefs schema key = true)
    (names : ∀ ref ∈ columnRefs key, resolvedIndex ctx.mergedSchema ctx.scopes ref =
      (resolvedIndex schema [] ref).map (offset + ·))
    (cells : ∀ i < width schema, cellAt (l ++ r) (offset + i) = cellAt row i) :
    eval (withoutDb F) (combinedRow ctx l r) key =
      eval (withoutDb F) (RowContext.new row schema) key := by
  refine eval_congr (by rfl) (by rfl) (by rfl) fun a ha => ?_
  obtain ⟨ref, rfl, href⟩ := hasColumn_of_exprOnlyRefs key refs a ha
  obtain ⟨i, hi⟩ := bareIndex_of_hasColumn href
  have own : resolvedIndex schema [] ref = some i := by rw [resolvedIndex_bare, hi]
  have merged : resolvedIndex ctx.mergedSchema ctx.scopes ref = some (offset + i) := by
    rw [names ref (mem_filterMap.mpr ⟨.inl ref, ha, rfl⟩), own, Option.map_some]
  simp only [SameAtom]
  rw [resolveColumn_of_index rfl merged, resolveColumn_of_index rfl own]
  simp [combinedRow, RowContext.new, cells i (bareIndex_lt hi)]

theorem eval_leftKey (refs : exprOnlyRefs ls leftKey = true)
    (names : NamesAgree leftKey rightKey ls rs ctx) (hl : l.length = width ls) (r : Row) :
    eval (withoutDb F) (combinedRow ctx l r) leftKey =
      eval (withoutDb F) (RowContext.new l ls) leftKey := by
  refine eval_combinedRow 0 refs (fun ref href => ?_) fun i hi => ?_
  · rw [names.left ref href]
    simp
  · rw [zero_add, cellAt, getElem?_append_left (hl ▸ hi), ← cellAt]

theorem eval_rightKey (refs : exprOnlyRefs rs rightKey = true)
    (names : NamesAgree leftKey rightKey ls rs ctx) (hl : l.length = width ls) (r : Row) :
    eval (withoutDb F) (combinedRow ctx l r) rightKey =
      eval (withoutDb F) (RowContext.new r rs) rightKey :=
  eval_combinedRow _ refs (fun ref href => by rw [names.right ref href, hl]) fun _ _ =>
    cellAt_append_right

/-- `=` holds between two values that are not NULL and compare equal. -/
theorem isTruthy_compareOp_eq (u v : Value F) :
    (∃ w, compareOp u v (· = .eq) = .ok w ∧ w.isTruthy = true) ↔
      ∃ x y, u.toWireBytes = some x ∧ v.toWireBytes = some y ∧ valueCompare u v = .ok .eq := by
  by_cases hu : u = .null
  · subst hu
    simp [compareOp, Value.isTruthy, Value.toWireBytes]
  by_cases hv : v = .null
  · subst hv
    simp [compareOp, Value.isTruthy, Value.toWireBytes]
  obtain ⟨x, hx⟩ : ∃ x, u.toWireBytes = some x := by
    cases u <;> simp_all [Value.toWireBytes]
  obtain ⟨y, hy⟩ : ∃ y, v.toWireBytes = some y := by
    cases v <;> simp_all [Value.toWireBytes]
  simp only [compareOp, hx, hy]
  rw [if_neg]
  swap
  · rintro (h | h)
    · cases u <;> first | exact hu rfl | cases h
    · cases v <;> first | exact hv rfl | cases h
  cases hc : valueCompare u v with
  | error e => simp [Bind.bind, Except.bind]
  | ok c => simp [Bind.bind, Except.bind, Value.isTruthy]

theorem evalJoinPredicate_eq_iff : evalJoinPredicate (.binaryOp .eq lhs rhs) ctx l r = true ↔
      ∃ u v x y, eval (withoutDb F) (combinedRow ctx l r) lhs = .ok u ∧
        eval (withoutDb F) (combinedRow ctx l r) rhs = .ok v ∧
        u.toWireBytes = some x ∧ v.toWireBytes = some y ∧ valueCompare u v = .ok .eq := by
  simp only [evalJoinPredicate, eval]
  cases eval (withoutDb F) (combinedRow ctx l r) lhs with
  | error e => simp [Bind.bind, Except.bind]
  | ok u =>
    cases eval (withoutDb F) (combinedRow ctx l r) rhs with
    | error e => simp [Bind.bind, Except.bind]
    | ok v =>
      have compared := isTruthy_compareOp_eq u v
      simp only [Bind.bind, Except.bind, evalBinop]
      cases hw : compareOp u v (· = .eq) with
      | error e | ok w => simpa [hw] using compared

def KeysCompareAsText (leftKey rightKey : Expr F) (ls rs : Option TableSchema) (l r : Row) : Prop :=
  ∀ u v, eval (withoutDb F) (RowContext.new l ls) leftKey = .ok u →
    eval (withoutDb F) (RowContext.new r rs) rightKey = .ok v → ComparesAsText u v

theorem joinKey_eq_some : joinKey key s row = some x ↔
      ∃ u, eval (withoutDb F) (RowContext.new row s) key = .ok u ∧ u.toWireBytes = some x := by
  unfold joinKey
  cases eval (withoutDb F) (RowContext.new row s) key <;> simp

theorem evalJoinPredicate_iff_sameKey (split : splitJoinKeys on ls rs = some (leftKey, rightKey))
    (names : NamesAgree leftKey rightKey ls rs ctx) (hl : l.length = width ls)
    (texts : KeysCompareAsText leftKey rightKey ls rs l r) :
    evalJoinPredicate on ctx l r = true ↔
      SameKey (joinKey leftKey ls) (joinKey rightKey rs) l r := by
  obtain ⟨refsLeft, refsRight, hon⟩ := splitJoinKeys_cases split
  have left := eval_leftKey refsLeft names hl r
  have right := eval_rightKey refsRight names hl r
  simp only [SameKey, joinKey_eq_some]
  constructor
  · intro h
    rcases hon with rfl | rfl
    · obtain ⟨u, v, x, y, hu, hv, hx, hy, hc⟩ := evalJoinPredicate_eq_iff.mp h
      rw [left] at hu
      rw [right] at hv
      have hxy : x = y := (texts u v hu hv x y hx hy).1.mp hc
      exact ⟨x, ⟨u, hu, hx⟩, v, hv, hxy ▸ hy⟩
    · obtain ⟨v, u, y, x, hv, hu, hy, hx, hc⟩ := evalJoinPredicate_eq_iff.mp h
      rw [left] at hu
      rw [right] at hv
      have hxy : x = y := (texts u v hu hv x y hx hy).2.mp hc
      exact ⟨x, ⟨u, hu, hx⟩, v, hv, hxy ▸ hy⟩
  · rintro ⟨x, ⟨u, hu, hx⟩, v, hv, hy⟩
    have compared := texts u v hu hv x x hx hy
    rw [← left] at hu
    rw [← right] at hv
    rcases hon with rfl | rfl
    · exact evalJoinPredicate_eq_iff.mpr ⟨u, v, x, x, hu, hv, hx, hy, compared.1.mpr rfl⟩
    · exact evalJoinPredicate_eq_iff.mpr ⟨v, u, x, x, hv, hu, hy, hx, compared.2.mpr rfl⟩

structure SameRows (leftKey rightKey : Expr F) (ls rs : Option TableSchema)
    (matched : Row → Row → Bool) (left right : List Row) : Prop where
  buildRight : (hashBuildRight leftKey rightKey ls rs left right).Perm
    (nestedInner matched left right)
  buildLeft : (hashBuildLeft leftKey rightKey ls rs left right).Perm
    (nestedInner matched left right)
  leftJoin : (hashLeftJoin leftKey rightKey ls rs left right).Perm
    (nestedLeft matched rs left right)
  rightJoin :
    (hashRightJoin leftKey rightKey ls rs left right).Perm (nestedRight matched ls left right)

theorem sameRows_of_sameKey (h : ∀ l ∈ left, ∀ r ∈ right,
      matched l r = true ↔ SameKey (joinKey leftKey ls) (joinKey rightKey rs) l r) :
    SameRows leftKey rightKey ls rs matched left right := by
  have swapped : ∀ r ∈ right, ∀ l ∈ left,
      matched l r = true ↔ SameKey (joinKey rightKey rs) (joinKey leftKey ls) r l := by
    intro r hr l hl
    rw [h l hl r hr]
    constructor
    · rintro ⟨k, hk, hk'⟩
      exact ⟨k, hk', hk⟩
    · rintro ⟨k, hk, hk'⟩
      exact ⟨k, hk', hk⟩
  constructor
  · exact .of_eq (probe_eq_loopJoin _ h)
  · have probed : hashBuildLeft leftKey rightKey ls rs left right =
        loopJoin (fun r l => matched l r) behind right left := probe_eq_loopJoin _ swapped
    rw [probed]
    exact (loopJoin_swap matched (· ++ ·) left right).symm
  · exact .of_eq (probeOuter_eq_loopOuterJoin _ h)
  · exact .of_eq (probeOuter_eq_loopOuterJoin _ swapped)

end Agreement

def noGpu : GpuPairs F := fun _ _ _ _ _ => none

section Pairs

variable [Scalars F]

end Pairs

end ExecutorJoin
