import Keystone.ExecutorDml
import Keystone.ThreeValuedLogic

/-! # WHERE and NULL

The evaluator has two truth values where SQL has three: a comparison with NULL is false, and BETWEEN
with NULL is an error. Predicates on integers are given their SQL meaning and their reading in two
values; rows pass WHERE as they should exactly where the NULLs do not tell the two apart. -/
namespace ExecutorWhere

open ByteCodecs DecimalText ExecutorDml ExecutorEval ExecutorSelect ExecutorValue List SqlAst
  ThreeValuedLogic

variable {F : Type}

inductive Comparison where
  | eq | notEq | lt | lte | gt | gte
  deriving DecidableEq

def Comparison.op : Comparison → BinOp
  | .eq => .eq
  | .notEq => .notEq
  | .lt => .lt
  | .lte => .lte
  | .gt => .gt
  | .gte => .gte

def Comparison.holds : Comparison → ℤ → ℤ → Bool
  | .eq, x, y => x = y
  | .notEq, x, y => x ≠ y
  | .lt, x, y => x < y
  | .lte, x, y => x ≤ y
  | .gt, x, y => x > y
  | .gte, x, y => x ≥ y

/-- A negative number is written as the negation of a literal. -/
inductive Operand where
  | column (ref : ColumnRef)
  | int (n : ℤ)
  | minus (n : Fin (2 ^ 63))
  | null
  deriving DecidableEq

inductive Pred where
  | null
  | compare (c : Comparison) (a b : Operand)
  | between (e low high : Operand) (negated : Bool)
  | isIn (e : Operand) (items : List Operand) (negated : Bool)
  | operandIsNull (e : Operand) (negated : Bool)
  | isNull (p : Pred) (negated : Bool)
  | and (p q : Pred)
  | or (p q : Pred)
  | not (p : Pred)
  deriving DecidableEq

def Operand.toExpr : Operand → Expr F
  | .column (none, name) => .ident name
  | .column (some q, name) => .qualifiedIdent q name
  | .int n => .literal (.int n)
  | .minus n => .unaryOp .neg (.literal (.int n))
  | .null => .literal .null

def Pred.toExpr : Pred → Expr F
  | .null => .literal .null
  | .compare c a b => .binaryOp c.op a.toExpr b.toExpr
  | .between e low high negated => .between e.toExpr low.toExpr high.toExpr negated
  | .isIn e items negated => .inExprs e.toExpr (items.map Operand.toExpr) negated
  | .operandIsNull e negated => .isNull e.toExpr negated
  | .isNull p negated => .isNull p.toExpr negated
  | .and p q => .binaryOp .and p.toExpr q.toExpr
  | .or p q => .binaryOp .or p.toExpr q.toExpr
  | .not p => .unaryOp .not p.toExpr

def columnCell (ctx : RowContext F) (ref : ColumnRef) : Option Cell := resolveCell ctx ref.1 ref.2

def Operand.value (ctx : RowContext F) : Operand → Option ℤ
  | .column ref => (columnCell ctx ref).join.bind (parseBits 64)
  | .int n => some n
  | .minus n => some (-(n : ℤ))
  | .null => none

def betweenTruth (e low high : Option ℤ) : Truth :=
  (lift Comparison.gte.holds e low).and (lift Comparison.lte.holds e high)

def inTruth (e : Option ℤ) (items : List (Option ℤ)) : Truth :=
  Truth.any (items.map (lift Comparison.eq.holds e))

def Pred.truth (ctx : RowContext F) : Pred → Truth
  | .null => none
  | .compare c a b => lift c.holds (a.value ctx) (b.value ctx)
  | .between e low high negated =>
    (betweenTruth (e.value ctx) (low.value ctx) (high.value ctx)).negateIf negated
  | .isIn e items negated =>
    (inTruth (e.value ctx) (items.map (Operand.value ctx))).negateIf negated
  | .operandIsNull e negated => Truth.negateIf negated (some (e.value ctx).isNone)
  | .isNull p negated => Truth.negateIf negated (some (p.truth ctx).isNone)
  | .and p q => (p.truth ctx).and (q.truth ctx)
  | .or p q => (p.truth ctx).or (q.truth ctx)
  | .not p => (p.truth ctx).not

/-- NULL equals NULL and can be compared with nothing else. -/
def compareNulls : Option ℤ → Option ℤ → Option Ordering
  | none, none => some .eq
  | some x, some y => some (compareOfLessAndEq x y)
  | _, _ => none

def betweenReading (e low high : Option ℤ) : Option Bool :=
  (compareNulls e low).bind fun o => if o = .lt then some false
    else (compareNulls e high).map (· ≠ .gt)

/-- A predicate in two truth values: `none` if it fails, and `some none` for the literal NULL. -/
def Pred.reading (ctx : RowContext F) : Pred → Option Truth
  | .null => some none
  | .compare c a b => some (some (lift c.holds (a.value ctx) (b.value ctx) = some true))
  | .between e low high negated =>
    (betweenReading (e.value ctx) (low.value ctx) (high.value ctx)).map fun b => some (b ^^ negated)
  | .isIn e items negated =>
    some (some (decide (e.value ctx ∈ items.map (Operand.value ctx)) ^^ negated))
  | .operandIsNull e negated => some (some ((e.value ctx).isNone ^^ negated))
  | .isNull p negated => (p.reading ctx).map fun r => some (r.isNone ^^ negated)
  | .and p q => (p.reading ctx).bind fun r =>
    if r = some true then (q.reading ctx).map fun r => some (r = some true) else some (some false)
  | .or p q => (p.reading ctx).bind fun r =>
    if r = some true then some (some true) else (q.reading ctx).map fun r => some (r = some true)
  | .not p => (p.reading ctx).map fun r => some (r ≠ some true)

/-- Whether a predicate is read as true. -/
def Pred.reads (ctx : RowContext F) (p : Pred) : Option Bool := (p.reading ctx).map (· = some true)

/-- BETWEEN compares NULL with nothing but NULL. -/
def Bounded (nulls : Prop) : Option ℤ → Option ℤ → Option ℤ → Prop
  | some x, some low, none => x < low
  | some _, some _, some _ => True
  | none, none, none => nulls
  | _, _, _ => False

/-- The NULLs of the row do no harm where unknown should count as `u`: as false in WHERE, as true
under NOT. An operand of AND and OR whose reading is wrong may be outvoted by the other one. -/
def Pred.Agrees (ctx : RowContext F) : Bool → Pred → Prop
  | u, .null => u = false
  | u, .compare _ a b => u = true → a.value ctx ≠ none ∧ b.value ctx ≠ none
  | u, .between e low high negated =>
    Bounded ((!negated) = u) (e.value ctx) (low.value ctx) (high.value ctx)
  | u, .isIn e items negated => inTruth (e.value ctx) (items.map (Operand.value ctx)) = none →
    (decide (e.value ctx ∈ items.map (Operand.value ctx)) ^^ negated) = u
  | _, .operandIsNull _ _ => True
  | _, .isNull p _ => p.reading ctx ≠ none ∧ (p = .null ↔ p.truth ctx = none)
  | u, .and p q =>
    p.reads ctx = some false ∧ ((p.truth ctx).counted u = true → (q.truth ctx).counted u = false) ∨
      p.reads ctx = some true ∧ if (p.truth ctx).counted u then q.Agrees ctx u
        else q.reads ctx = some false
  | u, .or p q =>
    p.reads ctx = some true ∧ ((p.truth ctx).counted u = false → (q.truth ctx).counted u = true) ∨
      p.reads ctx = some false ∧ if (p.truth ctx).counted u then q.reads ctx = some true
        else q.Agrees ctx u
  | u, .not p => p.Agrees ctx !u

def Operand.columns : Operand → List ColumnRef
  | .column ref => [ref]
  | _ => []

def Pred.columns : Pred → List ColumnRef
  | .null => []
  | .compare _ a b => a.columns ++ b.columns
  | .between e low high _ => e.columns ++ (low.columns ++ high.columns)
  | .isIn e items _ => e.columns ++ items.flatMap Operand.columns
  | .operandIsNull e _ => e.columns
  | .isNull p _ => p.columns
  | .and p q => p.columns ++ q.columns
  | .or p q => p.columns ++ q.columns
  | .not p => p.columns

def Integral (ctx : RowContext F) (ref : ColumnRef) : Prop :=
  ∃ cell, columnCell ctx ref = some cell ∧
    ∀ text, cell = some text → validUtf8 text = true ∧ (parseBits 64 text).isSome

section Evaluation

variable [Scalars F] {env : EvalEnv (Except EvalError) F} {ctx : RowContext F}

def intValue : Option ℤ → Value F
  | none => .null
  | some n => .int n

theorem eval_operand {o : Operand} (h : ∀ ref ∈ o.columns, Integral ctx ref) :
    eval env ctx o.toExpr = pure (intValue (o.value ctx)) := by
  cases o with
  | column ref =>
    obtain ⟨q, name⟩ := ref
    obtain ⟨cell, hcell, hinteger⟩ := h (q, name) (by simp [Operand.columns])
    have hvalue : (Value.fromBytes cell : Value F) =
      intValue (Operand.value ctx (.column (q, name))) := by
      rw [Operand.value, hcell]
      cases cell with
      | none => rfl
      | some text =>
        obtain ⟨hutf8, hparse⟩ := hinteger text rfl
        obtain ⟨n, hn⟩ := Option.isSome_iff_exists.mp hparse
        simp [Value.fromBytes, hutf8, hn, intValue]
    have hresolve : resolveColumn ctx q name = .ok (.fromBytes cell) := by
      rw [resolveColumn, show resolveCell ctx q name = some cell from hcell]
    cases q with
    | none | some q =>
      simp only [Operand.toExpr, eval, hresolve, hvalue, ofResult_except]
      rfl
  | int n => simp [Operand.toExpr, eval, Literal.value, Operand.value, intValue]
  | minus n =>
    have hrange : InRange 64 (-(n : ℤ)) := by
      constructor <;> omega
    simp only [Operand.toExpr, eval, Literal.value, pure_bind, evalUnop, hrange]
    rfl
  | null => simp [Operand.toExpr, eval, Literal.value, Operand.value, intValue]

theorem compareOfLessAndEq_gt {x y : ℤ} : compareOfLessAndEq x y = .gt ↔ y < x := by
  unfold compareOfLessAndEq
  split_ifs <;> simp <;> omega

theorem evalBinop_int (c : Comparison) :
    evalBinop c.op (.int x) (.int y : Value F) = .ok (.bool (c.holds x y)) := by
  have heq := compareOfLessAndEq_eq_iff (x := x) (y := y) Int.lt_irrefl
  cases c <;>
    simp [Comparison.op, Comparison.holds, evalBinop, compareOp, valueCompare, heq,
      compareOfLessAndEq_gt, bind, Except.bind]

/-- Unknown is false. -/
theorem evalBinop_intValue (c : Comparison) :
    evalBinop c.op (intValue a) (intValue b : Value F) =
      .ok (.bool (lift c.holds a b = some true)) := by
  rcases a with _ | x
  · cases c <;> simp [Comparison.op, evalBinop, compareOp, intValue, lift]
  rcases b with _ | y
  · cases c <;> simp [Comparison.op, evalBinop, compareOp, intValue, lift]
  simp [intValue, evalBinop_int, lift]

/-- NULL equals NULL and nothing else. -/
theorem compareIs_intValue : compareIs (· = .eq) (intValue a) (intValue b : Value F) =
    decide (a = b) := by
  rcases a with _ | x <;> rcases b with _ | y <;>
    simp [compareIs, valueCompare, intValue, compareOfLessAndEq_eq_iff Int.lt_irrefl]

theorem evalMember_operands {items : List Operand}
    (h : ∀ ref ∈ items.flatMap Operand.columns, Integral ctx ref) :
    evalMember env ctx (intValue e) (items.map Operand.toExpr) =
      pure (decide (e ∈ items.map (Operand.value ctx))) := by
  induction items with
  | nil => simp [evalMember]
  | cons item items ih =>
    simp only [flatMap_cons, forall_mem_append] at h
    simp only [map_cons, evalMember, eval_operand h.1, pure_bind, compareIs_intValue, ih h.2]
    by_cases heq : e = item.value ctx <;> simp [heq]

theorem valueCompare_intValue : (compareNulls a b = none →
    ∃ err, valueCompare (intValue a) (intValue b : Value F) = .error err) ∧
    ∀ o, compareNulls a b = some o → valueCompare (intValue a) (intValue b : Value F) = .ok o := by
  rcases a with _ | x <;> rcases b with _ | y <;> simp [compareNulls, valueCompare, intValue]

theorem inTruth_eq_true : inTruth e items = some true ↔ e ≠ none ∧ e ∈ items := by
  simp only [inTruth, Truth.any_eq_true, mem_map, lift_eq_true, Comparison.holds, decide_eq_true_eq]
  constructor
  · rintro ⟨item, hmem, x, y, rfl, rfl, rfl⟩
    exact ⟨by simp, hmem⟩
  · rintro ⟨hsome, hmem⟩
    obtain ⟨x, rfl⟩ := Option.ne_none_iff_exists'.mp hsome
    exact ⟨some x, hmem, x, x, rfl, rfl, rfl⟩

theorem inTruth_null (h : items ≠ []) : inTruth none items = none := by
  induction items with
  | nil => exact absurd rfl h
  | cons item items ih =>
    have hitem : lift Comparison.eq.holds none item = none := by cases item <;> rfl
    rw [inTruth, map_cons, Truth.any, hitem]
    cases items with
    | nil => rfl
    | cons item' items =>
      rw [show Truth.any _ = none from ih (by simp)]
      rfl

/-- The value of an expression whose reading is given. -/
def Shows (x : Except EvalError (Value F)) : Option Truth → Prop
  | none => ∃ err, x = .error err
  | some none => x = .ok .null
  | some (some b) => x = .ok (.bool b)

omit [Scalars F] in
theorem Shows.bind {r : Option Truth} {f : Value F → Except EvalError (Value F)}
    {g : Truth → Option Truth}
    (hx : Shows x r) (hf : ∀ b, r = some (some b) → Shows (f (.bool b)) (g (some b)))
    (hnull : r = some none → Shows (f .null) (g none)) : Shows (x >>= f) (r.bind g) := by
  rcases r with _ | _ | b
  · obtain ⟨err, rfl⟩ := hx
    exact ⟨err, rfl⟩
  · rw [show x = _ from hx]
    exact hnull rfl
  · rw [show x = _ from hx]
    exact hf b rfl

theorem eval_between {e low high : Operand} (he : eval env ctx e.toExpr =
    .ok (intValue (e.value ctx)))
    (hlow : eval env ctx low.toExpr = .ok (intValue (low.value ctx)))
    (hhigh : eval env ctx high.toExpr = .ok (intValue (high.value ctx))) :
    Shows (eval env ctx (Pred.between e low high negated).toExpr)
      ((Pred.between e low high negated).reading ctx) := by
  simp only [Pred.toExpr, eval, he, hlow, hhigh, Pred.reading, betweenReading, ofResult_except]
  obtain ⟨hnone, hsome⟩ := valueCompare_intValue (F := F) (a := e.value ctx) (b := low.value ctx)
  obtain ⟨hnone', hsome'⟩ := valueCompare_intValue (F := F) (a := e.value ctx) (b := high.value ctx)
  cases habove : compareNulls (e.value ctx) (low.value ctx) with
  | none =>
    obtain ⟨err, herr⟩ := hnone habove
    exact ⟨err, by simp only [bind, Except.bind, herr]⟩
  | some above =>
    simp only [bind, Except.bind, hsome above habove, Option.bind_some]
    by_cases hlt : above = .lt
    · simp only [if_pos hlt]
      cases negated <;> rfl
    · simp only [if_neg hlt]
      cases hbelow : compareNulls (e.value ctx) (high.value ctx) with
      | none =>
        obtain ⟨err, herr⟩ := hnone' hbelow
        exact ⟨err, by simp only [herr]⟩
      | some below =>
        simp only [hsome' below hbelow]
        cases negated <;> cases below <;> rfl

/-- Every predicate on integers is evaluated to its reading. -/
theorem eval_pred {p : Pred} (integral : ∀ ref ∈ p.columns, Integral ctx ref) :
    Shows (eval env ctx p.toExpr) (p.reading ctx) := by
  induction p with simp only [Pred.columns, forall_mem_append] at integral
  | null => rfl
  | compare c a b =>
    have hop : eval env ctx (.binaryOp c.op a.toExpr b.toExpr) = (do
        let l ← eval env ctx a.toExpr
        let r ← eval env ctx b.toExpr
        ofResult (evalBinop c.op l r)) := by
      cases c <;> simp [Comparison.op, eval]
    rw [Pred.toExpr, hop, eval_operand integral.1, eval_operand integral.2, pure_bind, pure_bind,
      evalBinop_intValue]
    rfl
  | between e low high negated =>
    exact eval_between (eval_operand integral.1) (eval_operand integral.2.1)
      (eval_operand integral.2.2)
  | isIn e items negated =>
    simp only [Pred.toExpr, eval, eval_operand integral.1, evalMember_operands integral.2,
      pure_bind, Pred.reading]
    cases negated <;> cases decide (e.value ctx ∈ items.map (Operand.value ctx)) <;> rfl
  | operandIsNull e negated =>
    simp only [Pred.toExpr, eval, eval_operand integral, pure_bind, Pred.reading]
    cases negated <;> cases e.value ctx <;> rfl
  | isNull p negated ih =>
    simp only [Pred.toExpr, eval, Pred.reading, Option.map_eq_bind]
    refine (ih integral).bind (fun b _ => ?_) fun _ => ?_ <;> cases negated <;> rfl
  | and p q ihp ihq =>
    simp only [Pred.toExpr, eval, Pred.reading]
    refine (ihp integral.1).bind (fun b _ => ?_) fun _ => rfl
    cases b with
    | false => rfl
    | true =>
      simp only [Value.isTruthy, Bool.not_true, Bool.false_eq_true, if_false, if_true,
        Option.map_eq_bind]
      exact (ihq integral.2).bind (fun b _ => by cases b <;> rfl) fun _ => rfl
  | or p q ihp ihq =>
    simp only [Pred.toExpr, eval, Pred.reading]
    have hq := (ihq integral.2).bind (f := fun v => pure (.bool v.isTruthy))
      (g := fun r => some (some (r = some true)))
      (fun b _ => by cases b <;> rfl) fun _ => rfl
    refine (ihp integral.1).bind (fun b _ => ?_) fun _ => ?_
    · cases b with
      | false => simpa [Value.isTruthy, Option.map_eq_bind] using hq
      | true => rfl
    · simpa [Value.isTruthy, Option.map_eq_bind] using hq
  | not p ih =>
    simp only [Pred.toExpr, eval, Pred.reading, Option.map_eq_bind, ofResult_except]
    exact (ih integral).bind (fun b _ => by cases b <;> rfl) fun _ => rfl

omit [Scalars F] in
theorem between_agrees (u negated : Bool) (e low high : Option ℤ) :
    Bounded ((!negated) = u) e low high ↔ (betweenReading e low high).map (· ^^ negated) =
      some (((betweenTruth e low high).negateIf negated).counted u) := by
  have hinj : Function.Injective (· ^^ negated) := by
    intro a b h
    cases a <;> cases b <;> cases negated <;> simp_all
  rw [Truth.counted_negateIf, ← Option.map_some (f := (· ^^ negated)),
    (Option.map_injective hinj).eq_iff]
  rcases e with _ | x <;> rcases low with _ | l
  · rcases high with _ | h
    · cases u <;> cases negated <;>
        simp [Bounded, betweenReading, compareNulls, betweenTruth, lift, Truth.and, Truth.counted]
    · simp [Bounded, betweenReading, compareNulls]
  · simp [Bounded, betweenReading, compareNulls]
  · simp [Bounded, betweenReading, compareNulls]
  · by_cases hlt : x < l
    · have hfalse : (betweenTruth (some x) (some l) high) = some false := by
        have hge : Comparison.gte.holds x l = false := by simp [Comparison.holds, hlt]
        simp [betweenTruth, lift, hge, Truth.and]
      rw [hfalse]
      cases high <;> simp [Bounded, betweenReading, compareNulls, compareOfLessAndEq_eq_lt.mpr hlt,
        hlt, Truth.counted]
    · have hne : compareOfLessAndEq x l ≠ .lt := fun h => hlt (compareOfLessAndEq_eq_lt.mp h)
      have hge : Comparison.gte.holds x l = true := by simpa [Comparison.holds] using hlt
      rcases high with _ | h
      · simp [Bounded, betweenReading, compareNulls, hne, hlt]
      · simp only [Bounded, betweenReading, compareNulls, Option.bind_some, if_neg hne,
          Option.map_some, betweenTruth,
          lift, hge, true_iff, Option.some.injEq]
        by_cases hgt : h < x
        · simp [compareOfLessAndEq_gt.mpr hgt, Comparison.holds, not_le.mpr hgt, Truth.and,
            Truth.counted]
        · have hnot : compareOfLessAndEq x h ≠ .gt := fun heq => hgt (compareOfLessAndEq_gt.mp heq)
          simp [hnot, Comparison.holds, not_lt.mp hgt, Truth.and, Truth.counted]

omit [Scalars F] in
theorem isIn_agrees (u : Bool) (e : Option ℤ) (items : List (Option ℤ)) :
    (inTruth e items = none → decide (e ∈ items) = u) ↔
      decide (e ∈ items) = (inTruth e items).counted u := by
  rcases ht : inTruth e items with _ | _ | _
  · simp [Truth.counted]
  · -- what is known not to be in the list is not found in it
    have hnot : e ∉ items := by
      intro hmem
      by_cases hnone : e = none
      · rw [hnone, inTruth_null (ne_nil_of_mem hmem)] at ht
        cases ht
      · rw [inTruth_eq_true.mpr ⟨hnone, hmem⟩] at ht
        cases ht
    simp [Truth.counted, hnot]
  · simp [Truth.counted, (inTruth_eq_true.mp ht).2]

omit [Scalars F] in
/-- The NULLs do no harm exactly where the reading is right. -/
theorem agrees_iff (u : Bool) (p : Pred) : p.Agrees ctx u ↔
    p.reads ctx = some ((p.truth ctx).counted u) := by
  induction p generalizing u with
  | null => cases u <;> simp [Pred.Agrees, Pred.reads, Pred.reading, Pred.truth, Truth.counted]
  | compare c a b =>
    simp only [Pred.Agrees, Pred.reads, Pred.reading, Pred.truth]
    rcases a.value ctx with _ | x <;> rcases b.value ctx with _ | y <;> cases u <;> simp [lift,
      Truth.counted]
  | between e low high negated =>
    rw [Pred.Agrees, between_agrees, Pred.reads, Pred.reading, Pred.truth, Option.map_map]
    simp [Function.comp_def]
  | isIn e items negated =>
    simp only [Pred.Agrees, Pred.reads, Pred.reading, Pred.truth, Truth.counted_negateIf,
      Option.map_some,
      Option.some.injEq, Bool.decide_eq_true]
    have hlist := isIn_agrees (u ^^ negated) (e.value ctx) (items.map (Operand.value ctx))
    cases negated <;> cases u <;> simpa using hlist
  | operandIsNull e negated =>
    cases negated <;> cases hv : e.value ctx <;>
      simp [Pred.Agrees, Pred.reads, Pred.reading, Pred.truth, Truth.negateIf, Truth.not,
        Truth.counted, hv]
  | isNull p negated ih =>
    have hnull : p.reading ctx = some none ↔ p = .null := by
      cases p with
      | and p q | or p q =>
        rcases hp : p.reading ctx with _ | _ | _ | _ <;> simp [Pred.reading, hp]
      | _ => simp [Pred.reading]
    simp only [Pred.Agrees, Pred.reads, Pred.reading, Pred.truth, Truth.counted_negateIf]
    rcases hr : p.reading ctx with _ | r
    · simp
    · rw [hr, Option.some.injEq] at hnull
      rw [← hnull]
      cases negated <;> rcases r with _ | _ | _ <;> rcases p.truth ctx with _ | _ |
        _ <;> simp [Truth.counted]
  | and p q ihp ihq =>
    simp only [Pred.Agrees, ihq, Pred.truth, Truth.counted_and]
    have hreads : (p.and q).reads ctx =
        (p.reads ctx).bind fun b => if b then q.reads ctx else some false := by
      rcases hr : p.reading ctx with _ | _ | _ | _ <;> simp [Pred.reads, Pred.reading, hr,
        Function.comp_def]
    rw [hreads]
    rcases p.reads ctx with _ | _ | _ <;> cases (p.truth ctx).counted u <;> simp
  | or p q ihp ihq =>
    simp only [Pred.Agrees, ihq, Pred.truth, Truth.counted_or]
    have hreads : (p.or q).reads ctx =
        (p.reads ctx).bind fun b => if b then some true else q.reads ctx := by
      rcases hr : p.reading ctx with _ | _ | _ | _ <;> simp [Pred.reads, Pred.reading, hr,
        Function.comp_def]
    rw [hreads]
    rcases p.reads ctx with _ | _ | _ <;> cases (p.truth ctx).counted u <;> simp
  | not p ih =>
    simp only [Pred.Agrees, ih, Pred.truth, Truth.counted_not]
    rcases hr : p.reading ctx with _ | _ | _ | _ <;> simp [Pred.reads, Pred.reading, hr]

end Evaluation

def xSchema : TableSchema := ⟨"t", [⟨"x", .int8, true, none, false⟩], [], [], [], []⟩

def xRow (cell : Cell) : RowContext Unit := RowContext.new [cell] (some xSchema)

def x : Operand := .column (none, "x")

end ExecutorWhere
