import Keystone.ExecutorAggregate

/-! # Integer arithmetic

Addition, subtraction and multiplication are checked, every other operation on integers is not. The
integer expressions of SQL get the value they should have: the exact one, or an error. -/
namespace ExecutorArithmetic

open DecimalText ExecutorAggregate ExecutorEval ExecutorValue List SqlAst StorageInternalKey

variable {F : Type}

inductive IntOp where
  | add | sub | mul | div | mod

inductive IntExpr where
  | int (n : ℤ)
  | column (ref : ColumnRef)
  | neg (e : IntExpr)
  | abs (e : IntExpr)
  | op (o : IntOp) (l r : IntExpr)
  | modCall (l r : IntExpr)

def IntOp.binOp : IntOp → BinOp
  | .add => .add
  | .sub => .sub
  | .mul => .mul
  | .div => .div
  | .mod => .mod

namespace IntExpr

def toExpr : IntExpr → Expr F
  | .int n => .literal (.int n)
  | .column (none, name) => .ident name
  | .column (some q, name) => .qualifiedIdent q name
  | .neg e => .unaryOp .neg e.toExpr
  | .abs e => .function "abs" [e.toExpr] false
  | .op o l r => .binaryOp o.binOp l.toExpr r.toExpr
  | .modCall l r => .function "mod" [l.toExpr, r.toExpr] false

def fitting (n : ℤ) : Except EvalError ℤ := if InRange 64 n then .ok n else .error .integerOverflow

def exactOp (o : IntOp) (a b : ℤ) : Except EvalError ℤ :=
  match o with
  | .add => fitting (a + b)
  | .sub => fitting (a - b)
  | .mul => fitting (a * b)
  | .div => if b = 0 then .error .divisionByZero else fitting (a.tdiv b)
  | .mod => if b = 0 then .error .divisionByZero else .ok (a.tmod b)

/-- What an expression is worth: exact, or an error. -/
def exact (cols : ColumnRef → ℤ) : IntExpr → Except EvalError ℤ
  | .int n => .ok n
  | .column ref => .ok (cols ref)
  | .neg e => do fitting (-(← e.exact cols))
  | .abs e => do fitting |← e.exact cols|
  | .op o l r => do exactOp o (← l.exact cols) (← r.exact cols)
  | .modCall l r => do exactOp .mod (← l.exact cols) (← r.exact cols)

/-- Only the checked operations leave the range; what is behind an error is not computed. -/
def Safe (cols : ColumnRef → ℤ) : IntExpr → Prop
  | .int _ | .column _ => True
  | .neg e => e.Safe cols ∧ ∀ a, e.exact cols = .ok a → InRange 64 (-a)
  | .abs e => e.Safe cols ∧ ∀ a, e.exact cols = .ok a → InRange 64 |a|
  | .op o l r => l.Safe cols ∧ ∀ a, l.exact cols = .ok a → r.Safe cols ∧
      ∀ b, r.exact cols = .ok b → o = .div ∨ o = .mod → InRange 64 (a.tdiv b)
  | .modCall l r => l.Safe cols ∧ ∀ a, l.exact cols = .ok a → r.Safe cols ∧
      ∀ b, r.exact cols = .ok b → InRange 64 (a.tdiv b)

/-- The columns hold integers, and no function has been computed yet. -/
def Reads (ctx : RowContext F) [Scalars F] (cols : ColumnRef → ℤ) : IntExpr → Prop
  | .int _ => True
  | .column ref => resolveColumn ctx ref.1 ref.2 = .ok (.int (cols ref))
  | .neg e => e.Reads ctx cols
  | .abs e => e.Reads ctx cols
  | .op _ l r => l.Reads ctx cols ∧ r.Reads ctx cols
  | .modCall l r => l.Reads ctx cols ∧ r.Reads ctx cols

section Exact

variable [Scalars F] {env : EvalEnv (Except EvalError) F} {ctx : RowContext F}
  {cols : ColumnRef → ℤ} {e : IntExpr}
  (hlower : ∀ name ∈ ["abs", "mod"], Scalars.lower F (utf8 name) = utf8 name)

omit [Scalars F] in
theorem exact_ne_panic (e : IntExpr) : e.exact cols ≠ .error .panic := by
  have hfitting n : fitting n ≠ .error .panic := by
    unfold fitting
    split_ifs <;> simp
  have hop o a b : exactOp o a b ≠ .error .panic := by
    cases o <;> simp only [exactOp] <;> (try split_ifs) <;> simp [hfitting]
  induction e with
  | int n | column ref => simp [exact]
  | neg e ih | abs e ih =>
    rw [exact]
    cases he : e.exact cols with
    | error err => exact fun h => ih (he.trans h)
    | ok a => exact hfitting _
  | op o l r ihl ihr =>
    rw [exact]
    cases hl : l.exact cols with
    | error err => exact fun h => ihl (hl.trans h)
    | ok a =>
      cases hr : r.exact cols with
      | error err => exact fun h => ihr (hr.trans h)
      | ok b => exact hop o a b
  | modCall l r ihl ihr =>
    rw [exact]
    cases hl : l.exact cols with
    | error err => exact fun h => ihl (hl.trans h)
    | ok a =>
      cases hr : r.exact cols with
      | error err => exact fun h => ihr (hr.trans h)
      | ok b => exact hop .mod a b

/-- The exact value where the condition holds, and a panic where it does not. -/
def ExactIff (p : Prop) (r : Except EvalError (Value F)) (x : Except EvalError ℤ) : Prop :=
  (p → r = x.map .int) ∧ (¬ p → r = .error .panic)

omit [Scalars F] in
theorem ExactIff.of_fitting (n : ℤ) :
    ExactIff (InRange 64 n) (if InRange 64 n then .ok (.int n : Value F) else .error .panic)
      (fitting n) := by
  refine ⟨fun h => ?_, fun h => if_neg h⟩
  rw [if_pos h, fitting, if_pos h]
  rfl

omit [Scalars F] in
theorem ExactIff.iff {x : Except EvalError ℤ} (h : ExactIff p r x) (hx : x ≠ .error .panic) :
    r = x.map (.int : ℤ → Value F) ↔ p := by
  refine ⟨fun heq => by_contra fun hp => ?_, h.1⟩
  rw [h.2 hp] at heq
  cases x with
  | error err => exact hx (congrArg _ (Except.error.inj heq).symm)
  | ok a => cases heq

omit [Scalars F] in
theorem ExactIff.bind {q : ℤ → Prop} {x : Except EvalError ℤ}
    {f : Value F → Except EvalError (Value F)}
    (hr : ExactIff p r x) (hf : ∀ a, x = .ok a → ExactIff (q a) (f (.int a)) (g a)) :
    ExactIff (p ∧ ∀ a, x = .ok a → q a) (r >>= f) (x >>= g) := by
  constructor
  · rintro ⟨hp, hq⟩
    rw [hr.1 hp]
    cases x with
    | error err => rfl
    | ok a => exact (hf a rfl).1 (hq a rfl)
  · intro hnot
    by_cases hp : p
    · obtain ⟨a, rfl, hqa⟩ : ∃ a, x = .ok a ∧ ¬ q a := by
        by_contra hall
        exact hnot ⟨hp, fun a ha => by_contra fun hqa => hall ⟨a, ha, hqa⟩⟩
      rw [hr.1 hp]
      exact (hf a rfl).2 hqa
    · rw [hr.2 hp]
      rfl

theorem evalBinop_exact (o : IntOp) (a b : ℤ) :
    ExactIff (o = .div ∨ o = .mod → InRange 64 (a.tdiv b))
      (evalBinop o.binOp (.int a : Value F) (.int b))
      (exactOp o a b) := by
  cases o with
  | add | sub | mul =>
    refine ⟨fun _ => ?_, fun h => absurd (by simp) h⟩
    simp only [IntOp.binOp, evalBinop, evalArithmetic, checked, exactOp, fitting]
    split_ifs <;> rfl
  | div | mod =>
    simp only [IntOp.binOp, evalBinop, evalArithmetic, unchecked, exactOp, fitting, reduceCtorEq,
      or_true, or_false,
      forall_const]
    by_cases hb : b = 0
    · subst hb
      exact ⟨fun _ => rfl, fun h => absurd (by simp [InRange]) h⟩
    · simp only [if_neg hb]
      by_cases hfits : InRange 64 (a.tdiv b)
      · exact ⟨fun _ => by simp only [if_pos hfits]; rfl, fun h => absurd hfits h⟩
      · exact ⟨fun h => absurd h hfits, fun _ => if_neg hfits⟩

theorem modValues_exact (a b : ℤ) :
    ExactIff (InRange 64 (a.tdiv b)) (modValues (.int a : Value F) (.int b))
      (exactOp .mod a b) := by
  by_cases hb : b = 0
  · subst hb
    exact ⟨fun _ => rfl, fun h => absurd (by simp [InRange]) h⟩
  · simp only [modValues, unchecked, exactOp, if_neg hb]
    exact ⟨fun h => by rw [if_pos h]; rfl, fun h => if_neg h⟩

include hlower in
theorem evalFunction_named (name : String) (hname : name ∈ ["abs", "mod"]) :
    normalizeFunction F name = utf8 name ∧ isAggregateName F name = false := by
  simp only [normalizeFunction, isAggregateName, hlower name hname]
  simp only [mem_cons, not_mem_nil, or_false] at hname
  rcases hname with rfl | rfl <;> decide

include hlower in
theorem eval_exact (hplain : ∀ x, ctx.computed x = none) (hreads : e.Reads ctx cols) :
    ExactIff (e.Safe cols) (eval env ctx e.toExpr) (e.exact cols) := by
  induction e with
  | int n => exact ⟨fun _ => rfl, fun h => absurd trivial h⟩
  | column ref =>
    refine ⟨fun _ => ?_, fun h => absurd trivial h⟩
    obtain ⟨_ | q, name⟩ := ref
    · simpa [toExpr, eval, exact] using! hreads
    · simpa [toExpr, eval, exact] using! hreads
  | neg e ih =>
    rw [toExpr, eval, exact, Safe]
    refine (ih hreads).bind fun a _ => ?_
    rw [ofResult_except]
    exact .of_fitting _
  | abs e ih =>
    obtain ⟨hnorm, hagg⟩ := evalFunction_named hlower "abs" (by simp)
    rw [toExpr, eval, hplain, hagg, exact, Safe]
    simp only [evalArgs, evalFunction, hnorm]
    refine (ih hreads).bind fun a _ => ?_
    rw [ofResult_except]
    exact .of_fitting _
  | op o l r ihl ihr =>
    have hop : eval env ctx (IntExpr.op o l r).toExpr = (do
        let a ← eval env ctx l.toExpr
        let b ← eval env ctx r.toExpr
        evalBinop o.binOp a b) := by
      cases o <;> simp [toExpr, eval, IntOp.binOp]
    rw [hop, exact, Safe]
    exact (ihl hreads.1).bind fun a _ => (ihr hreads.2).bind fun b _ => evalBinop_exact o a b
  | modCall l r ihl ihr =>
    obtain ⟨hnorm, hagg⟩ := evalFunction_named hlower "mod" (by simp)
    rw [toExpr, eval, hplain, hagg, exact, Safe]
    simp only [evalArgs, evalFunction, hnorm]
    refine (ihl hreads.1).bind fun a _ => (ihr hreads.2).bind fun b _ => ?_
    rw [ofResult_except]
    exact modValues_exact a b

end Exact

end IntExpr

section Sums

/-- No sum along the way leaves the range. -/
def SumsFit : ℤ → List ℤ → Prop
  | _, [] => True
  | n, k :: ns => InRange 64 (n + k) ∧ SumsFit (n + k) ns

def exactSum (ns : List ℤ) : Except EvalError (Value F) :=
  if ns.isEmpty then .ok .null else (IntExpr.fitting ns.sum).map .int

/-- The value of a row, which is missing where a column that stands alone is NULL. -/
def rowValue (e : IntExpr) (cols : Row → Option (ColumnRef → ℤ)) (row : Row) :
    Except EvalError (Option ℤ) :=
  match cols row with
  | none => .ok none
  | some c => (e.exact c).map some

/-- Every row up to the first error is safe. -/
def RowsSafe (e : IntExpr) (cols : Row → Option (ColumnRef → ℤ)) : List Row → Prop
  | [] => True
  | row :: rows =>
    (∀ c ∈ cols row, e.Safe c) ∧ ∀ k, rowValue e cols row = .ok k → RowsSafe e cols rows

variable [Scalars F]

def RowReads (F : Type) [Scalars F] (schema : Option TableSchema) (e : IntExpr)
    (cols : Row → Option (ColumnRef → ℤ)) (row : Row) : Prop :=
  match cols row with
  | none =>
    ∃ ref, e = .column ref ∧ resolveColumn (F := F) (.new row schema) ref.1 ref.2 = .ok .null
  | some c => e.Reads (F := F) (.new row schema) c

omit [Scalars F] in
theorem inRange_of_sumsFit {ns : List ℤ} (h : SumsFit n ns) (hne : ns ≠ []) :
    InRange 64 (n + ns.sum) := by
  induction ns generalizing n with
  | nil => exact absurd rfl hne
  | cons k ns ih =>
    rw [sum_cons, ← Int.add_assoc]
    by_cases hns : ns = []
    · simpa [hns] using h.1
    · exact ih h.2 hns

theorem sumFrom_exact (n : ℤ) (ns : List ℤ) (f : F) :
    (SumsFit n ns → sumFrom (ns.map .int) false n f = .ok (.int (n + ns.sum))) ∧
      (¬ SumsFit n ns → sumFrom (ns.map .int) false n f = .error .panic) := by
  induction ns generalizing n f with
  | nil => simp [sumFrom, SumsFit]
  | cons k ns ih =>
    by_cases hk : InRange 64 (n + k)
    · simpa [sumFrom, SumsFit, hk, Int.add_assoc] using ih (n + k) _
    · simp [sumFrom, SumsFit, hk]

theorem reduceAggregate_exact (ns : List ℤ) :
    reduceAggregate (utf8 "sum") (ns.map (.int : ℤ → Value F)) = exactSum ns ↔ SumsFit 0 ns := by
  by_cases hns : ns = []
  · simp [hns, reduceAggregate, exactSum, SumsFit]
  · simp only [reduceAggregate, exactSum, isEmpty_map, if_true, List.isEmpty_iff, if_neg hns]
    obtain ⟨hfits, hpanic⟩ := sumFrom_exact 0 ns (Scalars.ofInt 0 : F)
    by_cases h : SumsFit 0 ns
    · have hrange := inRange_of_sumsFit h hns
      rw [Int.zero_add] at hrange
      simp only [hfits h, Int.zero_add, IntExpr.fitting, if_pos hrange, h, iff_true]
      rfl
    · simp only [hpanic h, IntExpr.fitting, h, iff_false]
      split_ifs <;> simp [Except.map]

variable {env : EvalEnv (Except EvalError) F} {schema : Option TableSchema} {e : IntExpr}
  {cols : Row → Option (ColumnRef → ℤ)}
  (hlower : ∀ name ∈ ["abs", "mod"], Scalars.lower F (utf8 name) = utf8 name)

include hlower in
theorem aggregateValues_exact {rows : List Row}
    (hreads : ∀ row ∈ rows, RowReads F schema e cols row) (seen) :
    (RowsSafe e cols rows → aggregateValues env schema e.toExpr false rows seen =
        (rows.mapM (rowValue e cols)).map fun ns => ns.reduceOption.map .int) ∧
      (¬ RowsSafe e cols rows → aggregateValues env schema e.toExpr false rows seen =
        .error .panic) := by
  induction rows generalizing seen with
  | nil => exact ⟨fun _ => rfl, fun h => absurd trivial h⟩
  | cons row rows ih =>
    have hrow := hreads row (.head _)
    have ih := fun seen => ih (fun r hr => hreads r (.tail _ hr)) seen
    unfold RowReads at hrow
    rw [aggregateValues, RowsSafe, mapM_cons]
    cases hc : cols row with
    | none =>
      have hvalue : rowValue e cols row = .ok none := by rw [rowValue, hc]
      rw [hc] at hrow
      rw [hvalue]
      obtain ⟨⟨q, name⟩, rfl, hnull⟩ := hrow
      have heval : eval env (.new row schema) (IntExpr.column (q, name)).toExpr = .ok .null := by
        cases q <;> simpa [IntExpr.toExpr, eval] using! hnull
      rw [heval]
      change (_ → aggregateValues _ _ _ _ _ _ = _) ∧ (_ → aggregateValues _ _ _ _ _ _ = _)
      obtain ⟨hsafe, hpanic⟩ := ih seen
      refine ⟨fun h => ?_, fun h => hpanic fun hrest => h ⟨nofun, fun _ _ => hrest⟩⟩
      rw [hsafe (h.2 none rfl)]
      cases rows.mapM (rowValue (IntExpr.column (q, name)) cols) <;> rfl
    | some c =>
      have hvalue : rowValue e cols row = (e.exact c).map some := by rw [rowValue, hc]
      rw [hc] at hrow
      rw [hvalue]
      obtain ⟨hexact, hpanic⟩ := IntExpr.eval_exact hlower (fun _ => rfl) hrow
      by_cases hs : e.Safe c
      · rw [hexact hs]
        cases hv : e.exact c with
        | error err => exact ⟨fun _ => rfl, fun h => absurd ⟨by rintro _ ⟨⟩; exact hs, nofun⟩ h⟩
        | ok n =>
          obtain ⟨hrest, hrestPanic⟩ := ih ((Value.int n : Value F).debugKey :: seen)
          change (_ → (do
            let vs ← aggregateValues env schema e.toExpr false rows
              ((Value.int n : Value F).debugKey :: seen)
            pure (Value.int n :: vs)) = _) ∧ (_ → (do
            let vs ← aggregateValues env schema e.toExpr false rows
              ((Value.int n : Value F).debugKey :: seen)
            pure (Value.int n :: vs)) = _)
          refine ⟨fun h => ?_, fun h => ?_⟩
          · rw [hrest (h.2 (some n) rfl)]
            cases rows.mapM (rowValue e cols) <;> rfl
          · rw [hrestPanic fun hr => h ⟨by rintro _ ⟨⟩; exact hs, fun _ _ => hr⟩]
            rfl
      · rw [hpanic hs]
        exact ⟨fun h => absurd (h.1 c rfl) hs, fun _ => rfl⟩

theorem mapM_rowValue_ne_panic (rows : List Row) : rows.mapM (rowValue e cols) ≠ .error .panic := by
  have hvalue row : rowValue e cols row ≠ .error .panic := by
    cases hc : cols row with
    | none => simp [rowValue, hc]
    | some c =>
      have hne := @IntExpr.exact_ne_panic c e
      cases hv : e.exact c <;> simp_all [rowValue, Except.map]
  induction rows with
  | nil => exact nofun
  | cons row rows ih =>
    rw [mapM_cons]
    have hrow := hvalue row
    cases hv : rowValue e cols row with
    | error err =>
      rw [hv] at hrow
      exact fun h => hrow (by cases h; rfl)
    | ok k =>
      cases hrest : rows.mapM (rowValue e cols) with
      | error err =>
        rw [hrest] at ih
        exact ih
      | ok ks => exact nofun

end Sums

/-- The number and the unit of an interval. -/
def intervalParts (text : Bytes) : Option (ℤ × ℤ) :=
  let text := trim text
  let number := text.takeWhile isDigit
  if number.length = text.length then none
  else do
    let n ← parseBits 64 (trim number)
    let unit ← intervalUnit (text.drop number.length)
    some (n, unit)

open IntExpr in
/-- Integer expressions, their sums over rows and intervals are exact, or fail with an error,
exactly as long as only checked operations leave the range. -/
theorem integers_exact_iff [Scalars F] (hlower : ∀ name ∈ ["abs", "mod"],
    Scalars.lower F (utf8 name) = utf8 name)
    (env : EvalEnv (Except EvalError) F) (e : IntExpr) :
    (∀ ctx cols, (∀ x, ctx.computed x = none) → e.Reads ctx cols →
      (eval env ctx e.toExpr = (e.exact cols).map .int ↔ e.Safe cols)) ∧
    (∀ rows schema cols, (∀ row ∈ rows, RowReads F schema e cols row) →
      (evalAggregate env (utf8 "sum") (some e.toExpr) false rows schema =
          (do exactSum (← rows.mapM (rowValue e cols)).reduceOption) ↔
        RowsSafe e cols rows ∧ ∀ ns, rows.mapM (rowValue e cols) = .ok ns →
          SumsFit 0 ns.reduceOption)) ∧
    ∀ text, parseInterval text = ((intervalParts text).map fun p => fitting (p.1 * p.2)) ↔
      ∀ p ∈ intervalParts text, InRange 64 (p.1 * p.2) := by
  refine ⟨fun ctx cols hplain hreads => (eval_exact hlower hplain hreads).iff (exact_ne_panic e),
    fun rows schema cols hrows => ?_, fun text => ?_⟩
  · obtain ⟨hsafe, hpanic⟩ := aggregateValues_exact hlower hrows []
    have hsum : evalAggregate env (utf8 "sum") (some e.toExpr) false rows schema = (do
        let vs ← aggregateValues env schema e.toExpr false rows []
        reduceAggregate (utf8 "sum") vs) := by
      simp only [evalAggregate, ofResult_except]
      rfl
    have hne := @mapM_rowValue_ne_panic e cols rows
    rw [hsum]
    by_cases h : RowsSafe e cols rows
    · rw [hsafe h]
      cases hns : rows.mapM (rowValue e cols) with
      | error err => exact ⟨fun _ => ⟨h, nofun⟩, fun _ => rfl⟩
      | ok ns =>
        refine (reduceAggregate_exact ns.reduceOption).trans ⟨fun hfits => ⟨h, ?_⟩,
          fun hfits => hfits.2 ns rfl⟩
        rintro _ ⟨⟩
        exact hfits
    · rw [hpanic h]
      refine ⟨fun heq => ?_, fun hsafe => absurd hsafe.1 h⟩
      cases hns : rows.mapM (rowValue e cols) with
      | error err =>
        rw [hns] at heq hne
        exact absurd (by cases heq; rfl) hne
      | ok ns =>
        rw [hns] at heq
        change .error .panic = exactSum ns.reduceOption at heq
        simp only [exactSum, fitting] at heq
        split_ifs at heq <;> cases heq
  · have hparts : parseInterval text = (intervalParts text).map fun p =>
        if InRange 64 (p.1 * p.2) then .ok (p.1 * p.2) else .error .panic := by
      simp only [parseInterval, intervalParts]
      split_ifs
      · rfl
      · simp [Option.map_bind]
    rw [hparts]
    cases intervalParts text with
    | none => simp
    | some p => by_cases hp : InRange 64 (p.1 * p.2) <;> simp [fitting, hp]

/-- A division by zero in front of a negation that would panic, and a sum over a NULL. -/
theorem integers_exact_iff_divided :
    let e : IntExpr := .op .add (.op .div (.int 1) (.int 0)) (.neg (.int (-2 ^ 63)))
    eval (withoutDb Unit) .empty e.toExpr = .error .divisionByZero ∧
      evalAggregate (withoutDb Unit) (utf8 "sum") (some (IntExpr.column (none, "v")).toExpr) false
        [[some (utf8 "7")], [none], [some (utf8 "-9")]]
        (some ⟨"t", [⟨"v", .int8, true, none, false⟩], [], [], [], []⟩) = .ok (.int (-2)) := by
  intro e
  have hsafe : e.Safe fun _ => 0 :=
    ⟨⟨trivial, fun a ha => ⟨trivial, fun b hb _ => by cases ha; cases hb; decide⟩⟩, nofun⟩
  let cols (row : Row) : Option (ColumnRef → ℤ) :=
    if row = [none] then none else some fun _ => if row = [some (utf8 "7")] then 7 else -9
  have hexact := integers_exact_iff (fun _ _ => rfl) (withoutDb Unit)
  refine ⟨((hexact e).1 .empty (fun _ => 0) (fun _ => rfl) ⟨⟨trivial, trivial⟩, trivial⟩).mpr hsafe,
    ?_⟩
  refine ((hexact (.column (none, "v"))).2.1 _ _ cols ?_).mpr ⟨?_, ?_⟩
  · simp only [forall_mem_cons]
    exact ⟨rfl, ⟨_, rfl, rfl⟩, rfl, nofun⟩
  · exact ⟨fun _ _ => trivial, fun _ _ => ⟨fun _ _ => trivial,
      fun _ _ => ⟨fun _ _ => trivial, fun _ _ => trivial⟩⟩⟩
  · rintro ns ⟨⟩
    exact ⟨by decide, by decide, trivial⟩

theorem integers_panic :
    let least : IntExpr := .op .sub (.neg (.int (2 ^ 63 - 1))) (.int 1)
    let run (e : IntExpr) := eval (withoutDb Unit) .empty e.toExpr
    run least = .ok (.int (-2 ^ 63)) ∧ run (.neg least) = .error .panic ∧
      run (.abs least) = .error .panic ∧
      run (.op .div least (.neg (.int 1))) = .error .panic ∧
        run (.op .mod least (.neg (.int 1))) = .error .panic ∧
      run (.modCall least (.neg (.int 1))) = .error .panic ∧
      evalAggregate (withoutDb Unit) (utf8 "sum") (some (IntExpr.int (2 ^ 63 - 1)).toExpr) false
        [[], []] none =
        .error .panic ∧
      parseInterval (utf8 "9223372036854775807 sec") = some (.error .panic) := by
  decide

end ExecutorArithmetic
