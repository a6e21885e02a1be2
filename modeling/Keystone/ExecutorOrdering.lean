import Keystone.ExecutorSelect

/-! # ORDER BY, LIMIT and OFFSET

Rows are compared key by key, and a comparison that fails counts as equal. So it depends on the rows
whether the order of their keys is a preorder. -/
namespace ExecutorOrdering

open ExecutorAggregate ExecutorEval ExecutorSelect ExecutorValue FallibleLists List SqlAst Std

section Comparators

variable {α β : Type*} {cmp : α → α → Ordering}

/-- A comparison that is antisymmetric and transitive on the members of a list. -/
structure PreordersList (c : α → α → Ordering) (l : List α) : Prop where
  swap : ∀ a ∈ l, ∀ b ∈ l, c b a = (c a b).swap
  trans : ∀ a ∈ l, ∀ b ∈ l, ∀ d ∈ l, c a b ≠ .gt → c b d ≠ .gt → c a d ≠ .gt

/-- It is a total preorder, with everything else behind the members. -/
theorem PreordersList.transCmp {c : α → α → Ordering} {l : List α} (h : PreordersList c l) :
    ∃ cmp, TransCmp cmp ∧ ∀ a ∈ l, ∀ b ∈ l, c a b = cmp a b := by
  classical
  let cmp a b := if a ∈ l then if b ∈ l then c a b else .lt else if b ∈ l then .gt else .eq
  refine ⟨cmp, { eq_swap := fun {a b} => ?_, isLE_trans := fun {a b d} hab hbd => ?_ },
    fun a ha b hb => by simp [cmp, ha, hb]⟩
  · have hswap := h.swap b
    by_cases ha : a ∈ l <;> by_cases hb : b ∈ l <;> simp_all [cmp]
  · have htrans := h.trans a
    rw [Ordering.isLE_iff_ne_gt] at hab hbd ⊢
    by_cases ha : a ∈ l <;> by_cases hb : b ∈ l <;> by_cases hd : d ∈ l <;> simp_all [cmp]
    exact htrans b hb d hd hab hbd

/-- Sorting looks only at the members of the list. -/
theorem pairwise_insertionSort_of_mem (hcmp : TransCmp cmp) {c : α → α → Ordering} {l : List α}
    (h : ∀ a ∈ l, ∀ b ∈ l, c a b = cmp a b) :
    (l.insertionSort fun a b => c a b ≠ .gt).Pairwise fun a b => c b a ≠ .lt := by
  have hsame : l.insertionSort (fun a b => cmp a b ≠ .gt) = l.insertionSort fun a b =>
    c a b ≠ .gt := by
    simpa using map_insertionSort (r := fun a b => cmp a b ≠ .gt) (s := fun a b => c a b ≠ .gt) id l
      fun a ha b hb => by simp [h a ha b hb]
  have hswap a b : cmp b a = (cmp a b).swap := OrientedCmp.eq_swap
  have htotal : Std.Total fun a b => cmp a b ≠ .gt := ⟨fun a b => by
    rw [hswap a b]
    cases cmp a b <;> simp⟩
  have htrans : IsTrans α fun a b => cmp a b ≠ .gt := ⟨fun a b d hab hbd => by
    simp only [← Ordering.isLE_iff_ne_gt] at hab hbd ⊢
    exact TransCmp.isLE_trans hab hbd⟩
  rw [← hsame]
  refine (pairwise_insertionSort (fun a b => cmp a b ≠ .gt) l).imp_of_mem fun {a b} ha hb hab => ?_
  rw [mem_insertionSort] at ha hb
  rw [h b hb a ha, hswap a b]
  cases hc : cmp a b with
  | gt => exact absurd hc hab
  | lt | eq => simp

end Comparators

variable {F : Type} [Scalars F]

def nulls (key : List (Value F)) : List Bool := key.map (· matches .null)

/-- The keys of the rows are compared antisymmetrically and transitively, and NULL ties with nothing
else. -/
structure Ordered (ascs : List Bool) (keys : List (List (Value F))) : Prop extends
    PreordersList (compareKeys ascs) keys where
  nulls : ∀ a ∈ keys, ∀ b ∈ keys, compareKeys ascs a b = .eq → nulls a = nulls b

theorem orderKeys_spec {env : EvalEnv (Except EvalError) F}
    (h : orderKeys env exprs rows = .ok keyed) :
    keyed.map Prod.fst = rows ∧ ∀ p ∈ keyed, p.2.length = exprs.length := by
  induction rows generalizing keyed with
  | nil =>
    cases h
    simp
  | cons ctx rows ih =>
    obtain ⟨keys, hkeys, h⟩ := bind_eq_ok.mp h
    obtain ⟨rest, hrest, h⟩ := bind_eq_ok.mp h
    cases h
    obtain ⟨hrows, hlengths⟩ := ih hrest
    exact ⟨by rw [map_cons, hrows], forall_mem_cons.mpr
      ⟨(mapM_eq_ok.mp hkeys).length_eq.symm, hlengths⟩⟩

theorem applyLimit_page {s : SelectStmt F} (hlimit : countOf params s.limit = .ok limit)
    (hoffset : countOf params s.offset = .ok offset) :
    applyLimit s params rows = .ok ((rows.drop (offset.getD 0)).take (limit.getD rows.length)) ↔
      limit = none ∨ offset.getD 0 = 0 ∨ limit = some 0 ∨ rows.length ≤ offset.getD 0 ∨
        rows.length ≤ limit.getD 0 := by
  have hlimited : applyLimit s params rows =
      .ok ((rows.drop (offset.getD 0)).take (limit.getD rows.length - offset.getD 0)) := by
    simp only [applyLimit, hlimit, hoffset, bind, Except.bind]
    cases limit <;> cases offset <;> simp [drop_take]
  rw [hlimited, Except.ok.injEq, take_eq_take_iff, length_drop]
  cases limit with
  | none =>
    simp only [Option.getD_none, true_or, iff_true]
    omega
  | some n =>
    simp only [Option.getD_some, reduceCtorEq, false_or, Option.some.injEq]
    omega

/-- `SELECT a FROM t ORDER BY a`. -/
def orderedByA (limit offset : Option (Expr Unit)) : SelectStmt Unit :=
  ⟨[], false, [.expr (.ident "a") none], none, none, [], none, [⟨.ident "a", true⟩], limit,
    offset, none⟩

def rowsOf (cells : List Cell) : List (RowContext Unit) :=
  cells.map fun c => .new [c] (some ⟨"t", [⟨"a", .int8, true, none, false⟩], [], [], [], []⟩)

end ExecutorOrdering
