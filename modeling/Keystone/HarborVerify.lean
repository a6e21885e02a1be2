import Keystone.ExecutorValue

/-! # The verification of a migration

Source and target list their rows, each in the order of its own query, and the hashes of the rows
are compared place by place. `xxh3` is any function, into a type of its own. -/
namespace HarborVerify

open ByteCodecs ExecutorValue List StorageInternalKey

variable {H : Type} [DecidableEq H]

def encodeCell : Cell → Bytes
  | none => [0]
  | some bytes => 1 :: encodeField bytes

def hashRow (xxh3 : Bytes → H) (cells : Row) : H := xxh3 (cells.flatMap encodeCell)

structure TableVerification where
  table : String
  sourceRowCount : ℕ
  targetRowCount : ℕ
  mismatchedRows : ℕ
  passed : Bool

def verifyTable (table : String) (source target : List H) : TableVerification :=
  let n := min source.length target.length
  let mismatched := (range n).countP fun i => source[i]? ≠ target[i]?
  let extra := ((source.length : ℤ) - target.length).natAbs
  ⟨table, source.length, target.length, mismatched + extra, mismatched + extra = 0⟩

/-- A table as the two sides list it. -/
structure Listed where
  table : String
  source : List Row
  target : List Row

def Listed.verification (xxh3 : Bytes → H) (t : Listed) : TableVerification :=
  verifyTable t.table (t.source.map (hashRow xxh3)) (t.target.map (hashRow xxh3))

def verify (xxh3 : Bytes → H) (tables : List Listed) : List TableVerification :=
  tables.map (·.verification xxh3)

inductive Phase where
  | discover | validate | snapshot | replicate | verify | cutover | done
  deriving DecidableEq

def cutover (phase : Option Phase) (verifications : List TableVerification) : Bool × Option Phase :=
  let allPassed := verifications.all (·.passed)
  (allPassed, if allPassed then some .done else phase)

/-- The length of a cell is hashed in four bytes. -/
def Short (cells : Row) : Prop := ∀ bytes, some bytes ∈ cells → bytes.length < 2 ^ 32

theorem verifyTable_passed (source target : List H) :
    (verifyTable table source target).passed = true ↔ source = target := by
  simp only [verifyTable, decide_eq_true_eq, Nat.add_eq_zero_iff, countP_eq_zero,
    mem_range, not_not]
  constructor
  · rintro ⟨hsame, hlength⟩
    exact ext_getElem? fun i => if hi : i < source.length then hsame i (by omega) else by
      rw [getElem?_eq_none (by omega), getElem?_eq_none (by omega)]
  · rintro rfl
    simp

theorem encode_injective (hr : Short r) (hr' : Short r')
    (h : r.flatMap encodeCell = r'.flatMap encodeCell) : r = r' := by
  induction r generalizing r' with
  | nil => rcases r' with _ | ⟨_ | bytes, r'⟩ <;> simp_all [encodeCell]
  | cons cell r ih =>
    have hr₁ : Short r := fun b hb => hr b (.tail _ hb)
    rcases r' with _ | ⟨cell', r'⟩
    · cases cell <;> simp [encodeCell] at h
    · have hrest : Short r' := fun b hb => hr' b (.tail _ hb)
      rcases cell with _ | bytes <;> rcases cell' with _ | bytes' <;> simp [encodeCell] at h
      · rw [ih hr₁ hrest h]
      · have hread := congrArg readField h
        rw [readField_encodeField (hr bytes (.head _)),
          readField_encodeField (hr' bytes' (.head _)),
          Option.some.injEq, Prod.mk.injEq] at hread
        rw [hread.1, ih hr₁ hrest hread.2]

theorem verification_passed {xxh3 : Bytes → H} (hinj : Function.Injective xxh3) {t : Listed}
    (hshort : ∀ r ∈ t.source ++ t.target, Short r) :
    (t.verification xxh3).passed = true ↔ t.source = t.target := by
  rw [Listed.verification, verifyTable_passed]
  refine ⟨fun h => ?_, congrArg _⟩
  refine ext_getElem? fun i => ?_
  have hi := congrArg (·[i]?) h
  cases hs : t.source[i]? <;> cases ht : t.target[i]? <;> simp [hs, ht] at hi
  · rfl
  · rw [encode_injective (hshort _ (mem_append_left _ (mem_of_getElem? hs)))
      (hshort _ (mem_append_right _ (mem_of_getElem? ht))) (hinj hi)]

/-- Both sides list the rows in the order of one key, and equal keys belong to equal rows. -/
def SameOrder (t : Listed) : Prop :=
  ∃ (K : Type) (_ : LinearOrder K) (key : Row → K), t.source.Pairwise (key · ≤ key ·) ∧
    t.target.Pairwise (key · ≤ key ·) ∧ ∀ r ∈ t.source, ∀ r' ∈ t.source, key r = key r' → r = r'

theorem SameOrder.eq {t : Listed} (h : SameOrder t) (hperm : t.source ~ t.target) :
    t.source = t.target := by
  obtain ⟨K, order, key, hsource, htarget, hkey⟩ := h
  refine hperm.eq_of_pairwise (fun a b ha hb hab hba => ?_) hsource htarget
  exact hkey a ha b (hperm.mem_iff.mpr hb) (le_antisymm hab hba)

/-- The verification decides whether two tables are equal exactly if equal tables are listed in one
order, as they are by a key that both sides order alike; the cutover needs all lists to be equal. -/
theorem verify_decides {xxh3 : Bytes → H} (hinj : Function.Injective xxh3) (tables : List Listed)
    (hshort : ∀ t ∈ tables, ∀ r ∈ t.source ++ t.target, Short r) (phase : Option Phase) :
    ((cutover phase (verify xxh3 tables)).1 = true ↔ ∀ t ∈ tables, t.source = t.target) ∧
      (phase ≠ some .done → (cutover phase (verify xxh3 tables)).2 = some .done →
        ∀ t ∈ tables, t.source ~ t.target) ∧
      ∀ t ∈ tables, (((t.verification xxh3).passed = true ↔ t.source ~ t.target) ↔
          (t.source ~ t.target → t.source = t.target)) ∧
        (SameOrder t → ((t.verification xxh3).passed = true ↔ t.source ~ t.target)) := by
  have hpassed : ∀ t ∈ tables, (t.verification xxh3).passed = true ↔ t.source = t.target :=
    fun t ht =>
    verification_passed hinj (hshort t ht)
  have hall : (cutover phase (verify xxh3 tables)).1 = true ↔
    ∀ t ∈ tables, t.source = t.target := by
    simp only [cutover, verify, all_map, all_eq_true]
    exact forall₂_congr hpassed
  refine ⟨hall, fun hphase hdone t ht => ?_, fun t ht => ?_⟩
  · by_cases hcutover : (cutover phase (verify xxh3 tables)).1 = true
    · exact .of_eq (hall.mp hcutover t ht)
    · have hstays : (cutover phase (verify xxh3 tables)).2 = phase := if_neg hcutover
      exact absurd (hstays.symm.trans hdone) hphase
  · rw [hpassed t ht]
    refine ⟨⟨fun h => h.mpr, fun h => ⟨.of_eq, h⟩⟩, fun horder => ⟨.of_eq, horder.eq⟩⟩

theorem verify_decides_keyed :
    let rows : List Row := [[some [1], none], [some [2], some [7]], [some [2], some [7]],
      [some [3, 3], none]]
    let t : Listed := ⟨"t", rows, rows⟩
    let short : Listed := ⟨"t", rows, rows.take 3⟩
    (cutover none (verify id [t])).1 = true ∧ (short.verification id).passed = false := by
  intro rows t short
  have hshort : ∀ u ∈ [t, short], ∀ r ∈ u.source ++ u.target, Short r := by
    intro u hu r hr bytes hbytes
    have hmem : r ∈ rows := by
      simp only [mem_cons, not_mem_nil, or_false] at hu
      rcases hu with rfl | rfl
      · simpa [t] using hr
      · exact (mem_append.mp hr).elim id fun h => mem_of_mem_take h
    have hcells : ∀ r ∈ rows, ∀ bytes, some bytes ∈ r → bytes.length < 3 := by simp [rows]
    exact (hcells r hmem bytes hbytes).trans (by decide)
  have hdecides := verify_decides Function.injective_id [t, short] hshort none
  have horder : SameOrder short :=
    ⟨ℕ, inferInstance,
      fun r => (((r.headD none).getD []).headD 0).toNat, by decide, by decide, by decide⟩
  constructor
  · exact (verify_decides Function.injective_id [t] (fun u hu => hshort u (by simp_all)) none).1.mpr
      (by simp [t])
  · have hunequal : ¬ rows ~ rows.take 3 := fun h => absurd h.length_eq (by decide)
    simpa [hunequal, short] using (hdecides.2.2 short (by simp)).2 horder

/-- Without a key the two sides list the same rows in orders of their own, and with one collated
apart. -/
theorem verify_rejects_equal :
    let rows : List Row := [[some [97]], [some [66]]]
    let t : Listed := ⟨"t", rows, rows.reverse⟩
    t.source ~ t.target ∧ (t.verification id).passed = false := by
  decide

end HarborVerify
