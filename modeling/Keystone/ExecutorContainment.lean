import Keystone.DecimalText
import Keystone.StorageJsonb

/-! # Containment of documents

`@>` asks of every member of an object that it is found under its key, and of every element of an
array that it is found anywhere. -/
namespace ExecutorContainment

open DecimalText List StorageInternalKey StorageJsonb

/-- `get` of the map of an object -/
def member (entries : List (Bytes × Json)) (key : Bytes) : Option Json :=
  (entries.find? fun e => e.1 = key).map Prod.snd

/-- The two zeros are equal. -/
@[simp] def sameScalar : Json → Json → Bool
  | .null, .null => true
  | .bool x, .bool y => x = y
  | .int x, .int y => x = y
  | .float x, .float y => x = y ∨ x % 2 ^ 63 = 0 ∧ y % 2 ^ 63 = 0
  | .string x, .string y => x = y
  | _, _ => false

mutual

@[simp] def jsonContains : Json → Json → Bool
  | .object a, .object b => holdsEntries a b
  | .array a, .array b => holdsItems a b
  | a, b => sameScalar a b

def holdsEntries (a : List (Bytes × Json)) : List (Bytes × Json) → Bool
  | [] => true
  | (key, v) :: b => (member a key).any (jsonContains · v) && holdsEntries a b

def holdsItems (a : List Json) : List Json → Bool
  | [] => true
  | v :: b => a.any (jsonContains · v) && holdsItems a b

end

/-- `parse::<usize>` takes one plus sign. -/
def parseIndex : Bytes → Option ℕ
  | 43 :: digits => parseDigits digits
  | digits => parseDigits digits

def segment : Json → Bytes → Json
  | .object entries, seg => (member entries seg).getD .null
  | .array items, seg => ((parseIndex seg).bind (items[·]?)).getD .null
  | _, _ => .null

def jsonAtPath (current : Json) (path : List Bytes) : Json := path.foldl segment current

/-- The entries of every object are those of a map. -/
inductive Keyed : Json → Prop where
  | scalar (h : sameScalar v v) : Keyed v
  | array (h : ∀ v ∈ items, Keyed v) : Keyed (.array items)
  | object (hkeys : entries.Pairwise fun a b => a.1 ≠ b.1) (h : ∀ e ∈ entries, Keyed e.2) :
    Keyed (.object entries)

/-- One member or element is added, at any depth. -/
inductive Grows : Json → Json → Prop where
  | member : Grows (.object (front ++ back)) (.object (front ++ (key, v) :: back))
  | element : Grows (.array (front ++ back)) (.array (front ++ v :: back))
  | inMember (h : Grows v w) :
    Grows (.object (front ++ (key, v) :: back)) (.object (front ++ (key, w) :: back))
  | inElement (h : Grows v w) : Grows (.array (front ++ v :: back)) (.array (front ++ w :: back))

/-- All keys of the path are present. -/
def HasPath : Json → List Bytes → Prop
  | _, [] => True
  | .object entries, key :: path => ∃ v, member entries key = some v ∧ HasPath v path
  | _, _ => False

variable {a b c : Json}

theorem member_eq_some {entries : List (Bytes × Json)} (h : member entries key = some v) :
    (key, v) ∈ entries := by
  obtain ⟨found, hfound, rfl⟩ := Option.map_eq_some_iff.mp h
  obtain rfl : found.1 = key := by simpa using find?_some hfound
  exact mem_of_find?_eq_some hfound

theorem member_of_mem {entries : List (Bytes × Json)}
    (hkeys : entries.Pairwise fun a b => a.1 ≠ b.1)
    (h : (key, v) ∈ entries) : member entries key = some v := by
  induction entries with
  | nil => cases h
  | cons e entries ih =>
    obtain ⟨he, hkeys⟩ := pairwise_cons.mp hkeys
    rcases mem_cons.mp h with rfl | h
    · simp [member]
    · have hne : e.1 ≠ key := he _ h
      simpa [member, hne] using ih hkeys h

theorem contains_object {x y : List (Bytes × Json)} :
    jsonContains (.object x) (.object y) ↔
      ∀ e ∈ y, ∃ v, member x e.1 = some v ∧ jsonContains v e.2 := by
  rw [jsonContains]
  induction y with
  | nil => simp [holdsEntries]
  | cons e y ih => rw [holdsEntries, Bool.and_eq_true, ih, Option.any_eq_true, forall_mem_cons]

theorem contains_array {x y : List Json} :
    jsonContains (.array x) (.array y) ↔ ∀ v ∈ y, ∃ u ∈ x, jsonContains u v := by
  rw [jsonContains]
  induction y with
  | nil => simp [holdsItems]
  | cons v y ih => rw [holdsItems, Bool.and_eq_true, ih, any_eq_true, forall_mem_cons]

theorem object_of_contains (h : jsonContains a (.object y)) : ∃ x, a = .object x := by
  cases a <;> simp_all [jsonContains, sameScalar]

theorem array_of_contains (h : jsonContains a (.array y)) : ∃ x, a = .array x := by
  cases a <;> simp_all [jsonContains, sameScalar]

theorem contains_scalar (h : sameScalar b b) : jsonContains a b = sameScalar a b := by
  cases a <;> cases b <;> simp_all [jsonContains, sameScalar]

theorem contains_self (h : Keyed a) : jsonContains a a := by
  induction h with
  | scalar h => rwa [contains_scalar h]
  | array h ih => exact contains_array.mpr fun v hv => ⟨v, hv, ih v hv⟩
  | object hkeys h ih =>
    exact contains_object.mpr fun e he => ⟨e.2, member_of_mem hkeys he, ih e he⟩

theorem sameScalar_trans (hab : sameScalar a b) (hbc : sameScalar b c) : sameScalar a c := by
  cases a <;> cases b <;> simp [sameScalar] at hab <;> cases c <;>
    simp [sameScalar] at hbc ⊢ <;> grind

theorem contains_trans (hc : Keyed c) (hab : jsonContains a b) (hbc : jsonContains b c) :
    jsonContains a c := by
  induction hc generalizing a b with
  | scalar h =>
    rw [contains_scalar h] at hbc ⊢
    have hb : sameScalar b b := by cases b <;> simp_all [sameScalar]
    rw [contains_scalar hb] at hab
    exact sameScalar_trans hab hbc
  | array h ih =>
    obtain ⟨y, rfl⟩ := array_of_contains hbc
    obtain ⟨x, rfl⟩ := array_of_contains hab
    refine contains_array.mpr fun w hw => ?_
    obtain ⟨v, hv, hvw⟩ := contains_array.mp hbc w hw
    obtain ⟨u, hu, huv⟩ := contains_array.mp hab v hv
    exact ⟨u, hu, ih w hw huv hvw⟩
  | object hkeys h ih =>
    obtain ⟨y, rfl⟩ := object_of_contains hbc
    obtain ⟨x, rfl⟩ := object_of_contains hab
    refine contains_object.mpr fun e he => ?_
    obtain ⟨v, hv, hve⟩ := contains_object.mp hbc e he
    obtain ⟨u, hu, huv⟩ := contains_object.mp hab _ (member_eq_some hv)
    exact ⟨u, hu, ih e he huv hve⟩

theorem contains_of_grows (h : Grows a b) (hb : Keyed b) : jsonContains b a := by
  induction h with
  | member | inMember _ ih =>
    cases hb with
    | scalar h => cases h
    | object hkeys hall =>
      refine contains_object.mpr fun e he => ?_
      have hself (hin) : ∃ v, member _ e.1 = some v ∧ jsonContains v e.2 :=
        ⟨e.2, member_of_mem hkeys hin, contains_self (hall e hin)⟩
      grind [member_of_mem]
  | element | inElement _ ih =>
    cases hb with
    | scalar h => cases h
    | array hall =>
      refine contains_array.mpr fun u hu => ?_
      have hself (hin) := contains_self (hall u hin)
      grind

theorem contains_at_path (h : jsonContains a b) (hpath : HasPath b path) :
    jsonContains (jsonAtPath a path) (jsonAtPath b path) := by
  induction path generalizing a b with
  | nil => exact h
  | cons key path ih =>
    cases b with
    | object y =>
      obtain ⟨x, rfl⟩ := object_of_contains h
      obtain ⟨v, hv, hpath⟩ := hpath
      obtain ⟨u, hu, huv⟩ := contains_object.mp h _ (member_eq_some hv)
      simpa [jsonAtPath, segment, hu, hv] using ih huv hpath
    | _ => exact hpath.elim

/-- Containment is reflexive and transitive; what is added to the container, at any depth, takes
nothing away; and it goes down every path of keys. -/
theorem containment_is_structural (ha : Keyed a) (hc : Keyed c) :
    jsonContains a a ∧ (jsonContains a b → jsonContains b c → jsonContains a c) ∧
      (∀ a', Grows a a' → Keyed a' → jsonContains a c → jsonContains a' c) ∧
      (jsonContains a b → ∀ path, HasPath b path →
        jsonContains (jsonAtPath a path) (jsonAtPath b path)) :=
  ⟨contains_self ha, contains_trans hc,
    fun _ hgrows ha' => contains_trans hc (contains_of_grows hgrows ha'),
    fun h _ => contains_at_path h⟩

theorem containment_is_structural_nested :
    let a : Json := .object [([107], .array [.int 1, .int 2])]
    let b : Json := .object [([107], .array [.int 2])]
    jsonContains a b ∧ jsonContains (jsonAtPath a [[107]]) (jsonAtPath b [[107]]) := by
  intro a b
  have hkeyed items (h : ∀ v ∈ items, sameScalar v v) : Keyed (.object [([107], .array items)]) :=
    .object (by simp) (by simpa using Keyed.array fun v hv => .scalar (h v hv))
  have hab : jsonContains a b := by decide
  have hall := containment_is_structural (b := b) (hkeyed [.int 1, .int 2] (by simp [sameScalar]))
    (hkeyed [.int 2] (by simp [sameScalar]))
  exact ⟨hab, hall.2.2.2 hab [[107]] ⟨_, rfl, trivial⟩⟩

end ExecutorContainment
