import Mathlib.Data.List.Basic
import Mathlib.Tactic.Ring

/-! # Decimal integers as text

Integers are printed without leading zeros and parsed with an optional sign. Printing is undone by
parsing, so the text of an integer determines it; the converse fails, since a parser also takes
signs and zeros that are never printed. -/
namespace DecimalText

open List Option

def utf8 (s : String) : List UInt8 := s.toUTF8.data.toList

def digit (d : ℕ) : UInt8 := UInt8.ofNat (48 + d)

def isDigit (b : UInt8) : Bool := 48 ≤ b ∧ b ≤ 57

/-- The fuel is one more than the number, which has no more digits than that. -/
def printDigits : ℕ → ℕ → List UInt8
  | 0, _ => []
  | fuel + 1, n => if n < 10 then [digit n] else printDigits fuel (n / 10) ++ [digit (n % 10)]

def printNat (n : ℕ) : List UInt8 := printDigits (n + 1) n

def printInt (n : ℤ) : List UInt8 :=
  if n < 0 then 45 :: printNat n.natAbs else printNat n.natAbs

def digitsValue (bytes : List UInt8) : ℕ := bytes.foldl (fun acc b => acc * 10 + (b.toNat - 48)) 0

def parseDigits (bytes : List UInt8) : Option ℕ :=
  if bytes ≠ [] ∧ bytes.all isDigit then some (digitsValue bytes) else none

def parseInt : List UInt8 → Option ℤ
  | 43 :: rest => (parseDigits rest).map fun n : ℕ => (n : ℤ)
  | 45 :: rest => (parseDigits rest).map fun n : ℕ => -(n : ℤ)
  | bytes => (parseDigits bytes).map fun n : ℕ => (n : ℤ)

def InRange (bits : ℕ) (n : ℤ) : Prop := -2 ^ (bits - 1) ≤ n ∧ n < 2 ^ (bits - 1)

instance (bits : ℕ) (n : ℤ) : Decidable (InRange bits n) :=
  inferInstanceAs (Decidable (_ ≤ _ ∧ _ < _))

def parseBits (bits : ℕ) (bytes : List UInt8) : Option ℤ :=
  (parseInt bytes).filter fun n => InRange bits n

theorem toNat_digit (h : d < 10) : (digit d).toNat = 48 + d := by
  rw [digit, UInt8.toNat_ofNat']
  omega

theorem isDigit_digit (h : d < 10) : isDigit (digit d) = true := by
  have hd := toNat_digit h
  simp only [isDigit, decide_eq_true_eq, UInt8.le_iff_toNat_le, hd]
  constructor
  · exact Nat.le_add_right 48 d
  · change 48 + d ≤ 57
    omega

theorem printDigits_spec (h : n < fuel) : printDigits fuel n ≠ [] ∧
    (printDigits fuel n).all isDigit = true ∧
      digitsValue (printDigits fuel n) = n := by
  induction fuel generalizing n with
  | zero => omega
  | succ fuel ih =>
    unfold printDigits
    split_ifs with hsmall
    · refine ⟨by simp, by simp [isDigit_digit hsmall], ?_⟩
      simp [digitsValue, toNat_digit hsmall]
    · obtain ⟨_, hall, hvalue⟩ := ih (n := n / 10) (by omega)
      have hmod : n % 10 < 10 := Nat.mod_lt _ (by decide)
      refine ⟨by simp, by simp [hall, isDigit_digit hmod], ?_⟩
      rw [digitsValue, foldl_concat, ← digitsValue, hvalue, toNat_digit hmod]
      omega

theorem all_isDigit_printNat (n : ℕ) : (printNat n).all isDigit = true :=
  (printDigits_spec (Nat.lt_succ_self n)).2.1

theorem parseDigits_printNat (n : ℕ) : parseDigits (printNat n) = some n := by
  obtain ⟨hne, hall, hvalue⟩ := printDigits_spec (Nat.lt_succ_self n)
  rw [parseDigits, printNat, if_pos ⟨hne, hall⟩, hvalue]

variable {bytes : List UInt8}

theorem parseInt_of_digits (h : bytes.all isDigit = true) :
    parseInt bytes = (parseDigits bytes).map fun n : ℕ => (n : ℤ) := by
  unfold parseInt
  split
  · simp [isDigit] at h
  · simp [isDigit] at h
  · rfl

theorem parseInt_printInt (n : ℤ) : parseInt (printInt n) = some n := by
  unfold printInt
  split_ifs with hneg
  · rw [parseInt, parseDigits_printNat, map_some, Option.some.injEq]
    omega
  · rw [parseInt_of_digits (all_isDigit_printNat _), parseDigits_printNat, map_some,
      Option.some.injEq]
    omega

theorem printInt_le (n : ℤ) : ∀ b ∈ printInt n, b ≤ 57 := by
  have hdigits : ∀ b ∈ printNat n.natAbs, b ≤ 57 := by
    intro b hb
    have := all_eq_true.mp (all_isDigit_printNat n.natAbs) b hb
    simp only [isDigit, decide_eq_true_eq] at this
    exact this.2
  unfold printInt
  split_ifs
  · exact forall_mem_cons.mpr ⟨by decide, hdigits⟩
  · exact hdigits

theorem printInt_injective : Function.Injective printInt := by
  intro a b h
  have := congrArg parseInt h
  rwa [parseInt_printInt, parseInt_printInt, Option.some.injEq] at this

theorem toNat_of_isDigit (h : isDigit b = true) : 48 ≤ b.toNat ∧ b.toNat ≤ 57 := by
  simpa [isDigit, UInt8.le_iff_toNat_le] using h

theorem foldl_digits_lt (h : bytes.all isDigit = true) (acc : ℕ) :
    bytes.foldl (fun acc b => acc * 10 + (b.toNat - 48)) acc < (acc + 1) * 10 ^ bytes.length := by
  induction bytes generalizing acc with
  | nil => simp
  | cons b bytes ih =>
    simp only [all_cons, Bool.and_eq_true] at h
    have hdigit := toNat_of_isDigit h.1
    rw [foldl_cons, length_cons, pow_succ']
    refine (ih h.2 _).trans_le ?_
    rw [← mul_assoc]
    exact Nat.mul_le_mul_right _ (by omega)

theorem parseDigits_lt (h : parseDigits bytes = some n) : n < 10 ^ bytes.length := by
  unfold parseDigits at h
  split_ifs at h with hdigits
  cases h
  have hlt := foldl_digits_lt hdigits.2 0
  rwa [zero_add, one_mul] at hlt

/-- A number starts with a sign or a digit, and has no more than one place for each byte. -/
theorem parseInt_cons_bounds (h : parseInt (b :: rest) = some n) :
    43 ≤ b.toNat ∧ b.toNat ≤ 57 ∧ n.natAbs < 10 ^ (rest.length + 1) := by
  unfold parseInt at h
  split at h
  iterate 2
    rename_i heq
    obtain ⟨rfl, rfl⟩ := List.cons.inj heq
    obtain ⟨m, hm, rfl⟩ := map_eq_some_iff.1 h
    have := parseDigits_lt hm
    exact ⟨by decide, by decide, by omega⟩
  · obtain ⟨m, hm, rfl⟩ := map_eq_some_iff.1 h
    have hlt := parseDigits_lt hm
    unfold parseDigits at hm
    split_ifs at hm with hdigits
    have hfirst := toNat_of_isDigit (all_eq_true.1 hdigits.2 b mem_cons_self)
    exact ⟨by omega, hfirst.2, by simpa using hlt⟩

/-- The length of the white space character at the front, or zero. -/
def spaceWidth : List UInt8 → ℕ
  | 0xC2 :: b :: _ => if b = 0x85 ∨ b = 0xA0 then 2 else 0
  | 0xE1 :: 0x9A :: 0x80 :: _ => 3
  | 0xE2 :: 0x80 :: b :: _ =>
    if (0x80 ≤ b ∧ b ≤ 0x8A) ∨ b = 0xA8 ∨ b = 0xA9 ∨ b = 0xAF then 3 else 0
  | 0xE2 :: 0x81 :: 0x9F :: _ => 3
  | 0xE3 :: 0x80 :: 0x80 :: _ => 3
  | b :: _ => if (9 ≤ b ∧ b ≤ 13) ∨ b = 32 then 1 else 0
  | [] => 0

def trimStart : ℕ → List UInt8 → List UInt8
  | 0, bytes => bytes
  | fuel + 1, bytes =>
    if spaceWidth bytes = 0 then bytes else trimStart fuel (bytes.drop (spaceWidth bytes))

def trimEnd : ℕ → List UInt8 → List UInt8
  | 0, bytes => bytes
  | fuel + 1, bytes =>
    match [1, 2, 3].find? fun n =>
        n ≤ bytes.length ∧ spaceWidth (bytes.drop (bytes.length - n)) = n with
    | some n => trimEnd fuel (bytes.take (bytes.length - n))
    | none => bytes

def trim (bytes : List UInt8) : List UInt8 :=
  trimEnd bytes.length (trimStart bytes.length bytes)

end DecimalText
