import Keystone.ByteCodecs
import Keystone.DecimalText
import Keystone.StorageInternalKey

/-! # Runtime values

Cells are stored as text and typed when they are read: a cell that looks like an integer is one.
Comparison coerces a literal to the type of the other side, so values may compare equal and still
print differently. -/
namespace ExecutorValue

open ByteCodecs DecimalText StorageInternalKey

inductive Value (F : Type) where
  | int (n : ℤ)
  | float (f : F)
  | text (s : Bytes)
  | bool (b : Bool)
  | null
  | floatArray (a : List F)
  | bytea (b : Bytes)
  deriving DecidableEq

/-- The last two constructors stand for a panic and for the errors of the parameters. -/
inductive EvalError where
  | nullComparison
  | incompatible (a b : String)
  | invalidInteger (text : Bytes)
  | invalidFloat (text : Bytes)
  | integerOverflow
  | divisionByZero
  | textToFloat
  | cannotCast (type target : String)
  | castParse
  | unknownCastTarget (type : String)
  | notNumeric (type : String)
  | cannotNegate (type : String)
  | likeOperands
  | invalidParameter (n : ℕ)
  | unboundParameter (n : ℕ)
  | columnMissing (name : String) (noFrom : Bool)
  | aggregateNotAllowed (name : String)
  | functionMissing (name : String)
  | functionArguments (message : String)
  | subqueryWithoutDatabase
  | tableMissing (name : String)
  | wildcardWithoutFrom
  | tableWildcard
  | windowFunction (message : String)
  | recursionLimit (cte : String)
  | panic
  | other (message : Bytes)
  deriving DecidableEq

def EvalError.message : EvalError → Bytes
  | .nullComparison => utf8 "null comparison"
  | .incompatible a b => utf8 ("incompatible types for comparison: " ++ a ++ " vs " ++ b)
  | .invalidInteger t => utf8 "invalid input syntax for type integer: \"" ++ t ++ utf8 "\""
  | .invalidFloat t => utf8 "invalid input syntax for type double precision: \"" ++ t ++ utf8 "\""
  | .integerOverflow => utf8 "integer overflow"
  | .divisionByZero => utf8 "division by zero"
  | .textToFloat => utf8 "cannot cast text to float"
  | .cannotCast type target => utf8 ("cannot cast " ++ type ++ " to " ++ target)
  | .castParse => utf8 "invalid digit found in string"
  | .unknownCastTarget type => utf8 ("unknown cast target type: " ++ type)
  | .notNumeric type => utf8 ("expected a numeric value, got " ++ type)
  | .cannotNegate type => utf8 ("cannot negate " ++ type)
  | .likeOperands => utf8 "LIKE requires text operands"
  | .invalidParameter n => utf8 "invalid parameter $" ++ printNat n
  | .unboundParameter n => utf8 "parameter $" ++ printNat n ++ utf8 " not bound"
  | .columnMissing name noFrom => utf8 ("column \"" ++ name ++ "\" does not exist" ++
      (if noFrom then " (no FROM clause)" else ""))
  | .aggregateNotAllowed name =>
      utf8 ("aggregate function " ++ name ++ "() is not allowed in this context")
  | .functionMissing name => utf8 ("function \"" ++ name ++ "\" does not exist")
  | .functionArguments message => utf8 message
  | .subqueryWithoutDatabase => utf8 "subqueries require a database context"
  | .tableMissing name => utf8 ("table \"" ++ name ++ "\" does not exist")
  | .wildcardWithoutFrom => utf8 "SELECT * requires a FROM clause"
  | .tableWildcard => utf8 "table.* projections are not yet supported"
  | .windowFunction message => utf8 message
  | .recursionLimit cte => utf8 ("recursive CTE \"" ++ cte ++ "\" exceeded iteration limit")
  | .panic => []
  | .other message => message

/-- How a built-in function uses its arguments: it asks for them by position, in an order and
number of its own, and fails with the first one that fails. -/
inductive Plan (F : Type) where
  | done (result : Except EvalError (Value F))
  | arg (i : ℕ) (rest : Value F → Plan F)

/-- The parameters of the evaluator: `f64`, the regular expression and JSON crates, the
geometry, vector, JSON and text functions, and Unicode lower case. Nothing is assumed of them. -/
class Scalars (F : Type) where
  ofInt : ℤ → F
  toInt : F → ℤ
  parse : Bytes → Option F
  print : F → Bytes
  partialCmp : F → F → Option Ordering
  neg : F → F
  add : F → F → F
  sub : F → F → F
  mul : F → F → F
  div : F → F → F
  rem : F → F → F
  abs : F → F
  lower : Bytes → Bytes
  lowerName : String → String
  regexIsMatch : Bytes → Bytes → Bool → Except EvalError Bool
  jsonArrow : Value F → Value F → Bool → Except EvalError (Value F)
  jsonPathArrow : Value F → Value F → Bool → Except EvalError (Value F)
  jsonContains : Value F → Value F → Except EvalError Bool
  builtin : Bytes → ℕ → Option (Plan F)
  wktPoint : Bytes → Option (F × F)
  jsonbDecode : Bytes → Option Bytes
  jsonbEncode : Bytes → Bytes

/-- One float that no text denotes: enough to run statements over integers and text. -/
instance : Scalars Unit where
  ofInt _ := ()
  toInt _ := 0
  parse _ := none
  print _ := []
  partialCmp _ _ := some .eq
  neg _ := ()
  add _ _ := ()
  sub _ _ := ()
  mul _ _ := ()
  div _ _ := ()
  rem _ _ := ()
  abs _ := ()
  lower := id
  lowerName := id
  regexIsMatch _ _ _ := .ok false
  jsonArrow _ _ _ := .ok .null
  jsonPathArrow _ _ _ := .ok .null
  jsonContains _ _ := .ok false
  builtin _ _ := none
  wktPoint _ := none
  jsonbDecode _ := none
  jsonbEncode := id

abbrev Cell := Option Bytes

abbrev Row := List Cell

def hexDigit (n : ℕ) : UInt8 := if n < 10 then UInt8.ofNat (48 + n) else UInt8.ofNat (87 + n)

def hexEncode (bytes : Bytes) : Bytes :=
  bytes.flatMap fun b => [hexDigit (b.toNat / 16), hexDigit (b.toNat % 16)]

theorem hexDigit_injective (hm : m < 16) (hn : n < 16) (h : hexDigit m = hexDigit n) : m = n := by
  have : ∀ a b : Fin 16, hexDigit a = hexDigit b → a = b := by decide
  exact congrArg Fin.val (this ⟨m, hm⟩ ⟨n, hn⟩ h)

theorem hexEncode_injective : Function.Injective hexEncode := by
  intro a
  induction a with
  | nil =>
    intro b h
    cases b with
    | nil => rfl
    | cons y b => simp [hexEncode] at h
  | cons x a ih =>
    intro b h
    cases b with
    | nil => simp [hexEncode] at h
    | cons y b =>
      simp only [hexEncode, List.flatMap_cons, List.cons_append, List.cons.injEq] at h
      obtain ⟨hhigh, hlow, hrest⟩ := h
      have hx := x.toNat_lt
      have hy := y.toNat_lt
      have hdiv := hexDigit_injective (by omega) (by omega) hhigh
      have hmod := hexDigit_injective (by omega) (by omega) hlow
      have hxy : x = y := UInt8.toNat_inj.mp (by omega)
      rw [hxy, ih hrest]

def joinBytes (sep : Bytes) : List Bytes → Bytes
  | [] => []
  | [b] => b
  | b :: rest => b ++ sep ++ joinBytes sep rest

namespace Value

variable {F : Type}

def typeName : Value F → String
  | .int _ => "int8"
  | .float _ => "float8"
  | .text _ => "text"
  | .bool _ => "bool"
  | .null => "null"
  | .floatArray _ => "float8[]"
  | .bytea _ => "bytea"

variable [Scalars F]

def printArray (a : List F) : Bytes :=
  utf8 "\x7b" ++ joinBytes (utf8 ",") (a.map Scalars.print) ++ utf8 "\x7d"

/-- The text form on the wire and in stored cells. -/
def toWireBytes : Value F → Cell
  | .null => none
  | .int n => some (printInt n)
  | .float f => some (Scalars.print f)
  | .text s => some s
  | .bool b => some (if b then utf8 "t" else utf8 "f")
  | .floatArray a => some (printArray a)
  | .bytea b => some (utf8 "\\x" ++ hexEncode b)

def asF64 : Value F → Except EvalError F
  | .int n => .ok (Scalars.ofInt n)
  | .float f => .ok f
  | v => .error (.notNumeric v.typeName)

def isTruthy : Value F → Bool
  | .bool b => b
  | .null => false
  | .int n => n ≠ 0
  | .float f => Scalars.partialCmp f (Scalars.ofInt 0) ≠ some .eq
  | .text s => s ≠ []
  | .floatArray a => !a.isEmpty
  | .bytea b => b ≠ []

def typeOid : Value F → ℕ
  | .int _ => 20
  | .float _ => 701
  | .text _ => 25
  | .bool _ => 16
  | .null => 25
  | .floatArray _ => 1022
  | .bytea _ => 17

/-- Stands for the `Debug` text of a value where that is used as a key. -/
def debugKey : Value F → Value Bytes
  | .int n => .int n
  | .float f => .float (Scalars.print f)
  | .text s => .text s
  | .bool b => .bool b
  | .null => .null
  | .floatArray a => .floatArray (a.map Scalars.print)
  | .bytea b => .bytea b

/-- The type of a cell is guessed from its text. -/
def fromBytes : Cell → Value F
  | none => .null
  | some b =>
    if validUtf8 b then
      match parseBits 64 b with
      | some n => .int n
      | none =>
        match Scalars.parse (F := F) b with
        | some f => .float f
        | none =>
          if b = utf8 "t" then .bool true
          else if b = utf8 "f" then .bool false
          else .text b
    else .text (fromUtf8Lossy b)

end Value

open Value

variable {F : Type} [Scalars F]

def parseLiteralInt (text : Bytes) : Except EvalError ℤ :=
  match parseBits 64 (trim text) with
  | some n => .ok n
  | none => .error (.invalidInteger text)

def parseLiteralFloat (text : Bytes) : Except EvalError F :=
  match Scalars.parse (trim text) with
  | some f => .ok f
  | none => .error (.invalidFloat text)

/-- Floats that do not compare count as equal. -/
def floatCompare (x y : F) : Ordering := (Scalars.partialCmp x y).getD .eq

def valueCompare : Value F → Value F → Except EvalError Ordering
  | .null, .null => .ok .eq
  | .null, _ => .error .nullComparison
  | _, .null => .error .nullComparison
  | .int x, .int y => .ok (compareOfLessAndEq x y)
  | .float x, .float y => .ok (floatCompare x y)
  | .int x, .float y => .ok (floatCompare (Scalars.ofInt x) y)
  | .float x, .int y => .ok (floatCompare x (Scalars.ofInt y))
  | .int x, .text y => do .ok (compareOfLessAndEq x (← parseLiteralInt y))
  | .text x, .int y => do .ok (compareOfLessAndEq (← parseLiteralInt x) y)
  | .float x, .text y => do .ok (floatCompare x (← parseLiteralFloat y))
  | .text x, .float y => do .ok (floatCompare (← parseLiteralFloat x) y)
  | .text x, .text y => .ok (compareOfLessAndEq x y)
  | .bool x, .bool y => .ok (compareOfLessAndEq x y)
  | a, b => .error (.incompatible a.typeName b.typeName)

def compareIs (p : Ordering → Bool) (a b : Value F) : Bool :=
  match valueCompare a b with
  | .ok c => p c
  | .error _ => false

/-- A NULL operand gives `false`; any other comparison error is reported. -/
def compareOp (a b : Value F) (p : Ordering → Bool) : Except EvalError (Value F) :=
  if a matches .null ∨ b matches .null then .ok (.bool false)
  else do .ok (.bool (p (← valueCompare a b)))

/-- The comparison behind `=`, in either order of the operands, agrees with equality of the
printed texts. -/
def ComparesAsText (u v : Value F) : Prop :=
  ∀ x y, u.toWireBytes = some x → v.toWireBytes = some y →
    (valueCompare u v = .ok .eq ↔ x = y) ∧ (valueCompare v u = .ok .eq ↔ x = y)

theorem compareOfLessAndEq_eq_iff {α : Type*} [LT α] [DecidableLT α] [DecidableEq α]
    (irrefl : ∀ x : α, ¬ x < x) {x y : α} : compareOfLessAndEq x y = .eq ↔ x = y := by
  unfold compareOfLessAndEq
  by_cases hlt : x < y
  · have hne : x ≠ y := fun h => irrefl y (h ▸ hlt)
    simp [hlt, hne]
  · by_cases heq : x = y <;> simp [hlt]

theorem comparesAsText_int (m n : ℤ) : ComparesAsText (F := F) (.int m) (.int n) := by
  intro x y hx hy
  simp only [toWireBytes, Option.some.injEq] at hx hy
  subst hx hy
  simp only [valueCompare, Except.ok.injEq, compareOfLessAndEq_eq_iff Int.lt_irrefl,
    printInt_injective.eq_iff, true_and]
  exact eq_comm

inductive BinOp where
  | add | sub | mul | div | mod
  | eq | notEq | lt | lte | gt | gte
  | and | or | concat
  | arrow | longArrow | contains | hashArrow | hashLongArrow
  | regexMatch | regexNotMatch | regexMatchCI | regexNotMatchCI
  deriving DecidableEq

inductive UnOp where
  | neg | not
  deriving DecidableEq

def checked (n : ℤ) : Except EvalError (Value F) :=
  if InRange 64 n then .ok (.int n) else .error .integerOverflow

/-- Division and remainder are not checked: the one quotient that does not fit panics. -/
def unchecked (n quotient : ℤ) : Except EvalError (Value F) :=
  if InRange 64 quotient then .ok (.int n) else .error .panic

def coerceFloat : Value F → Except EvalError F
  | .int n => .ok (Scalars.ofInt n)
  | .float f => .ok f
  | .text s => match Scalars.parse s with
    | some f => .ok f
    | none => .error .textToFloat
  | v => .error (.cannotCast v.typeName "float")

def floatArithmetic (a b : F) : BinOp → Except EvalError (Value F)
  | .add => .ok (.float (Scalars.add a b))
  | .sub => .ok (.float (Scalars.sub a b))
  | .mul => .ok (.float (Scalars.mul a b))
  | .div => if Scalars.partialCmp b (Scalars.ofInt 0) = some .eq then .error .divisionByZero
    else .ok (.float (Scalars.div a b))
  | _ => .ok (.float (Scalars.rem a b))

def evalArithmetic (l r : Value F) (op : BinOp) : Except EvalError (Value F) :=
  match l, r with
  | .int a, .int b =>
    match op with
    | .add => checked (a + b)
    | .sub => checked (a - b)
    | .mul => checked (a * b)
    | .div => if b = 0 then .error .divisionByZero else unchecked (a.tdiv b) (a.tdiv b)
    | _ => if b = 0 then .error .divisionByZero else unchecked (a.tmod b) (a.tdiv b)
  | l, r => do floatArithmetic (← coerceFloat l) (← coerceFloat r) op

def valToText : Value F → Bytes
  | .int n => printInt n
  | .float f => Scalars.print f
  | .text s => s
  | .bool b => if b then utf8 "true" else utf8 "false"
  | .null => []
  | .floatArray a => printArray a
  | .bytea b => utf8 "\\x" ++ hexEncode b

inductive CastTarget where
  | int | float | text | bool | reg
  deriving DecidableEq

def castTargetNames : List (CastTarget × List String) :=
  [(.int, ["int", "int4", "int8", "integer", "bigint"]),
   (.float, ["float", "float8", "real", "double", "double precision", "numeric"]),
   (.text, ["text", "varchar", "char"]),
   (.bool, ["bool", "boolean"]),
   (.reg, ["regclass", "regproc", "regtype"])]

def castTarget (lowered : Bytes) : Option CastTarget :=
  (castTargetNames.find? fun t => t.2.any fun name => utf8 name = lowered).map Prod.fst

def truthyTexts : List Bytes := ["t", "true", "yes", "on", "1"].map utf8

def castValue (v : Value F) (type : String) : Except EvalError (Value F) :=
  match castTarget (Scalars.lower F (utf8 type)) with
  | some .int => match v with
    | .int n => .ok (.int n)
    | .float f => .ok (.int (Scalars.toInt f))
    | .text s => match parseBits 64 (trim s) with
      | some n => .ok (.int n)
      | none => .error .castParse
    | .bool b => .ok (.int (if b then 1 else 0))
    | .null => .ok .null
    | v => .error (.cannotCast v.typeName "int")
  | some .float => match v with
    | .float f => .ok (.float f)
    | .int n => .ok (.float (Scalars.ofInt n))
    | .text s => match Scalars.parse (trim s) with
      | some f => .ok (.float f)
      | none => .error .castParse
    | .null => .ok .null
    | v => .error (.cannotCast v.typeName "float")
  | some .bool => match v with
    | .bool b => .ok (.bool b)
    | .int n => .ok (.bool (n ≠ 0))
    | .text s => .ok (.bool (truthyTexts.contains (Scalars.lower F s)))
    | .null => .ok .null
    | v => .error (.cannotCast v.typeName "bool")
  | some _ => .ok (.text (valToText v))
  | none => .error (.unknownCastTarget type)

def chars : ℕ → Bytes → List Bytes
  | 0, _ => []
  | _ + 1, [] => []
  | fuel + 1, b :: rest =>
    let width := max 1 (scanChar (b :: rest)).2
    (b :: rest).take width :: chars fuel ((b :: rest).drop width)

/-- `%` takes any run of characters, `_` takes one. -/
def likeRecursive : List Bytes → List Bytes → Bool
  | s, [] => s.isEmpty
  | s, p :: pattern =>
    if p = [37] then s.tails.any fun rest => likeRecursive rest pattern
    else match s with
      | [] => false
      | c :: rest => (p = [95] ∨ c = p) && likeRecursive rest pattern
termination_by structural _ pattern => pattern

def likeMatch (s pattern : Bytes) : Bool :=
  likeRecursive (chars s.length s) (chars pattern.length pattern)

def evalBinop (op : BinOp) (l r : Value F) : Except EvalError (Value F) :=
  match op with
  | .add | .sub | .mul | .div | .mod => evalArithmetic l r op
  | .concat => .ok (.text (valToText l ++ valToText r))
  | .eq => compareOp l r (· = .eq)
  | .notEq => compareOp l r (· ≠ .eq)
  | .lt => compareOp l r (· = .lt)
  | .lte => compareOp l r (· ≠ .gt)
  | .gt => compareOp l r (· = .gt)
  | .gte => compareOp l r (· ≠ .lt)
  | .arrow => Scalars.jsonArrow l r false
  | .longArrow => Scalars.jsonArrow l r true
  | .hashArrow => Scalars.jsonPathArrow l r false
  | .hashLongArrow => Scalars.jsonPathArrow l r true
  | .contains => do .ok (.bool (← Scalars.jsonContains l r))
  | .regexMatch => regex false false
  | .regexNotMatch => regex false true
  | .regexMatchCI => regex true false
  | .regexNotMatchCI => regex true true
  | .and | .or => .error .panic
where
  regex (ci negated : Bool) : Except EvalError (Value F) :=
    if l matches .null ∨ r matches .null then .ok .null
    else do
      let matched ← Scalars.regexIsMatch F (valToText l) (valToText r) ci
      .ok (.bool (if negated then !matched else matched))

def evalUnop (op : UnOp) (v : Value F) : Except EvalError (Value F) :=
  match op, v with
  | .neg, .int n => if InRange 64 (-n) then .ok (.int (-n)) else .error .panic
  | .neg, .float f => .ok (.float (Scalars.neg f))
  | .neg, v => .error (.cannotNegate v.typeName)
  | .not, v => .ok (.bool !v.isTruthy)

end ExecutorValue
