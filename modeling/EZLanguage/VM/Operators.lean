import Mathlib.Algebra.GroupWithZero.Nat
import Mathlib.Algebra.Group.Int.Defs
import EZLanguage.VM.Value

/-!
# The operators on scalars

What the arithmetic, bitwise and comparison instructions compute when no operand is a container or an
instance. An instruction tries its own fast cases first and leaves the rest to its helper. A fault is
what the helper records; division of the least integer by -1 is undefined behaviour of the C++ code and
a fault of its own here.
-/

namespace EZLanguage

/-- The values of nil, booleans, numbers and strings. -/
inductive Scalar where
  | nil
  | bool (b : Bool)
  | int (i : Int64)
  | float (bits : UInt64)
  | string (s : CString)
  deriving DecidableEq, Inhabited

/-- Double arithmetic of the target, and the two texts the C++ library has for a double:
`std::to_string` and `operator<<`. -/
structure FloatUnit where
  ofInt : Int64 → UInt64
  toInt : UInt64 → Int64
  add : UInt64 → UInt64 → UInt64
  sub : UInt64 → UInt64 → UInt64
  mul : UInt64 → UInt64 → UInt64
  div : UInt64 → UInt64 → UInt64
  fmod : UInt64 → UInt64 → UInt64
  pow : UInt64 → UInt64 → UInt64
  toFixed : UInt64 → CString
  toGeneral : UInt64 → CString

/-- The unit of the concrete runs, which use no doubles. -/
def FloatUnit.bare : FloatUnit where
  ofInt i := i.toUInt64
  toInt d := d.toInt64
  add a _ := a
  sub a _ := a
  mul a _ := a
  div a _ := a
  fmod a _ := a
  pow a _ := a
  toFixed _ := []
  toGeneral _ := []

/-! ### Doubles by their bits -/

def doubleIsNaN (d : UInt64) : Bool := 0x7FF0000000000000 < d &&& 0x7FFFFFFFFFFFFFFF

def doubleIsZero (d : UInt64) : Bool := d &&& 0x7FFFFFFFFFFFFFFF == 0

/-- The position of a double that is no NaN in the order of the doubles. -/
def doubleRank (d : UInt64) : Int :=
  let magnitude : Int := (d &&& 0x7FFFFFFFFFFFFFFF).toNat
  if d < 0x8000000000000000 then magnitude else -magnitude

def doubleLt (a b : UInt64) : Bool :=
  !doubleIsNaN a && !doubleIsNaN b && doubleRank a < doubleRank b

def doubleLe (a b : UInt64) : Bool :=
  !doubleIsNaN a && !doubleIsNaN b && doubleRank a ≤ doubleRank b

def doubleNeg (d : UInt64) : UInt64 := d ^^^ 0x8000000000000000

/-- Bits below the sign bit are in the order of the doubles they stand for. -/
theorem doubleRank_of_lt {d : UInt64} (h : d.toNat < 2 ^ 63) : doubleRank d = d.toNat := by
  have hmask : (d &&& 0x7FFFFFFFFFFFFFFF).toNat = d.toNat := by
    rw [UInt64.toNat_and]
    exact (Nat.and_two_pow_sub_one_eq_mod d.toNat 63).trans (Nat.mod_eq_of_lt h)
  have hpositive : d < 0x8000000000000000 := UInt64.lt_iff_toNat_lt.mpr h
  rw [doubleRank, if_pos hpositive, hmask]

/-! ### Texts -/

/-- `std::to_string` of an integer. -/
def integerText (i : Int64) : CString := lit (toString i.toInt)

namespace Scalar

def isNumber : Scalar → Bool
  | int _ | float _ => true
  | _ => false

def isString : Scalar → Bool
  | string _ => true
  | _ => false

/-- `Value::isTruthy`: only nil and false are not. -/
def isTruthy : Scalar → Bool
  | nil => false
  | bool b => b
  | _ => true

def toValue : Scalar → Value
  | nil => .nil
  | bool b => .bool b
  | int i => .int i
  | float bits => .float bits
  | string s => .string s

def typeName (s : Scalar) : CString := s.toValue.typeName

variable (fpu : FloatUnit)

/-- `Value::toString` of a double: an integral one in the range of the integers as an integer. -/
def doubleText (d : UInt64) : CString :=
  if doubleLe (fpu.ofInt Int64.minValue) d ∧ doubleLe d (fpu.ofInt Int64.maxValue) ∧
      doubleEq d (fpu.ofInt (fpu.toInt d)) then integerText (fpu.toInt d)
  else fpu.toGeneral d

/-- `Value::toString`. -/
def text : Scalar → CString
  | nil => lit "nil"
  | bool b => if b then lit "true" else lit "false"
  | int i => integerText i
  | float bits => doubleText fpu bits
  | string s => s

def asFloat : Scalar → UInt64
  | int i => fpu.ofInt i
  | float bits => bits
  | _ => 0

def asInteger : Scalar → Int64
  | int i => i
  | float bits => fpu.toInt bits
  | _ => 0

/-- `Value::equals`. -/
def equals : Scalar → Scalar → Bool
  | nil, nil => true
  | bool a, bool b => a == b
  | string a, string b => a == b
  | a, b => if a.isNumber ∧ b.isNumber then doubleEq (a.asFloat fpu) (b.asFloat fpu) else false

end Scalar

/-! ### Instructions -/

inductive BinaryOp where
  | PLUS | MINUS | STAR | STAR_STAR | SLASH | PERCENT
  | AMPERSAND | PIPE | CARET | LSHIFT | RSHIFT
  | EQUAL_EQUAL | BANG_EQUAL | LESS | LESS_EQUAL | GREATER | GREATER_EQUAL
  | IN
  deriving DecidableEq

inductive UnaryOp where
  | MINUS | NOT | BANG | TILDE
  deriving DecidableEq

namespace Operator

inductive Fault where
  | runtimeError (message : CString)
  | exception (kind message : CString)
  | undefined
  deriving DecidableEq

def raise (message : String) : Except Fault Scalar := .error (.runtimeError (lit message))

def zeroDivision (message : String) : Except Fault Scalar :=
  .error (.exception (lit "ZeroDivisionError") (lit message))

variable (fpu : FloatUnit)

/-- The cases of two integers and of two numbers, and what is done with other operands. -/
def numeric (onInt : Int64 → Int64 → Scalar) (onFloat : UInt64 → UInt64 → Scalar)
    (otherwise : Scalar → Scalar → Except Fault Scalar) : Scalar → Scalar → Except Fault Scalar
  | .int x, .int y => .ok (onInt x y)
  | a, b =>
      if a.isNumber ∧ b.isNumber then .ok (onFloat (a.asFloat fpu) (b.asFloat fpu))
      else otherwise a b

/-- The fast cases of an instruction are those of its helper. -/
theorem numeric_numeric (onInt : Int64 → Int64 → Scalar) (onFloat : UInt64 → UInt64 → Scalar)
    (otherwise : Scalar → Scalar → Except Fault Scalar) :
    numeric fpu onInt onFloat (numeric fpu onInt onFloat otherwise) =
      numeric fpu onInt onFloat otherwise := by
  funext a b
  cases a <;> cases b <;> rfl

/-- 4 GiB. -/
def kMaxStringBytes : Nat := 2 ^ 32

/-- 64 MiB. -/
def kMaxRepeatBytes : Nat := 64 * 1024 * 1024

def doAdd : Scalar → Scalar → Except Fault Scalar :=
  numeric fpu (fun x y => .int (x + y)) (fun x y => .float (fpu.add x y)) fun a b =>
    match a, b with
    | .string x, .string y =>
        if kMaxStringBytes < y.length ∨ kMaxStringBytes - y.length < x.length then
          raise "String concatenation result too large"
        else .ok (.string (x ++ y))
    | a, b =>
        if a.isString ∨ b.isString then .ok (.string (a.text fpu ++ b.text fpu))
        else raise "'+' operands must be numbers, strings, or arrays"

def doSubtract : Scalar → Scalar → Except Fault Scalar :=
  numeric fpu (fun x y => .int (x - y)) (fun x y => .float (fpu.sub x y)) fun _ _ =>
    raise "'-' operands must be numbers"

/-- `count` copies of a text. -/
def repeated (s : CString) (count : Nat) : CString := (List.replicate count s).flatten

def doMultiply : Scalar → Scalar → Except Fault Scalar :=
  numeric fpu (fun x y => .int (x * y)) (fun x y => .float (fpu.mul x y)) fun a b =>
    match a, b with
    | .string s, .int count =>
        if count < 0 then raise "String repeat count must not be negative"
        else if 0 < s.length ∧ kMaxRepeatBytes / s.length < count.toInt.toNat then
          raise "String repeat result too large"
        else .ok (.string (repeated s count.toInt.toNat))
    | _, _ => raise "'*' operands must be numbers"

/-- `ezarith::divIsUB`. -/
def divIsUB (a b : Int64) : Bool := b == 0 || (a == Int64.minValue && b == -1)

/-- `ezarith::divIsExact`. -/
def divIsExact (a b : Int64) : Bool := a % b == 0

/-- The quotient of two integers, of which the second is not zero. -/
def quotient (a b : Int64) : Except Fault Scalar :=
  if divIsUB a b then .error .undefined
  else if a % b == 0 then .ok (.int (a / b))
  else .ok (.float (fpu.div (fpu.ofInt a) (fpu.ofInt b)))

def isZeroDivisor : Scalar → Bool
  | .int b => b == 0
  | .float b => doubleEq b 0
  | _ => false

def doDivide (a b : Scalar) : Except Fault Scalar :=
  if isZeroDivisor b then zeroDivision "division by zero"
  else match a, b with
    | .int x, .int y => quotient fpu x y
    | a, b =>
        if a.isNumber ∧ b.isNumber then .ok (.float (fpu.div (a.asFloat fpu) (b.asFloat fpu)))
        else raise "'/' operands must be numbers"

/-- The remainder of two integers, of which the second is not zero. -/
def remainder (a b : Int64) : Except Fault Scalar :=
  if divIsUB a b then .error .undefined else .ok (.int (a % b))

def doModulo : Scalar → Scalar → Except Fault Scalar
  | .int x, .int y => if y == 0 then zeroDivision "modulo by zero" else remainder x y
  | a, b =>
      if a.isNumber ∧ b.isNumber then .ok (.float (fpu.fmod (a.asFloat fpu) (b.asFloat fpu)))
      else raise "'%' operands must be numbers"

/-- The loop of `doPower`. -/
def power (base : Int64) (exp : Nat) (result : Int64) : Int64 :=
  if 0 < exp then
    let result := if exp % 2 = 1 then result * base else result
    power (if 0 < exp / 2 then base * base else base) (exp / 2) result
  else result
termination_by exp

def doPower : Scalar → Scalar → Except Fault Scalar
  | .int x, .int y =>
      if 0 ≤ y then .ok (.int (power x y.toInt.toNat 1))
      else .ok (.float (fpu.pow (fpu.ofInt x) (fpu.ofInt y)))
  | a, b =>
      if a.isNumber ∧ b.isNumber then .ok (.float (fpu.pow (a.asFloat fpu) (b.asFloat fpu)))
      else raise "'**' operands must be numbers"

/-- `doBitwiseAnd`, `doBitwiseOr` and `doBitwiseXor`: a double counts by its integral part. -/
def bitwise (onInt : Int64 → Int64 → Int64) (message : String) (a b : Scalar) :
    Except Fault Scalar :=
  if a.isNumber ∧ b.isNumber then .ok (.int (onInt (a.asInteger fpu) (b.asInteger fpu)))
  else raise message

def doBitwiseAnd : Scalar → Scalar → Except Fault Scalar :=
  bitwise fpu (· &&& ·) "'&' operands must be numbers"

def doBitwiseOr : Scalar → Scalar → Except Fault Scalar :=
  bitwise fpu (· ||| ·) "'|' operands must be numbers"

def doBitwiseXor : Scalar → Scalar → Except Fault Scalar :=
  bitwise fpu (· ^^^ ·) "'^' operands must be numbers"

/-- `doShiftLeft` and `doShiftRight`. -/
def shift (onInt : Int64 → Int64 → Int64) (message : String) (a b : Scalar) : Except Fault Scalar :=
  if a.isNumber ∧ b.isNumber then
    if b.asInteger fpu < 0 ∨ 63 < b.asInteger fpu then
      .error (.exception (lit "ValueError") (lit "a shift amount must be between 0 and 63"))
    else .ok (.int (onInt (a.asInteger fpu) (b.asInteger fpu)))
  else raise message

def doShiftLeft : Scalar → Scalar → Except Fault Scalar :=
  shift fpu (fun a b => (a.toUInt64 <<< b.toUInt64).toInt64) "'<<' operands must be numbers"

def doShiftRight : Scalar → Scalar → Except Fault Scalar :=
  shift fpu (· >>> ·) "'>>' operands must be numbers"

/-- `doLess`, `doLessEq`, `doGreater` and `doGreaterEq`. -/
def compared (onInt : Int64 → Int64 → Bool) (onFloat : UInt64 → UInt64 → Bool)
    (onString : CString → CString → Bool) (message : String) : Scalar → Scalar → Except Fault Scalar :=
  numeric fpu (fun x y => .bool (onInt x y)) (fun x y => .bool (onFloat x y)) fun a b =>
    match a, b with
    | .string x, .string y => .ok (.bool (onString x y))
    | _, _ => raise message

def doLess : Scalar → Scalar → Except Fault Scalar :=
  compared fpu (· < ·) doubleLt (· < ·) "'<' operands must be numbers or strings"

def doLessEq : Scalar → Scalar → Except Fault Scalar :=
  compared fpu (· ≤ ·) doubleLe (· ≤ ·) "'<=' operands must be numbers or strings"

def doGreater : Scalar → Scalar → Except Fault Scalar :=
  compared fpu (· > ·) (fun x y => doubleLt y x) (· > ·) "'>' operands must be numbers or strings"

def doGreaterEq : Scalar → Scalar → Except Fault Scalar :=
  compared fpu (· ≥ ·) (fun x y => doubleLe y x) (· ≥ ·) "'>=' operands must be numbers or strings"

def doNegate : Scalar → Except Fault Scalar
  | .int x => .ok (.int (-x))
  | .float x => .ok (.float (doubleNeg x))
  | _ => raise "Negation operand must be a number"

def doBitwiseNot (a : Scalar) : Except Fault Scalar :=
  if a.isNumber then .ok (.int (~~~a.asInteger fpu)) else raise "'~' operand must be a number"

/-! ### Handlers -/

def ADD : Scalar → Scalar → Except Fault Scalar :=
  numeric fpu (fun x y => .int (x + y)) (fun x y => .float (fpu.add x y)) (doAdd fpu)

def SUB : Scalar → Scalar → Except Fault Scalar :=
  numeric fpu (fun x y => .int (x - y)) (fun x y => .float (fpu.sub x y)) (doSubtract fpu)

def MUL : Scalar → Scalar → Except Fault Scalar :=
  numeric fpu (fun x y => .int (x * y)) (fun x y => .float (fpu.mul x y)) (doMultiply fpu)

def DIV : Scalar → Scalar → Except Fault Scalar
  | .int x, .int y => if y == 0 then zeroDivision "division by zero" else quotient fpu x y
  | a, b =>
      if a.isNumber ∧ b.isNumber then
        if doubleEq (b.asFloat fpu) 0 then zeroDivision "division by zero"
        else .ok (.float (fpu.div (a.asFloat fpu) (b.asFloat fpu)))
      else doDivide fpu a b

def MOD : Scalar → Scalar → Except Fault Scalar
  | .int x, .int y => if y == 0 then zeroDivision "modulo by zero" else remainder x y
  | a, b => doModulo fpu a b

/-- The cases `EQUAL` and `NOT_EQUAL` decide themselves, and `Value::equals` on the rest. -/
def same : Scalar → Scalar → Bool
  | .int x, .int y => x == y
  | .float x, .float y => doubleEq x y
  | .bool x, .bool y => x == y
  | .nil, .nil => true
  | a, b => a.equals fpu b

def LESS : Scalar → Scalar → Except Fault Scalar :=
  numeric fpu (fun x y => .bool (x < y)) (fun x y => .bool (doubleLt x y)) (doLess fpu)

def LESS_EQ : Scalar → Scalar → Except Fault Scalar :=
  numeric fpu (fun x y => .bool (x ≤ y)) (fun x y => .bool (doubleLe x y)) (doLessEq fpu)

def GREATER : Scalar → Scalar → Except Fault Scalar :=
  numeric fpu (fun x y => .bool (x > y)) (fun x y => .bool (doubleLt y x)) (doGreater fpu)

def GREATER_EQ : Scalar → Scalar → Except Fault Scalar :=
  numeric fpu (fun x y => .bool (x ≥ y)) (fun x y => .bool (doubleLe y x)) (doGreaterEq fpu)

def NEGATE : Scalar → Except Fault Scalar
  | .int x => .ok (.int (-x))
  | .float x => .ok (.float (doubleNeg x))
  | a => doNegate a

/-- `std::string::find`. -/
def contains (haystack needle : CString) : Bool := haystack.tails.any fun s => needle.isPrefixOf s

def MEMBER_IN (needle haystack : Scalar) : Except Fault Scalar :=
  match haystack, needle with
  | .string s, .string t => .ok (.bool (contains s t))
  | .string _, needle =>
      .error (.exception (lit "TypeError")
        (lit "'in' on a string expects a string on the left, got " ++ needle.typeName))
  | haystack, _ =>
      .error (.exception (lit "TypeError")
        (lit "'in' expects an array, tuple, dictionary or string on the right, got " ++
          haystack.typeName))

/-- The instruction `compileBinary` emits for an operator, on its two operands. -/
def binary : BinaryOp → Scalar → Scalar → Except Fault Scalar
  | .PLUS => ADD fpu
  | .MINUS => SUB fpu
  | .STAR => MUL fpu
  | .STAR_STAR => doPower fpu
  | .SLASH => DIV fpu
  | .PERCENT => MOD fpu
  | .AMPERSAND => doBitwiseAnd fpu
  | .PIPE => doBitwiseOr fpu
  | .CARET => doBitwiseXor fpu
  | .LSHIFT => doShiftLeft fpu
  | .RSHIFT => doShiftRight fpu
  | .EQUAL_EQUAL => fun a b => .ok (.bool (same fpu a b))
  | .BANG_EQUAL => fun a b => .ok (.bool (!same fpu a b))
  | .LESS => LESS fpu
  | .LESS_EQUAL => LESS_EQ fpu
  | .GREATER => GREATER fpu
  | .GREATER_EQUAL => GREATER_EQ fpu
  | .IN => MEMBER_IN

/-- The instruction `compileUnary` emits for an operator, on its operand. -/
def unary : UnaryOp → Scalar → Except Fault Scalar
  | .MINUS => NEGATE
  | .NOT | .BANG => fun a => .ok (.bool (!a.isTruthy))
  | .TILDE => doBitwiseNot fpu

end Operator

end EZLanguage
