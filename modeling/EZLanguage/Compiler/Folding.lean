import EZLanguage.Compiler.ClosedExpr
import EZLanguage.Runtime.Utf8
import Mathlib.Data.List.DropRight

/-!
# Constant folding

The folder of the compiler has operators of its own, over constants. It agrees with the instructions on
the operands it is careful with, and only on those: it takes zero and the empty string for false, gives
a double a text of its own, repeats a string a negative number of times, knows no limit on the length of
a string, and throws out of the compiler when a double meets an operand that is no number.
-/

namespace EZLanguage

/-- What leaves the compiler as a C++ exception. -/
inductive Thrown where
  | badVariantAccess
  deriving DecidableEq

/-- The value `resolvedConstants` holds for a constant. -/
def Constant.resolved : Constant → Scalar
  | .nil => .nil
  | .bool b => .bool b
  | .int i => .int i
  | .double bits => .float bits
  | .string s => .string s
  | .function | .model | .arrayConst _ => .nil

/-- The constant of a value. -/
def Scalar.constant : Scalar → Constant
  | .nil => .nil
  | .bool b => .bool b
  | .int i => .int i
  | .float bits => .double bits
  | .string s => .string s

@[simp] theorem Scalar.resolved_constant (v : Scalar) : v.constant.resolved = v := by
  cases v <;> rfl

namespace BytecodeCompiler

open Operator

variable (fpu : FloatUnit)

/-! ### The folder -/

def isConstantTruthy : Constant → Bool
  | .nil => false
  | .bool b => b
  | .int i => i != 0
  | .double d => !doubleEq d 0
  | .string s => !s.isEmpty
  | _ => true

/-- The text of `std::to_string` without its trailing zeros, and without a point they leave bare. -/
def trimZeros (s : CString) : CString :=
  if s.contains 0x2E then
    let kept := s.rdropWhile (· == 0x30)
    if kept.getLast? == some 0x2E then kept.dropLast else kept
  else s

def constantToString : Constant → CString
  | .nil => lit "nil"
  | .bool b => if b then lit "true" else lit "false"
  | .int i => integerText i
  | .double d => trimZeros (fpu.toFixed d)
  | .string s => s
  | _ => []

def constantEquals : Constant → Constant → Bool
  | .nil, .nil => true
  | .bool a, .bool b => a == b
  | .int a, .int b => a == b
  | .double a, .double b => doubleEq a b
  | .string a, .string b => a == b
  | .int a, .double b => doubleEq (fpu.ofInt a) b
  | .double a, .int b => doubleEq a (fpu.ofInt b)
  | _, _ => false

def Constant.isString : Constant → Bool
  | .string _ => true
  | _ => false

def Constant.isDouble : Constant → Bool
  | .double _ => true
  | _ => false

/-- The cases of a string operand. Where none applies the folder goes on to the numbers. -/
def foldStrings (op : BinaryOp) (left right : Constant) : Option Constant :=
  match op, left, right with
  | .PLUS, left, right =>
      if Constant.isString left || Constant.isString right then
        some (.string (constantToString fpu left ++ constantToString fpu right))
      else none
  | .STAR, .string s, .int count =>
      if count ≤ 0 then some (.string [])
      else if count ≤ 50000 then some (.string (repeated s count.toInt.toNat))
      else none
  | .LESS, .string l, .string r => some (.bool (l < r))
  | .LESS_EQUAL, .string l, .string r => some (.bool (l ≤ r))
  | .GREATER, .string l, .string r => some (.bool (l > r))
  | .GREATER_EQUAL, .string l, .string r => some (.bool (l ≥ r))
  | _, _, _ => none

def foldInts (op : BinaryOp) (l r : Int64) : Option Constant :=
  match op with
  | .PLUS => some (.int (l + r))
  | .MINUS => some (.int (l - r))
  | .STAR => some (.int (l * r))
  | .PERCENT => if !divIsUB l r then some (.int (l % r)) else none
  | .AMPERSAND => some (.int (l &&& r))
  | .PIPE => some (.int (l ||| r))
  | .CARET => some (.int (l ^^^ r))
  | .LSHIFT => if 0 ≤ r ∧ r < 64 then some (.int (l <<< r)) else none
  | .RSHIFT => if 0 ≤ r ∧ r < 64 then some (.int (l >>> r)) else none
  | .LESS => some (.bool (l < r))
  | .LESS_EQUAL => some (.bool (l ≤ r))
  | .GREATER => some (.bool (l > r))
  | .GREATER_EQUAL => some (.bool (l ≥ r))
  | .SLASH =>
      if !divIsUB l r then
        if divIsExact l r then some (.int (l / r))
        else some (.double (fpu.div (fpu.ofInt l) (fpu.ofInt r)))
      else none
  | _ => none

def foldDoubles (op : BinaryOp) (l r : UInt64) : Option Constant :=
  match op with
  | .PLUS => some (.double (fpu.add l r))
  | .MINUS => some (.double (fpu.sub l r))
  | .STAR => some (.double (fpu.mul l r))
  | .SLASH => if !doubleEq r 0 then some (.double (fpu.div l r)) else none
  | .LESS => some (.bool (doubleLt l r))
  | .LESS_EQUAL => some (.bool (doubleLe l r))
  | .GREATER => some (.bool (doubleLt r l))
  | .GREATER_EQUAL => some (.bool (doubleLe r l))
  | _ => none

/-- An operand beside a double: `std::get<double>` of what is no integer. -/
def getDouble : Constant → Except Thrown UInt64
  | .int i => .ok (fpu.ofInt i)
  | .double d => .ok d
  | _ => .error .badVariantAccess

def foldNumbers (op : BinaryOp) : Constant → Constant → Except Thrown (Option Constant)
  | .int l, .int r => .ok (foldInts fpu op l r)
  | left, right =>
      if Constant.isDouble left || Constant.isDouble right then do
        let l ← getDouble fpu left
        let r ← getDouble fpu right
        return foldDoubles fpu op l r
      else return none

/-- The case of a `BinaryExpr` with constant operands. -/
def foldBinary (op : BinaryOp) (left right : Constant) : Except Thrown (Option Constant) :=
  match op with
  | .EQUAL_EQUAL => .ok (some (.bool (constantEquals fpu left right)))
  | .BANG_EQUAL => .ok (some (.bool (!constantEquals fpu left right)))
  | op =>
      match foldStrings fpu op left right with
      | some folded => .ok (some folded)
      | none => foldNumbers fpu op left right

/-- The case of a `UnaryExpr` with a constant operand. -/
def foldUnary : UnaryOp → Constant → Option Constant
  | .MINUS, .int i => some (.int (-i))
  | .MINUS, .double d => some (.double (doubleNeg d))
  | .BANG, operand => some (.bool (!isConstantTruthy operand))
  | .NOT, operand => some (.bool (!isConstantTruthy operand))
  | .TILDE, .int i => some (.int (~~~i))
  | _, _ => none

def literalConstant : Literal → Constant
  | .nil => .nil
  | .double bits => .double bits
  | .int i => .int i
  | .string s => .string s
  | .bool b => .bool b

/-- `isConstant`: the constant it leaves in `out` where it returns true. -/
def isConstant : ClosedExpr → Except Thrown (Option Constant)
  | .literal l => .ok (some (literalConstant l))
  | .binary left op right =>
      match isConstant left with
      | .ok (some l) =>
          match isConstant right with
          | .ok (some r) => foldBinary fpu op l r
          | notFolded => notFolded
      | notFolded => notFolded
  | .unary op operand =>
      match isConstant operand with
      | .ok (some c) => .ok (foldUnary op c)
      | notFolded => notFolded

end BytecodeCompiler

end EZLanguage
