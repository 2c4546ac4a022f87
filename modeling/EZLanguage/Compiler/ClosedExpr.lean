import EZLanguage.VM.Operators

/-!
# Closed expressions and their unfolded code

Expressions built from literals by the unary and binary operators, the code the compiler emits for them
where nothing is folded, and what that code leaves on the operand stack.
-/

namespace EZLanguage

/-- The value of a `LiteralExpr`. -/
inductive Literal where
  | nil
  | double (bits : UInt64)
  | int (i : Int64)
  | string (s : CString)
  | bool (b : Bool)
  deriving DecidableEq

/-- `LiteralExpr`, `BinaryExpr` and `UnaryExpr`. -/
inductive ClosedExpr where
  | literal (l : Literal)
  | binary (left : ClosedExpr) (op : BinaryOp) (right : ClosedExpr)
  | unary (op : UnaryOp) (operand : ClosedExpr)

/-- The instructions of unfolded closed expressions. -/
inductive ScalarInstr where
  | load (v : Scalar)
  | binary (op : BinaryOp)
  | unary (op : UnaryOp)

namespace ScalarInstr

open Operator

variable (fpu : FloatUnit)

/-- An instruction on the operands, the top first. -/
def step : ScalarInstr → List Scalar → Except Fault (List Scalar)
  | load v, stack => .ok (v :: stack)
  | binary op, b :: a :: stack =>
      match Operator.binary fpu op a b with
      | .ok v => .ok (v :: stack)
      | .error fault => .error fault
  | unary op, a :: stack =>
      match Operator.unary fpu op a with
      | .ok v => .ok (v :: stack)
      | .error fault => .error fault
  | _, _ => .error .undefined

/-- Instructions one after the other, up to the first fault. -/
def run : List ScalarInstr → List Scalar → Except Fault (List Scalar)
  | [], stack => .ok stack
  | instr :: code, stack =>
      match instr.step fpu stack with
      | .ok stack => run code stack
      | .error fault => .error fault

end ScalarInstr

namespace ClosedExpr

open Operator

variable (fpu : FloatUnit)

/-- `compileLiteral`. -/
def compileLiteral : Literal → Scalar
  | .nil => .nil
  | .double bits => .float bits
  | .int i => .int i
  | .string s => .string s
  | .bool b => .bool b

/-- The code of an expression of which nothing is folded. -/
def unfolded : ClosedExpr → List ScalarInstr
  | literal l => [.load (compileLiteral l)]
  | binary left op right => left.unfolded ++ right.unfolded ++ [.binary op]
  | unary op operand => operand.unfolded ++ [.unary op]

/-- The value of an expression, or its first fault. -/
def value : ClosedExpr → Except Fault Scalar
  | literal l => .ok (compileLiteral l)
  | binary left op right =>
      match left.value, right.value with
      | .ok a, .ok b => Operator.binary fpu op a b
      | .error fault, _ => .error fault
      | .ok _, .error fault => .error fault
  | unary op operand =>
      match operand.value with
      | .ok a => Operator.unary fpu op a
      | .error fault => .error fault

/-- The unfolded code pushes the value, or stops at the fault. -/
theorem run_unfolded (e : ClosedExpr) (rest : List ScalarInstr) (stack : List Scalar) :
    ScalarInstr.run fpu (e.unfolded ++ rest) stack =
      match e.value fpu with
      | .ok v => ScalarInstr.run fpu rest (v :: stack)
      | .error fault => .error fault := by
  induction e generalizing rest stack with
  | literal l => rfl
  | binary left op right ihleft ihright =>
      rw [unfolded, List.append_assoc, List.append_assoc, ihleft, value]
      cases left.value fpu with
      | error fault => rfl
      | ok a =>
          dsimp only
          rw [ihright]
          cases right.value fpu with
          | error fault => rfl
          | ok b =>
              dsimp only [List.singleton_append, ScalarInstr.run, ScalarInstr.step]
              cases Operator.binary fpu op a b <;> rfl
  | unary op operand ih =>
      rw [unfolded, List.append_assoc, ih, value]
      cases operand.value fpu with
      | error fault => rfl
      | ok a =>
          dsimp only [List.singleton_append, ScalarInstr.run, ScalarInstr.step]
          cases Operator.unary fpu op a <;> rfl

/-- What running the unfolded code by itself ends with. -/
theorem run_unfolded_alone (e : ClosedExpr) :
    ScalarInstr.run fpu e.unfolded [] = (e.value fpu).map fun v => [v] := by
  have hrun := run_unfolded fpu e [] []
  rw [List.append_nil] at hrun
  rw [hrun]
  cases e.value fpu <;> rfl

/-- The expressions the compiler compiles on the way: the expression itself and its operands. -/
def subexpressions : ClosedExpr → List ClosedExpr
  | literal l => [literal l]
  | binary left op right =>
      binary left op right :: (left.subexpressions ++ right.subexpressions)
  | unary op operand => unary op operand :: operand.subexpressions

theorem self_mem_subexpressions (e : ClosedExpr) : e ∈ e.subexpressions := by
  cases e <;> exact List.mem_cons_self

end ClosedExpr

end EZLanguage
