import EZLanguage.VM.Handler
import EZLanguage.VM.Operators

/-!
# The operator instructions on scalars

On scalar operands the handlers of the VM compute what the operators compute: a value is pushed, and an
error is recorded for the next dispatch to deliver.
-/

namespace EZLanguage

open Operator

/-- The runtime computes doubles and renders scalars as the unit does. -/
structure Runtime.Uses (rt : Runtime) (fpu : FloatUnit) : Prop where
  fadd_eq : rt.fadd = fpu.add
  fsub_eq : rt.fsub = fpu.sub
  ofInt_eq : rt.ofInt = fpu.ofInt
  toString_eq : ∀ h (v : Scalar), rt.toString h v.toValue = v.text fpu

/-- The state after a helper: its value pushed, or its error recorded. -/
def Local.settle (l : Local) : Except Fault Scalar → Local
  | .ok v => l.push v.toValue
  | .error (.runtimeError message) => l.runtimeError message
  | .error _ => l

namespace Scalar

theorem toValue_isTruthy (a : Scalar) : a.toValue.isTruthy = a.isTruthy := by
  cases a <;> rfl

end Scalar

namespace Handler

variable {rt : Runtime} {fpu : FloatUnit}

theorem stringify_toValue (hrt : rt.Uses fpu) (l : Local) (a : Scalar) :
    stringify rt l a.toValue = pure (l, a.text fpu) := by
  rw [← hrt.toString_eq l.heap]
  cases a <;> rfl

theorem doAdd_toValue (hrt : rt.Uses fpu) (l : Local) (a b : Scalar) :
    doAdd rt l a.toValue b.toValue = pure (l.settle (Operator.doAdd fpu a b)) := by
  have hleft := stringify_toValue hrt l a
  have hright := stringify_toValue hrt l b
  by_cases hstrings : a.isString = true ∧ b.isString = true
  · obtain ⟨x, rfl⟩ : ∃ x, a = .string x := by
      cases a <;> simp_all [Scalar.isString]
    obtain ⟨y, rfl⟩ : ∃ y, b = .string y := by
      cases b <;> simp_all [Scalar.isString]
    have hlimit : Handler.kMaxStringBytes = Operator.kMaxStringBytes := rfl
    by_cases hlarge : Operator.kMaxStringBytes < y.length ∨
        Operator.kMaxStringBytes - y.length < x.length
    · simp [doAdd, Operator.doAdd, numeric, Scalar.toValue, Scalar.isNumber, hlimit, hlarge,
        Local.settle, raise]
    · simp [doAdd, Operator.doAdd, numeric, Scalar.toValue, Scalar.isNumber, hlimit, hlarge,
        Local.settle]
  · cases a <;> cases b <;>
      simp only [Scalar.toValue, Scalar.isString] at hleft hright hstrings ⊢ <;>
      simp_all [doAdd, Operator.doAdd, numeric, Value.isNumber, Value.isString, Scalar.isNumber,
        Scalar.isString, Local.settle, raise, Scalar.toValue, asNumber, Scalar.asFloat,
        hrt.fadd_eq, hrt.ofInt_eq]

theorem doSubtract_toValue (hrt : rt.Uses fpu) (l : Local) (a b : Scalar) :
    doSubtract rt l a.toValue b.toValue = pure (l.settle (Operator.doSubtract fpu a b)) := by
  cases a <;> cases b <;>
    simp [doSubtract, Operator.doSubtract, numeric, Value.isNumber, Scalar.isNumber,
      Local.settle, raise, Scalar.toValue, asNumber, Scalar.asFloat, hrt.fsub_eq, hrt.ofInt_eq]

theorem overload_toValue (l : Local) (op : CString) (a : Scalar) :
    overload l op a.toValue = none := by
  cases a <;> rfl

variable (ctx : Ctx)

/-- `ADD` on scalars pushes what the operator computes, or records its error. -/
theorem ADD_toValue (hrt : rt.Uses fpu) (l : Local) (a b : Scalar) (rest : List Value) :
    ADD rt ctx (l.withOps (b.toValue :: a.toValue :: rest)) =
      pure (.dispatch ((l.withOps rest).settle (Operator.ADD fpu a b))) := by
  have hadd : Operator.ADD fpu a b = Operator.doAdd fpu a b := by
    rw [Operator.ADD, Operator.doAdd, numeric_numeric]
  rw [ADD, binary, Local.withOps_ops]
  dsimp only
  rw [overload_toValue, hadd]
  dsimp only
  rw [doAdd_toValue hrt]
  rfl

/-- `SUB` on scalars pushes what the operator computes, or records its error. -/
theorem SUB_toValue (hrt : rt.Uses fpu) (l : Local) (a b : Scalar) (rest : List Value) :
    SUB rt ctx (l.withOps (b.toValue :: a.toValue :: rest)) =
      pure (.dispatch ((l.withOps rest).settle (Operator.SUB fpu a b))) := by
  have hsub : Operator.SUB fpu a b = Operator.doSubtract fpu a b := by
    rw [Operator.SUB, Operator.doSubtract, numeric_numeric]
  rw [SUB, binary, Local.withOps_ops]
  dsimp only
  rw [overload_toValue, hsub]
  dsimp only
  rw [doSubtract_toValue hrt]
  rfl

/-- `NOT` on scalars pushes the negation of `Value::isTruthy`. -/
theorem NOT_toValue (fpu : FloatUnit) (l : Local) (a : Scalar) (rest : List Value) :
    Handler.NOT (l.withOps (a.toValue :: rest)) =
      .dispatch ((l.withOps rest).settle (Operator.unary fpu .NOT a)) := by
  rw [Handler.NOT, Local.withOps_ops]
  dsimp only
  rw [Scalar.toValue_isTruthy]
  rfl

end Handler

end EZLanguage
