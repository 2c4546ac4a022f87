import EZLanguage.Compiler.FoldingAgreement

/-!
# Which expressions are folded truly

Every sub-expression of an expression is folded to what its code computes, or left alone, exactly when
every operator in it that the folder comes to has operands on which the folder agrees. For expressions
over integers this leaves two conditions; with other literals, and around a call of a pure builtin, there
are more.
-/

namespace EZLanguage

open Operator

variable (fpu : FloatUnit)

namespace ClosedExpr

/-- The folder finds a value for the expression. -/
def folds : ClosedExpr → Bool
  | literal _ => true
  | binary left op right =>
      match left.folds, left.value fpu, right.folds, right.value fpu with
      | true, .ok a, true, .ok b => op.folds fpu a b
      | _, _, _, _ => false
  | unary op operand =>
      match operand.folds, operand.value fpu with
      | true, .ok a => op.folds a
      | _, _ => false

/-- Every operator of the expression that the folder comes to has operands with the properties. -/
def Everywhere (onUnary : UnaryOp → Scalar → Prop) (onBinary : BinaryOp → Scalar → Scalar → Prop) :
    ClosedExpr → Prop
  | literal _ => True
  | binary left op right =>
      left.Everywhere onUnary onBinary ∧ right.Everywhere onUnary onBinary ∧
        ∀ a b, left.folds fpu = true → left.value fpu = .ok a → right.folds fpu = true →
          right.value fpu = .ok b → onBinary op a b
  | unary op operand =>
      operand.Everywhere onUnary onBinary ∧
        ∀ a, operand.folds fpu = true → operand.value fpu = .ok a → onUnary op a

/-- Every operator that the folder comes to has operands on which it agrees. -/
def Careful (e : ClosedExpr) : Prop := e.Everywhere fpu UnaryOp.Careful (BinaryOp.Careful fpu)

end ClosedExpr

namespace BytecodeCompiler

/-- The folder neither throws on the expression nor folds it to anything but what its unfolded code
leaves on the stack. -/
def FoldsTruly (e : ClosedExpr) : Prop :=
  match isConstant fpu e with
  | .error _ => False
  | .ok none => True
  | .ok (some c) => ScalarInstr.run fpu e.unfolded [] = .ok [c.resolved]

theorem foldsTruly_of_agrees {e : ClosedExpr}
    (h : Agrees (isConstant fpu e) (e.folds fpu) (e.value fpu)) : FoldsTruly fpu e := by
  rw [FoldsTruly, ClosedExpr.run_unfolded_alone]
  rw [Agrees] at h
  split at h
  · obtain ⟨v, hvalue, hfolded⟩ := h
    rw [hfolded, hvalue]
    simp [Except.map]
  · rw [h]
    trivial

theorem not_foldsTruly_of_differs {e : ClosedExpr} (h : Differs (isConstant fpu e) (e.value fpu)) :
    ¬FoldsTruly fpu e := by
  rw [FoldsTruly, ClosedExpr.run_unfolded_alone]
  obtain hthrown | ⟨c, hfolded, hvalue⟩ := h
  · rw [hthrown]
    exact id
  · rw [hfolded]
    intro hrun
    apply hvalue
    cases hv : e.value fpu with
    | error fault =>
        rw [hv] at hrun
        cases hrun
    | ok v =>
        rw [hv] at hrun
        exact congrArg Except.ok (List.head_eq_of_cons_eq (Except.ok.inj hrun))

/-- Where everything in an expression is careful, the folder gets the whole expression right. -/
theorem isConstant_of_careful {e : ClosedExpr} (h : e.Careful fpu) :
    Agrees (isConstant fpu e) (e.folds fpu) (e.value fpu) := by
  induction e with
  | literal l => cases l <;> exact ⟨_, rfl, rfl⟩
  | binary left op right ihleft ihright =>
      obtain ⟨hleft, hright, hop⟩ := h
      have hl := ihleft hleft
      have hr := ihright hright
      rw [isConstant, ClosedExpr.folds, ClosedExpr.value]
      cases hfl : left.folds fpu with
      | false =>
          rw [Agrees, hfl] at hl
          rw [hl]
          rfl
      | true =>
          rw [Agrees, hfl] at hl
          obtain ⟨a, hla, hlc⟩ := hl
          rw [hlc, hla]
          cases hfr : right.folds fpu with
          | false =>
              rw [Agrees, hfr] at hr
              rw [hr]
              rfl
          | true =>
              rw [Agrees, hfr] at hr
              obtain ⟨b, hrb, hrc⟩ := hr
              rw [hrc, hrb]
              have hcareful := hop a b hfl hla hfr hrb
              obtain ⟨-, hagrees⟩ | ⟨hcareless, -⟩ := foldBinary_settled fpu op a b
              · exact hagrees
              · exact absurd hcareful hcareless
  | unary op operand ih =>
      obtain ⟨hoperand, hop⟩ := h
      have ho := ih hoperand
      rw [isConstant, ClosedExpr.folds, ClosedExpr.value]
      cases hf : operand.folds fpu with
      | false =>
          rw [Agrees, hf] at ho
          rw [ho]
          rfl
      | true =>
          rw [Agrees, hf] at ho
          obtain ⟨a, hoa, hoc⟩ := ho
          rw [hoc, hoa]
          have hcareful := hop a hf hoa
          obtain ⟨-, hagrees⟩ | ⟨hcareless, -⟩ := foldUnary_settled fpu op a
          · exact hagrees
          · exact absurd hcareful hcareless

theorem careful_of_mem {e s : ClosedExpr} (h : e.Careful fpu) (hs : s ∈ e.subexpressions) :
    s.Careful fpu := by
  induction e with
  | literal l =>
      rw [ClosedExpr.subexpressions, List.mem_singleton] at hs
      rw [hs]
      exact h
  | binary left op right ihleft ihright =>
      rw [ClosedExpr.subexpressions, List.mem_cons, List.mem_append] at hs
      obtain rfl | hs | hs := hs
      · exact h
      · exact ihleft h.1 hs
      · exact ihright h.2.1 hs
  | unary op operand ih =>
      rw [ClosedExpr.subexpressions, List.mem_cons] at hs
      obtain rfl | hs := hs
      · exact h
      · exact ih h.1 hs

/-- The folder gets every sub-expression right exactly when all of them are careful. -/
theorem subexpressions_foldTruly_iff (e : ClosedExpr) :
    (∀ s ∈ e.subexpressions, FoldsTruly fpu s) ↔ e.Careful fpu := by
  constructor
  · intro h
    induction e with
    | literal l => trivial
    | binary left op right ihleft ihright =>
        have hleft := ihleft fun s hs =>
          h s (List.mem_cons_of_mem _ (List.mem_append_left _ hs))
        have hright := ihright fun s hs =>
          h s (List.mem_cons_of_mem _ (List.mem_append_right _ hs))
        refine ⟨hleft, hright, fun a b hfl hla hfr hrb => ?_⟩
        have hl := isConstant_of_careful fpu hleft
        have hr := isConstant_of_careful fpu hright
        rw [Agrees, hfl] at hl
        rw [Agrees, hfr] at hr
        obtain ⟨a', hla', hlc⟩ := hl
        obtain ⟨b', hrb', hrc⟩ := hr
        cases Except.ok.inj (hla.symm.trans hla')
        cases Except.ok.inj (hrb.symm.trans hrb')
        obtain ⟨hcareful, -⟩ | ⟨-, hdiffers⟩ := foldBinary_settled fpu op a b
        · exact hcareful
        · refine absurd (h _ List.mem_cons_self) (not_foldsTruly_of_differs fpu ?_)
          rw [isConstant, hlc, hrc, ClosedExpr.value, hla, hrb]
          exact hdiffers
    | unary op operand ih =>
        have hoperand := ih fun s hs => h s (List.mem_cons_of_mem _ hs)
        refine ⟨hoperand, fun a hf hoa => ?_⟩
        have ho := isConstant_of_careful fpu hoperand
        rw [Agrees, hf] at ho
        obtain ⟨a', hoa', hoc⟩ := ho
        cases Except.ok.inj (hoa.symm.trans hoa')
        obtain ⟨hcareful, -⟩ | ⟨-, hdiffers⟩ := foldUnary_settled fpu op a
        · exact hcareful
        · refine absurd (h _ List.mem_cons_self) (not_foldsTruly_of_differs fpu ?_)
          rw [isConstant, hoc, ClosedExpr.value, hoa]
          exact hdiffers
  · intro h s hs
    exact foldsTruly_of_agrees fpu (isConstant_of_careful fpu (careful_of_mem fpu h hs))

end BytecodeCompiler

/-! ### Expressions over integers -/

/-- The values expressions over integers have. -/
def Scalar.isArithmetic : Scalar → Bool
  | .bool _ | .int _ | .float _ => true
  | _ => false

theorem Scalar.isArithmetic_cases {a : Scalar} (ha : a.isArithmetic = true) :
    (∃ b, a = .bool b) ∨ (∃ i, a = .int i) ∨ ∃ d, a = .float d := by
  cases a with
  | bool b => exact Or.inl ⟨b, rfl⟩
  | int i => exact Or.inr (Or.inl ⟨i, rfl⟩)
  | float d => exact Or.inr (Or.inr ⟨d, rfl⟩)
  | nil | string s => cases ha

def Scalar.isBool : Scalar → Bool
  | .bool _ => true
  | _ => false

/-- The number zero, as an integer or as a double. -/
def Scalar.isZero : Scalar → Bool
  | .int i => i == 0
  | .float d => doubleEq d 0
  | _ => false

/-- `!` and `not` are applied to zero. -/
def UnaryOp.NegatesZero (op : UnaryOp) (a : Scalar) : Prop :=
  (op = .BANG ∨ op = .NOT) ∧ a.isZero = true

/-- An operator other than the two equalities joins a boolean and a double. -/
def BinaryOp.MixesBool (op : BinaryOp) (a b : Scalar) : Prop :=
  op ≠ .EQUAL_EQUAL ∧ op ≠ .BANG_EQUAL ∧
    ((a.isBool = true ∧ b.isFloat = true) ∨ (a.isFloat = true ∧ b.isBool = true))

theorem numeric_arithmetic {onInt : Int64 → Int64 → Scalar} {onFloat : UInt64 → UInt64 → Scalar}
    {otherwise : Scalar → Scalar → Except Fault Scalar} {a b v : Scalar}
    (hint : ∀ x y, (onInt x y).isArithmetic = true)
    (hfloat : ∀ x y, (onFloat x y).isArithmetic = true)
    (hother : otherwise a b = .ok v → v.isArithmetic = true)
    (h : numeric fpu onInt onFloat otherwise a b = .ok v) : v.isArithmetic = true := by
  cases a <;> cases b <;> simp_all only [numeric] <;> grind

theorem quotient_arithmetic {x y : Int64} {v : Scalar} (h : quotient fpu x y = .ok v) :
    v.isArithmetic = true := by
  rw [quotient] at h
  split_ifs at h <;> cases h <;> rfl

/-- The instructions lead from such values to such values. -/
theorem binary_arithmetic {op : BinaryOp} {a b v : Scalar} (ha : a.isArithmetic = true)
    (hb : b.isArithmetic = true) (h : Operator.binary fpu op a b = .ok v) :
    v.isArithmetic = true := by
  cases op with
  | PLUS =>
      simp only [Operator.binary, ADD, doAdd, numeric_numeric] at h
      refine numeric_arithmetic fpu (fun _ _ => rfl) (fun _ _ => rfl) (fun hadd => ?_) h
      obtain ⟨x, rfl⟩ | ⟨x, rfl⟩ | ⟨x, rfl⟩ := Scalar.isArithmetic_cases ha <;>
        obtain ⟨y, rfl⟩ | ⟨y, rfl⟩ | ⟨y, rfl⟩ := Scalar.isArithmetic_cases hb <;> cases hadd
  | MINUS =>
      simp only [Operator.binary, SUB, doSubtract, numeric_numeric] at h
      refine numeric_arithmetic fpu (fun _ _ => rfl) (fun _ _ => rfl) (fun hsub => ?_) h
      cases hsub
  | STAR =>
      simp only [Operator.binary, MUL, doMultiply, numeric_numeric] at h
      refine numeric_arithmetic fpu (fun _ _ => rfl) (fun _ _ => rfl) (fun hmul => ?_) h
      obtain ⟨x, rfl⟩ | ⟨x, rfl⟩ | ⟨x, rfl⟩ := Scalar.isArithmetic_cases ha <;>
        obtain ⟨y, rfl⟩ | ⟨y, rfl⟩ | ⟨y, rfl⟩ := Scalar.isArithmetic_cases hb <;> cases hmul
  | LESS | LESS_EQUAL | GREATER | GREATER_EQUAL =>
      simp only [Operator.binary, LESS, LESS_EQ, GREATER, GREATER_EQ, doLess, doLessEq, doGreater,
        doGreaterEq, compared, numeric_numeric] at h
      refine numeric_arithmetic fpu (fun _ _ => rfl) (fun _ _ => rfl) (fun hless => ?_) h
      obtain ⟨x, rfl⟩ | ⟨x, rfl⟩ | ⟨x, rfl⟩ := Scalar.isArithmetic_cases ha <;>
        obtain ⟨y, rfl⟩ | ⟨y, rfl⟩ | ⟨y, rfl⟩ := Scalar.isArithmetic_cases hb <;> cases hless
  | EQUAL_EQUAL | BANG_EQUAL =>
      cases h
      rfl
  | STAR_STAR =>
      simp only [Operator.binary, doPower] at h
      split at h
      · split_ifs at h
        · cases h
          rfl
        · cases h
          rfl
      · split_ifs at h
        · cases h
          rfl
        · cases h
  | SLASH =>
      simp only [Operator.binary, DIV] at h
      split at h
      · split_ifs at h
        · cases h
        · exact quotient_arithmetic fpu h
      · split_ifs at h
        · cases h
        · cases h
          rfl
        · simp only [doDivide] at h
          split_ifs at h
          · cases h
          · cases h
  | PERCENT =>
      simp only [Operator.binary, MOD, doModulo, remainder] at h
      split at h
      · split_ifs at h
        · cases h
        · cases h
          rfl
      · split at h
        · split_ifs at h
          · cases h
          · cases h
            rfl
        · split_ifs at h
          · cases h
            rfl
          · cases h
  | AMPERSAND | PIPE | CARET =>
      simp only [Operator.binary, doBitwiseAnd, doBitwiseOr, doBitwiseXor, bitwise] at h
      split_ifs at h
      · cases h
        rfl
      · cases h
  | LSHIFT | RSHIFT =>
      simp only [Operator.binary, doShiftLeft, doShiftRight, shift] at h
      split_ifs at h
      · cases h
        rfl
      · cases h
  | IN =>
      obtain ⟨y, rfl⟩ | ⟨y, rfl⟩ | ⟨y, rfl⟩ := Scalar.isArithmetic_cases hb <;> cases h

theorem unary_arithmetic {op : UnaryOp} {a v : Scalar} (h : Operator.unary fpu op a = .ok v)
    : v.isArithmetic = true := by
  cases op with
  | MINUS => cases a <;> cases h <;> rfl
  | NOT | BANG =>
      cases h
      rfl
  | TILDE =>
      simp only [Operator.unary, doBitwiseNot] at h
      split_ifs at h
      · cases h
        rfl
      · cases h

namespace ClosedExpr

/-- All literals are integers, and the operators are those of integer arithmetic. -/
def IsInteger : ClosedExpr → Bool
  | literal (.int _) => true
  | literal _ => false
  | binary left op right => left.IsInteger && right.IsInteger && op != .STAR_STAR && op != .IN
  | unary _ operand => operand.IsInteger

theorem value_arithmetic {e : ClosedExpr} (hint : e.IsInteger = true) {v : Scalar}
    (hv : e.value fpu = .ok v) : v.isArithmetic = true := by
  induction e generalizing v with
  | literal l =>
      cases l with
      | int i =>
          cases hv
          rfl
      | nil | double d | string s | bool b => cases hint
  | binary left op right ihleft ihright =>
      simp only [IsInteger, Bool.and_eq_true] at hint
      rw [value] at hv
      split at hv
      · rename_i a b ha hb
        exact binary_arithmetic fpu (ihleft hint.1.1.1 ha) (ihright hint.1.1.2 hb) hv
      · cases hv
      · cases hv
  | unary op operand ih =>
      rw [value] at hv
      split at hv
      · exact unary_arithmetic fpu hv
      · cases hv

/-- Conditions that agree on the values of integer expressions agree on integer expressions. -/
theorem everywhere_congr {e : ClosedExpr} (hint : e.IsInteger = true)
    {onUnary onUnary' : UnaryOp → Scalar → Prop}
    {onBinary onBinary' : BinaryOp → Scalar → Scalar → Prop}
    (hunary : ∀ op a, a.isArithmetic = true → (onUnary op a ↔ onUnary' op a))
    (hbinary : ∀ op a b, a.isArithmetic = true → b.isArithmetic = true →
      (onBinary op a b ↔ onBinary' op a b)) :
    e.Everywhere fpu onUnary onBinary ↔ e.Everywhere fpu onUnary' onBinary' := by
  induction e with
  | literal l => exact Iff.rfl
  | binary left op right ihleft ihright =>
      simp only [IsInteger, Bool.and_eq_true] at hint
      have hl := hint.1.1.1
      have hr := hint.1.1.2
      rw [Everywhere, Everywhere, ihleft hl, ihright hr]
      refine and_congr_right fun _ => and_congr_right fun _ => ?_
      constructor
      · intro h a b hfl ha hfr hb
        exact (hbinary op a b (value_arithmetic fpu hl ha) (value_arithmetic fpu hr hb)).mp
          (h a b hfl ha hfr hb)
      · intro h a b hfl ha hfr hb
        exact (hbinary op a b (value_arithmetic fpu hl ha) (value_arithmetic fpu hr hb)).mpr
          (h a b hfl ha hfr hb)
  | unary op operand ih =>
      have hoperand : operand.IsInteger = true := hint
      rw [Everywhere, Everywhere, ih hoperand]
      refine and_congr_right fun _ => ?_
      constructor
      · intro h a hf ha
        exact (hunary op a (value_arithmetic fpu hoperand ha)).mp (h a hf ha)
      · intro h a hf ha
        exact (hunary op a (value_arithmetic fpu hoperand ha)).mpr (h a hf ha)

end ClosedExpr

theorem UnaryOp.careful_iff (op : UnaryOp) {a : Scalar} (ha : a.isArithmetic = true) :
    op.Careful a ↔ ¬op.NegatesZero a := by
  obtain ⟨x, rfl⟩ | ⟨x, rfl⟩ | ⟨x, rfl⟩ := Scalar.isArithmetic_cases ha <;> cases op <;>
    simp [UnaryOp.Careful, UnaryOp.NegatesZero, Scalar.isZeroOrEmpty, Scalar.isZero]

theorem BinaryOp.careful_iff (op : BinaryOp) {a b : Scalar} (ha : a.isArithmetic = true)
    (hb : b.isArithmetic = true) : op.Careful fpu a b ↔ ¬op.MixesBool a b := by
  obtain ⟨x, rfl⟩ | ⟨x, rfl⟩ | ⟨x, rfl⟩ := Scalar.isArithmetic_cases ha <;>
    obtain ⟨y, rfl⟩ | ⟨y, rfl⟩ | ⟨y, rfl⟩ := Scalar.isArithmetic_cases hb <;> cases op <;>
    simp [BinaryOp.Careful, BinaryOp.MixesBool, Scalar.isBool, Scalar.isFloat, Scalar.isNumber]

namespace BytecodeCompiler

/-- An expression over integers and all its sub-expressions are folded to what their code computes, or
left alone, exactly when no `!` or `not` that the folder comes to is applied to zero and no operator
but the two equalities joins a boolean and a promoted quotient. -/
theorem integerFolding_iff (e : ClosedExpr) (hint : e.IsInteger = true) :
    (∀ s ∈ e.subexpressions, FoldsTruly fpu s) ↔
      e.Everywhere fpu (fun op a => ¬op.NegatesZero a) (fun op a b => ¬op.MixesBool a b) := by
  rw [subexpressions_foldTruly_iff]
  exact ClosedExpr.everywhere_congr fpu hint (fun op _ ha => UnaryOp.careful_iff op ha)
    fun op _ _ ha hb => BinaryOp.careful_iff fpu op ha hb

/-- `(7 + 2) * -3`. -/
def product : ClosedExpr :=
  .binary (.binary (.literal (.int 7)) .PLUS (.literal (.int 2))) .STAR
    (.unary .MINUS (.literal (.int 3)))

theorem product_foldsTruly : FoldsTruly .bare product := by
  refine (integerFolding_iff .bare product rfl).mpr ⟨⟨trivial, trivial, ?_⟩, ⟨trivial, ?_⟩, ?_⟩ _
    product.self_mem_subexpressions
  · rintro a b - ha - hb ⟨-, -, ⟨hbool, -⟩ | ⟨-, hbool⟩⟩
    · cases ha
      cases hbool
    · cases hb
      cases hbool
  · rintro a - ha ⟨hop | hop, -⟩ <;> cases hop
  · rintro a b - ha - hb ⟨-, -, ⟨hbool, -⟩ | ⟨-, hbool⟩⟩
    · cases ha
      cases hbool
    · cases hb
      cases hbool

/-- `!0`. -/
def notZero : ClosedExpr := .unary .BANG (.literal (.int 0))

/-- The folder makes `!0` true, and its code leaves false. -/
theorem notZero_not_foldsTruly :
    notZero.IsInteger = true ∧ ¬∀ s ∈ notZero.subexpressions, FoldsTruly .bare s := by
  refine ⟨rfl, fun h => ?_⟩
  have hrun := h _ notZero.self_mem_subexpressions
  cases hrun

end BytecodeCompiler

end EZLanguage
