import EZLanguage.Compiler.CompileExpr
import EZLanguage.VM.OperatorHandlers

/-!
# Identity reductions

`compileBinary` leaves out the operator of `e + 0`, `e - 0`, `e * 1`, `0 + e` and `1 * e`. It looks at the
literal alone. The value of `e` stays what it is; the operator would have turned a string into a longer
one, called an overload, or recorded an error.
-/

namespace EZLanguage

/-! ### Doubles beside 0 and 1 -/

/-- The bits of -0.0. -/
def doubleNegZero : UInt64 := 0x8000000000000000

/-- What IEEE 754 says of sums and products with 0 and 1. -/
structure FloatUnit.Neutral (fpu : FloatUnit) : Prop where
  add_zero : ∀ d, doubleIsNaN d = false → d ≠ doubleNegZero → fpu.add d (fpu.ofInt 0) = d
  zero_add : ∀ d, doubleIsNaN d = false → d ≠ doubleNegZero → fpu.add (fpu.ofInt 0) d = d
  negZero_add_zero : fpu.add doubleNegZero (fpu.ofInt 0) = 0
  zero_add_negZero : fpu.add (fpu.ofInt 0) doubleNegZero = 0
  sub_zero : ∀ d, doubleIsNaN d = false → fpu.sub d (fpu.ofInt 0) = d
  mul_one : ∀ d, doubleIsNaN d = false → fpu.mul d (fpu.ofInt 1) = d
  one_mul : ∀ d, doubleIsNaN d = false → fpu.mul (fpu.ofInt 1) d = d
  nan_add : ∀ d, doubleIsNaN d = true → doubleIsNaN (fpu.add d (fpu.ofInt 0)) = true
  add_nan : ∀ d, doubleIsNaN d = true → doubleIsNaN (fpu.add (fpu.ofInt 0) d) = true
  nan_sub : ∀ d, doubleIsNaN d = true → doubleIsNaN (fpu.sub d (fpu.ofInt 0)) = true
  nan_mul : ∀ d, doubleIsNaN d = true → doubleIsNaN (fpu.mul d (fpu.ofInt 1)) = true
  mul_nan : ∀ d, doubleIsNaN d = true → doubleIsNaN (fpu.mul (fpu.ofInt 1) d) = true

/-- The same value, where all NaNs are one. -/
def Value.SameUpToNaN (v w : Value) : Prop :=
  w = v ∨ ∃ a b, v = .float a ∧ w = .float b ∧ doubleIsNaN a = true ∧ doubleIsNaN b = true

/-! ### The instructions -/

namespace Handler

variable (rt : Runtime) (ctx : Ctx)

/-- `doMultiply`, with its operands popped. -/
def doMultiply (fpu : FloatUnit) (l : Local) (a b : Value) : Proc Local :=
  match a, b with
  | .int x, .int y => return l.push (.int (x * y))
  | .string s, .int count =>
      if count < 0 then
        return l.runtimeError (lit "String repeat count must not be negative")
      else if 0 < s.length ∧ Operator.kMaxRepeatBytes / s.length < count.toInt.toNat then
        return l.runtimeError (lit "String repeat result too large")
      else return l.push (.string (Operator.repeated s count.toInt.toNat))
  | a, b =>
      if a.isNumber ∧ b.isNumber then
        return l.push (.float (fpu.mul (asNumber rt a) (asNumber rt b)))
      else return l.runtimeError (lit "'*' operands must be numbers")

/-- `MUL`. -/
def multiply (fpu : FloatUnit) : Local → Proc Exit :=
  binary rt ctx "*" fun l a b => do
    let l ← guardedHelper (doMultiply rt fpu l a b)
    return .dispatch l

end Handler

/-- An operator with a literal that should leave the other operand as it is. -/
inductive Identity where
  | plusZero | minusZero | timesOne | zeroPlus | oneTimes
  deriving DecidableEq

namespace Identity

def op : Identity → BinaryOp
  | plusZero | zeroPlus => .PLUS
  | minusZero => .MINUS
  | timesOne | oneTimes => .STAR

def literal : Identity → Int64
  | plusZero | minusZero | zeroPlus => 0
  | timesOne | oneTimes => 1

/-- The literal is the left operand. -/
def literalFirst : Identity → Bool
  | zeroPlus | oneTimes => true
  | _ => false

/-- The left operand of the expression. -/
def left {E : Type} (i : Identity) (e other : E) : E := if i.literalFirst then other else e

/-- The right operand of the expression. -/
def right {E : Type} (i : Identity) (e other : E) : E := if i.literalFirst then e else other

/-- The instruction that is left out. -/
def handler (rt : Runtime) (fpu : FloatUnit) (ctx : Ctx) : Identity → Local → Proc Exit
  | plusZero | zeroPlus => Handler.ADD rt ctx
  | minusZero => Handler.SUB rt ctx
  | timesOne | oneTimes => Handler.multiply rt ctx fpu

/-- The operands of the instruction, the top first, for a value of the expression. -/
def operands (i : Identity) (v : Value) : List Value :=
  if i.literalFirst then [v, .int i.literal] else [.int i.literal, v]

/-- The instruction would have left the value of the expression on the operands and done nothing else. -/
def Preserves (rt : Runtime) (fpu : FloatUnit) (ctx : Ctx) (i : Identity) (l : Local) (v : Value)
    (rest : List Value) : Prop :=
  ∃ w, v.SameUpToNaN w ∧ i.handler rt fpu ctx (l.withOps (i.operands v ++ rest)) =
    pure (.dispatch (l.withOps (w :: rest)))

/-- The values on which the operator with the literal is the identity: integers, doubles other than -0.0
where 0 is added, and strings of at most 64 MiB times one. -/
def Neutral : Identity → Value → Prop
  | _, .int _ => True
  | plusZero, .float d | zeroPlus, .float d => d ≠ doubleNegZero
  | _, .float _ => True
  | timesOne, .string s => s.length ≤ Operator.kMaxRepeatBytes
  | _, _ => False

end Identity

/-! ### The code of the expression -/

namespace BytecodeCompiler

variable (host : Host) (below : Below)

/-- The other operand is no literal that folds with this one. -/
theorem simplified_identity (i : Identity) {e other : Expr} {c : Option Constant}
    (hfold : ∀ l, c = some l → foldBinary host.fpu i.op
      (i.left l (.int i.literal)) (i.right l (.int i.literal)) = .ok none) :
    simplified (i.left e other) i.op (i.right e other) (i.left c (some (.int i.literal)))
      (i.right c (some (.int i.literal))) = some e := by
  cases i with
  | plusZero => rfl
  | minusZero => rfl
  | timesOne => rfl
  | zeroPlus =>
      have hother : c ≠ some (.int 0) := by
        rintro rfl
        cases hfold _ rfl
      show simplified other .PLUS e (some (.int 0)) c = some e
      unfold simplified
      split
      · exact absurd rfl hother
      · contradiction
      · contradiction
      · rfl
      · contradiction
      · rename_i hplus hstar
        exact (hplus rfl rfl).elim
  | oneTimes =>
      have hother : c ≠ some (.int 1) := by
        rintro rfl
        cases hfold _ rfl
      show simplified other .STAR e (some (.int 1)) c = some e
      unfold simplified
      split
      · contradiction
      · contradiction
      · exact absurd rfl hother
      · contradiction
      · rfl
      · rename_i hplus hstar
        exact (hstar rfl rfl).elim

/-- Where the operands are not folded, the code of the expression is that of its operand. -/
theorem compileBinary_identity (i : Identity) {e other : Expr} {c : Option Constant}
    (hliteral : other.isConstant host.fpu = .ok (some (.int i.literal)))
    (hother : e.isConstant host.fpu = .ok c)
    (hfold : ∀ l, c = some l → foldBinary host.fpu i.op
      (i.left l (.int i.literal)) (i.right l (.int i.literal)) = .ok none) :
    compileBinary host below (i.left e other) i.op (i.right e other) = below.expr e := by
  have hliteral' : isConstantExpr host other = pure (some (.int i.literal)) := by
    rw [isConstantExpr, hliteral]
  have hother' : isConstantExpr host e = pure c := by
    rw [isConstantExpr, hother]
  have hleft : isConstantExpr host (i.left e other) = pure (i.left c (some (.int i.literal))) := by
    cases i <;> assumption
  have hright : isConstantExpr host (i.right e other) =
      pure (i.right c (some (.int i.literal))) := by
    cases i <;> assumption
  have hfolded : foldedBinary host i.op (i.left c (some (.int i.literal)))
      (i.right c (some (.int i.literal))) = pure none := by
    cases c with
    | none => cases i <;> rfl
    | some l =>
        have hnone := hfold l rfl
        cases i <;>
        · unfold foldedBinary
          simp only [Identity.left, Identity.right, Identity.literalFirst, Bool.false_eq_true,
            if_true, if_false] at hnone ⊢
          simp only [hnone]
  unfold compileBinary
  rw [hleft, hright]
  simp only [pure_bind]
  rw [hfolded]
  simp only [pure_bind]
  rw [simplified_identity host i hfold]

end BytecodeCompiler

/-! ### Results of the instructions -/

namespace Identity

variable {rt : Runtime} {fpu : FloatUnit} {ctx : Ctx} {l : Local} {rest : List Value}

/-- `MUL` on scalars pushes what the operator computes, or records its error. -/
theorem multiply_toValue (hrt : rt.Uses fpu) (l : Local) (a b : Scalar) (rest : List Value) :
    Handler.multiply rt ctx fpu (l.withOps (b.toValue :: a.toValue :: rest)) =
      pure (.dispatch ((l.withOps rest).settle (Operator.MUL fpu a b))) := by
  have hmul : Operator.MUL fpu a b = Operator.doMultiply fpu a b := by
    rw [Operator.MUL, Operator.doMultiply, Operator.numeric_numeric]
  have hdo : Handler.doMultiply rt fpu (l.withOps rest) a.toValue b.toValue =
      pure ((l.withOps rest).settle (Operator.doMultiply fpu a b)) := by
    cases a <;> cases b <;>
      simp [Handler.doMultiply, Operator.doMultiply, Operator.numeric, Value.isNumber,
        Scalar.isNumber, Local.settle, Operator.raise, Scalar.toValue, Handler.asNumber,
        Scalar.asFloat, hrt.ofInt_eq]
    split
    · rfl
    · split <;> rfl
  rw [Handler.multiply, Handler.binary, Local.withOps_ops]
  dsimp only
  rw [Handler.overload_toValue, hmul]
  dsimp only
  rw [show (l.withOps (b.toValue :: a.toValue :: rest)).withOps rest = l.withOps rest from rfl, hdo]
  rfl

/-- The operator on scalars. -/
def compute (fpu : FloatUnit) (i : Identity) (a : Scalar) : Except Operator.Fault Scalar :=
  Operator.binary fpu i.op (i.left a (.int i.literal)) (i.right a (.int i.literal))

theorem handler_toValue (hrt : rt.Uses fpu) (i : Identity) (a : Scalar) :
    i.handler rt fpu ctx (l.withOps (i.operands a.toValue ++ rest)) =
      pure (.dispatch ((l.withOps rest).settle (i.compute fpu a))) := by
  cases i with
  | plusZero => exact Handler.ADD_toValue ctx hrt l a (.int 0) rest
  | minusZero => exact Handler.SUB_toValue ctx hrt l a (.int 0) rest
  | timesOne => exact multiply_toValue hrt l a (.int 1) rest
  | zeroPlus => exact Handler.ADD_toValue ctx hrt l (.int 0) a rest
  | oneTimes => exact multiply_toValue hrt l (.int 1) a rest

/-- A recorded error is not the state with the value. -/
theorem preserves_toValue_iff (hrt : rt.Uses fpu) (hrunning : l.shared.running = true) (i : Identity)
    (a : Scalar) (herrors : ∀ f, i.compute fpu a = .error f → ∃ m, f = .runtimeError m) :
    i.Preserves rt fpu ctx l a.toValue rest ↔
      ∃ x, i.compute fpu a = .ok x ∧ a.toValue.SameUpToNaN x.toValue := by
  unfold Preserves
  rw [handler_toValue hrt]
  cases hcompute : i.compute fpu a with
  | ok x =>
      constructor
      · rintro ⟨w, hsame, hends⟩
        have hstate : (l.withOps rest).settle (.ok x) = l.withOps (w :: rest) :=
          Exit.dispatch.inj (Except.ok.inj (Resumption.done.inj hends))
        have hops := congrArg Local.ops hstate
        obtain rfl : x.toValue = w := (List.cons.inj hops).1
        exact ⟨x, rfl, hsame⟩
      · rintro ⟨x', hx, hsame⟩
        obtain rfl := Except.ok.inj hx
        exact ⟨_, hsame, rfl⟩
  | error f =>
      obtain ⟨m, rfl⟩ := herrors f hcompute
      constructor
      · rintro ⟨w, -, hends⟩
        have hstate : (l.withOps rest).runtimeError m = l.withOps (w :: rest) :=
          Exit.dispatch.inj (Except.ok.inj (Resumption.done.inj hends))
        have hstopped : l.shared.running = false :=
          (congrArg (fun l : Local => l.shared.running) hstate).symm
        rw [hrunning] at hstopped
        cases hstopped
      · rintro ⟨x, hx, -⟩
        cases hx

/-! ### Scalars -/

/-- The double the operator makes of a double and its literal. -/
def onDouble (fpu : FloatUnit) : Identity → UInt64 → UInt64
  | plusZero, d => fpu.add d (fpu.ofInt 0)
  | minusZero, d => fpu.sub d (fpu.ofInt 0)
  | timesOne, d => fpu.mul d (fpu.ofInt 1)
  | zeroPlus, d => fpu.add (fpu.ofInt 0) d
  | oneTimes, d => fpu.mul (fpu.ofInt 1) d

theorem compute_int (i : Identity) (x : Int64) : i.compute fpu (.int x) = .ok (.int x) := by
  cases i <;>
    simp [compute, left, right, op, literal, literalFirst, Operator.binary, Operator.ADD,
      Operator.SUB, Operator.MUL, Operator.numeric]

theorem compute_float (i : Identity) (d : UInt64) :
    i.compute fpu (.float d) = .ok (.float (i.onDouble fpu d)) := by
  cases i <;> rfl

theorem same_float {d w : UInt64} : (Value.float d).SameUpToNaN (.float w) ↔
    w = d ∨ doubleIsNaN d = true ∧ doubleIsNaN w = true := by
  unfold Value.SameUpToNaN
  constructor
  · rintro (hsame | ⟨a, b, ha, hb, hnan⟩)
    · exact .inl (Value.float.inj hsame)
    · cases ha
      cases hb
      exact .inr hnan
  · rintro (rfl | hnan)
    · exact .inl rfl
    · exact .inr ⟨d, w, rfl, rfl, hnan⟩

/-- Adding 0 turns -0.0 into 0.0 and leaves every other double alone. -/
theorem onDouble_same_iff (hfpu : fpu.Neutral) (i : Identity) (d : UInt64) :
    (Value.float d).SameUpToNaN (.float (i.onDouble fpu d)) ↔ i.Neutral (.float d) := by
  rw [same_float]
  cases hnan : doubleIsNaN d with
  | true =>
      have hneutral : i.Neutral (.float d) := by
        have hne : d ≠ doubleNegZero := by
          rintro rfl
          cases hnan
        cases i <;> first | exact hne | trivial
      have hresult : doubleIsNaN (i.onDouble fpu d) = true := by
        cases i with
        | plusZero => exact hfpu.nan_add d hnan
        | minusZero => exact hfpu.nan_sub d hnan
        | timesOne => exact hfpu.nan_mul d hnan
        | zeroPlus => exact hfpu.add_nan d hnan
        | oneTimes => exact hfpu.mul_nan d hnan
      simp [hneutral, hresult]
  | false =>
      simp only [Bool.false_eq_true, false_and, or_false]
      cases i with
      | plusZero =>
          constructor
          · rintro hsame rfl
            rw [onDouble, hfpu.negZero_add_zero] at hsame
            cases hsame
          · exact hfpu.add_zero d hnan
      | zeroPlus =>
          constructor
          · rintro hsame rfl
            rw [onDouble, hfpu.zero_add_negZero] at hsame
            cases hsame
          · exact hfpu.zero_add d hnan
      | minusZero => exact iff_of_true (hfpu.sub_zero d hnan) trivial
      | timesOne => exact iff_of_true (hfpu.mul_one d hnan) trivial
      | oneTimes => exact iff_of_true (hfpu.one_mul d hnan) trivial

/-- A text times one is the text, unless it is longer than what `doMultiply` repeats. -/
theorem compute_timesOne_string (s : CString) :
    timesOne.compute fpu (.string s) =
      if s.length ≤ Operator.kMaxRepeatBytes then .ok (.string s)
      else Operator.raise "String repeat result too large" := by
  have hlarge : (0 < s.length ∧ Operator.kMaxRepeatBytes / s.length < 1) ↔
      ¬s.length ≤ Operator.kMaxRepeatBytes := by
    rw [Nat.not_le]
    constructor
    · rintro ⟨hpos, hquot⟩
      exact (Nat.div_lt_one_iff hpos).1 hquot
    · intro hlt
      exact ⟨by omega, (Nat.div_lt_one_iff (by omega)).2 hlt⟩
  have hrepeated : Operator.repeated s 1 = s := by
    simp [Operator.repeated]
  have hcompute : timesOne.compute fpu (.string s) =
      if 0 < s.length ∧ Operator.kMaxRepeatBytes / s.length < 1 then
        Operator.raise "String repeat result too large"
      else .ok (.string (Operator.repeated s 1)) := rfl
  rw [hcompute, hrepeated]
  by_cases hle : s.length ≤ Operator.kMaxRepeatBytes
  · rw [if_neg (fun h => hlarge.1 h hle), if_pos hle]
  · rw [if_pos (hlarge.2 hle), if_neg hle]

/-- Beside 0 a text becomes a longer one. -/
theorem not_same_string {s t : CString} (hlength : s.length ≠ t.length) :
    ¬(Value.string s).SameUpToNaN (.string t) := by
  rintro (hsame | ⟨_, _, hfloat, _⟩)
  · exact hlength (congrArg List.length (Value.string.inj hsame)).symm
  · cases hfloat

/-- On which scalars the operator computes the value it is given. -/
theorem compute_same_iff (hfpu : fpu.Neutral) (i : Identity) (a : Scalar) :
    (∃ x, i.compute fpu a = .ok x ∧ a.toValue.SameUpToNaN x.toValue) ↔ i.Neutral a.toValue := by
  cases a with
  | nil =>
      refine iff_of_false ?_ (by cases i <;> exact id)
      rintro ⟨x, hx, -⟩
      cases i <;> cases hx
  | bool b =>
      refine iff_of_false ?_ (by cases i <;> exact id)
      rintro ⟨x, hx, -⟩
      cases i <;> cases hx
  | int x =>
      have hneutral : i.Neutral (Scalar.int x).toValue := by
        cases i <;> trivial
      exact iff_of_true ⟨_, compute_int i x, .inl rfl⟩ hneutral
  | float d =>
      rw [compute_float]
      constructor
      · rintro ⟨x, hx, hsame⟩
        obtain rfl := Except.ok.inj hx
        exact (onDouble_same_iff hfpu i d).1 hsame
      · intro hneutral
        exact ⟨_, rfl, (onDouble_same_iff hfpu i d).2 hneutral⟩
  | string s =>
      have hzero : (Scalar.int 0).text fpu = [48] := by
        show integerText 0 = [48]
        decide
      cases i with
      | plusZero =>
          refine iff_of_false ?_ id
          rintro ⟨x, hx, hsame⟩
          obtain rfl : Scalar.string (s ++ (Scalar.int 0).text fpu) = x := Except.ok.inj hx
          apply not_same_string _ hsame
          rw [hzero, List.length_append, List.length_singleton]
          omega
      | zeroPlus =>
          refine iff_of_false ?_ id
          rintro ⟨x, hx, hsame⟩
          obtain rfl : Scalar.string ((Scalar.int 0).text fpu ++ s) = x := Except.ok.inj hx
          apply not_same_string _ hsame
          rw [hzero, List.length_append, List.length_singleton]
          omega
      | minusZero =>
          refine iff_of_false ?_ id
          rintro ⟨x, hx, -⟩
          cases hx
      | oneTimes =>
          refine iff_of_false ?_ id
          rintro ⟨x, hx, -⟩
          cases hx
      | timesOne =>
          rw [compute_timesOne_string]
          constructor
          · rintro ⟨x, hx, -⟩
            by_cases hle : s.length ≤ Operator.kMaxRepeatBytes
            · exact hle
            · rw [if_neg hle] at hx
              cases hx
          · intro hle
            exact ⟨_, if_pos hle, .inl rfl⟩

/-- The only errors are those the handlers record. -/
theorem compute_error (i : Identity) (a : Scalar) (f : Operator.Fault)
    (hcompute : i.compute fpu a = .error f) : ∃ m, f = .runtimeError m := by
  cases a with
  | nil => cases i <;> cases hcompute <;> exact ⟨_, rfl⟩
  | bool b => cases i <;> cases hcompute <;> exact ⟨_, rfl⟩
  | int x => cases (compute_int i x).symm.trans hcompute
  | float d => cases (compute_float i d).symm.trans hcompute
  | string s =>
      cases i with
      | timesOne =>
          rw [compute_timesOne_string] at hcompute
          split at hcompute
          · cases hcompute
          · cases hcompute
            exact ⟨_, rfl⟩
      | _ => cases hcompute <;> exact ⟨_, rfl⟩

end Identity

/-! ### Calls -/

section Calls

variable {rt : Runtime} {ctx : Ctx}

theorem Handler.pure_of_bind_pure {α β : Type} {p : Proc α} {f : α → β} {b : β}
    (h : (do let a ← p; return f a) = (pure b : Proc β)) : ∃ a, p = pure a ∧ f a = b := by
  change (Resumption.bind p _ : Resumption Request Reply _) = .done (Except.ok b) at h
  cases p with
  | done ended =>
      cases ended with
      | ok a => exact ⟨a, rfl, Except.ok.inj (Resumption.done.inj h)⟩
      | error unwinding => cases h
  | ask q k => cases h

theorem pushCallFrame_ends (l : Local) (bcFunc : Nat) (args : List Value) (upvalues : ClosureState)
    {l' : Local} (hends : (pushCallFrame rt ctx l bcFunc args upvalues).dispatchOrReturn =
      .dispatch l') : l'.shared.running = false := by
  unfold pushCallFrame at hends
  dsimp only at hends
  split at hends
  · obtain rfl := Exit.dispatch.inj hends
    exact Shared.throwException_running _ _ _
  · split at hends
    · obtain rfl := Exit.dispatch.inj hends
      rfl
    · cases hends

/-- A compiled function is queued, gets a frame, or is refused with a recorded fault. -/
theorem dispatchFunction_ends (l : Local) (callee : Value) (bcFunc : Nat) (upvalues : ClosureState)
    (argCount : Nat) {l' : Local}
    (hends : (dispatchFunction rt ctx l callee bcFunc upvalues argCount false).dispatchOrReturn =
      .dispatch l') : l'.shared.running = false := by
  unfold dispatchFunction at hends
  dsimp only at hends
  split at hends
  · split at hends <;> cases hends
  · split at hends
    · cases hends
    · exact pushCallFrame_ends _ _ _ _ hends

/-- A call that is over at once recorded a fault or made a new object. -/
theorem dispatchCallee_ends (callee : Value) : ∀ (l : Local) (argCount : Nat) (callSite : Option Nat)
    {d : Dispatched} {l' : Local}, dispatchCallee rt ctx callee l argCount callSite = pure d →
    d.dispatchOrReturn = .dispatch l' →
    l'.shared.running = false ∨ l'.shared.next ≠ l.shared.next := by
  induction callee with
  | nativeFunction id =>
      intro l argCount callSite d l' hd hends
      unfold dispatchCallee at hd
      split at hd
      · obtain rfl := Except.ok.inj (Resumption.done.inj hd)
        cases hends
      · cases hd
  | boundMethod receiver method _ ih =>
      intro l argCount callSite d l' hd hends
      unfold dispatchCallee at hd
      split at hd
      · obtain rfl := Except.ok.inj (Resumption.done.inj hd)
        cases hends
      · dsimp only at hd
        have hmethod := ih _ _ _ hd hends
        exact hmethod
  | closure r =>
      intro l argCount callSite d l' hd hends
      obtain rfl := Except.ok.inj (Resumption.done.inj hd)
      exact .inl (dispatchFunction_ends _ _ _ _ _ hends)
  | function r =>
      intro l argCount callSite d l' hd hends
      unfold dispatchCallee at hd
      split at hd
      · obtain rfl := Except.ok.inj (Resumption.done.inj hd)
        cases hends
      · obtain rfl := Except.ok.inj (Resumption.done.inj hd)
        exact .inl (dispatchFunction_ends _ _ _ _ _ hends)
  | klass r =>
      intro l argCount callSite d l' hd hends
      obtain ⟨made, hmade, rfl⟩ := Handler.pure_of_bind_pure hd
      obtain rfl := Exit.dispatch.inj hends
      unfold instantiate at hmade
      dsimp only at hmade
      split at hmade
      · obtain rfl := Except.ok.inj (Resumption.done.inj hmade)
        exact .inr (Nat.succ_ne_self _)
      · cases hmade
  | _ =>
      intro l argCount callSite d l' hd hends
      obtain rfl := Except.ok.inj (Resumption.done.inj hd)
      cases hends

/-- What an overload does is more than to leave its receiver. -/
theorem callAndReturn_boundMethod (l : Local) (receiver method : Value) (argCount : Nat) {l' : Local}
    (hends : Handler.callAndReturn rt ctx l (.boundMethod receiver method) argCount =
      pure (.dispatch l')) : l'.shared.running = false ∨ l'.shared.next ≠ l.shared.next := by
  obtain ⟨d, hd, hexit⟩ := Handler.pure_of_bind_pure hends
  exact dispatchCallee_ends (.boundMethod receiver method) l argCount none hd hexit

end Calls

namespace Identity

section Objects

variable {rt : Runtime} {fpu : FloatUnit} {ctx : Ctx} {l : Local} {rest : List Value}

/-- An operator calls the overload of an instance, or goes on to its own computation. -/
theorem binary_inst (op : String) (helper : Local → Value → Value → Proc Local) (b : Value) (r : Nat)
    {m : CString} (hhelper : helper (l.withOps rest) (.inst r) b =
      pure ((l.withOps rest).runtimeError m)) :
    let handler := Handler.binary rt ctx op fun l a b => do
      let l ← Handler.guardedHelper (helper l a b)
      return .dispatch l
    (∃ m, handler (l.withOps (b :: .inst r :: rest)) =
      pure (.dispatch ((l.withOps rest).runtimeError m))) ∨
    ∃ receiver method, handler (l.withOps (b :: .inst r :: rest)) =
      Handler.callAndReturn rt ctx (l.withOps (b :: .boundMethod receiver method :: rest))
        (.boundMethod receiver method) 1 := by
  dsimp only
  unfold Handler.binary
  cases hoverload : Handler.overload (l.withOps (b :: .inst r :: rest)) (lit op) (.inst r) with
  | none =>
      refine .inl ⟨m, ?_⟩
      simp only [Local.withOps_ops, hoverload]
      rw [show (l.withOps (b :: .inst r :: rest)).withOps rest = l.withOps rest from rfl, hhelper]
      rfl
  | some bound =>
      have hbound : ∃ method, bound = .boundMethod (.inst r) method := by
        simp only [Handler.overload] at hoverload
        split at hoverload
        · exact ⟨_, (Option.some.inj hoverload).symm⟩
        · cases hoverload
      obtain ⟨method, rfl⟩ := hbound
      refine .inr ⟨.inst r, method, ?_⟩
      simp only [Local.withOps_ops, hoverload]
      rfl

/-- Beside an integer, a value that is no scalar is either the receiver of an overload or an error. -/
theorem handler_object (i : Identity) {v : Value} (hobject : ∀ a : Scalar, v ≠ a.toValue) :
    (∃ m, i.handler rt fpu ctx (l.withOps (i.operands v ++ rest)) =
      pure (.dispatch ((l.withOps rest).runtimeError m))) ∨
    ∃ receiver method, i.handler rt fpu ctx (l.withOps (i.operands v ++ rest)) =
      Handler.callAndReturn rt ctx
        (l.withOps (.int i.literal :: .boundMethod receiver method :: rest))
        (.boundMethod receiver method) 1 := by
  cases v with
  | nil => exact absurd rfl (hobject .nil)
  | bool b => exact absurd rfl (hobject (.bool b))
  | int n => exact absurd rfl (hobject (.int n))
  | float d => exact absurd rfl (hobject (.float d))
  | string s => exact absurd rfl (hobject (.string s))
  | inst r =>
      cases i with
      | zeroPlus => exact .inl ⟨_, rfl⟩
      | oneTimes => exact .inl ⟨_, rfl⟩
      | plusZero => exact binary_inst "+" (Handler.doAdd rt) (.int 0) r rfl
      | minusZero => exact binary_inst "-" (Handler.doSubtract rt) (.int 0) r rfl
      | timesOne => exact binary_inst "*" (Handler.doMultiply rt fpu) (.int 1) r rfl
  | _ => cases i <;> exact .inl ⟨_, rfl⟩

theorem not_preserves_object (hrunning : l.shared.running = true) (i : Identity) {v : Value}
    (hobject : ∀ a : Scalar, v ≠ a.toValue) : ¬i.Preserves rt fpu ctx l v rest := by
  rintro ⟨w, -, hends⟩
  obtain ⟨m, herror⟩ | ⟨receiver, method, hcall⟩ := handler_object i hobject
  · rw [herror] at hends
    have hstate : (l.withOps rest).runtimeError m = l.withOps (w :: rest) :=
      Exit.dispatch.inj (Except.ok.inj (Resumption.done.inj hends))
    have hstopped : l.shared.running = false :=
      (congrArg (fun l : Local => l.shared.running) hstate).symm
    rw [hrunning] at hstopped
    cases hstopped
  · rw [hcall] at hends
    obtain hstopped | hnext := callAndReturn_boundMethod _ receiver method 1 hends
    · exact Bool.false_ne_true (hstopped.symm.trans hrunning)
    · exact hnext rfl

theorem not_neutral_object (i : Identity) {v : Value} (hobject : ∀ a : Scalar, v ≠ a.toValue) :
    ¬i.Neutral v := by
  cases v with
  | nil => exact absurd rfl (hobject .nil)
  | bool b => exact absurd rfl (hobject (.bool b))
  | int n => exact absurd rfl (hobject (.int n))
  | float d => exact absurd rfl (hobject (.float d))
  | string s => exact absurd rfl (hobject (.string s))
  | _ => cases i <;> exact id

/-- The instruction does nothing to the neutral values and to no other. -/
theorem preserves_iff (hrt : rt.Uses fpu) (hfpu : fpu.Neutral) (hrunning : l.shared.running = true)
    (i : Identity) (v : Value) : i.Preserves rt fpu ctx l v rest ↔ i.Neutral v := by
  by_cases hscalar : ∃ a : Scalar, v = a.toValue
  · obtain ⟨a, rfl⟩ := hscalar
    rw [preserves_toValue_iff hrt hrunning i a (compute_error i a)]
    exact compute_same_iff hfpu i a
  · have hobject : ∀ a : Scalar, v ≠ a.toValue := fun a ha => hscalar ⟨a, ha⟩
    exact iff_of_false (not_preserves_object hrunning i hobject) (not_neutral_object i hobject)

end Objects

end Identity

namespace BytecodeCompiler

/-- The code of the reduced expression is that of its operand, which is right exactly on the values the
operator does nothing to. -/
theorem compileBinary_identity_preserves_iff (host : Host) (below : Below) (i : Identity)
    {e other : Expr} {c : Option Constant}
    (hliteral : other.isConstant host.fpu = .ok (some (.int i.literal)))
    (hother : e.isConstant host.fpu = .ok c)
    (hfold : ∀ l, c = some l → foldBinary host.fpu i.op
      (i.left l (.int i.literal)) (i.right l (.int i.literal)) = .ok none)
    {rt : Runtime} (hrt : rt.Uses host.fpu) (hfpu : host.fpu.Neutral) (ctx : Ctx) {l : Local}
    (hrunning : l.shared.running = true) (v : Value) (rest : List Value) :
    compileBinary host below (i.left e other) i.op (i.right e other) = below.expr e ∧
      (i.Preserves rt host.fpu ctx l v rest ↔ i.Neutral v) :=
  ⟨compileBinary_identity host below i hliteral hother hfold,
    Identity.preserves_iff hrt hfpu hrunning i v⟩

/-! ### Concrete runs -/

/-- Doubles of which no other than 0 and 1 is added or multiplied. -/
def unitsFpu : FloatUnit :=
  { FloatUnit.bare with
    ofInt := fun i => if i == 1 then 0x3FF0000000000000 else 0
    add := fun a b =>
      if b == 0 then if a == doubleNegZero then 0 else a
      else if b == doubleNegZero then 0 else b
    mul := fun a b => if a == 0x3FF0000000000000 then b else a }

theorem unitsFpu_neutral : unitsFpu.Neutral where
  add_zero d _ hne := by simp [unitsFpu, hne]
  zero_add d _ hne := by
    by_cases hzero : d = 0
    · subst hzero
      rfl
    · simp [unitsFpu, hne, hzero]
  negZero_add_zero := rfl
  zero_add_negZero := rfl
  sub_zero _ _ := rfl
  mul_one d _ := by
    by_cases hone : d = 0x3FF0000000000000
    · subst hone
      rfl
    · simp [unitsFpu, hone]
  one_mul d _ := rfl
  nan_add d hnan := by
    have hne : d ≠ doubleNegZero := by
      rintro rfl
      cases hnan
    simpa [unitsFpu, hne] using hnan
  add_nan d hnan := by
    have hzero : d ≠ 0 := by
      rintro rfl
      cases hnan
    have hne : d ≠ doubleNegZero := by
      rintro rfl
      cases hnan
    simpa [unitsFpu, hne, hzero] using hnan
  nan_sub _ hnan := hnan
  nan_mul d hnan := by
    have hone : d ≠ 0x3FF0000000000000 := by
      rintro rfl
      cases hnan
    simpa [unitsFpu, hone] using hnan
  mul_nan _ hnan := hnan

/-- A runtime that computes and prints as the unit does. -/
def unitsRuntime : Runtime :=
  { Runtime.bare with
    fadd := unitsFpu.add
    fsub := unitsFpu.sub
    ofInt := unitsFpu.ofInt
    toString := fun _ v => match v with
      | .nil => Scalar.text unitsFpu .nil
      | .bool b => Scalar.text unitsFpu (.bool b)
      | .int i => Scalar.text unitsFpu (.int i)
      | .float d => Scalar.text unitsFpu (.float d)
      | .string t => t
      | v => v.typeName }

theorem unitsRuntime_uses : unitsRuntime.Uses unitsFpu where
  fadd_eq := rfl
  fsub_eq := rfl
  ofInt_eq := rfl
  toString_eq _ v := by
    cases v <;> rfl

/-- The frame of a script. -/
def scriptLocal : Local where
  frame := { function := 0, ip := 0, slots := [], ops := [], superCalled := false,
             closureUpvalues := [] }
  upvalues := []
  shared := .start (.ofProgram [.ofCode (lit "script") []] [] [])

/-- A host without modules. -/
def unitsHost : Host where
  fpu := unitsFpu
  disableContracts := false
  locate := fun _ path => .error path
  parse := fun path => .error path
  hash := fun _ => 0

/-- The expression `x`. -/
def variableX : Expr := .mk 1 5 [] (.IdentifierExpr (lit "x"))

/-- The literal 0. -/
def literalZero : Expr := .mk 1 9 [] (.LiteralExpr (.int 0))

/-- `5 + 0` is right. -/
theorem compileBinary_identity_preserves_five :
    compileBinary unitsHost { expr := fun _ => pure (), stmt := fun _ => pure () }
      variableX .PLUS literalZero = pure () ∧
      (Identity.plusZero.Preserves unitsRuntime unitsFpu ⟨1, 0⟩ scriptLocal (.int 5) [] ↔ True) :=
  compileBinary_identity_preserves_iff unitsHost _ .plusZero rfl rfl
    (fun _ hnone => by cases hnone) unitsRuntime_uses unitsFpu_neutral ⟨1, 0⟩ rfl (.int 5) []

/-- For `x + 0` the code of `x` is emitted, where `ADD` would have made "ab0" of "ab". -/
theorem plusZero_string_not_preserved :
    (∀ below, compileBinary unitsHost below variableX .PLUS literalZero =
      below.expr variableX) ∧
      ¬Identity.plusZero.Preserves unitsRuntime unitsFpu ⟨1, 0⟩ scriptLocal (.string (lit "ab")) [] := by
  constructor
  · intro below
    exact compileBinary_identity unitsHost below .plusZero rfl rfl (fun _ hnone => by cases hnone)
  · intro hpreserves
    exact (Identity.preserves_iff unitsRuntime_uses unitsFpu_neutral rfl .plusZero
      (.string (lit "ab"))).1 hpreserves

end BytecodeCompiler

end EZLanguage
