import EZLanguage.Compiler.CompileStmt
import EZLanguage.Compiler.FoldingTruth
import EZLanguage.VM.OperatorHandlers

/-!
# Pruned branches

`compileWhen` and `compileWhile` decide a constant condition by `isConstantTruthy`, where the code they
would emit otherwise decides it by `Value::isTruthy`. The two differ on 0, on both zeros of a double and
on the empty string.
-/

namespace EZLanguage

/-! ### Closed conditions -/

/-- An expression of literals and operators alone. -/
def Expr.closed : Expr → Option ClosedExpr
  | mk _ _ _ variant =>
      match variant with
      | .LiteralExpr l => some (.literal l)
      | .BinaryExpr left op right =>
          match closed left, closed right with
          | some l, some r => some (.binary l op r)
          | _, _ => none
      | .UnaryExpr op operand =>
          match closed operand with
          | some c => some (.unary op c)
          | none => none
      | _ => none

/-- What `isConstant` accepts is closed. -/
theorem Expr.closed_of_isConstant (fpu : FloatUnit) (e : Expr) {c : Constant}
    (hc : e.isConstant fpu = .ok (some c)) :
    ∃ k, e.closed = some k ∧ BytecodeCompiler.isConstant fpu k = .ok (some c) := by
  fun_induction Expr.isConstant fpu e generalizing c with
  | case1 line column filename l => exact ⟨.literal l, rfl, hc⟩
  | case2 line column filename left op right l hl r hr ihl ihr =>
      obtain ⟨kl, hkl, hcl⟩ := ihl hl
      obtain ⟨kr, hkr, hcr⟩ := ihr hr
      refine ⟨.binary kl op kr, ?_, ?_⟩
      · rw [Expr.closed, hkl, hkr]
      · rw [BytecodeCompiler.isConstant, hcl]
        dsimp only
        rw [hcr]
        exact hc
  | case3 line column filename left op right l hl hr => exact (hr c hc).elim
  | case4 line column filename left op right hl => exact (hl c hc).elim
  | case5 line column filename op operand a ha ih =>
      obtain ⟨k, hk, hck⟩ := ih ha
      refine ⟨.unary op k, ?_, ?_⟩
      · rw [Expr.closed, hk]
      · rw [BytecodeCompiler.isConstant, hck]
        exact hc
  | case6 line column filename op operand ha => exact (ha c hc).elim
  | case7 => cases hc

namespace BytecodeCompiler

variable (host : Host) (below : Below)

/-! ### Decisions -/

/-- The two ways on from a condition. -/
inductive Branch where
  | thenBranch | elseBranch
  deriving DecidableEq

/-- The decision of the compiler. -/
def prunedBranch (c : Constant) : Branch :=
  if isConstantTruthy c then .thenBranch else .elseBranch

/-- The decision of the instruction behind the condition. -/
def testedBranch (v : Scalar) : Branch := if v.isTruthy then .thenBranch else .elseBranch

/-- `JUMP_IF_FALSE` goes on behind itself or at the end of its jump. -/
theorem JUMP_IF_FALSE_toValue (offset : Nat) (l : Local) (v : Scalar) (rest : List Value) :
    Handler.JUMP_IF_FALSE offset (l.withOps (v.toValue :: rest)) =
      match testedBranch v with
      | .thenBranch => .dispatch (l.withOps rest)
      | .elseBranch => .dispatch ((l.withOps rest).jump offset) := by
  rw [Handler.JUMP_IF_FALSE, Handler.jumpIf, Local.withOps_ops]
  dsimp only
  rw [v.toValue_isTruthy, testedBranch]
  cases v.isTruthy <;> rfl

/-- The body of a loop on a condition that stays, over its first `rounds` tests. -/
def bodies (b : Branch) (rounds : Nat) : Nat :=
  match b with
  | .thenBranch => rounds
  | .elseBranch => 0

/-- What the two call false. -/
theorem prunedBranch_eq_iff (v : Scalar) :
    prunedBranch v.constant = testedBranch v ↔ v.isZeroOrEmpty = false := by
  rw [prunedBranch, testedBranch, isConstantTruthy_constant]
  cases hzero : v.isZeroOrEmpty with
  | false => simp
  | true =>
      have htruthy : v.isTruthy = true := by
        cases v with
        | nil => cases hzero
        | bool b => cases hzero
        | int i => rfl
        | float d => rfl
        | string s => rfl
      simp [htruthy]

theorem bodies_eq_iff (a b : Branch) : (∀ rounds, bodies a rounds = bodies b rounds) ↔ a = b := by
  constructor
  · intro h
    have hone := h 1
    cases a <;> cases b <;> first | rfl | cases hone
  · rintro rfl rounds
    rfl

/-! ### The compiled statements -/

/-- The code of the branch the compiler keeps. -/
def keptBranch (thenBranch : Stmt) (elseBranch : Option Stmt) : Branch → CompileM Unit
  | .thenBranch => below.stmt thenBranch
  | .elseBranch =>
      match elseBranch with
      | some elseBranch => below.stmt elseBranch
      | none => return

/-- The code of a loop with its test. -/
def testedLoop (condition : Expr) (body : Stmt) : CompileM Unit := do
  startLoop
  let loopStart ← codeSize
  below.expr condition
  let exitJump ← emitJump .JUMP_IF_FALSE
  below.stmt body
  emitLoop loopStart
  patchJump exitJump
  endLoop

theorem compileWhen_constant {condition : Expr} {c : Constant}
    (hc : condition.isConstant host.fpu = .ok (some c)) (thenBranch : Stmt)
    (elseBranch : Option Stmt) :
    compileWhen host below condition thenBranch elseBranch =
      keptBranch below thenBranch elseBranch (prunedBranch c) := by
  unfold compileWhen
  rw [isConstantExpr, hc, prunedBranch]
  simp only [pure_bind]
  cases isConstantTruthy c <;> rfl

theorem compileWhile_constant {condition : Expr} {c : Constant}
    (hc : condition.isConstant host.fpu = .ok (some c)) (body : Stmt) :
    compileWhile host below condition body =
      match prunedBranch c with
      | .thenBranch => testedLoop below condition body
      | .elseBranch => pure () := by
  rw [compileWhile, isConstantExpr, hc, prunedBranch]
  simp only [pure_bind, Option.map_some]
  by_cases htruthy : isConstantTruthy c = true
  · have hne : ¬some (isConstantTruthy c) = some false := by
      rw [htruthy]
      decide
    rw [if_neg hne, if_pos htruthy]
    rfl
  · have hfalse := Bool.eq_false_iff.2 htruthy
    rw [if_pos (congrArg some hfalse), if_neg htruthy]

/-- Behind a constant condition the test finds the value of the constant: the condition itself is folded,
or is a literal. -/
theorem compileExprVariant_constant {condition : Expr} {c : Constant}
    (hc : condition.isConstant host.fpu = .ok (some c)) :
    compileExprVariant host below condition.variant = emitConstant c ∨
      ∃ l, condition.variant = .LiteralExpr l ∧ ClosedExpr.compileLiteral l = c.resolved ∧
        compileExprVariant host below condition.variant = emitLiteral l := by
  obtain ⟨line, column, filename, variant⟩ := condition
  cases variant with
  | LiteralExpr l =>
      rw [Expr.isConstant] at hc
      obtain rfl : literalConstant l = c := Option.some.inj (Except.ok.inj hc)
      refine .inr ⟨l, rfl, ?_, rfl⟩
      cases l <;> rfl
  | BinaryExpr left op right =>
      left
      rw [Expr.isConstant] at hc
      show compileBinary host below left op right = emitConstant c
      rw [compileBinary, isConstantExpr, isConstantExpr]
      split at hc
      · rename_i l hl
        split at hc
        · rename_i r hr
          rw [hl, hr]
          simp only [pure_bind, foldedBinary, hc]
        · rename_i hr
          exact (hr c hc).elim
      · rename_i hl
        exact (hl c hc).elim
  | UnaryExpr op operand =>
      left
      rw [Expr.isConstant] at hc
      show compileUnary host below op operand = emitConstant c
      rw [compileUnary, isConstantExpr]
      split at hc
      · rename_i a ha
        rw [ha]
        simp only [pure_bind, Option.bind_some, Except.ok.inj hc]
      · rename_i ha
        exact (ha c hc).elim
  | _ =>
      rw [Expr.isConstant] at hc
      · cases hc
      all_goals
        intros
        contradiction

/-- A careful condition is folded to what its code computes. -/
theorem run_of_careful {k : ClosedExpr} {c : Constant} (fpu : FloatUnit)
    (hc : isConstant fpu k = .ok (some c)) (hcareful : k.Careful fpu) :
    ∃ v, c = v.constant ∧ ScalarInstr.run fpu k.unfolded [] = .ok [v] := by
  have hagrees := isConstant_of_careful fpu hcareful
  rw [Agrees, hc] at hagrees
  split at hagrees
  · obtain ⟨v, hvalue, hfolded⟩ := hagrees
    refine ⟨v, Option.some.inj (Except.ok.inj hfolded), ?_⟩
    rw [ClosedExpr.run_unfolded_alone, hvalue]
    rfl
  · cases hagrees

/-! ### Folded constants -/

theorem foldStrings_scalar (fpu : FloatUnit) {op : BinaryOp} {l r c : Constant}
    (h : foldStrings fpu op l r = some c) : c.resolved.constant = c := by
  unfold foldStrings at h
  split at h
  · split at h <;> cases h
    rfl
  · split at h
    · cases h
      rfl
    · split at h <;> cases h
      rfl
  all_goals cases h <;> rfl

theorem foldInts_scalar (fpu : FloatUnit) {op : BinaryOp} {l r : Int64} {c : Constant}
    (h : foldInts fpu op l r = some c) : c.resolved.constant = c := by
  cases op with
  | SLASH =>
      simp only [foldInts] at h
      split at h
      · split at h <;> cases h <;> rfl
      · cases h
  | PERCENT | LSHIFT | RSHIFT =>
      simp only [foldInts] at h
      split at h <;> cases h
      rfl
  | _ => cases h <;> rfl

theorem foldDoubles_scalar (fpu : FloatUnit) {op : BinaryOp} {l r : UInt64} {c : Constant}
    (h : foldDoubles fpu op l r = some c) : c.resolved.constant = c := by
  cases op with
  | SLASH =>
      simp only [foldDoubles] at h
      split at h <;> cases h
      rfl
  | _ => cases h <;> rfl

theorem foldNumbers_scalar (fpu : FloatUnit) {op : BinaryOp} {l r c : Constant}
    (h : foldNumbers fpu op l r = .ok (some c)) : c.resolved.constant = c := by
  unfold foldNumbers at h
  split at h
  · exact foldInts_scalar fpu (Except.ok.inj h)
  · split at h
    · cases hl : getDouble fpu l with
      | error e =>
          rw [hl] at h
          cases h
      | ok x =>
          cases hr : getDouble fpu r with
          | error e =>
              rw [hl, hr] at h
              cases h
          | ok y =>
              rw [hl, hr] at h
              exact foldDoubles_scalar fpu (Except.ok.inj h)
    · cases h

theorem foldBinary_scalar (fpu : FloatUnit) {op : BinaryOp} {l r c : Constant}
    (h : foldBinary fpu op l r = .ok (some c)) : c.resolved.constant = c := by
  unfold foldBinary at h
  split at h
  · cases h
    rfl
  · cases h
    rfl
  · split at h
    · rename_i hstrings
      cases h
      exact foldStrings_scalar fpu hstrings
    · exact foldNumbers_scalar fpu h

theorem foldUnary_scalar {op : UnaryOp} {a c : Constant} (h : foldUnary op a = some c) :
    c.resolved.constant = c := by
  unfold foldUnary at h
  split at h <;> cases h <;> rfl

/-- The folder makes scalars of scalars. -/
theorem isConstant_scalar (fpu : FloatUnit) {k : ClosedExpr} {c : Constant}
    (hc : isConstant fpu k = .ok (some c)) : c.resolved.constant = c := by
  unfold isConstant at hc
  split at hc
  · rename_i l
    cases hc
    cases l <;> rfl
  · split at hc
    · split at hc
      · exact foldBinary_scalar fpu hc
      · rename_i hr
        exact (hr c hc).elim
    · rename_i hl
      exact (hl c hc).elim
  · split at hc
    · exact foldUnary_scalar (Except.ok.inj hc)
    · rename_i ha
      exact (ha c hc).elim

/-! ### Pruned statements -/

/-- The kept branch, or the loop that is kept, is the one the test would have taken exactly where the
condition is no zero and not the empty string. -/
theorem constantCondition_pruned_iff {condition : Expr} {c : Constant}
    (hc : condition.isConstant host.fpu = .ok (some c)) (thenBranch body : Stmt)
    (elseBranch : Option Stmt) :
    compileWhen host below condition thenBranch elseBranch =
        keptBranch below thenBranch elseBranch (prunedBranch c) ∧
      compileWhile host below condition body =
        (match prunedBranch c with
        | .thenBranch => testedLoop below condition body
        | .elseBranch => pure ()) ∧
      (compileExprVariant host below condition.variant = emitConstant c ∨
        ∃ l, condition.variant = .LiteralExpr l ∧ ClosedExpr.compileLiteral l = c.resolved ∧
          compileExprVariant host below condition.variant = emitLiteral l) ∧
      (prunedBranch c = testedBranch c.resolved ↔ c.resolved.isZeroOrEmpty = false) ∧
      ((∀ rounds, bodies (prunedBranch c) rounds = bodies (testedBranch c.resolved) rounds) ↔
        c.resolved.isZeroOrEmpty = false) ∧
      ∃ k, condition.closed = some k ∧ (k.Careful host.fpu →
        ∃ v, ScalarInstr.run host.fpu k.unfolded [] = .ok [v] ∧
          (prunedBranch c = testedBranch v ↔ v.isZeroOrEmpty = false)) := by
  obtain ⟨k, hk, hck⟩ := Expr.closed_of_isConstant host.fpu condition hc
  have hiff : prunedBranch c = testedBranch c.resolved ↔ c.resolved.isZeroOrEmpty = false := by
    have hscalar := prunedBranch_eq_iff c.resolved
    rwa [isConstant_scalar host.fpu hck] at hscalar
  refine ⟨compileWhen_constant host below hc thenBranch elseBranch,
    compileWhile_constant host below hc body, compileExprVariant_constant host below hc, hiff, ?_, k,
    hk, ?_⟩
  · rw [bodies_eq_iff]
    exact hiff
  · intro hcareful
    obtain ⟨v, rfl, hrun⟩ := run_of_careful host.fpu hck hcareful
    exact ⟨v, hrun, prunedBranch_eq_iff v⟩

/-- A host without modules and doubles. -/
def scalarHost : Host where
  fpu := .bare
  disableContracts := false
  locate := fun _ path => .error path
  parse := fun path => .error path
  hash := fun _ => 0

/-- The condition `1 < 2`. -/
def oneLessTwo : Expr :=
  .mk 1 6 [] (.BinaryExpr (.mk 1 6 [] (.LiteralExpr (.int 1))) .LESS
    (.mk 1 10 [] (.LiteralExpr (.int 2))))

/-- The statement `skip`. -/
def skipStmt : Stmt := .mk 1 [] .SkipStmt

theorem oneLessTwo_pruned :
    prunedBranch (.bool true) = testedBranch (.bool true) ↔
      Scalar.isZeroOrEmpty (.bool true) = false :=
  (constantCondition_pruned_iff scalarHost { expr := fun _ => pure (), stmt := fun _ => pure () }
    (show oneLessTwo.isConstant scalarHost.fpu = .ok (some (.bool true)) from rfl)
    skipStmt skipStmt none).2.2.2.1

/-- `when 0` goes to its else branch, where `JUMP_IF_FALSE` does not jump on 0. -/
theorem zero_not_pruned :
    ¬ ∀ (host : Host) (condition : Expr) (c : Constant),
      condition.isConstant host.fpu = .ok (some c) → prunedBranch c = testedBranch c.resolved := by
  intro h
  have hzero := h scalarHost (.mk 1 6 [] (.LiteralExpr (.int 0))) (.int 0) rfl
  cases hzero

end BytecodeCompiler

end EZLanguage
