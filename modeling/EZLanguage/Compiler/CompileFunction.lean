import EZLanguage.Compiler.State

/-!
# Compiling functions

What a function consists of besides its statements: the prologue of a cached method, parameters and
their defaults, rate limits, contracts and the values they take before the body runs. The functions here
and in the modules for expressions and statements are given the compilers of the trees below the one
they compile.
-/

namespace EZLanguage

namespace Expr

/-- `isConstant`: the constant it leaves in `out` where it returns true. -/
def isConstant (fpu : FloatUnit) : Expr → Except Thrown (Option Constant)
  | mk _ _ _ variant =>
      match variant with
      | .LiteralExpr l => .ok (some (BytecodeCompiler.literalConstant l))
      | .BinaryExpr left op right =>
          match isConstant fpu left with
          | .ok (some l) =>
              match isConstant fpu right with
              | .ok (some r) => BytecodeCompiler.foldBinary fpu op l r
              | notFolded => notFolded
          | notFolded => notFolded
      | .UnaryExpr op operand =>
          match isConstant fpu operand with
          | .ok (some c) => .ok (BytecodeCompiler.foldUnary op c)
          | notFolded => notFolded
      | _ => .ok none

end Expr

mutual

/-- The arguments of the calls of `old` in a clause, in the order in which `captureOldExprs` meets them. -/
def Expr.oldArguments : Expr → List Expr
  | .mk _ _ _ variant =>
      match variant with
      | .CallExpr callee arguments =>
          match callee.identifier?, arguments with
          | some name, [argument] =>
              if name = lit "old" then [argument.value]
              else callee.oldArguments ++ oldArgumentsOf argument
          | _, arguments => callee.oldArguments ++ oldArgumentsOfAll arguments
      | .BinaryExpr left _ right => left.oldArguments ++ right.oldArguments
      | .UnaryExpr _ operand => operand.oldArguments
      | .LogicalExpr left _ right => left.oldArguments ++ right.oldArguments
      | .TernaryExpr condition thenBranch elseBranch =>
          condition.oldArguments ++ thenBranch.oldArguments ++ elseBranch.oldArguments
      | _ => []

def oldArgumentsOf : Argument Expr → List Expr
  | ⟨_, value⟩ => value.oldArguments

def oldArgumentsOfAll : List (Argument Expr) → List Expr
  | [] => []
  | argument :: arguments => oldArgumentsOf argument ++ oldArgumentsOfAll arguments

end

namespace BytecodeCompiler

/-- The compilers of the trees below. -/
structure Below where
  expr : Expr → CompileM Unit
  stmt : Stmt → CompileM Unit

/-- `compileExpr`, which takes a null pointer for nil. -/
def Below.optionalExpr (below : Below) : Option Expr → CompileM Unit
  | none => emitOp .LOAD_NIL
  | some e => below.expr e

variable (host : Host) (below : Below)

/-- `isConstant`. -/
def isConstantExpr (e : Expr) : CompileM (Option Constant) :=
  match e.isConstant host.fpu with
  | .ok c => return c
  | .error exception => throw (.thrown exception)

/-! ### Contracts -/

def compileContractChecks (clauses : List (Clause Expr)) (isPrecondition : Bool) : CompileM Unit := do
  if host.disableContracts then return
  let prefixText :=
    if isPrecondition then lit "Precondition failed" else lit "Postcondition failed"
  for clause in clauses do
    below.expr clause.condition
    let skipThrow ← emitJump .JUMP_IF_TRUE
    let errorMsg :=
      if clause.message.isEmpty then prefixText else prefixText ++ lit ": " ++ clause.message
    let classSlot ← globalSlotFor (lit "AssertionError")
    emit .LOAD_GLOBAL_SLOT [.globalSlot classSlot]
    emitConstant (.string errorMsg)
    emit .CALL [.count 1]
    emitOp .THROW
    patchJump skipThrow

/-- The key of an argument of `old`, by its place. -/
def oldKey (e : Expr) : CString :=
  lit "old_" ++ lit (toString e.line) ++ lit "_" ++ lit (toString e.column)

/-- The value of an argument of `old` is kept in a hidden variable. -/
def captureOld (e : Expr) : CompileM Unit := do
  let key := oldKey e
  if (lookup (← get).oldCaptures key).isNone then
    below.expr e
    let slot ← addLocal (lit "__old_" ++ key ++ lit "__")
    emitStoreLocal slot
    emitOp .POP
    modify fun s => { s with oldCaptures := s.oldCaptures ++ [(key, slot)] }

/-! ### Functions -/

/-- Tasks declared in a list of statements get their variables first. -/
def predeclareLocalTasks (statements : List Stmt) : CompileM Unit := do
  if (← getCurrent).scopeDepth = 0 then return
  for s in statements do
    match s.task? with
    | none => pure ()
    | some task =>
        if !task.name.isEmpty ∧ (← resolveLocal task.name).isNone then
          let _ ← addLocal task.name false

/-- A call of a cached method that finds its result returns it. -/
def emitCachedPrologue (isCached : Bool) (name : CString) : CompileM Unit := do
  if !isCached then return
  let nameIdx ← identifierConstant name
  emit .GET_CACHED_RESULT [.constant nameIdx]
  emitOp .DUP
  emitOp .LOAD_NIL
  emitOp .EQUAL
  let hitJump ← emitJump .JUMP_IF_FALSE
  emitOp .POP
  let skipHit ← emitJump .JUMP
  patchJump hitJump
  emitReturn
  patchJump skipHit

/-- A parameter without a value gets its default. -/
def compileDefault (i : Nat) (defaultValue : Expr) : CompileM Unit := do
  emitLoadLocal i
  emitOp .LOAD_NIL
  emitOp .EQUAL
  let jump ← emitJump .JUMP_IF_FALSE
  below.expr defaultValue
  emitStoreLocal i
  emitOp .POP
  patchJump jump

def emitRateLimit (taskName : CString) (rl : RateLimitConfig) : CompileM Unit := do
  let globalKey ← identifierConstant (lit "global")
  emit .LOAD_CONST [.constant globalKey]
  let constIdx ← makeConstant (.double (host.fpu.ofInt rl.count))
  emit .LOAD_CONST [.constant constIdx]
  let perIdx ← identifierConstant rl.per
  emit .LOAD_CONST [.constant perIdx]
  let nameIdx ← identifierConstant taskName
  emit .RATELIMIT_CHECK [.constant nameIdx]

/-- The parameters get the first slots. -/
def addParams (params : List (Param Expr)) : CompileM Unit := do
  for param in params do
    modifyCurrent fun c => { c with paramNames := c.paramNames ++ [param.name] }
    let _ ← addLocal param.name

def compileDefaults (params : List (Param Expr)) : CompileM Unit := do
  for (param, i) in params.zipIdx do
    match param.defaultValue with
    | none => pure ()
    | some defaultValue => compileDefault below i defaultValue

def compileRateLimit (task : TaskStmt Expr Stmt) : CompileM Unit :=
  match task.rateLimit with
  | none => return
  | some rl => emitRateLimit host task.name rl

/-- The checks before the body, once the parameters have their values. -/
def compileChecks (task : TaskStmt Expr Stmt) : CompileM Unit :=
  if task.requiresClauses.isEmpty then return
  else compileContractChecks host below task.requiresClauses true

def captureOldExprs (task : TaskStmt Expr Stmt) : CompileM Unit := do
  modify fun s => { s with oldCaptures := [] }
  if host.disableContracts then return
  for e in task.ensuresClauses.flatMap fun clause => clause.condition.oldArguments do
    captureOld below e

/-- What runs before the body of a task, once it is known not to have a result yet. -/
def compilePrologue (task : TaskStmt Expr Stmt) : CompileM Unit := do
  addParams task.params
  compileDefaults below task.params
  compileRateLimit host task
  compileChecks host below task
  captureOldExprs host below task

/-- The result of a cached method is kept. -/
def emitStoreCached (isCached : Bool) (name : CString) : CompileM Unit := do
  if isCached then
    let nameIdx ← identifierConstant name
    emit .STORE_CACHED_RESULT [.constant nameIdx]

def compileBlockBody (statements : List Stmt) : CompileM Unit := do
  beginScope
  predeclareLocalTasks statements
  for s in statements do below.stmt s
  endScope

/-- The body of a task. Its contracts are those of the statements in it, and it is left with a nil
result. -/
def compileBody (task : TaskStmt Expr Stmt) (name : CString) : CompileM Unit := do
  let saved ← get
  modify fun s => { s with currentEnsuresClauses := task.ensuresClauses }
  compileBlockBody below task.body
  modify fun s =>
    { s with currentEnsuresClauses := saved.currentEnsuresClauses, oldCaptures := saved.oldCaptures }
  emitOp .LOAD_NIL
  emitStoreCached task.isCached name
  emitReturn

/-- The compiler of a task inside the current function. -/
def enterFunction (task : TaskStmt Expr Stmt) (name : CString) : CompileM Unit :=
  modify fun s =>
    { s with
      current :=
        { name
          arity := task.params.length
          className := s.current.currentClass
          isVariadic := task.isVariadic
          isAsync := task.isAsync
          defaultParamCount := (task.params.filter fun p => p.defaultValue.isSome).length
          currentClass := s.current.currentClass
          currentParentClass := s.current.currentParentClass
          compilerId := s.compilerIdCounter + 1
          isCached := task.isCached }
      enclosing := s.current :: s.enclosing
      compilerIdCounter := s.compilerIdCounter + 1 }

/-- The function is done, and the one around it goes on. -/
def leaveFunction (isMethod : Bool) : CompileM CompiledFunction := do
  let s ← get
  let result := { s.current with filename := s.currentFile }.compiled s.current.maxLocals isMethod 0
  modify fun s => { s with compiledFunctions := s.compiledFunctions ++ [result] }
  match s.enclosing with
  | [] => return result
  | outer :: rest =>
      modify fun s => { s with current := outer, enclosing := rest }
      return result

/-- `compileFunction`. `emitClosure` sets `isMethod` of the function it returns. -/
def compileFunction (task : TaskStmt Expr Stmt) (name : CString) (isMethod : Bool := false) :
    CompileM CompiledFunction := do
  enterFunction task name
  emitCachedPrologue task.isCached name
  compilePrologue host below task
  compileBody below task name
  leaveFunction isMethod

/-- The instruction that makes a closure, with its captures. -/
def emitCLOSURE (nestedIdx : Nat) (upvalues : List Upvalue) : CompileM Unit :=
  emit .CLOSURE
    (.nested nestedIdx :: upvalues.map fun uv => .capture (decide (uv.type = .LOCAL)) uv.index)

/-- A function is nested in the current one. -/
def addNestedFunction (func : CompiledFunction) : CompileM Unit :=
  modifyCurrent fun c => { c with nestedFunctions := c.nestedFunctions ++ [func.function] }

def emitClosure (task : TaskStmt Expr Stmt) (isMethod : Bool := false) : CompileM Unit := do
  let nestedIdx := (← getCurrent).nestedFunctions.length
  let func ← compileFunction host below task task.name isMethod
  addNestedFunction func
  emitCLOSURE nestedIdx func.function.upvalues

/-- A closure that is passed through its decorators, the last of which takes it first. -/
def compileDecorated (decorators : List Expr) (task : TaskStmt Expr Stmt) (isMethod : Bool := false) :
    CompileM Unit := do
  for dec in decorators do below.expr dec
  emitClosure host below task isMethod
  for _ in decorators do emit .CALL [.count 1]

end BytecodeCompiler

end EZLanguage
