import EZLanguage.Compiler.CompileExpr

/-!
# Compiling statements

One function for each variant, as in `BytecodeCompilerStmt.cpp`, and the compilation of a program. A
statement or expression nested deeper than the limit is an error, so the compilers are made from those for
what may be nested one level less.
-/

namespace EZLanguage

namespace BytecodeCompiler

variable (host : Host) (below : Below)

/-! ### Simple statements -/

/-- The instruction for a local variable and another or a small number. -/
def fusedLocal (localDst : Nat) (op : BinaryOp) (right : Expr) :
    CompileM (Option (OpCode × List Operand)) := do
  if localDst > 0xFF then return none
  match right.variant with
  | .IdentifierExpr rhs =>
      match ← resolveLocal rhs with
      | none => return none
      | some localSrc =>
          if localSrc > 0xFF then return none
          match op with
          | .PLUS => return some (.ADD_LOCAL_LOCAL, [.slot localDst, .slot localSrc])
          | .MINUS => return some (.SUB_LOCAL_LOCAL, [.slot localDst, .slot localSrc])
          | _ => return none
  | .LiteralExpr (.int val) =>
      match op with
      | .PLUS =>
          if 0 ≤ val ∧ val ≤ 127 then
            return some (.INC_LOCAL_BY, [.slot localDst, .amount val.toInt])
          else return none
      | .MINUS =>
          if 0 ≤ val ∧ val ≤ 128 then
            return some (.INC_LOCAL_BY, [.slot localDst, .amount (-val.toInt)])
          else return none
      | _ => return none
  | _ => return none

/-- The slot of a global variable, which is given one in the outermost scope. -/
def assignedGlobal (name : CString) : CompileM (Option Nat) := do
  let s ← get
  match lookup s.globalSlots name, s.current.isHarvesting with
  | some slot, false => return some slot.toNat
  | _, _ => if s.current.scopeDepth = 0 then some <$> globalSlotFor name else return none

/-- The instruction for a global variable and a local one. -/
def fusedGlobal (gSlot : Nat) (op : BinaryOp) (right : Expr) :
    CompileM (Option (OpCode × List Operand)) := do
  match right.identifier? with
  | none => return none
  | some rhs =>
      match ← resolveLocal rhs with
      | none => return none
      | some localSrc =>
          if localSrc ≤ 0xFF ∧ op = .PLUS then
            return some (.ADD_GLOBAL_LOCAL, [.globalSlot gSlot, .slot localSrc])
          else return none

/-- The instruction `compileCompoundAssignFast` emits for `name = name op right`, if it knows one. -/
def fusedAssign (name : CString) (op : BinaryOp) (right : Expr) :
    CompileM (Option (OpCode × List Operand)) := do
  match ← resolveLocal name with
  | some localDst => fusedLocal localDst op right
  | none =>
      match ← assignedGlobal name with
      | some gSlot => fusedGlobal gSlot op right
      | none => return none

/-- `compileCompoundAssignFast`. -/
def compileCompoundAssignFast (name : CString) (value : Expr) : CompileM Bool := do
  match value.variant with
  | .BinaryExpr left op right =>
      if left.identifier? = some name then
        match ← fusedAssign name op right with
        | none => return false
        | some (opCode, operands) =>
            emit opCode operands
            return true
      else return false
  | _ => return false

/-- The value of an expression is dropped. -/
def compileDropped (expr : Expr) : CompileM Unit := do
  below.expr expr
  emitOp .POP

def compileExpressionStmt (expr : Expr) : CompileM Unit := do
  match expr.variant with
  | .AssignExpr name value =>
      if ← compileCompoundAssignFast name value then return else compileDropped below expr
  | _ => compileDropped below expr

def compileOutStmt (expr : Expr) : CompileM Unit := do
  below.expr expr
  emitOp .PRINT_STR

def compileVarDecl (name : CString) (initializer : Option Expr) : CompileM Unit := do
  below.optionalExpr initializer
  if (← getCurrent).scopeDepth = 0 then
    let slot ← globalSlotFor name
    emit .STORE_GLOBAL_SLOT [.globalSlot slot]
    emitOp .POP
  else
    let localIdx ← addLocal name
    emitStoreLocal localIdx

def compileBlock (statements : List Stmt) : CompileM Unit := compileBlockBody below statements

/-! ### Branches and loops -/

def compileWhen (condition : Expr) (thenBranch : Stmt) (elseBranch : Option Stmt) :
    CompileM Unit := do
  match ← isConstantExpr host condition with
  | some condConst =>
      if isConstantTruthy condConst then below.stmt thenBranch
      else
        match elseBranch with
        | some elseBranch => below.stmt elseBranch
        | none => return
  | none =>
      below.expr condition
      let elseJump ← emitJump .JUMP_IF_FALSE
      below.stmt thenBranch
      match elseBranch with
      | some elseBranch =>
          let endJump ← emitJump .JUMP
          patchJump elseJump
          below.stmt elseBranch
          patchJump endJump
      | none => patchJump elseJump

/-- A loop without a step is left at once where its condition is constantly false. -/
def compileWhile (condition : Expr) (body : Stmt) : CompileM Unit := do
  if ((← isConstantExpr host condition).map isConstantTruthy) = some false then return
  startLoop
  let loopStart ← codeSize
  below.expr condition
  let exitJump ← emitJump .JUMP_IF_FALSE
  below.stmt body
  emitLoop loopStart
  patchJump exitJump
  endLoop

/-- `loopStack.back().start`. -/
def setLoopStart (start : Nat) : CompileM Unit :=
  modify fun s =>
    { s with
      loopStack :=
        match s.loopStack with
        | [] => []
        | loop :: rest => { loop with start } :: rest }

/-- The test of a loop without a step, behind the increment; the exit jump is returned. -/
def emitCountingTest (loopVar endVar skipFirstInc : Nat) : CompileM Nat := do
  if loopVar ≤ 0xFF ∧ endVar ≤ 0xFF then
    emit .INC_LOCAL [.slot loopVar]
    patchJump skipFirstInc
    emit .LOOP_LESS_EQ_LOCAL [.slot loopVar, .slot endVar, .jump 0xFFFFFFFF]
    return (← codeSize) - 4
  else
    emitLoadLocal loopVar
    emitOp .LOAD_ONE
    emitOp .ADD
    emitStoreLocal loopVar
    emitOp .POP
    patchJump skipFirstInc
    emitLoadLocal endVar
    emitLoadLocal loopVar
    emitOp .GREATER_EQ
    emitJump .JUMP_IF_FALSE

def compileCounting (loopVar endVar : Nat) (body : Stmt) : CompileM Unit := do
  startLoop
  let skipFirstInc ← emitJump .JUMP
  let incPoint ← codeSize
  setLoopStart incPoint
  let exitJump ← emitCountingTest loopVar endVar skipFirstInc
  below.stmt body
  emitLoop incPoint
  patchJump exitJump
  endLoop

/-- A step of zero is thrown as a string. -/
def emitStepCheck (stepVar : Nat) : CompileM Unit := do
  emitLoadLocal stepVar
  emitOp .LOAD_ZERO
  emitOp .EQUAL
  let stepZeroJump ← emitJump .JUMP_IF_FALSE
  let errStrIdx ← makeConstant (.string (lit "Step cannot be 0 in repeat loop"))
  emit .LOAD_CONST [.constant errStrIdx]
  emitOp .THROW
  patchJump stepZeroJump

/-- The test of a loop with a step: the end is an upper bound or a lower one. -/
def emitSteppingTest (loopVar endVar stepVar : Nat) : CompileM Nat := do
  emitLoadLocal stepVar
  emitOp .LOAD_ZERO
  emitOp .GREATER
  let stepJump ← emitJump .JUMP_IF_FALSE
  emitLoadLocal endVar
  emitLoadLocal loopVar
  emitOp .GREATER_EQ
  let endStepJump ← emitJump .JUMP
  patchJump stepJump
  emitLoadLocal loopVar
  emitLoadLocal endVar
  emitOp .GREATER_EQ
  patchJump endStepJump
  emitJump .JUMP_IF_FALSE

def compileStepping (loopVar endVar stepVar : Nat) (body : Stmt) : CompileM Unit := do
  startLoop
  let skipFirstStep ← emitJump .JUMP
  let incPoint ← codeSize
  setLoopStart incPoint
  emitLoadLocal loopVar
  emitLoadLocal stepVar
  emitOp .ADD
  emitStoreLocal loopVar
  emitOp .POP
  patchJump skipFirstStep
  let exitJump ← emitSteppingTest loopVar endVar stepVar
  below.stmt body
  emitLoop incPoint
  patchJump exitJump
  endLoop

def compileRepeatLoop (loopVar endVar : Nat) (body : Stmt) : Option Expr → CompileM Unit
  | none => compileCounting below loopVar endVar body
  | some step => do
      let stepVar ← addLocal (lit "<repeat-step>")
      below.expr step
      emitStoreLocal stepVar
      emitStepCheck stepVar
      compileStepping below loopVar endVar stepVar body

def compileRepeat (var : CString) (start finish : Expr) (step : Option Expr) (body : Stmt) :
    CompileM Unit := do
  beginScope
  let loopVar ← addLocal var
  below.expr start
  emitStoreLocal loopVar
  let endVar ← addLocal (lit "<repeat-end>")
  below.expr finish
  emitStoreLocal endVar
  compileRepeatLoop below loopVar endVar body step
  endScope

/-- The key and the value of an entry, or the element, go to their variables. -/
def emitBindItem (loopVar : Nat) (loopValueVar : Option Nat) : CompileM Unit := do
  match loopValueVar with
  | some loopValueVar =>
      emitOp .DUP
      emitOp .LOAD_ZERO
      emitOp .INDEX_GET
      emitStoreLocal loopVar
      emitOp .POP
      emitOp .LOAD_ONE
      emitOp .INDEX_GET
      emitStoreLocal loopValueVar
      emitOp .POP
  | none =>
      emitStoreLocal loopVar
      emitOp .POP

/-- A loop variable that starts as nil. -/
def addNilLocal (name : CString) : CompileM Nat := do
  let slot ← addLocal name
  emitOp .LOAD_NIL
  emitStoreLocal slot
  return slot

/-- The variable of the values, where the loop has one. -/
def addValueLocal (valueVar : CString) : CompileM (Option Nat) :=
  if valueVar.isEmpty then return none else some <$> addNilLocal valueVar

def compileGet (var valueVar : CString) (iterable : Expr) (body : Stmt) : CompileM Unit := do
  beginScope
  let iterVar ← addLocal (lit "<iter>")
  below.expr iterable
  emitOp (if valueVar.isEmpty then .GET_ITER else .GET_DICT_ITER)
  emitStoreLocal iterVar
  let loopVar ← addNilLocal var
  let loopValueVar ← addValueLocal valueVar
  startLoop
  let loopStart ← codeSize
  emitLoadLocal iterVar
  let exitJump ← emitJump .ITER_NEXT
  emitBindItem loopVar loopValueVar
  below.stmt body
  emitLoop loopStart
  patchJump exitJump
  endLoop
  endScope

/-! ### Matching -/

def builtinTypes : List CString :=
  [lit "Integer", lit "Float", lit "Number", lit "String", lit "Boolean", lit "Array",
    lit "Dictionary", lit "Function", lit "Nil", lit "File", lit "Buffer", lit "Regex",
    lit "DateTime", lit "Timer", lit "Atomic", lit "Channel", lit "Exception", lit "TypeError",
    lit "ValueError", lit "IndexError", lit "KeyError", lit "FileNotFoundError", lit "NetworkError",
    lit "PermissionError", lit "IOError", lit "SyntaxError", lit "RegexError"]

def isTypeMatchPattern (name : CString) : CompileM Bool := do
  if name.isEmpty then return false
  if (← resolveLocal name).isSome then return false
  if (← resolveUpvalue name).isSome then return false
  if (← resolveStatic name).isSome then return false
  return builtinTypes.contains name || (← get).declaredTypes.contains name

/-- The name of a pattern that is a type. -/
def typePattern (pattern : Expr) : CompileM (Option CString) := do
  match pattern.identifier? with
  | some name => if ← isTypeMatchPattern name then return some name else return none
  | none => return none

/-- The subject is compared with the pattern of an arm. -/
def emitArmTest (pattern : Expr) : CompileM Unit := do
  let typeName ← typePattern pattern
  emitOp .DUP
  match typeName with
  | some name =>
      let nameIdx ← identifierConstant name
      emit .LOAD_CONST [.constant nameIdx]
      emitOp .IS_INSTANCE_OF
  | none =>
      below.expr pattern
      emitOp .EQUAL

/-- The jump to the end behind the body of an arm. -/
def compileArm (arm : MatchArm Expr Stmt) : CompileM Nat := do
  match arm.pattern with
  | none =>
      emitOp .POP
      below.stmt arm.body
      emitJump .JUMP
  | some pattern =>
      emitArmTest below pattern
      let nextArmJump ← emitJump .JUMP_IF_FALSE
      emitOp .POP
      below.stmt arm.body
      let endJump ← emitJump .JUMP
      patchJump nextArmJump
      return endJump

def patchAll (jumps : List Nat) : CompileM Unit := do
  for jump in jumps do patchJump jump

def compileMatch (subject : Expr) (arms : List (MatchArm Expr Stmt)) : CompileM Unit := do
  below.expr subject
  let endJumps ← arms.mapM (compileArm below)
  emitOp .POP
  patchAll endJumps

/-! ### Tasks and returns -/

/-- The slot of a task that is a local variable, reserved before it is compiled. -/
def taskSlot (name : CString) : CompileM (Option Nat) := do
  match ← resolveLocal name with
  | some slot => return some slot
  | none => if (← getCurrent).scopeDepth > 0 then some <$> addLocal name false else return none

def emitStoreTask (name : CString) : Option Nat → CompileM Unit
  | some slot => emitStoreLocal slot
  | none => do
      let slot ← globalSlotFor name
      emit .STORE_GLOBAL_SLOT [.globalSlot slot]

def compileTask (task : TaskStmt Expr Stmt) : CompileM Unit := do
  let slot ← taskSlot task.name
  compileDecorated host below task.userDecorators task
  emitStoreTask task.name slot
  emitOp .POP

/-- The arguments of a call that `compileGive` takes for a call of the task itself. -/
def selfCall? (value : Option Expr) (c : Compiler) (ensures : List (Clause Expr)) :
    Option (Expr × List (Argument Expr)) :=
  match value with
  | none => none
  | some value =>
      match value.variant with
      | .CallExpr callee arguments =>
          if !c.isCached ∧ c.activeTrys.isEmpty ∧ ensures.isEmpty ∧
              callee.identifier? = some c.name then some (callee, arguments)
          else none
      | _ => none

/-- The result is kept under two names while the postconditions are checked. -/
def compilePostconditions (ensures : List (Clause Expr)) : CompileM Unit := do
  if host.disableContracts ∨ ensures.isEmpty then return
  let resultSlot ← addLocal (lit "__result__") false
  emitStoreLocal resultSlot
  emitOp .POP
  let resultAliasSlot ← addLocal (lit "result") false
  emitLoadLocal resultSlot
  emitStoreLocal resultAliasSlot
  emitOp .POP
  compileContractChecks host below ensures false
  emitLoadLocal resultSlot

def setActiveTrys (activeTrys : List ActiveTry) : CompileM Unit :=
  modifyCurrent fun c => { c with activeTrys }

/-- A finally block runs while the result waits. -/
def replayAroundResult (retvalSlot : Nat) : Option Stmt → CompileM Unit
  | some body => do
      emitStoreLocal retvalSlot
      emitOp .POP
      below.stmt body
      emitLoadLocal retvalSlot
  | none => return

/-- The finally blocks of the statements a return leaves, from the inside out. -/
def replayForReturn : List ActiveTry → CompileM Unit
  | [] => return
  | pending :: outer => do
      setActiveTrys outer
      replayAroundResult below pending.retvalSlot pending.body
      replayForReturn outer

def compileGive (value : Option Expr) : CompileM Unit := do
  let s ← get
  match selfCall? value s.current s.currentEnsuresClauses with
  | some (callee, arguments) =>
      below.expr callee
      for a in arguments do below.expr a.value
      emit .TAIL_CALL [.count arguments.length]
      emitOp .RETURN
  | none =>
      below.optionalExpr value
      let c ← getCurrent
      emitStoreCached c.isCached c.name
      compilePostconditions host below (← get).currentEnsuresClauses
      let pending := (← getCurrent).activeTrys
      replayForReturn below pending
      setActiveTrys pending
      emitReturn

/-! ### Leaving a loop -/

def replayBody : Option Stmt → CompileM Unit
  | some body => below.stmt body
  | none => return

/-- The finally blocks of the statements inside a loop that is left. -/
def replayForLoop (depth : Nat) : List ActiveTry → CompileM Unit
  | [] => return
  | pending :: outer => do
      if outer.length ≥ depth then
        setActiveTrys outer
        emitOp .TRY_END
        replayBody below pending.body
        replayForLoop depth outer

/-- The local variables above a scope are popped, but stay known. -/
def emitPopLocals (targetDepth : Nat) : CompileM Unit := do
  let locals := (← getCurrent).locals
  for (l, slotIdx) in locals.zipIdx.reverse.takeWhile fun entry => entry.1.depth > targetDepth do
    emitCloseLocal slotIdx l

def leaveToLoop (loop : LoopContext) : CompileM Unit := do
  let pending := (← getCurrent).activeTrys
  replayForLoop below loop.tryDepth pending
  setActiveTrys pending
  emitPopLocals loop.scopeDepth

def addBreak (jumpOffset : Nat) : CompileM Unit :=
  modify fun s =>
    { s with
      loopStack :=
        match s.loopStack with
        | [] => []
        | loop :: rest => { loop with breaks := loop.breaks ++ [jumpOffset] } :: rest }

def compileEscape : CompileM Unit := do
  match (← get).loopStack with
  | [] => errorAt (lit "'escape' outside of loop")
  | loop :: _ =>
      leaveToLoop below loop
      let jumpOffset ← emitJump .JUMP
      addBreak jumpOffset

def compileSkip : CompileM Unit := do
  match (← get).loopStack with
  | [] => errorAt (lit "'skip' outside of loop")
  | loop :: _ =>
      leaveToLoop below loop
      emitLoop loop.start

/-! ### Modules -/

def markExported (slot : Nat) : CompileM Unit :=
  modifyCurrent fun c =>
    { c with locals := c.locals.modify slot fun l => { l with exported := true } }

/-- The name a statement behind `export` declares. -/
def declaredName (inner : Stmt) : Option CString :=
  match inner.variant with
  | .TaskStmt task => some task.name
  | .ModelStmt model => some model.name
  | .VarDeclStmt name _ => some name
  | .ExpressionStmt expr =>
      match expr.variant with
      | .AssignExpr name _ => some name
      | .IndexAssignExpr _ _ _ _ => some []
      | _ => none
  | _ => none

/-- The name of `export name`. -/
def exportedName (inner : Stmt) : Option CString :=
  match inner.variant with
  | .ExpressionStmt expr => expr.identifier?
  | _ => none

/-- The local variable that `export name` is about. -/
def exportedSlot (inner : Stmt) : CompileM (Option Nat) := do
  match exportedName inner with
  | some name => resolveLocal name
  | none => return none

/-- The variable a statement declares is offered to other modules. -/
def exportDeclared (inner : Stmt) : CompileM Unit := do
  match declaredName inner with
  | none => return
  | some declName =>
      if declName.isEmpty then return
      match ← resolveLocal declName with
      | some slot => markExported slot
      | none => return

def compileExport (inner : Stmt) : CompileM Unit := do
  match ← exportedSlot inner with
  | some slot => markExported slot
  | none =>
      let localsBefore := (← getCurrent).locals.length
      below.stmt inner
      modifyCurrent fun c =>
        { c with
          locals := c.locals.mapIdx fun i l =>
            if localsBefore ≤ i then { l with exported := true } else l }
      exportDeclared inner

/-- The statement behind `export`. -/
def exportedStmt (s : Stmt) : Stmt :=
  match s.variant with
  | .ExportStmt inner => inner
  | _ => s

/-- The variables of the tasks a module declares. -/
def predeclareModuleTasks (statements : List Stmt) : CompileM Unit := do
  for s in statements do
    match (exportedStmt s).task? with
    | none => pure ()
    | some task =>
        if !task.name.isEmpty ∧ (← resolveLocal task.name).isNone then
          let _ ← addLocal task.name

/-- A variable a module offers: all of its outermost ones to a file that includes it, and those it
exports to the others. -/
def offers (isFileInclusion : Bool) (l : LocalVariable) : Bool :=
  l.depth = 1 && !l.name.isEmpty && (isFileInclusion || l.exported)

def emitLoadNamed (name : CString) : CompileM Unit := do
  match ← resolveLocal name with
  | some slot => emitLoadLocal slot
  | none => return

/-- An entry of the dictionary of a module. -/
def emitModuleEntry (l : LocalVariable) : CompileM Unit := do
  emitOp .DUP
  emitLoadNamed l.name
  let propIdx ← identifierConstant l.name
  let icIdx ← addICEntry
  emit .INTERCEPTED_STORE_PROPERTY [.constant propIdx, .cache icIdx]
  emitOp .POP

/-- The dictionary of a module is returned. -/
def emitModuleDict (isFileInclusion : Bool) : CompileM Unit := do
  emit .MAKE_DICT [.count 0]
  for l in (← getCurrent).locals.filter (offers isFileInclusion) do emitModuleEntry l
  emitOp .RETURN

/-- The function of a module, and its outermost variables. It starts a chain of compilers of its own. -/
def compileModule (path name : CString) (isFileInclusion : Bool) (statements : List Stmt) :
    CompileM (CompiledFunction × List LocalVariable) := do
  let previous ← get
  modify fun s =>
    { s with
      currentFile := path
      current :=
        { name := lit "<module " ++ name ++ lit ">"
          arity := 0
          compilerId := s.compilerIdCounter + 1
          scopeDepth := 1
          isHarvesting := true }
      enclosing := []
      compilerIdCounter := s.compilerIdCounter + 1 }
  let _ ← addLocal []
  predeclareModuleTasks statements
  for s in statements do below.stmt s
  emitModuleDict isFileInclusion
  let s ← get
  let moduleFunc :=
    { s.current with filename := path }.compiled s.current.locals.length false 0
  modify fun s =>
    { s with
      compiledFunctions := s.compiledFunctions ++ [moduleFunc]
      current := previous.current
      enclosing := previous.enclosing
      currentFile := previous.currentFile }
  return (moduleFunc, s.current.locals)

/-- The function of a module runs the first time, and its dictionary is loaded. -/
def emitRunModule (flagIdx : Nat) (moduleFunc : CompiledFunction) : CompileM Unit := do
  let nestedIdx := (← getCurrent).nestedFunctions.length
  addNestedFunction moduleFunc
  emit .HAS_GLOBAL [.constant flagIdx]
  let skipExec ← emitJump .JUMP_IF_TRUE
  emitCLOSURE nestedIdx moduleFunc.function.upvalues
  emit .CALL [.count 0]
  emit .STORE_GLOBAL [.constant flagIdx]
  emitOp .POP
  patchJump skipExec
  emit .LOAD_GLOBAL [.constant flagIdx]

/-- The variable an import of a name goes to. -/
def importSlot (name : CString) : CompileM Nat := do
  match ← resolveLocal name with
  | some slot => return slot
  | none => addLocal name false

def emitBindImport (l : LocalVariable) : CompileM Unit := do
  if (← getCurrent).scopeDepth > 0 then
    let slot ← importSlot l.name
    modifyCurrent fun c =>
      { c with locals := c.locals.modify slot fun v => { v with exported := l.exported } }
    emitStoreLocal slot
  else
    let aliasSlot ← globalSlotFor l.name
    emit .STORE_GLOBAL_SLOT [.globalSlot aliasSlot]

/-- A variable of a module is bound under its own name. -/
def emitImport (l : LocalVariable) : CompileM Unit := do
  emitOp .DUP
  let propIdx ← identifierConstant l.name
  let icIdx ← addICEntry
  emit .LOAD_PROPERTY [.constant propIdx, .cache icIdx]
  emitBindImport l
  emitOp .POP

/-- The dictionary of a module is bound under another name. -/
def emitBindAlias (aliasName : CString) : CompileM Unit := do
  if (← getCurrent).scopeDepth > 0 then
    let slot ← addLocal aliasName false
    emitStoreLocal slot
  else
    let aliasSlot ← globalSlotFor aliasName
    emit .STORE_GLOBAL_SLOT [.globalSlot aliasSlot]

/-- The dictionary of a module is taken apart, or bound as it is. -/
def emitImports (aliasName : CString) (offered : List LocalVariable) : CompileM Unit := do
  if aliasName.isEmpty ∨ aliasName = lit "*" then
    for l in offered do emitImport l
  else emitBindAlias aliasName

def circularImport (path : CString) : CString :=
  lit "CircularImportError: '" ++ path ++ lit "' is already being imported\n\n" ++
    lit "  A module cannot import something that is (directly or indirectly)\n" ++
    lit "  importing it. Move the shared code both need into a third module\n" ++
    lit "  that each of them imports."

/-- The flag that a module has run, which its dictionary stands for. -/
def moduleFlag (path : CString) : CString :=
  lit "__module_cache_" ++ lit (toString (host.hash path))

def compileImport (absolutePath path aliasName : CString) (statements : List Stmt) :
    CompileM Unit := do
  modify fun s => { s with compilingModules := absolutePath :: s.compilingModules }
  let flagIdx ← identifierConstant (moduleFlag host absolutePath)
  let isFileInclusion := path.length ≥ 3 && (lit ".ez").isSuffixOf path
  let name := if aliasName.isEmpty then path else aliasName
  let compiled ← compileModule below absolutePath name isFileInclusion statements
  emitRunModule flagIdx compiled.1
  emitImports aliasName (compiled.2.filter (offers isFileInclusion))
  emitOp .POP
  modify fun s => { s with compilingModules := s.compilingModules.erase absolutePath }

def compileUse (path aliasName : CString) : CompileM Unit := do
  let s ← get
  match host.locate s.currentFile path with
  | .error message => errorAt message
  | .ok absolutePath =>
      if s.compilingModules.contains absolutePath then errorAt (circularImport absolutePath)
      else
        match host.parse absolutePath with
        | .error message => errorAt message
        | .ok statements => compileImport host below absolutePath path aliasName statements

/-! ### Models -/

def emitLoadName (name : CString) : CompileM Unit := do
  let idx ← identifierConstant name
  emit .LOAD_CONST [.constant idx]

def emitBool (b : Bool) : CompileM Unit := emitOp (if b then .LOAD_TRUE else .LOAD_FALSE)

def selfParam : Param Expr := { name := lit "self", defaultValue := none }

def initTask (model : ModelStmt Expr Stmt) : TaskStmt Expr Stmt :=
  { name := lit "init", params := selfParam :: model.initParams, body := model.initBody }

def methodTask (member : ModelMember Expr Stmt) : TaskStmt Expr Stmt :=
  { name := member.name
    params := if member.isStatic then member.params else selfParam :: member.params
    body := member.body
    isVariadic := member.isVariadic
    isAsync := member.isAsync
    isCached := member.isCached
    requiresClauses := member.requiresClauses
    ensuresClauses := member.ensuresClauses }

def compileMemberValue (member : ModelMember Expr Stmt) : CompileM Unit :=
  if member.isMethod then compileDecorated host below member.userDecorators (methodTask member) true
  else below.optionalExpr member.initializer

def compileMember (member : ModelMember Expr Stmt) : CompileM Unit := do
  emitLoadName member.name
  compileMemberValue host below member
  emitBool member.isStatic
  emitBool member.isPublic

/-- The properties of a model and their types. -/
def propertyTypes (model : ModelStmt Expr Stmt) : List (CString × CString) :=
  (model.members.filter fun m => !m.isMethod && !m.isStatic).map fun m =>
    (m.name, m.typeHint.getD (lit "Any"))

def emitProperties (properties : List (CString × CString)) : CompileM Unit := do
  emitLoadName (lit "__properties__")
  for (name, type) in properties do
    emitLoadName name
    emitLoadName type
  emit .MAKE_DICT [.count properties.length]
  emitOp .LOAD_TRUE
  emitOp .LOAD_TRUE

def compileValidator (fieldName : CString) (rule : ValidateRule Expr) : CompileM Unit := do
  emitLoadName fieldName
  emitLoadName rule.ruleName
  below.optionalExpr rule.param
  emitLoadName rule.message

/-- The validators of a model, with the fields they are for. -/
def validators (model : ModelStmt Expr Stmt) : List (CString × ValidateRule Expr) :=
  (model.members.filter fun m => !m.isMethod).flatMap fun m => m.validators.map (m.name, ·)

def setClass (currentClass currentParentClass : CString) : CompileM Unit :=
  modifyCurrent fun c => { c with currentClass, currentParentClass }

def emitParent (parentName : CString) : CompileM Unit :=
  if parentName.isEmpty then emitOp .LOAD_NIL else emitLoadGlobal parentName

/-- What `MAKE_CLASS` takes from the stack. -/
def compileModelParts (model : ModelStmt Expr Stmt) : CompileM Unit := do
  emitParent model.parentName
  emitLoadName (lit "init")
  emitClosure host below (initTask model) true
  emitOp .LOAD_FALSE
  emitOp .LOAD_TRUE
  for member in model.members do compileMember host below member
  emitProperties (propertyTypes model)
  emitLoadName (lit "__name__")
  emitLoadName model.name
  emitOp .LOAD_TRUE
  emitOp .LOAD_TRUE
  for interfaceName in model.interfaces do emitLoadGlobal interfaceName
  emitBool model.audited
  emitBool model.snapshot
  emitLoadName model.persistPath
  for (fieldName, rule) in validators model do compileValidator below fieldName rule

def emitMakeClass (model : ModelStmt Expr Stmt) : CompileM Unit := do
  let memberCount := model.members.length + 3
  let validatorCount := (validators model).length
  checkCount memberCount (lit "Too many members in model (max 255)")
  checkCount model.interfaces.length (lit "Too many interfaces in model (max 255)")
  checkCount validatorCount (lit "Too many validators in model (max 255)")
  let classNameIdx ← identifierConstant model.name
  emit .MAKE_CLASS
    [.constant classNameIdx, .count memberCount, .count model.interfaces.length, .count validatorCount]

def emitBindModel (name : CString) : CompileM Unit := do
  if (← getCurrent).scopeDepth > 0 then
    let slot ← addLocal name
    emitStoreLocal slot
  else
    let slot ← globalSlotFor name
    emit .STORE_GLOBAL_SLOT [.globalSlot slot]
    emitOp .POP

def compileModel (model : ModelStmt Expr Stmt) : CompileM Unit := do
  modify fun s => { s with declaredTypes := model.name :: s.declaredTypes }
  for dec in model.userDecorators do below.expr dec
  let saved ← getCurrent
  setClass model.name model.parentName
  compileModelParts host below model
  emitMakeClass model
  for _ in model.userDecorators do emit .CALL [.count 1]
  emitBindModel model.name
  setClass saved.currentClass saved.currentParentClass

def compileInterface (name : CString) (methods : List CString) : CompileM Unit := do
  modify fun s => { s with declaredTypes := name :: s.declaredTypes }
  for method in methods do emitLoadName method
  let nameIdx ← identifierConstant name
  emit .MAKE_INTERFACE [.constant nameIdx, .count methods.length]
  let ifSlot ← globalSlotFor name
  emit .STORE_GLOBAL_SLOT [.globalSlot ifSlot]
  emitOp .POP

/-! ### Statics -/

def staticName (c : Compiler) (name : CString) : CString :=
  lit "__static_" ++ lit (toString c.compilerId) ++ lit "_" ++ c.name ++ lit "_" ++ name

def compileStatic (name : CString) (initializer : Expr) : CompileM Unit := do
  let mangledName := staticName (← getCurrent) name
  modifyCurrent fun c => { c with statics := assign c.statics name mangledName }
  let nameIdx ← identifierConstant mangledName
  emit .HAS_GLOBAL [.constant nameIdx]
  let skipInit ← emitJump .JUMP_IF_TRUE
  below.expr initializer
  emit .STORE_GLOBAL [.constant nameIdx]
  emitOp .POP
  patchJump skipInit

/-! ### Exceptions -/

/-- A hidden variable that starts as nil and takes no place among the operands. -/
def addHiddenLocal (name : CString) : CompileM Nat := do
  let count := (← getCurrent).locals.length
  let slot ← addLocal (name ++ lit (toString count)) false
  emitOp .LOAD_NIL
  emitStoreLocal slot
  emitOp .POP
  return slot

def pushTry (activeTry : ActiveTry) : CompileM Unit :=
  modifyCurrent fun c => { c with activeTrys := activeTry :: c.activeTrys }

def popTry : CompileM Unit := modifyCurrent fun c => { c with activeTrys := c.activeTrys.tail }

/-- The exception becomes a variable, or is dropped. -/
def emitBindCaught (varName : CString) : CompileM Unit := do
  if varName.isEmpty then emitOp .POP
  else
    let slot ← addLocal varName
    emitStoreLocal slot

/-- The body of a catch block; then the jump behind the statement. -/
def compileCatchBody (cb : CatchBlock Stmt) : CompileM Nat := do
  beginScope
  emitBindCaught cb.varName
  below.stmt cb.body
  endScope
  emitJump .JUMP

/-- The catch blocks up to the first that catches everything. -/
def compileCatches : List (CatchBlock Stmt) → CompileM (List Nat)
  | [] => return []
  | cb :: rest => do
      if cb.typeName.isEmpty then
        let success ← compileCatchBody below cb
        return [success]
      else
        emitOp .DUP
        emitConstant (.string cb.typeName)
        emitOp .IS_INSTANCE_OF
        let nextCatch ← emitJump .JUMP_IF_FALSE
        let success ← compileCatchBody below cb
        patchJump nextCatch
        let others ← compileCatches rest
        return success :: others

/-- The handler of a try statement; the jumps behind it are returned. An exception nothing catches
waits for the finally block. -/
def compileHandler (catchBlocks : List (CatchBlock Stmt)) (pendingSlot : Option Nat) :
    CompileM (List Nat) := do
  match catchBlocks, pendingSlot with
  | [], none => return []
  | [], some pendingSlot =>
      emitStoreLocal pendingSlot
      emitOp .POP
      return []
  | catchBlocks, some pendingSlot =>
      let successJumps ← compileCatches below catchBlocks
      emitStoreLocal pendingSlot
      emitOp .POP
      let toFinally ← emitJump .JUMP
      return successJumps ++ [toFinally]
  | catchBlocks, none =>
      let successJumps ← compileCatches below catchBlocks
      emitOp .THROW
      return successJumps

/-- A pending exception is thrown again behind the finally block. -/
def emitRethrow (pendingSlot : Nat) : CompileM Unit := do
  emitLoadLocal pendingSlot
  emitOp .DUP
  let skipRethrow ← emitJump .JUMP_IF_NIL
  emitOp .THROW
  patchJump skipRethrow
  emitOp .POP

/-- The try block and its handler. -/
def compileTryBody (tryBlock : Stmt) (catchBlocks : List (CatchBlock Stmt)) (activeTry : ActiveTry)
    (pendingSlot : Option Nat) : CompileM Unit := do
  pushTry activeTry
  let tryStart ← emitJump .TRY_START
  below.stmt tryBlock
  emitOp .TRY_END
  let afterCatch ← emitJump .JUMP
  patchJump tryStart
  let successJumps ← compileHandler below catchBlocks pendingSlot
  patchAll successJumps
  patchJump afterCatch
  popTry

def compileTry (tryBlock : Stmt) (catchBlocks : List (CatchBlock Stmt)) (finallyBlock : Option Stmt) :
    CompileM Unit := do
  match finallyBlock with
  | none => compileTryBody below tryBlock catchBlocks { body := none, retvalSlot := 0 } none
  | some finallyBlock =>
      beginScope
      let pendingSlot ← addHiddenLocal (lit "__pendingExc__")
      let retvalSlot ← addHiddenLocal (lit "__retval__")
      compileTryBody below tryBlock catchBlocks { body := some finallyBlock, retvalSlot }
        (some pendingSlot)
      below.stmt finallyBlock
      emitRethrow pendingSlot
      endScope

def compileThrow (expr : Expr) : CompileM Unit := do
  below.expr expr
  emitOp .THROW

/-! ### All statements -/

/-- `compileStmt`, below the limit of nesting. -/
def compileStmtVariant : StmtVariant Expr Stmt → CompileM Unit
  | .ExpressionStmt expr => compileExpressionStmt below expr
  | .OutStmt expr => compileOutStmt below expr
  | .VarDeclStmt name initializer => compileVarDecl below name initializer
  | .BlockStmt statements => compileBlock below statements
  | .WhenStmt condition thenBranch elseBranch =>
      compileWhen host below condition thenBranch elseBranch
  | .WhileStmt condition body => compileWhile host below condition body
  | .RepeatStmt var start finish step body => compileRepeat below var start finish step body
  | .GetStmt var valueVar iterable body => compileGet below var valueVar iterable body
  | .MatchStmt subject arms => compileMatch below subject arms
  | .TaskStmt task => compileTask host below task
  | .GiveStmt value => compileGive host below value
  | .UseStmt path aliasName => compileUse host below path aliasName
  | .ExportStmt inner => compileExport below inner
  | .EscapeStmt => compileEscape below
  | .SkipStmt => compileSkip below
  | .ModelStmt model => compileModel host below model
  | .StaticStmt name initializer => compileStatic below name initializer
  | .TryStmt tryBlock catchBlocks finallyBlock =>
      compileTry below tryBlock catchBlocks finallyBlock
  | .ThrowStmt expr => compileThrow below expr
  | .InterfaceStmt name methods => compileInterface name methods

/-- Where the code of a statement lies is written down. -/
def recordStatement (before : Compiler) : CompileM Unit :=
  modifyCurrent fun c =>
    { c with
      statements := c.statements ++
        [{ start := before.code.size, finish := c.code.size,
           declared := c.residents - before.residents }] }

def compileStmt (s : Stmt) : CompileM Unit := do
  modify fun state => { state with currentLine := s.line, currentFile := s.filename }
  let before ← getCurrent
  compileStmtVariant host below s.variant
  recordStatement before

/-! ### Programs -/

def MAX_DEPTH : Nat := 100

/-- The compilers of what is nested at most that deep. The source records the error of deeper nesting
and goes on, but what it then compiles is not used. -/
def compilers : Nat → Below
  | 0 =>
      { expr := fun _ => throw (.error (lit "Maximum nesting depth exceeded during compilation"))
        stmt := fun _ => throw (.error (lit "Maximum nesting depth exceeded during compilation")) }
  | depth + 1 =>
      { expr := compileExpr host (compilers depth), stmt := compileStmt host (compilers depth) }

mutual

/-- `scanDeclaredTypes` for a statement. -/
def declaredTypesOf : Stmt → List CString
  | .mk _ _ variant =>
      match variant with
      | .ModelStmt model => [model.name]
      | .InterfaceStmt name _ => [name]
      | .ExportStmt inner => declaredTypesOf inner
      | .BlockStmt statements => scanDeclaredTypes statements
      | _ => []

def scanDeclaredTypes : List Stmt → List CString
  | [] => []
  | s :: statements => declaredTypesOf s ++ scanDeclaredTypes statements

end

/-- The statements of the main program. The value of a last expression is its result. -/
def compileStatements (below : Below) : List Stmt → CompileM Unit
  | [] => return
  | s :: rest => do
      match s.variant, rest with
      | .ExpressionStmt expr, [] =>
          below.expr expr
          emitReturn
      | _, _ => below.stmt s
      compileStatements below rest

/-- `CompileResult` of a compilation that succeeds. -/
structure CompileResult where
  mainFunction : CompiledFunction
  functions : List CompiledFunction
  globalSlots : List (CString × UInt16)
  strayJump : Bool

/-- What the compiler keeps from one compilation to the next. -/
structure Session where
  globalSlots : List (CString × UInt16) := []
  nextGlobalSlot : Nat := 0
  compilerIdCounter : Nat := 0
  currentFile : CString := []

def Session.start (session : Session) (statements : List Stmt) : BytecodeCompiler where
  current := { name := lit "<main>", arity := 0, compilerId := session.compilerIdCounter + 1 }
  compilerIdCounter := session.compilerIdCounter + 1
  currentFile := session.currentFile
  globalSlots := session.globalSlots
  nextGlobalSlot := session.nextGlobalSlot
  declaredTypes := scanDeclaredTypes statements

def compileMain (statements : List Stmt) : CompileM CompileResult := do
  compileStatements (compilers host MAX_DEPTH) statements
  emitOp .LOAD_NIL
  emitReturn
  let s ← get
  let mainFunction :=
    { s.current with filename := s.currentFile }.compiled s.current.maxLocals false s.nextGlobalSlot
  return {
    mainFunction
    functions := s.compiledFunctions ++ [mainFunction]
    globalSlots := s.globalSlots
    strayJump := s.strayJump }

/-- `compile`. -/
def compile (session : Session) (statements : List Stmt) : Except CompileError CompileResult :=
  (compileMain host statements).run' (session.start statements)

end BytecodeCompiler

end EZLanguage
