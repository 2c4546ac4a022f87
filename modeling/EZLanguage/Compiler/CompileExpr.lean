import EZLanguage.Compiler.BuiltinFolding
import EZLanguage.Compiler.CompileFunction

/-!
# Compiling expressions

One function for each variant, as in `BytecodeCompilerExpr.cpp`.
-/

namespace EZLanguage

namespace BytecodeCompiler

variable (host : Host) (below : Below)

/-! ### Literals and names -/

/-- `compileLiteral`. -/
def emitLiteral : Literal → CompileM Unit
  | .nil => emitOp .LOAD_NIL
  | .bool b => emitOp (if b then .LOAD_TRUE else .LOAD_FALSE)
  | .int i =>
      if i = 0 then emitOp .LOAD_ZERO
      else if i = 1 then emitOp .LOAD_ONE
      else emitConstant (.int i)
  | .double bits => emitConstant (.double bits)
  | .string s => if s.isEmpty then emitOp .LOAD_EMPTY_STR else emitConstant (.string s)

def emitLoadSelf : CompileM Unit := do
  match ← resolveLocal (lit "self") with
  | some slot => emitLoadLocal slot
  | none =>
      match ← resolveUpvalue (lit "self") with
      | some idx => emit .LOAD_UPVALUE [.upvalue idx]
      | none => errorAt (lit "Cannot use 'self' or 'super' outside of a model method")

/-- A class or an interface by its name: from its slot, if it has one by now. -/
def emitLoadGlobal (name : CString) : CompileM Unit := do
  match lookup (← get).globalSlots name with
  | some slot => emit .LOAD_GLOBAL_SLOT [.globalSlot slot.toNat]
  | none =>
      let idx ← identifierConstant name
      emit .LOAD_GLOBAL [.constant idx]

def compileIdentifier (name : CString) : CompileM Unit := do
  match ← resolveStatic name with
  | some mangled =>
      let nameIdx ← identifierConstant mangled
      emit .LOAD_GLOBAL [.constant nameIdx]
  | none =>
      match ← resolveLocal name with
      | some slot => emitLoadLocal slot
      | none =>
          match ← resolveUpvalue name with
          | some idx => emit .LOAD_UPVALUE [.upvalue idx]
          | none =>
              if name = lit "self" then emitLoadSelf
              else if name = lit "super" then
                let parent := (← getCurrent).currentParentClass
                if parent.isEmpty then
                  errorAt (lit "Cannot use 'super' outside of a model with a parent.")
                else
                  emitLoadSelf
                  emitLoadGlobal parent
                  emitOp .SUPER
              else
                let slot ← globalSlotFor name
                emit .LOAD_GLOBAL_SLOT [.globalSlot slot]

def compileSelf : CompileM Unit := emitLoadSelf

/-- Outside of a model with a parent the complaint goes to `cerr` alone. -/
def compileSuper : CompileM Unit := do
  let parent := (← getCurrent).currentParentClass
  if parent.isEmpty then return
  emitLoadSelf
  emitLoadGlobal parent
  emitOp .SUPER

/-! ### Operators -/

def binaryOpCode : BinaryOp → OpCode
  | .PLUS => .ADD
  | .MINUS => .SUB
  | .STAR => .MUL
  | .STAR_STAR => .POW
  | .SLASH => .DIV
  | .PERCENT => .MOD
  | .AMPERSAND => .BIT_AND
  | .PIPE => .BIT_OR
  | .CARET => .BIT_XOR
  | .LSHIFT => .SHIFT_LEFT
  | .RSHIFT => .SHIFT_RIGHT
  | .EQUAL_EQUAL => .EQUAL
  | .BANG_EQUAL => .NOT_EQUAL
  | .LESS => .LESS
  | .LESS_EQUAL => .LESS_EQ
  | .GREATER => .GREATER
  | .GREATER_EQUAL => .GREATER_EQ
  | .IN => .MEMBER_IN

def unaryOpCode : UnaryOp → OpCode
  | .MINUS => .NEGATE
  | .NOT | .BANG => .NOT
  | .TILDE => .BIT_NOT

/-- The operand that stands for the whole where the other one is the constant 0 or 1. -/
def simplified (left : Expr) (op : BinaryOp) (right : Expr) (leftConst rightConst : Option Constant) :
    Option Expr :=
  match op, rightConst, leftConst with
  | .PLUS, some (.int 0), _ => some left
  | .MINUS, some (.int 0), _ => some left
  | .STAR, some (.int 1), _ => some left
  | .PLUS, _, some (.int 0) => some right
  | .STAR, _, some (.int 1) => some right
  | _, _, _ => none

/-- What `compileBinary` folds its operands to. -/
def foldedBinary (op : BinaryOp) (leftConst rightConst : Option Constant) :
    CompileM (Option Constant) :=
  match leftConst, rightConst with
  | some l, some r =>
      match foldBinary host.fpu op l r with
      | .ok folded => return folded
      | .error exception => throw (.thrown exception)
  | _, _ => return none

def compileBinary (left : Expr) (op : BinaryOp) (right : Expr) : CompileM Unit := do
  let leftConst ← isConstantExpr host left
  let rightConst ← isConstantExpr host right
  match ← foldedBinary host op leftConst rightConst with
  | some folded => emitConstant folded
  | none =>
      match simplified left op right leftConst rightConst with
      | some operand => below.expr operand
      | none =>
          below.expr left
          below.expr right
          emitOp (binaryOpCode op)

def compileUnary (op : UnaryOp) (operand : Expr) : CompileM Unit := do
  match (← isConstantExpr host operand).bind (foldUnary op) with
  | some folded => emitConstant folded
  | none =>
      below.expr operand
      emitOp (unaryOpCode op)

/-- The jump over the right operand. -/
def logicalJump : LogicalOp → OpCode
  | .AND => .JUMP_IF_FALSE
  | .QUESTION_QUESTION => .JUMP_IF_NOT_NIL
  | .OR => .JUMP_IF_TRUE

def compileLogical (left : Expr) (op : LogicalOp) (right : Expr) : CompileM Unit := do
  below.expr left
  emitOp .DUP
  let jumpOffset ← emitJump (logicalJump op)
  emitOp .POP
  below.expr right
  patchJump jumpOffset

def compileTernary (condition thenBranch elseBranch : Expr) : CompileM Unit := do
  below.expr condition
  let elseJump ← emitJump .JUMP_IF_FALSE
  below.expr thenBranch
  let endJump ← emitJump .JUMP
  patchJump elseJump
  below.expr elseBranch
  patchJump endJump

def compileAwait (expression : Expr) : CompileM Unit := do
  below.expr expression
  emitOp .OP_AWAIT

/-! ### Calls -/

/-- The name of a callee in a traceback, empty where it has none. -/
def calleeDisplayName : Expr → CString
  | .mk _ _ _ variant =>
      match variant with
      | .IdentifierExpr name => name
      | .PropertyAccessExpr object property _ =>
          let owner := calleeDisplayName object
          if owner.isEmpty then property else owner ++ lit "." ++ property
      | .SelfExpr => lit "self"
      | .SuperExpr => lit "super"
      | .IndexExpr object _ =>
          let owner := calleeDisplayName object
          if owner.isEmpty then [] else owner ++ lit "[...]"
      | _ => []

def spread? (e : Expr) : Option Expr :=
  match e.variant with
  | .SpreadExpr expression => some expression
  | _ => none

/-- A list on the stack, with spread elements taken apart. -/
def emitSpreadList (elements : List Expr) : CompileM Unit := do
  emit .MAKE_ARRAY [.count 0]
  for e in elements do
    match spread? e with
    | some expression =>
        below.expr expression
        emitOp .ARRAY_EXTEND
    | none =>
        below.expr e
        emitOp .ARRAY_APPEND

/-- The slot of a captured value of `old`. -/
def capturedOld (callee : Expr) (arguments : List (Argument Expr)) : CompileM (Option Nat) := do
  let captures := (← get).oldCaptures
  match callee.identifier?, arguments with
  | some name, [argument] =>
      if name = lit "old" then return lookup captures (oldKey argument.value) else return none
  | _, _ => return none

def compileKeywordCall (callee : Expr) (arguments : List (Argument Expr)) : CompileM Unit := do
  let positional := arguments.filter fun a => a.name.isEmpty
  let named := arguments.filter fun a => !a.name.isEmpty
  below.expr callee
  for a in positional do below.expr a.value
  for a in named do
    let keyIdx ← identifierConstant a.name
    emit .LOAD_CONST [.constant keyIdx]
    below.expr a.value
  emit .MAKE_DICT [.count named.length]
  emit .CALL_KW [.count positional.length]
  recordCallSite (calleeDisplayName callee)

/-- The receiver and the name of a call that becomes `INVOKE_METHOD`. -/
def invoked? (callee : Expr) : Option (Expr × CString) :=
  match callee.variant with
  | .PropertyAccessExpr object property false =>
      match object.variant with
      | .SuperExpr => none
      | _ => some (object, property)
  | _ => none

def compileInvoke (callee object : Expr) (property : CString) (arguments : List (Argument Expr)) :
    CompileM Unit := do
  below.expr object
  for a in arguments do below.expr a.value
  let nameIdx ← identifierConstant property
  let icIdx ← addICEntry
  emit .INVOKE_METHOD [.constant nameIdx, .cache icIdx, .count arguments.length]
  recordCallSite (calleeDisplayName callee)

def pureBuiltin? (name : CString) : Option PureBuiltin :=
  if name = lit "len" then some .len
  else if name = lit "ord" then some .ord
  else if name = lit "chr" then some .chr
  else if name = lit "str" then some .str
  else none

/-- What a call of a builtin on a constant folds to. The name is looked up for each call of a name. -/
def foldedCall (callee : Expr) (arguments : List (Argument Expr)) : CompileM (Option Constant) := do
  match callee.identifier? with
  | none => return none
  | some name =>
      if (← resolveLocal name).isSome then return none
      if (← resolveUpvalue name).isSome then return none
      if (lookup (← get).globalSlots name).isSome then return none
      match pureBuiltin? name, arguments with
      | some builtin, [argument] =>
          return (← isConstantExpr host argument.value).bind (foldBuiltin host.fpu builtin)
      | _, _ => return none

def compilePlainCall (callee : Expr) (arguments : List (Argument Expr)) : CompileM Unit := do
  checkCount arguments.length (lit "Too many arguments (max 255)")
  match invoked? callee with
  | some (object, property) => compileInvoke below callee object property arguments
  | none =>
      match ← foldedCall host callee arguments with
      | some folded => emitConstant folded
      | none =>
          below.expr callee
          for a in arguments do below.expr a.value
          emit .CALL [.count arguments.length]
          recordCallSite (calleeDisplayName callee)

def compileSpreadCall (callee : Expr) (arguments : List (Argument Expr)) : CompileM Unit := do
  below.expr callee
  emitSpreadList below (arguments.map Argument.value)
  emitOp .CALL_SPREAD
  recordCallSite (calleeDisplayName callee)

def compileCall (callee : Expr) (arguments : List (Argument Expr)) : CompileM Unit := do
  match ← capturedOld callee arguments with
  | some slot =>
      modifyCurrent fun c => { c with oldLoads := c.oldLoads ++ [slot] }
      emitLoadLocal slot
  | none =>
      if arguments.any fun a => !a.name.isEmpty then compileKeywordCall below callee arguments
      else if arguments.any fun a => (spread? a.value).isSome then
        compileSpreadCall below callee arguments
      else compilePlainCall host below callee arguments

/-! ### Containers -/

def compileIndex (object index : Expr) : CompileM Unit := do
  below.expr object
  below.expr index
  emitOp .INDEX_GET

def compileArray (elements : List Expr) : CompileM Unit := do
  if elements.any fun e => (spread? e).isSome then emitSpreadList below elements
  else
    checkCount elements.length (lit "Too many array elements (max 255)")
    for e in elements do below.expr e
    emit .MAKE_ARRAY [.count elements.length]

def compileTuple (elements : List Expr) : CompileM Unit := do
  checkCount elements.length (lit "Too many tuple elements (max 255)")
  for e in elements do below.expr e
  emit .BUILD_TUPLE [.count elements.length]

def compileDictionary (pairs : List (Expr × Expr)) : CompileM Unit := do
  for (key, value) in pairs do
    below.expr key
    below.expr value
  checkCount pairs.length (lit "Too many dictionary entries (max 255)")
  emit .MAKE_DICT [.count pairs.length]

def compileSpread : CompileM Unit :=
  errorAt (lit "Spread expressions are only allowed inside arrays or function calls.")

/-! ### Assignments -/

/-- The value on the stack is stored under a name, which is declared here if nothing else has it. -/
def emitStoreName (name : CString) : CompileM Unit := do
  match ← resolveStatic name with
  | some mangled =>
      let nameIdx ← identifierConstant mangled
      emit .STORE_GLOBAL [.constant nameIdx]
  | none =>
      match ← resolveLocal name with
      | some slot => emitStoreLocal slot
      | none =>
          match ← resolveUpvalue name with
          | some idx => emit .STORE_UPVALUE [.upvalue idx]
          | none =>
              let s ← get
              match lookup s.globalSlots name, s.current.isHarvesting with
              | some slot, false => emit .STORE_GLOBAL_SLOT [.globalSlot slot.toNat]
              | _, _ =>
                  if s.current.scopeDepth > 0 then
                    let slot ← addLocal name false
                    emitStoreLocal slot
                  else
                    let slot ← globalSlotFor name
                    emit .STORE_GLOBAL_SLOT [.globalSlot slot]

def compileAssign (name : CString) (value : Expr) : CompileM Unit := do
  below.expr value
  emitStoreName name

def compoundOpCode : CompoundOp → OpCode
  | .PLUS_EQUAL => .ADD
  | .MINUS_EQUAL => .SUB
  | .STAR_EQUAL => .MUL
  | .STAR_STAR_EQUAL => .POW
  | .SLASH_EQUAL => .DIV

/-- The new value of an element, which is the old one changed for a compound operator. -/
def compileNewElement (value : Expr) : Option CompoundOp → CompileM Unit
  | some op => do
      emitOp .DUP2
      emitOp .INDEX_GET
      below.expr value
      emitOp (compoundOpCode op)
  | none => below.expr value

/-- The part of `compileAssign` for an indexed target. -/
def compileIndexAssign (object index value : Expr) (compoundOp : Option CompoundOp) :
    CompileM Unit := do
  below.expr object
  below.expr index
  compileNewElement below value compoundOp
  emitOp .INDEX_SET

/-- Element `i` of the value that is taken apart. -/
def emitElement (tempVar i : Nat) : CompileM Unit := do
  emitLoadLocal tempVar
  let constIdx ← makeConstant (.int (Int64.ofNat i))
  emit .LOAD_CONST [.constant constIdx]
  emitOp .INDEX_GET

def compileDestructureTarget (tempVar i : Nat) (target : Expr) : CompileM Unit := do
  match target.variant with
  | .IdentifierExpr name =>
      emitElement tempVar i
      emitStoreName name
      emitOp .POP
  | .IndexExpr object index =>
      below.expr object
      below.expr index
      emitElement tempVar i
      emitOp .INDEX_SET
      emitOp .POP
  | .PropertyAccessExpr object property _ =>
      below.expr object
      emitElement tempVar i
      let nameIdx ← identifierConstant property
      let icIdx ← addICEntry
      emit .STORE_PROPERTY [.constant nameIdx, .cache icIdx]
      emitOp .POP
  | _ => return

def compileDestructureAssign (targets : List (Option Expr)) (value : Expr) : CompileM Unit := do
  below.expr value
  let tempVar ← addLocal (lit "<destructure-val>") false
  emitStoreLocal tempVar
  for (target, i) in targets.zipIdx do
    match target with
    | none => pure ()
    | some target => compileDestructureTarget below tempVar i target

/-! ### Objects -/

def compilePropertyAccess (object : Expr) (property : CString) (isOptional : Bool) :
    CompileM Unit := do
  below.expr object
  let nameIdx ← identifierConstant property
  if isOptional then
    emitOp .DUP
    let skipJump ← emitJump .JUMP_IF_NIL
    let icIdx ← addICEntry
    emit .LOAD_PROPERTY [.constant nameIdx, .cache icIdx]
    patchJump skipJump
  else
    let icIdx ← addICEntry
    emit .LOAD_PROPERTY [.constant nameIdx, .cache icIdx]

def compileNew (className : CString) (arguments : List Expr) : CompileM Unit := do
  checkCount arguments.length (lit "Too many arguments to 'new' (max 255)")
  for a in arguments do below.expr a
  let modelIdx ← identifierConstant className
  emit .NEW_INSTANCE [.constant modelIdx, .count arguments.length]

/-- The new value of a property. -/
def compileNewProperty (nameIdx : Nat) (value : Expr) : Option CompoundOp → CompileM Unit
  | some op => do
      emitOp .DUP
      let icIdx ← addICEntry
      emit .LOAD_PROPERTY [.constant nameIdx, .cache icIdx]
      below.expr value
      emitOp (compoundOpCode op)
  | none => below.expr value

def compileSet (object : Expr) (name : CString) (value : Expr) (compoundOp : Option CompoundOp) :
    CompileM Unit := do
  below.expr object
  let nameIdx ← identifierConstant name
  compileNewProperty below nameIdx value compoundOp
  let icIdx2 ← addICEntry
  emit .INTERCEPTED_STORE_PROPERTY [.constant nameIdx, .cache icIdx2]

/-- The task `compileLambda` makes of a lambda: an expression body is given. -/
def lambdaTask (params : List CString) (body : Option Expr) (stmtBody : List Stmt)
    (isVariadic isAsync : Bool) : TaskStmt Expr Stmt :=
  { name := lit "<lambda>"
    params := params.map fun name => { name, defaultValue := none }
    body :=
      match body with
      | some e => [.mk 0 [] (.GiveStmt (some e))]
      | none => stmtBody
    isVariadic
    isAsync }

def compileLambda (params : List CString) (body : Option Expr) (stmtBody : List Stmt)
    (isVariadic isAsync : Bool) : CompileM Unit := do
  let task := lambdaTask params body stmtBody isVariadic isAsync
  let func ← compileFunction host below task (lit "<lambda>")
  let nestedIdx := (← getCurrent).nestedFunctions.length
  addNestedFunction func
  emitCLOSURE nestedIdx func.function.upvalues

/-! ### All expressions -/

/-- `compileExpr`, below the limit of nesting. -/
def compileExprVariant : ExprVariant Expr Stmt → CompileM Unit
  | .LiteralExpr value => emitLiteral value
  | .IdentifierExpr name => compileIdentifier name
  | .BinaryExpr left op right => compileBinary host below left op right
  | .UnaryExpr op operand => compileUnary host below op operand
  | .CallExpr callee arguments => compileCall host below callee arguments
  | .IndexExpr object index => compileIndex below object index
  | .ArrayExpr elements => compileArray below elements
  | .TupleExpr elements => compileTuple below elements
  | .DictionaryExpr pairs => compileDictionary below pairs
  | .AssignExpr name value => compileAssign below name value
  | .IndexAssignExpr object index value compoundOp =>
      compileIndexAssign below object index value compoundOp
  | .DestructureAssignExpr targets value => compileDestructureAssign below targets value
  | .LogicalExpr left op right => compileLogical below left op right
  | .TernaryExpr condition thenBranch elseBranch =>
      compileTernary below condition thenBranch elseBranch
  | .LambdaExpr params body stmtBody isVariadic isAsync =>
      compileLambda host below params body stmtBody isVariadic isAsync
  | .PropertyAccessExpr object property isOptional =>
      compilePropertyAccess below object property isOptional
  | .SelfExpr => compileSelf
  | .SuperExpr => compileSuper
  | .NewExpr className arguments => compileNew below className arguments
  | .SetExpr object name value compoundOp => compileSet below object name value compoundOp
  | .SpreadExpr _ => compileSpread
  | .AwaitExpr expression => compileAwait below expression

def compileExpr (e : Expr) : CompileM Unit := do
  modify fun s => { s with currentLine := e.line, currentFile := e.filename }
  compileExprVariant host below e.variant

end BytecodeCompiler

end EZLanguage
