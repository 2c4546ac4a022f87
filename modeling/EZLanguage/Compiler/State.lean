import EZLanguage.Compiler.Code
import EZLanguage.Compiler.Folding
import EZLanguage.Compiler.Syntax

/-!
# The state of the compiler

The function being compiled, the functions around it, and what they all share. A position in the code of a
function is a number of bytes, as in the source.
-/

namespace EZLanguage

/-! ### The compiler of one function -/

/-- A local variable of the function being compiled. -/
structure LocalVariable where
  name : CString
  depth : Nat
  isCaptured : Bool
  isStackResident : Bool
  exported : Bool
  localVarInfoIdx : Nat

/-- A try statement that is being compiled: its finally block, and the local variable that keeps a
result meanwhile. -/
structure ActiveTry where
  body : Option Stmt
  retvalSlot : Nat

/-- Where the code of a statement lies, and how many values it leaves on the operand stack for the
variables it declares. -/
structure StmtExtent where
  start : Nat
  finish : Nat
  declared : Nat
  deriving DecidableEq

/-- A `Compiler`, with the function it makes. The last two fields are not in the source: the slots it was
told to load for calls of `old`, and the statements it has compiled. -/
structure Compiler where
  name : CString
  arity : Nat
  filename : CString := []
  className : CString := []
  paramNames : List CString := []
  isVariadic : Bool := false
  isAsync : Bool := false
  defaultParamCount : Nat := 0
  code : Code := []
  constants : ConstantPool := .empty
  icEntries : Nat := 0
  nestedFunctions : List BytecodeFunction := []
  localVars : List LocalVarInfo := []
  callSites : List CallSiteInfo := []
  locals : List LocalVariable := []
  scopeDepth : Nat := 0
  upvalues : List Upvalue := []
  statics : List (CString × CString) := []
  currentClass : CString := []
  currentParentClass : CString := []
  activeTrys : List ActiveTry := []
  maxLocals : Nat := 0
  compilerId : Nat
  isHarvesting : Bool := false
  isCached : Bool := false
  oldLoads : List Nat := []
  statements : List StmtExtent := []

namespace Compiler

/-- The values that lie on the operand stack for local variables. -/
def residents (c : Compiler) : Nat := c.locals.countP fun l => l.isStackResident

/-- The function a compiler has made. -/
def finish (c : Compiler) (localCount : Nat) (isMethod : Bool) (globalSlotCount : Nat) :
    BytecodeFunction where
  name := c.name
  filename := c.filename
  className := c.className
  paramNames := c.paramNames
  arity := c.arity
  isVariadic := c.isVariadic
  isAsync := c.isAsync
  isMethod
  hasCached := c.isCached
  chunk :=
    { code := c.code.encode, lines := c.code.lines, constants := c.constants,
      icEntries := c.icEntries, lines_length := c.code.lines_length }
  upvalues := c.upvalues
  upvalueCount := c.upvalues.length
  localCount
  localVars := c.localVars
  callSites := c.callSites
  defaultParamCount := c.defaultParamCount
  globalSlotCount
  nestedFunctions := c.nestedFunctions

end Compiler

/-- A function with the compiler that made it, as it was in the end. -/
structure CompiledFunction where
  compiler : Compiler
  function : BytecodeFunction
  made : ∃ localCount isMethod globalSlotCount,
    function = compiler.finish localCount isMethod globalSlotCount

def Compiler.compiled (c : Compiler) (localCount : Nat) (isMethod : Bool) (globalSlotCount : Nat) :
    CompiledFunction where
  compiler := c
  function := c.finish localCount isMethod globalSlotCount
  made := ⟨localCount, isMethod, globalSlotCount, rfl⟩

/-- `LoopContext`. -/
structure LoopContext where
  start : Nat
  breaks : List Nat
  tryDepth : Nat
  scopeDepth : Nat

/-- The compiler: the `Compiler` of the current function, those that enclose it from the inside out, and
what they share. `strayJump` is not in the source. It records that a jump was patched where there is none,
which happens when `escape` leaves a loop around the function it stands in, or that a `LOOP` was left
without its distance; the bytes that then stand in the wrong place are not followed. -/
structure BytecodeCompiler where
  current : Compiler
  enclosing : List Compiler := []
  compiledFunctions : List CompiledFunction := []
  currentLine : Nat := 0
  currentFile : CString := []
  globalSlots : List (CString × UInt16) := []
  nextGlobalSlot : Nat := 0
  currentEnsuresClauses : List (Clause Expr) := []
  oldCaptures : List (CString × Nat) := []
  compilingModules : List CString := []
  declaredTypes : List CString := []
  loopStack : List LoopContext := []
  compilerIdCounter : Nat := 1
  strayJump : Bool := false

/-- Why a compilation ends: with an error for a line, at the limit of nesting, or by a C++ exception. -/
inductive CompileError where
  | errorAt (message file : CString) (line : Nat)
  | error (message : CString)
  | thrown (exception : Thrown)
  deriving DecidableEq

abbrev CompileM := StateT BytecodeCompiler (Except CompileError)

namespace BytecodeCompiler

/-- What the compiler is given: the arithmetic of the target, whether contracts are checked, and the
modules it finds. `locate` is the path a module is found at, or the error for it, from the file that uses
it and the name it uses; `parse` gives the statements at a path, or the error for them; `hash` is the hash
of a path. -/
structure Host where
  fpu : FloatUnit
  disableContracts : Bool
  locate : CString → CString → Except CString CString
  parse : CString → Except CString (List Stmt)
  hash : CString → Nat

def errorAt {α : Type} (message : CString) : CompileM α := do
  let s ← get
  throw (.errorAt message s.currentFile s.currentLine)

/-- An error where there is more than a byte can count. -/
def checkCount (n : Nat) (message : CString) : CompileM Unit :=
  if n > 255 then errorAt message else return

def getCurrent : CompileM Compiler := do
  return (← get).current

def modifyCurrent (f : Compiler → Compiler) : CompileM Unit :=
  modify fun s => { s with current := f s.current }

/-! ### Emitting -/

/-- `emitOp`, with the bytes of the operands behind it. -/
def emit (op : OpCode) (operands : List Operand) : CompileM Unit :=
  modify fun s =>
    { s with
      current := { s.current with code := s.current.code ++ [{ op, operands, line := s.currentLine }] } }

def emitOp (op : OpCode) : CompileM Unit := emit op []

/-- `currentChunk().code.size()`. -/
def codeSize : CompileM Nat := do
  return (← getCurrent).code.size

def makeConstant (constant : Constant) : CompileM Nat := do
  let (constants, idx) := (← getCurrent).constants.addConstant constant
  modifyCurrent fun c => { c with constants }
  return idx

def identifierConstant (name : CString) : CompileM Nat := makeConstant (.string name)

def emitConstant (constant : Constant) : CompileM Unit := do
  let idx ← makeConstant constant
  if idx > 65535 then errorAt (lit "Too many constants in one chunk (max 65535)")
  emit .LOAD_CONST [.constant idx]

def emitLoadLocal (slot : Nat) : CompileM Unit :=
  if slot ≤ 0xFF then emit .LOAD_LOCAL [.slot slot] else emit .LOAD_LOCAL_W [.wideSlot slot]

def emitStoreLocal (slot : Nat) : CompileM Unit :=
  if slot ≤ 0xFF then emit .STORE_LOCAL [.slot slot] else emit .STORE_LOCAL_W [.wideSlot slot]

/-- The position of the field of the jump is returned. -/
def emitJump (jumpOp : OpCode) : CompileM Nat := do
  emit jumpOp [.jump 0xFFFFFFFF]
  return (← codeSize) - 4

/-- `Chunk::patchJump`. The distance is a `size_t`, so it is too large as well where the position lies
behind the code. -/
def patchJump (offset : Nat) : CompileM Unit := do
  let code := (← getCurrent).code
  if offset + 4 ≤ code.size ∧ code.size - offset - 4 ≤ 0xFFFFFFFF then
    match code.setJump offset (code.size - offset - 4) with
    | some code => modifyCurrent fun c => { c with code }
    | none => modify fun s => { s with strayJump := true }

/-- `Chunk::writeLoop`. -/
def emitLoop (loopStart : Nat) : CompileM Unit := do
  let size := (← codeSize) + 1
  if size < loopStart ∨ size - loopStart + 4 > 0xFFFFFFFF then
    emitOp .LOOP
    modify fun s => { s with strayJump := true }
  else emit .LOOP [.jump (size - loopStart + 4)]

def emitReturn : CompileM Unit := emitOp .RETURN

/-- A new inline cache. -/
def addICEntry : CompileM Nat := do
  let icIdx := (← getCurrent).icEntries
  modifyCurrent fun c => { c with icEntries := c.icEntries + 1 }
  return icIdx

def recordCallSite (name : CString) : CompileM Unit := do
  if name.isEmpty then return
  let offset ← codeSize
  modifyCurrent fun c =>
    { c with callSites := c.callSites ++ [{ offset := UInt32.ofNat offset, name }] }

/-! ### Names -/

/-- The innermost of the local variables of a name. -/
def findLocal (locals : List LocalVariable) (name : CString) : Option Nat :=
  (locals.reverse.findIdx? fun l => l.name == name).map fun i => locals.length - 1 - i

def resolveLocal (name : CString) : CompileM (Option Nat) := do
  return findLocal (← getCurrent).locals name

def tooManyUpvalues : CString := lit "Too many captured variables in one function (max 255)"

/-- `addUpvalue`. -/
def Compiler.addUpvalue (c : Compiler) (index : Nat) (type : UpvalueType) :
    Except CString (Compiler × Nat) :=
  match c.upvalues.findIdx? fun uv => uv.index == index && uv.type == type with
  | some i => .ok (c, i)
  | none =>
      if c.upvalues.length ≥ 255 then .error tooManyUpvalues
      else .ok ({ c with upvalues := c.upvalues ++ [{ type, index }] }, c.upvalues.length)

/-- `resolveUpvalue` in a function and those that enclose it. -/
def resolveUpvalueIn (name : CString) (c : Compiler) :
    List Compiler → Except CString (Compiler × List Compiler × Option Nat)
  | [] => .ok (c, [], none)
  | enclosing :: rest =>
      match findLocal enclosing.locals name with
      | some i => do
          let captured := enclosing.locals.modify i fun l => { l with isCaptured := true }
          let (c, idx) ← Compiler.addUpvalue c i .LOCAL
          return (c, { enclosing with locals := captured } :: rest, some idx)
      | none => do
          let (enclosing, rest, upval) ← resolveUpvalueIn name enclosing rest
          match upval with
          | some upval =>
              let (c, idx) ← Compiler.addUpvalue c upval .UPVALUE
              return (c, enclosing :: rest, some idx)
          | none => return (c, enclosing :: rest, none)

def resolveUpvalue (name : CString) : CompileM (Option Nat) := do
  let s ← get
  match resolveUpvalueIn name s.current s.enclosing with
  | .error message => errorAt message
  | .ok (current, enclosing, idx) =>
      modify fun s => { s with current, enclosing }
      return idx

/-- The mangled name of a static variable of the function or of one that encloses it. -/
def resolveStatic (name : CString) : CompileM (Option CString) := do
  let s ← get
  return (s.current :: s.enclosing).findSome? fun c => lookup c.statics name

def globalSlotFor (name : CString) : CompileM Nat := do
  let s ← get
  match lookup s.globalSlots name with
  | some slot => return slot.toNat
  | none =>
      if s.nextGlobalSlot > 65535 then errorAt (lit "Too many global variables (max 65535)")
      let slot := UInt16.ofNat s.nextGlobalSlot
      modify fun s =>
        { s with
          globalSlots := s.globalSlots ++ [(name, slot)]
          nextGlobalSlot := s.nextGlobalSlot + 1 }
      return slot.toNat

/-! ### Scopes -/

def beginScope : CompileM Unit := modifyCurrent fun c => { c with scopeDepth := c.scopeDepth + 1 }

/-- `addLocal`, with what its caller sets of the new variable. -/
def addLocal (name : CString) (isStackResident : Bool := true) : CompileM Nat := do
  let slot := (← getCurrent).locals.length
  modifyCurrent fun c =>
    { c with
      localVars := c.localVars ++
        [{ name, slot := c.locals.length, startPC := c.code.size, endPC := SIZE_MAX }]
      locals := c.locals ++
        [{ name, depth := c.scopeDepth, isCaptured := false, isStackResident, exported := false,
           localVarInfoIdx := c.localVars.length }]
      maxLocals := max c.maxLocals (c.locals.length + 1) }
  if slot + 1 > 65535 then errorAt (lit "Too many local variables in function (max 65535)")
  return slot

/-- What leaving the scope of a variable emits. -/
def emitCloseLocal (slot : Nat) (l : LocalVariable) : CompileM Unit := do
  if l.isCaptured then emit .CLOSE_UPVALUE [.slot slot]
  if l.isStackResident then emitOp .POP

/-- The loop of `endScope`, over that many variables at most. -/
def closeLocals : Nat → CompileM Unit
  | 0 => return
  | n + 1 => do
      let c ← getCurrent
      match c.locals.getLast? with
      | none => return
      | some l =>
          if l.depth > c.scopeDepth then
            modifyCurrent fun c =>
              { c with
                localVars := c.localVars.modify l.localVarInfoIdx fun info =>
                  { info with endPC := c.code.size } }
            emitCloseLocal (c.locals.length - 1) l
            modifyCurrent fun c => { c with locals := c.locals.dropLast }
            closeLocals n

def endScope : CompileM Unit := do
  modifyCurrent fun c => { c with scopeDepth := c.scopeDepth - 1 }
  closeLocals (← getCurrent).locals.length

/-! ### Loops -/

def startLoop : CompileM Unit :=
  modify fun s =>
    { s with
      loopStack :=
        { start := s.current.code.size, breaks := [], tryDepth := s.current.activeTrys.length,
          scopeDepth := s.current.scopeDepth } :: s.loopStack }

/-- The breaks are patched, and the loop is done. -/
def endLoop : CompileM Unit := do
  let loop := (← get).loopStack.head?
  match loop with
  | none => return
  | some loop =>
      for breakOffset in loop.breaks do patchJump breakOffset
      modify fun s => { s with loopStack := s.loopStack.tail }

end BytecodeCompiler

end EZLanguage
