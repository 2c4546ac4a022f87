import EZLanguage.Support.Resumption
import EZLanguage.VM.Value
import Mathlib.Logic.Function.Basic

/-!
# The state a handler works on

Code is a list of decoded instructions, so `ip` counts instructions and jump offsets are relative to
the instruction after the jump. A frame keeps its own part of the value stack: its local slots and,
above them, its operands with the top first. A local variable that a closure captured lives in a cell
from its capture on, which is what an open upvalue pointing into the frame and the slot it points at
amount to; closing the upvalue gives the frame back a slot of its own.
-/

namespace EZLanguage

/-- The handlers that only compute on their operands: each pops a number of values and pushes its
results or records a fault, which its `RAISE_FAULT` or the next `DISPATCH` then delivers. -/
inductive Primitive where
  | MEMBER_IN
  | MUL | DIV | MOD | POW | NEGATE
  | BIT_AND | BIT_OR | BIT_XOR | BIT_NOT | SHIFT_LEFT | SHIFT_RIGHT
  | EQUAL | NOT_EQUAL | LESS | LESS_EQ | GREATER | GREATER_EQ
  | MAKE_ARRAY (count : Nat) | BUILD_TUPLE (count : Nat) | MAKE_DICT (pairs : Nat)
  | INDEX_GET | INDEX_SET | ARRAY_APPEND | ARRAY_EXTEND
  | GET_ITER | GET_DICT_ITER | ITER_HAS_NEXT
  | CLOCK | TYPE_OF
  | RATELIMIT_CHECK (taskName : CString)
  | MAKE_INTERFACE (name : CString) (methods : Nat)
  | MAKE_CLASS (name : CString) (members interfaces validators : Nat)
  deriving DecidableEq

namespace Primitive

/-- How many operands the handler pops. -/
def operands : Primitive → Nat
  | CLOCK => 0
  | NEGATE | BIT_NOT | GET_ITER | GET_DICT_ITER | ITER_HAS_NEXT | TYPE_OF => 1
  | MEMBER_IN | MUL | DIV | MOD | POW | BIT_AND | BIT_OR | BIT_XOR | SHIFT_LEFT | SHIFT_RIGHT
  | EQUAL | NOT_EQUAL | LESS | LESS_EQ | GREATER | GREATER_EQ | INDEX_GET | ARRAY_APPEND
  | ARRAY_EXTEND => 2
  | INDEX_SET | RATELIMIT_CHECK _ => 3
  | MAKE_ARRAY count | BUILD_TUPLE count => count
  | MAKE_DICT pairs => 2 * pairs
  | MAKE_INTERFACE _ methods => methods
  | MAKE_CLASS _ members interfaces validators => 4 * validators + 3 + interfaces + 4 * members + 1

end Primitive

/-- Decoded instructions. The pushes of fixed values (`LOAD_NIL`, `LOAD_TRUE` and so on) are
`LOAD_CONST` of them, and the wide forms of the local instructions are the narrow ones. -/
inductive Instr where
  | LOAD_CONST (v : Option Value)
  | LOAD_LOCAL (slot : Nat) | STORE_LOCAL (slot : Nat)
  | LOAD_UPVALUE (slot : Nat) | STORE_UPVALUE (slot : Nat)
  | LOAD_GLOBAL (name : CString) | STORE_GLOBAL (name : CString) | HAS_GLOBAL (name : CString)
  | LOAD_GLOBAL_SLOT (slot : Nat) | STORE_GLOBAL_SLOT (slot : Nat)
  | LOOP_LESS_EQ_LOCAL (loopSlot endSlot exitOff : Nat)
  | LOOP_GREATER_EQ_LOCAL (loopSlot endSlot exitOff : Nat)
  | LOAD_PROPERTY (name : CString) (icIdx : Nat)
  | STORE_PROPERTY (name : CString) (icIdx : Nat)
  | INTERCEPTED_STORE_PROPERTY (name : CString) (icIdx : Nat)
  | GET_CACHED_RESULT (methodName : CString) | STORE_CACHED_RESULT (methodName : CString)
  | GET_METHOD (name : CString)
  | INVOKE_METHOD (name : CString) (icIdx argCount : Nat)
  | POP | DUP | DUP2
  | INC_LOCAL (slot : Nat) | DEC_LOCAL (slot : Nat)
  | NEGATE | ADD | SUB | MUL | DIV
  | EQUAL | NOT_EQUAL | LESS | LESS_EQ | GREATER | GREATER_EQ | NOT
  | JUMP (offset : Nat)
  | JUMP_IF_FALSE (offset : Nat) | JUMP_IF_TRUE (offset : Nat)
  | JUMP_IF_NIL (offset : Nat) | JUMP_IF_NOT_NIL (offset : Nat)
  | LOOP (offset : Nat)
  | CALL (argCount : Nat) | CALL_KW (posCount : Nat) | TAIL_CALL (argCount : Nat) | CALL_SPREAD
  | RETURN
  | CLOSURE (nested : Nat) (captures : List (Bool × Nat)) | CLOSE_UPVALUE (slot : Nat)
  | NEW_INSTANCE (className : CString) (argc : Nat) | SUPER
  | SUPER_CALL (method : CString) (argCount : Nat)
  | ITER_NEXT (offset : Nat)
  | TRY_START (offset : Nat) | TRY_END | THROW | FINALLY_START | FINALLY_END
  | TO_STRING | PRINT | PRINT_STR | IS_INSTANCE_OF | OP_AWAIT | BREAKPOINT
  | ADD_LOCAL_LOCAL (dst src : Nat) | SUB_LOCAL_LOCAL (dst src : Nat)
  | INC_LOCAL_BY (dst : Nat) (imm : Int64) | ADD_GLOBAL_LOCAL (globalSlot localSlot : Nat)
  | END
  | primitive (p : Primitive)
  deriving DecidableEq

/-- A `BytecodeFunction` at run time. `MAKE_CLASS` sets `className` and the property instructions fill
`icEntries`. -/
structure FunctionObj where
  name : CString
  className : CString
  paramNames : List CString
  arity : Nat
  isVariadic : Bool
  isAsync : Bool
  isMethod : Bool
  hasCached : Bool
  defaultParamCount : Nat
  localCount : Nat
  code : List Instr
  callSites : List (Nat × CString)
  nestedFunctions : List Nat
  icEntries : List ICCacheEntry

/-- The objects, the global environment and the output. -/
structure Heap where
  next : Nat
  arrays : Nat → List Value
  dicts : Nat → List (CString × Value)
  classes : Nat → Klass
  instances : Nat → Inst
  closures : Nat → Closure
  functions : Nat → FunctionObj
  cells : Nat → Value
  globalVariables : List (CString × Value)
  globalSlots : List Value
  out : List CString

/-- What all frames share: the heap and the fault state. -/
structure Shared extends Heap where
  pendingException : Value
  running : Bool
  cxxFrameDepth : Nat

inductive Slot where
  | value (v : Value)
  | cell (c : Nat)
  deriving DecidableEq

/-- The cells of the variables a closure captured. -/
abbrev ClosureState := List (Option Nat)

/-- `CallFrame`. `closureUpvalues` is no field of it: it remembers for the specification which variables
the called closure had captured, and no code reads it. -/
structure Frame where
  function : Nat
  ip : Nat
  slots : List Slot
  ops : List Value
  superCalled : Bool
  closureUpvalues : ClosureState
  deriving DecidableEq

/-- What a handler sees: the top frame, the closure state beside it and the shared state. -/
structure Local where
  frame : Frame
  upvalues : ClosureState
  shared : Shared

namespace Local

def ops (l : Local) : List Value := l.frame.ops

def withOps (l : Local) (ops : List Value) : Local := { l with frame := { l.frame with ops } }

def push (l : Local) (v : Value) : Local := l.withOps (v :: l.ops)

def withShared (l : Local) (shared : Shared) : Local := { l with shared }

def heap (l : Local) : Heap := l.shared.toHeap

def withHeap (l : Local) (heap : Heap) : Local := { l with shared := { l.shared with toHeap := heap } }

def jump (l : Local) (offset : Nat) : Local :=
  { l with frame := { l.frame with ip := l.frame.ip + offset } }

/-- `ip -= offset`. -/
def jumpBack (l : Local) (offset : Nat) : Local :=
  { l with frame := { l.frame with ip := l.frame.ip - offset } }

/-- `frame->slots[slot]`. -/
def getLocal (l : Local) (slot : Nat) : Value :=
  match l.frame.slots[slot]? with
  | some (.value v) => v
  | some (.cell c) => l.shared.cells c
  | none => .nil

/-- `frame->slots[slot] = v`. -/
def setLocal (l : Local) (slot : Nat) (v : Value) : Local :=
  match l.frame.slots[slot]? with
  | some (.cell c) =>
      { l with shared := { l.shared with cells := Function.update l.shared.cells c v } }
  | _ => { l with frame := { l.frame with slots := l.frame.slots.set slot (.value v) } }

@[simp] theorem withOps_ops (l : Local) (ops : List Value) : (l.withOps ops).ops = ops := rfl

@[simp] theorem withOps_shared (l : Local) (ops : List Value) :
    (l.withOps ops).shared = l.shared := rfl

@[simp] theorem withOps_withOps (l : Local) (ops ops' : List Value) :
    (l.withOps ops).withOps ops' = l.withOps ops' := rfl

@[simp] theorem withOps_withShared (l : Local) (ops : List Value) (s : Shared) :
    (l.withOps ops).withShared s = (l.withShared s).withOps ops := rfl

@[simp] theorem withOps_withHeap (l : Local) (ops : List Value) (h : Heap) :
    (l.withOps ops).withHeap h = (l.withHeap h).withOps ops := rfl

@[simp] theorem push_ops (l : Local) (v : Value) : (l.push v).ops = v :: l.ops := rfl

@[simp] theorem push_shared (l : Local) (v : Value) : (l.push v).shared = l.shared := rfl

/-- The function the frame runs. -/
def function (l : Local) : FunctionObj := l.shared.functions l.frame.function

end Local

/-! ### Code that calls -/

/-- How a builtin ends: with a value, or by a C++ exception of its own. -/
inductive NativeOutcome where
  | value (v : Value)
  | runtimeError (v : Value)
  | stdException (what : CString)

/-- What the VM's C++ code stops for: a `callFunction`, a builtin, or a nested `run` (of a frame it
pushed, or of the frames as they stand). -/
inductive Request where
  | call (l : Local) (callee : Value) (args : List Value)
  | native (l : Local) (id : Nat) (args : List Value)
  | nested (l : Local) (pushed : Option (Frame × ClosureState))

/-- A C++ exception on its way, with the state it was thrown in. -/
abbrev Unwinding := Local × Value

/-- The state as the callee left it, with what it returned. -/
def Reply : Request → Type
  | .call _ _ _ => Except Unwinding (Local × Value)
  | .native _ _ _ => Local × NativeOutcome
  | .nested _ _ => Local × Value

/-- C++ code of the VM, which can throw. -/
abbrev Proc := ExceptT Unwinding (Resumption Request Reply)

namespace Proc

def call (l : Local) (callee : Value) (args : List Value) : Proc (Local × Value) :=
  ExceptT.mk (Resumption.query (Request.call l callee args))

def native (l : Local) (id : Nat) (args : List Value) : Proc (Local × NativeOutcome) :=
  ExceptT.lift (Resumption.query (Request.native l id args))

def nested (l : Local) (pushed : Option (Frame × ClosureState)) : Proc (Local × Value) :=
  ExceptT.lift (Resumption.query (Request.nested l pushed))

end Proc

/-- How a handler ends. -/
inductive Exit where
  /-- `DISPATCH`: the next instruction, unless a fault is recorded. -/
  | dispatch (l : Local)
  /-- `RAISE_FAULT`. -/
  | raiseFault (l : Local)
  /-- A bare `return` from `run`. -/
  | leave (l : Local)
  /-- A frame was pushed, and `DISPATCH` goes on in it. -/
  | pushFrame (l : Local) (frame : Frame) (upvalues : ClosureState)
  | returned (l : Local) (result : Value)
  | thrown (l : Local) (exc : Value)
  | finallyEnd (l : Local)
  | tryStart (l : Local) (catchIp : Nat)
  | tryEnd (l : Local)
  /-- `OP_AWAIT` on a future that is not ready. -/
  | yielded (l : Local)
  /-- `END`. -/
  | ended (l : Local)
  /-- The code reads or writes outside its frame, which compiled code never does. -/
  | malformed

/-! ### The runtime library -/

/-- What a builtin can ask its `RuntimeContext` for. -/
inductive ContextCall where
  | callFunction (h : Heap) (callee : Value) (args : List Value)
  | runtimeError (h : Heap) (exc : Value)

/-- The code of a builtin. It works on the heap and reaches the rest of the VM by context calls. -/
abbrev NativeCode := Resumption ContextCall (fun _ => Heap × Value) (Heap × NativeOutcome)

inductive PrimitiveOutcome where
  | values (vs : List Value) (h : Heap)
  | fault (exc : Value) (h : Heap)
  | cxx (exc : Value) (h : Heap)

inductive FutureState where
  | ready (v : Value)
  | failed (message : CString)
  | waiting

/-- How the wait of a worker thread ends. -/
inductive Awaited where
  | value (v : Value)
  | error (message : CString)

/-- What the VM uses of the runtime: double arithmetic, text conversion, the computation of the
primitive handlers, the builtins, futures and the validators. -/
structure Runtime where
  fadd : UInt64 → UInt64 → UInt64
  fsub : UInt64 → UInt64 → UInt64
  fless : UInt64 → UInt64 → Bool
  ofInt : Int64 → UInt64
  toString : Heap → Value → CString
  printFloat : UInt64 → CString
  stackTrace : Local → CString
  didYouMean : CString → List CString → CString
  primitive : Primitive → List Value → Local → PrimitiveOutcome
  nativeName : Nat → CString
  nativeArity : Nat → Int
  native : Nat → List Value → Heap → NativeCode
  loadFunction : Nat → Nat
  functionName : Nat → CString
  functionParams : Nat → List CString
  compileEZFunction : Nat → Option Nat
  futureState : Nat → Heap → FutureState
  awaited : Nat → Heap → Awaited
  spawn : Value → List Value → Heap → Nat × Heap
  validate : Klass → CString → Value → Option CString
  isWorkerThread : Bool
  maxFrames : Nat
  stackMax : Nat

/-- The runtime of the concrete runs: no builtins, no tasks and no doubles. -/
def Runtime.bare : Runtime where
  fadd x _ := x
  fsub x _ := x
  fless _ _ := false
  ofInt _ := 0
  toString _ v := match v with
    | .string s => s
    | v => v.typeName
  printFloat _ := []
  stackTrace _ := []
  didYouMean _ _ := []
  primitive _ _ l := .fault .nil l.heap
  nativeName _ := []
  nativeArity _ := -1
  native _ _ h := .done (h, .value .nil)
  loadFunction _ := 0
  functionName _ := []
  functionParams _ := []
  compileEZFunction _ := none
  futureState _ _ := .waiting
  awaited _ _ := .value .nil
  spawn _ _ h := (0, h)
  validate _ _ _ := none
  isWorkerThread := false
  maxFrames := 4096
  stackMax := 65536

/-- A function of the concrete runs, with nothing but its code. -/
def FunctionObj.ofCode (name : CString) (code : List Instr) : FunctionObj :=
  { name, className := [], paramNames := [], arity := 0, isVariadic := false, isAsync := false,
    isMethod := false, hasCached := false, defaultParamCount := 0, localCount := 0, code, callSites := [],
    nestedFunctions := [], icEntries := [] }

/-- A class of the concrete runs, with nothing but its methods. -/
def Klass.ofMethods (name : CString) (methods : List (CString × Value)) : Klass :=
  { name, parent := none, interfaces := [], methods, staticMembers := [], visibility := [],
    hasGetattrHook := false, hasSetattrHook := false, behaviors := {}, persists := false }

/-- The heap with the functions and classes of a program and nothing else. -/
def Heap.ofProgram (functions : List FunctionObj) (classes : List Klass) (closures : List Closure) :
    Heap where
  next := 1000
  arrays _ := []
  dicts _ := []
  classes r := (classes[r]?).getD (Klass.ofMethods [] [])
  instances _ := { klass := 0, shape := { root := 0, names := [] }, propertyValues := [] }
  closures r := (closures[r]?).getD { function := 0, upvalues := [] }
  functions r := (functions[r]?).getD (FunctionObj.ofCode [] [])
  cells _ := .nil
  globalVariables := []
  globalSlots := []
  out := []

def Shared.start (heap : Heap) : Shared :=
  { heap with pendingException := .nil, running := true, cxxFrameDepth := 0 }

end EZLanguage
