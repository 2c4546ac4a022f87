import EZLanguage.VM.Arithmetic

/-!
# The other instructions, and the dispatch table

Variables, calls, closures, exceptions and printing, and `exec`, which picks the handler of an
instruction.
-/

namespace EZLanguage

namespace Handler

variable (rt : Runtime) (ctx : Ctx)

/-! ### Variables -/

def LOAD_CONST (v : Option Value) (l : Local) : Exit :=
  match v with
  | some v => .dispatch (l.push v)
  | none => .raiseFault (l.runtimeError (lit "Invalid bytecode: constant index out of range"))

def STORE_LOCAL (slot : Nat) (l : Local) : Exit :=
  match l.ops with
  | [] => .malformed
  | v :: _ => .dispatch (l.setLocal slot v)

/-- The variable an upvalue of the running closure names. -/
def readUpvalue (s : Shared) (upvalues : ClosureState) (slot : Nat) : Value :=
  match upvalues[slot]? with
  | some (some c) => s.cells c
  | _ => .nil

def LOAD_UPVALUE (slot : Nat) (l : Local) : Exit :=
  .dispatch (l.push (readUpvalue l.shared l.upvalues slot))

def writeUpvalue (s : Shared) (upvalues : ClosureState) (slot : Nat) (v : Value) : Shared :=
  match upvalues[slot]? with
  | some (some c) => { s with cells := Function.update s.cells c v }
  | _ => s

def STORE_UPVALUE (slot : Nat) (l : Local) : Exit :=
  match l.ops with
  | [] => .malformed
  | v :: _ => .dispatch (l.withShared (writeUpvalue l.shared l.upvalues slot v))

def LOAD_GLOBAL (name : CString) (l : Local) : Exit :=
  match lookup l.shared.globalVariables name with
  | some v => .dispatch (l.push v)
  | none =>
      .raiseFault (l.runtimeError (lit "Undefined variable '" ++ name ++ lit "'" ++
        rt.didYouMean name (l.shared.globalVariables.map Prod.fst)))

def STORE_GLOBAL (name : CString) (l : Local) : Exit :=
  match l.ops with
  | [] => .malformed
  | v :: _ =>
      .dispatch (l.withShared
        { l.shared with globalVariables := assign l.shared.globalVariables name v })

def STORE_GLOBAL_SLOT (slot : Nat) (l : Local) : Exit :=
  match l.ops with
  | [] => .malformed
  | v :: _ => .dispatch (setGlobalSlot slot l v)

/-- `LOOP_LESS_EQ_LOCAL` and `LOOP_GREATER_EQ_LOCAL`: the loop is left when the counter is past its
end. -/
def loopLocal (past : Int64 → Int64 → Bool) (pastNumber : UInt64 → UInt64 → Bool)
    (loopSlot endSlot exitOff : Nat) (l : Local) : Exit :=
  match l.getLocal loopSlot, l.getLocal endSlot with
  | .int i, .int j => .dispatch (if past i j then l.jump exitOff else l)
  | v, w =>
      if v.isNumber ∧ w.isNumber then
        .dispatch (if pastNumber (asNumber rt v) (asNumber rt w) then l.jump exitOff else l)
      else
        .raiseFault (l.runtimeError
          (lit "repeat loop variable must be numeric, got: " ++ v.typeName))

def LOOP_LESS_EQ_LOCAL : Nat → Nat → Nat → Local → Exit :=
  loopLocal rt (fun i j => j < i) fun a b => rt.fless b a

def LOOP_GREATER_EQ_LOCAL : Nat → Nat → Nat → Local → Exit :=
  loopLocal rt (fun i j => i < j) rt.fless

/-! ### Operands and jumps -/

def POP (l : Local) : Exit :=
  match l.ops with
  | [] => .malformed
  | _ :: rest => .dispatch (l.withOps rest)

def DUP (l : Local) : Exit :=
  match l.ops with
  | [] => .malformed
  | v :: _ => .dispatch (l.push v)

def DUP2 (l : Local) : Exit :=
  match l.ops with
  | b :: a :: _ => .dispatch ((l.push a).push b)
  | _ => .malformed

def NOT (l : Local) : Exit :=
  match l.ops with
  | [] => .malformed
  | v :: rest => .dispatch ((l.withOps rest).push (.bool !v.isTruthy))

/-- The conditional jumps. -/
def jumpIf (taken : Value → Bool) (offset : Nat) (l : Local) : Exit :=
  match l.ops with
  | [] => .malformed
  | v :: rest =>
      .dispatch (if taken v then (l.withOps rest).jump offset else l.withOps rest)

def JUMP_IF_FALSE : Nat → Local → Exit := jumpIf fun v => !v.isTruthy

def JUMP_IF_TRUE : Nat → Local → Exit := jumpIf Value.isTruthy

def JUMP_IF_NIL : Nat → Local → Exit := jumpIf Value.isNil

def JUMP_IF_NOT_NIL : Nat → Local → Exit := jumpIf fun v => !v.isNil

/-! ### Calls -/

/-- Whether a call of the builtin `str` goes to the `toString` of its argument. -/
def isStrOfInstance (l : Local) (callee : Value) (args : List Value) : Bool :=
  match callee, args with
  | .nativeFunction id, [.inst r] =>
      rt.nativeName id == lit "str" && (l.shared.getProperty r (lit "toString")).isCallable
  | _, _ => false

def CALL (argCount : Nat) (l : Local) : Proc Exit :=
  let args := l.ops.take argCount
  match l.ops.drop argCount with
  | [] => return .malformed
  | callee :: rest =>
      if isStrOfInstance rt l callee args then do
        let text ← stringify rt l (args.headD .nil)
        return .dispatch ((text.1.withOps (text.1.ops.drop 2)).push (.string text.2))
      else
        match overload l (lit "__call__") callee with
        | some bound => callAndRefresh rt ctx (l.withOps (args ++ bound :: rest)) bound argCount
        | none => callAndRefresh rt ctx l callee argCount

/-- The function whose parameters the keywords of a call name, and whether its first parameter can be
the receiver. -/
def keywordTarget (l : Local) : Value → Value × Bool
  | .klass k => ((lookup (l.shared.classes k).methods (lit "init")).getD .nil, true)
  | .boundMethod _ method => (method, true)
  | .super _ k => ((lookup (l.shared.classes k).methods (lit "init")).getD .nil, true)
  | target => (target, false)

/-- The parameters the caller of `CALL_KW` can name. -/
def callerParams (l : Local) (callee : Value) : List CString :=
  let target := keywordTarget l callee
  let paramNames := match target.1 with
    | .function r => rt.functionParams r
    | .closure r => (l.shared.functions (l.shared.closures r).function).paramNames
    | _ => []
  if target.2 ∧ paramNames.head? = some (lit "self") then paramNames.drop 1 else paramNames

/-- The arguments for a list of parameters: the positional ones first, then the keywords, which are
taken out of the dictionary. -/
def bindKeywords : List CString → List Value → List (CString × Value) →
    List Value × List (CString × Value)
  | [], _, kwargs => ([], kwargs)
  | _ :: params, arg :: posArgs, kwargs =>
      let bound := bindKeywords params posArgs kwargs
      (arg :: bound.1, bound.2)
  | param :: params, [], kwargs =>
      let bound := bindKeywords params [] (kwargs.filter fun entry => entry.1 != param)
      ((lookup kwargs param).getD .nil :: bound.1, bound.2)

def CALL_KW (posCount : Nat) (l : Local) : Proc Exit :=
  match l.ops with
  | .dictionary d :: ops =>
      let posArgs := ops.take posCount
      match ops.drop posCount with
      | [] => return .malformed
      | .nativeFunction id :: _ =>
          callAndRefresh rt ctx l (.nativeFunction id) ((posCount + 1) % 256)
      | callee :: rest =>
          let params := callerParams rt l callee
          let l := l.withOps ops
          if posCount < params.length then
            let bound := bindKeywords params posArgs.reverse (l.shared.dicts d)
            let l := (l.withShared
              { l.shared with dicts := Function.update l.shared.dicts d bound.2 }).withOps
              (bound.1.reverse ++ callee :: rest)
            match bound.2.head? with
            | some (unexpected, _) =>
                if unexpected.isEmpty then
                  callAndRefresh rt ctx l callee (params.length % 256)
                else
                  return .raiseFault (l.runtimeError
                    (lit "Unexpected keyword argument '" ++ unexpected ++ lit "'"))
            | none => callAndRefresh rt ctx l callee (params.length % 256)
          else if (l.shared.dicts d).isEmpty then callAndRefresh rt ctx l callee posCount
          else return .raiseFault (l.runtimeError (lit "Unexpected keyword argument"))
  | _ => return .malformed

/-- `closeUpvalues`: the captured slots from `slot` on get values of their own again. -/
def closeUpvalues (l : Local) (slot : Nat) : Local :=
  let close := fun p : Slot × Nat =>
    match p.1 with
    | .cell c => if slot ≤ p.2 then Slot.value (l.shared.cells c) else .cell c
    | s => s
  { l with frame := { l.frame with slots := l.frame.slots.zipIdx.map close } }

/-- The frame of a self tail call: the arguments in the first slots and nil in the others. Arguments
past the last slot are lost. -/
def restartFrame (l : Local) (args : List Value) : Frame :=
  let padded := args ++ List.replicate (l.function.localCount - args.length) Value.nil
  { l.frame with
    ip := 0
    slots := (padded.take l.function.localCount).map Slot.value
    ops := [] }

def TAIL_CALL (argCount : Nat) (l : Local) : Proc Exit :=
  let args := (l.ops.take argCount).reverse
  match l.ops.drop argCount with
  | [] => return .malformed
  | .closure r :: _ =>
      let closure := l.shared.closures r
      if closure.function = l.frame.function then
        let frame := { restartFrame l args with closureUpvalues := closure.upvalues }
        return .dispatch { l with frame, upvalues := closure.upvalues }
      else callAndRefresh rt ctx l (.closure r) argCount
  | .function r :: _ =>
      if rt.compileEZFunction r = some l.frame.function then
        return .dispatch { l with frame := restartFrame l args }
      else callAndRefresh rt ctx l (.function r) argCount
  | callee :: _ => callAndRefresh rt ctx l callee argCount

/-- The argument count is a byte, so it wraps. -/
def CALL_SPREAD (l : Local) : Proc Exit :=
  match l.ops with
  | .array r :: callee :: rest =>
      let args := l.shared.arrays r
      callAndRefresh rt ctx (l.withOps (args.reverse ++ callee :: rest)) callee (args.length % 256)
  | _ :: callee :: rest =>
      return .raiseFault ((l.withOps (callee :: rest)).runtimeError
        (lit "CALL_SPREAD requires an array of arguments"))
  | _ => return .malformed

def RETURN (l : Local) : Exit :=
  match l.ops with
  | [] => .malformed
  | result :: rest => .returned (l.withOps rest) result

/-! ### Closures -/

/-- `captureUpvalue` of a slot of the running frame. -/
def captureUpvalue (l : Local) (slot : Nat) : Option (Local × Option Nat) :=
  match l.frame.slots[slot]? with
  | none => none
  | some (.cell c) => some (l, some c)
  | some (.value v) =>
      let made := l.shared.newCell v
      let frame := { l.frame with slots := l.frame.slots.set slot (.cell made.1) }
      some ({ l with frame, shared := made.2 }, some made.1)

/-- The variables a new closure captures, in order. -/
def captureAll : List (Bool × Nat) → Local → Option (Local × ClosureState)
  | [], l => some (l, [])
  | (isLocal, index) :: captures, l =>
      (if isLocal then captureUpvalue l index else l.upvalues[index]?.map fun c => (l, c)).bind
        fun first => (captureAll captures first.1).map fun rest => (rest.1, first.2 :: rest.2)

def CLOSURE (nested : Nat) (captures : List (Bool × Nat)) (l : Local) : Exit :=
  match l.function.nestedFunctions[nested]?, captureAll captures l with
  | some function, some (l, upvalues) =>
      let made := l.shared.newClosure function upvalues
      .dispatch ((l.withShared made.2).push (.closure made.1))
  | _, _ => .malformed

/-! ### Models -/

def NEW_INSTANCE (className : CString) (argc : Nat) (l : Local) : Proc Exit :=
  match l.shared.getGlobal className with
  | .klass k => do
      let made ← instantiate (l.withOps (l.ops.drop argc)) k (l.ops.take argc).reverse
      return .dispatch (made.1.push made.2)
  | _ => return .leave (l.runtimeError (lit "'" ++ className ++ lit "' is not a model"))

def SUPER (l : Local) : Exit :=
  match l.ops with
  | .klass k :: .inst r :: rest => .dispatch ((l.withOps rest).push (.super r k))
  | _ :: _ :: rest =>
      .leave ((l.withOps rest).runtimeError (lit "'super' must be used with model instance"))
  | _ => .malformed

/-- The bound method takes the place of the receiver. -/
def SUPER_CALL (method : CString) (argCount : Nat) (l : Local) : Proc Exit :=
  match l.ops with
  | .super instRef parentKlass :: ops =>
      let m := l.shared.chainMethod parentKlass method
      let l := l.withOps ops
      if m.isNil then
        return .leave (l.throwException (lit "AttributeError")
          (lit "the parent model has no method '" ++ method ++ lit "'"))
      else
        let bound := Value.boundMethod (.inst instRef) m
        callAndReturn rt ctx (l.withOps (ops.take argCount ++ bound :: ops.drop argCount)) m
          ((argCount + 1) % 256)
  | _ :: ops => return .leave ((l.withOps ops).runtimeError (lit "SUPER_CALL expects super object"))
  | [] => return .malformed

/-- Whether a class is named `className` or implements an interface of that name, or one of its
ancestors does. -/
def derivesFrom (s : Shared) (k : Nat) (className : CString) : Bool :=
  (s.ancestors k).any fun c =>
    (s.classes c).name == className || (s.classes c).interfaces.contains className

def isInstanceOf (s : Shared) (v : Value) (className : CString) : Bool :=
  if className = lit "Number" then v.isNumber
  else if className = lit "Boolean" then v.typeName == lit "bool"
  else if className = lit "Integer" then v.typeName == lit "integer"
  else if className = lit "Float" then v.typeName == lit "float"
  else if className = lit "String" then v.isString
  else if className = lit "Array" then v.typeName == lit "array"
  else if className = lit "Dictionary" then v.typeName == lit "dictionary"
  else if className = lit "Function" then v.typeName == lit "function"
  else if className = lit "Nil" then v.isNil
  else
    match v with
    | .inst r => derivesFrom s (s.instances r).klass className
    | .klass k => derivesFrom s k className
    | _ => false

def IS_INSTANCE_OF (l : Local) : Exit :=
  match l.ops with
  | className :: v :: rest =>
      .dispatch ((l.withOps rest).push
        (.bool (isInstanceOf l.shared v (rt.toString l.heap className))))
  | _ => .malformed

/-! ### Iteration -/

/-- The element of an iterator at an index. -/
def iterElement (s : Shared) (data : Value) (idx : Int64) : Option Value :=
  match data with
  | .array r => if 0 ≤ idx.toInt then (s.arrays r)[idx.toInt.toNat]? else none
  | .string bytes => (bytes[idx.toInt.toNat]?).map fun b => .string [b]
  | _ => none

/-- The iterator is an array of the data and the index, which `GET_ITER` made. -/
def ITER_NEXT (offset : Nat) (l : Local) : Exit :=
  match l.ops with
  | .array r :: rest =>
      match l.shared.arrays r with
      | data :: .int idx :: _ =>
          match iterElement l.shared data idx with
          | none => .dispatch ((l.withOps rest).jump offset)
          | some next =>
              let arrays := Function.update l.shared.arrays r
                ((l.shared.arrays r).set 1 (.int (idx + 1)))
              .dispatch ((l.withShared { l.shared with arrays }).withOps (next :: rest))
      | _ => .malformed
  | _ => .malformed

/-! ### Exceptions -/

/-- A thrown dictionary gets the stack trace it asks for. -/
def THROW (l : Local) : Exit :=
  match l.ops with
  | [] => .malformed
  | .dictionary r :: rest =>
      let l := l.withOps rest
      if (lookup (l.shared.dicts r) (lit "stackTrace")).isSome then
        .thrown (storeKey l r (lit "stackTrace") (.string (rt.stackTrace l))) (.dictionary r)
      else .thrown l (.dictionary r)
  | exc :: rest => .thrown (l.withOps rest) exc

def OP_AWAIT (l : Local) : Exit :=
  match l.ops with
  | [] => .malformed
  | .future f :: rest =>
      match rt.futureState f l.heap with
      | .ready v => .dispatch (l.withOps (v :: rest))
      | .failed message => .raiseFault (l.throwException (lit "Exception") message)
      | .waiting =>
          if 0 < l.shared.cxxFrameDepth then
            .raiseFault (l.throwException (lit "RuntimeError")
              (lit "Cannot await inside a native callback (e.g. map, filter)"))
          else if rt.isWorkerThread then
            match rt.awaited f l.heap with
            | .value v => .dispatch (l.withOps (v :: rest))
            | .error message => .raiseFault (l.throwException (lit "Exception") message)
          else .yielded l
  | _ => .dispatch l

/-! ### Printing -/

def print (l : Local) (text : CString) : Local :=
  l.withShared { l.shared with out := l.shared.out ++ [text ++ lit "\n"] }

def TO_STRING (l : Local) : Proc Exit :=
  match l.ops with
  | [] => return .malformed
  | v :: _ => do
      let text ← stringify rt l v
      return .dispatch (text.1.withOps (.string text.2 :: text.1.ops.drop 1))

def PRINT_STR (l : Local) : Proc Exit :=
  match l.ops with
  | [] => return .malformed
  | .float bits :: rest => return .dispatch (print (l.withOps rest) (rt.printFloat bits))
  | v :: rest => do
      let text ← stringify rt (l.withOps rest) v
      return .dispatch (print text.1 text.2)

/-- `PRINT` takes the top of the stack for the text when `dispatchCall` pushed a frame, which is a slot
of that frame. The compiler never emits it. -/
def printCalled : Dispatched → Exit
  | .pushed _ _ _ => .malformed
  | .value l v | .queued l v => .dispatch (print l (rt.toString l.heap v))
  | .limit l | .refused l =>
      .dispatch (print (l.withOps (l.ops.drop 1)) (rt.toString l.heap (l.ops.headD .nil)))

def PRINT (l : Local) : Proc Exit :=
  match l.ops with
  | [] => return .malformed
  | v :: rest =>
      match overload l (lit "toString") v with
      | some bound => do
          let isField := match v with
            | .inst r => l.shared.hasProperty r (lit "toString")
            | _ => false
          let callee := match bound with
            | .boundMethod _ method => if isField then method else bound
            | callee => callee
          let called ← dispatchCall rt ctx callee (l.withOps (callee :: rest)) 0 none
          return printCalled rt called
      | none => return .dispatch (print (l.withOps rest) (rt.toString l.heap v))

/-! ### The dispatch table -/

/-- The handler of an instruction, on the state with `ip` past it. -/
def exec (i : Instr) (l : Local) : Proc Exit :=
  match i with
  | .LOAD_CONST v => return LOAD_CONST v l
  | .LOAD_LOCAL slot => return .dispatch (l.push (l.getLocal slot))
  | .STORE_LOCAL slot => return STORE_LOCAL slot l
  | .LOAD_UPVALUE slot => return LOAD_UPVALUE slot l
  | .STORE_UPVALUE slot => return STORE_UPVALUE slot l
  | .LOAD_GLOBAL name => return LOAD_GLOBAL rt name l
  | .STORE_GLOBAL name => return STORE_GLOBAL name l
  | .HAS_GLOBAL name =>
      return .dispatch (l.push (.bool (lookup l.shared.globalVariables name).isSome))
  | .LOAD_GLOBAL_SLOT slot => return .dispatch (l.push ((l.shared.globalSlots[slot]?).getD .nil))
  | .STORE_GLOBAL_SLOT slot => return STORE_GLOBAL_SLOT slot l
  | .LOOP_LESS_EQ_LOCAL i j offset => return LOOP_LESS_EQ_LOCAL rt i j offset l
  | .LOOP_GREATER_EQ_LOCAL i j offset => return LOOP_GREATER_EQ_LOCAL rt i j offset l
  | .LOAD_PROPERTY name ic => LOAD_PROPERTY rt ctx name ic l
  | .STORE_PROPERTY name ic => STORE_PROPERTY rt ctx name ic l
  | .INTERCEPTED_STORE_PROPERTY name ic => INTERCEPTED_STORE_PROPERTY rt ctx name ic l
  | .GET_CACHED_RESULT methodName => return GET_CACHED_RESULT rt methodName l
  | .STORE_CACHED_RESULT methodName => return STORE_CACHED_RESULT rt methodName l
  | .GET_METHOD name => return GET_METHOD name l
  | .INVOKE_METHOD name ic argCount => INVOKE_METHOD rt ctx name ic argCount l
  | .POP => return POP l
  | .DUP => return DUP l
  | .DUP2 => return DUP2 l
  | .INC_LOCAL slot => INC_LOCAL rt slot l
  | .DEC_LOCAL slot => DEC_LOCAL rt slot l
  | .NEGATE => NEGATE rt ctx l
  | .ADD => ADD rt ctx l
  | .SUB => SUB rt ctx l
  | .MUL => MUL rt ctx l
  | .DIV => DIV rt ctx l
  | .EQUAL => EQUAL rt ctx l
  | .NOT_EQUAL => NOT_EQUAL rt ctx l
  | .LESS => LESS rt ctx l
  | .LESS_EQ => LESS_EQ rt ctx l
  | .GREATER => GREATER rt ctx l
  | .GREATER_EQ => GREATER_EQ rt ctx l
  | .NOT => return NOT l
  | .JUMP offset => return .dispatch (l.jump offset)
  | .JUMP_IF_FALSE offset => return JUMP_IF_FALSE offset l
  | .JUMP_IF_TRUE offset => return JUMP_IF_TRUE offset l
  | .JUMP_IF_NIL offset => return JUMP_IF_NIL offset l
  | .JUMP_IF_NOT_NIL offset => return JUMP_IF_NOT_NIL offset l
  | .LOOP offset => return .dispatch (l.jumpBack offset)
  | .CALL argCount => CALL rt ctx argCount l
  | .CALL_KW posCount => CALL_KW rt ctx posCount l
  | .TAIL_CALL argCount => TAIL_CALL rt ctx argCount l
  | .CALL_SPREAD => CALL_SPREAD rt ctx l
  | .RETURN => return RETURN l
  | .CLOSURE nested captures => return CLOSURE nested captures l
  | .CLOSE_UPVALUE slot => return .dispatch (closeUpvalues l slot)
  | .NEW_INSTANCE className argc => NEW_INSTANCE className argc l
  | .SUPER => return SUPER l
  | .SUPER_CALL method argCount => SUPER_CALL rt ctx method argCount l
  | .ITER_NEXT offset => return ITER_NEXT offset l
  | .TRY_START offset => return .tryStart l (l.frame.ip + offset)
  | .TRY_END => return .tryEnd l
  | .THROW => return THROW rt l
  | .FINALLY_START => return .dispatch l
  | .FINALLY_END => return .finallyEnd l
  | .TO_STRING => TO_STRING rt l
  | .PRINT => PRINT rt ctx l
  | .PRINT_STR => PRINT_STR rt l
  | .IS_INSTANCE_OF => return IS_INSTANCE_OF rt l
  | .OP_AWAIT => return OP_AWAIT rt l
  | .BREAKPOINT => return .dispatch l
  | .ADD_LOCAL_LOCAL dst src => ADD_LOCAL_LOCAL rt dst src l
  | .SUB_LOCAL_LOCAL dst src => SUB_LOCAL_LOCAL rt dst src l
  | .INC_LOCAL_BY dst imm => INC_LOCAL_BY rt dst imm l
  | .ADD_GLOBAL_LOCAL globalSlot localSlot => ADD_GLOBAL_LOCAL rt globalSlot localSlot l
  | .END => return .ended l
  | .primitive p => primitive rt p l

/-! ### Bare returns -/

def shapeHit (l : Local) (r icIdx : Nat) : Bool :=
  (l.icEntry icIdx).shape == some (l.shared.instances r).shape

def classHit (l : Local) (r icIdx : Nat) : Bool :=
  (l.icEntry icIdx).klass == some (l.shared.instances r).klass

/-- Whether a handler records a fault of its own and leaves `run` by a bare `return`. -/
def returningFault (i : Instr) (l : Local) : Bool :=
  let hiddenOn := fun r name => l.hidden (l.shared.instances r).klass name
  match i, l.ops with
  | .LOAD_PROPERTY name ic, .inst r :: _ =>
      !shapeHit l r ic && !classHit l r ic && hiddenOn r name
  | .LOAD_PROPERTY name _, .klass k :: _ => l.hidden k name
  | .STORE_PROPERTY name ic, _ :: .inst r :: _ =>
      !(l.shared.findSetattrHook r name).isCallable && !shapeHit l r ic && hiddenOn r name
  | .INTERCEPTED_STORE_PROPERTY name _, value :: .inst r :: _ =>
      let klass := l.shared.classes (l.shared.instances r).klass
      !(l.shared.findSetattrHook r name).isCallable && hiddenOn r name &&
        (!klass.behaviors.any || (failedValidation rt klass name value).isNone)
  | .STORE_PROPERTY name _, _ :: .klass k :: _ => l.hidden k name
  | .INTERCEPTED_STORE_PROPERTY name _, _ :: .klass k :: _ => l.hidden k name
  | .GET_METHOD name, .inst r :: _ => hiddenOn r name
  | .GET_METHOD _, _ :: _ => true
  | .INVOKE_METHOD name ic argCount, ops =>
      match ops.drop argCount with
      | .inst r :: _ => !classHit l r ic && hiddenOn r name
      | .klass k :: _ => l.hidden k name
      | _ => false
  | .NEW_INSTANCE className _, _ =>
      match l.shared.getGlobal className with
      | .klass _ => false
      | _ => true
  | .SUPER, .klass _ :: .inst _ :: _ => false
  | .SUPER, _ :: _ :: _ => true
  | .SUPER_CALL method _, .super _ k :: _ => (l.shared.chainMethod k method).isNil
  | .SUPER_CALL _ _, _ :: _ => true
  | _, _ => false

/-- The operator an instruction computes, where the left operand can overload it. -/
def binaryOperator : Instr → Option String
  | .ADD => some "+"
  | .SUB => some "-"
  | .MUL => some "*"
  | .DIV => some "/"
  | .EQUAL => some "=="
  | .NOT_EQUAL => some "!="
  | .LESS => some "<"
  | .LESS_EQ => some "<="
  | .GREATER => some ">"
  | .GREATER_EQ => some ">="
  | _ => none

/-- The hook or overload that a handler calls by `if (!dispatchCall(..)) return;`, below the operands it
calls it on and with the number of arguments. -/
def returningCall (i : Instr) (l : Local) : Option (List Value × Value × Nat) :=
  match i, l.ops with
  | .LOAD_PROPERTY name ic, .inst r :: rest =>
      let hook := l.shared.findGetattrHook (.inst r) name
      if !shapeHit l r ic && !classHit l r ic && !l.hidden (l.shared.instances r).klass name &&
          (l.shared.getProperty r name).isNil && !l.shared.hasProperty r name && hook.isCallable then
        some (.string name :: .boundMethod (.inst r) hook :: rest, .boundMethod (.inst r) hook, 1)
      else none
  | .LOAD_PROPERTY name _, .klass k :: rest =>
      let klass := l.shared.classes k
      let hook := l.shared.findGetattrHook (.klass k) name
      if !l.hidden k name && !(name == lit "load" && klass.persists) &&
          (lookup klass.staticMembers name).isNone && (lookup klass.methods name).isNone &&
          name != lit "name" && hook.isCallable then
        some (.string name :: .klass k :: hook :: rest, hook, 2)
      else none
  | .STORE_PROPERTY name _, value :: .inst r :: rest
  | .INTERCEPTED_STORE_PROPERTY name _, value :: .inst r :: rest =>
      let hook := l.shared.findSetattrHook r name
      if hook.isCallable then
        some (value :: .string name :: .boundMethod (.inst r) hook :: rest,
          .boundMethod (.inst r) hook, 2)
      else none
  | .SUPER_CALL method argCount, .super instRef k :: ops =>
      let m := l.shared.chainMethod k method
      if m.isNil then none
      else
        some (ops.take argCount ++ .boundMethod (.inst instRef) m :: ops.drop argCount, m,
          (argCount + 1) % 256)
  | .NEGATE, a :: rest =>
      (overload l (lit "neg") a).map fun bound => (bound :: rest, bound, 0)
  | i, b :: a :: rest =>
      (binaryOperator i).bind fun op =>
        (overload l (lit op) a).map fun bound => (b :: bound :: rest, bound, 1)
  | _, _ => none

end Handler

end EZLanguage
