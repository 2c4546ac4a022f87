import EZLanguage.VM.Object

/-!
# Calls

`dispatchCall`, which starts a call from the operands, and `callFunction`, which runs one to its end
from C++ code. A frame that is pushed takes its arguments off the caller's operands and leaves the
callee there, in the place the result goes to.
-/

namespace EZLanguage

/-- The numbers of the VM a handler reads: the frames there are and the height of the value stack
below the operands of the top one. -/
structure Ctx where
  frameCount : Nat
  stackBelow : Nat

def decimal (n : Nat) : CString := lit (toString n)

def STACK_HEADROOM : Nat := 1024

/-- How `dispatchCall` ends. The first three return true. -/
inductive Dispatched where
  /-- A frame was pushed. -/
  | pushed (l : Local) (frame : Frame) (upvalues : ClosureState)
  /-- The call is over, callee and arguments are popped, and this is its result. -/
  | value (l : Local) (v : Value)
  /-- `pushCallFrame` refused the frame and recorded why. -/
  | limit (l : Local)
  /-- The call was queued as an asynchronous task; its future is the result, and false is returned. -/
  | queued (l : Local) (v : Value)
  /-- A fault was recorded and false returned. -/
  | refused (l : Local)

namespace FunctionObj

def minArity (f : FunctionObj) : Nat := f.arity - f.defaultParamCount

/-- The parameter list as the arity errors print it. -/
def signature (f : FunctionObj) : CString :=
  let start := if f.isMethod then 1 else 0
  let shown := (f.paramNames.zipIdx.drop start).map fun p =>
    if p.2 ≥ f.minArity then p.1 ++ lit " = ..." else p.1
  f.name ++ lit "(" ++ List.intercalate (lit ", ") shown ++ lit ")"

def arityError (f : FunctionObj) (verb : String) (bound got : Nat) : CString :=
  let reported := fun n => if f.isMethod then n - 1 else n
  lit "'" ++ f.name ++ lit verb ++ decimal (reported bound) ++
    lit (if reported bound = 1 then " argument" else " arguments") ++ lit ", got " ++
    decimal (reported got) ++
    if f.paramNames.isEmpty then [] else lit "\n  Signature: " ++ f.signature

/-- Whether the arity check of `dispatchCall` accepts a number of arguments. -/
def accepts (f : FunctionObj) (argCount : Nat) : Bool :=
  f.isVariadic || (f.minArity ≤ argCount && argCount ≤ f.arity)

end FunctionObj

/-- `instantiate`: the new object, after its constructor ran to its end. -/
def instantiate (l : Local) (klass : Nat) (args : List Value) : Proc (Local × Value) :=
  let made := l.shared.newInstance klass
  let l := l.withShared made.2
  match l.shared.chainMethod klass (lit "init") with
  | .nil => return (l, .inst made.1)
  | init => do
      let ended ← Proc.call l init (.inst made.1 :: args)
      return (ended.1, .inst made.1)

/-- `pushCallFrame`, for a callee whose arguments are off the operands already. -/
def pushCallFrame (rt : Runtime) (ctx : Ctx) (l : Local) (bcFunc : Nat) (args : List Value)
    (upvalues : ClosureState) : Dispatched :=
  let f := l.shared.functions bcFunc
  if ctx.frameCount ≥ rt.maxFrames then
    .limit (l.throwException (lit "RecursionError")
      (lit "maximum call depth of " ++ decimal rt.maxFrames ++ lit " exceeded" ++
        lit "\n  Hint: usually a recursive task with no base case, or one whose" ++
        lit "\n  base case is never reached."))
  else if rt.stackMax < ctx.stackBelow + l.ops.length + args.length + f.localCount + STACK_HEADROOM
  then .limit (l.runtimeError (lit "Stack overflow: operand stack exhausted"))
  else
    let padded := args ++ List.replicate (max f.arity f.localCount - args.length) Value.nil
    .pushed l
      { function := bcFunc, ip := 0, slots := padded.map Slot.value, ops := [],
        superCalled := false, closureUpvalues := upvalues }
      upvalues

/-- The arguments of a variadic call with the ones past the fixed parameters packed into an array. -/
def packRest (l : Local) (f : FunctionObj) (args : List Value) : Local × List Value :=
  let restIndex := f.arity - 1
  let made := l.shared.newArray (if args.length ≥ f.arity then args.drop restIndex else [])
  let fixed := args.take restIndex
  (l.withShared made.2,
    fixed ++ List.replicate (restIndex - fixed.length) Value.nil ++ [.array made.1])

/-- The part of `dispatchCall` for compiled functions. -/
def dispatchFunction (rt : Runtime) (ctx : Ctx) (l : Local) (callee : Value) (bcFunc : Nat)
    (upvalues : ClosureState) (argCount : Nat) (bypassAsyncCheck : Bool) : Dispatched :=
  let f := l.shared.functions bcFunc
  let args := (l.ops.take argCount).reverse
  let below := l.withOps (l.ops.drop argCount)
  if ¬f.accepts argCount then
    if argCount < f.minArity then
      .refused (l.throwException (lit "TypeError") (f.arityError "' needs " f.minArity argCount))
    else
      .refused (l.throwException (lit "TypeError") (f.arityError "' takes at most " f.arity argCount))
  else
    let packed := if f.isVariadic then packRest below f args else (below, args)
    if f.isAsync ∧ ¬bypassAsyncCheck then
      let made := rt.spawn callee packed.2 packed.1.heap
      .queued ((packed.1.withOps (packed.1.ops.drop 1)).withHeap made.2) (.future made.1)
    else pushCallFrame rt ctx packed.1 bcFunc packed.2 upvalues

/-- The error of `dispatchCall` for a value that cannot be called, by the name the source calls. -/
def notCallable (l : Local) (callee : Value) (callSite : Option Nat) : CString :=
  match callSite.bind fun ip => (l.function.callSites.find? fun cs => cs.1 == ip).map Prod.snd with
  | none => lit "cannot call a " ++ callee.typeName ++ lit " value"
  | some what =>
      if callee.isNil then
        lit "'" ++ what ++ lit "' is nil, so it cannot be called" ++
          if what.contains 46 then
            lit "\n  Hint: check the spelling, and that the object has that method."
          else
            lit "\n  Hint: '" ++ what ++
              lit "' is not defined, or was assigned a non-function value that replaced it."
      else lit "'" ++ what ++ lit "' is a " ++ callee.typeName ++ lit ", not a function"

/-- What `dispatchCall` makes of the end of a builtin. -/
def nativeEnd (argCount : Nat) (l : Local) : NativeOutcome → Dispatched
  | .value v =>
      if l.shared.pendingException.isNil then .value (l.withOps (l.ops.drop (argCount + 1))) v
      else .refused l
  | .runtimeError v => .refused (l.withShared (l.shared.recordFault v))
  | .stdException what => .refused (l.runtimeError (lit "Native function error: " ++ what))

/-- `dispatchCall` of every callee but a super value, which no bound method holds. -/
def dispatchCallee (rt : Runtime) (ctx : Ctx) :
    Value → Local → Nat → Option Nat → Proc Dispatched
  | .nativeFunction id, l, argCount, _ =>
      if 0 ≤ rt.nativeArity id ∧ (argCount : Int) < rt.nativeArity id then
        return .refused (l.runtimeError (rt.nativeName id ++ lit "() expected " ++
          decimal (rt.nativeArity id).toNat ++ lit " argument(s), got " ++ decimal argCount))
      else do
        let ended ← Proc.native l id (l.ops.take argCount).reverse
        return nativeEnd argCount ended.1 ended.2
  | .boundMethod receiver method, l, argCount, _ =>
      if 255 ≤ argCount then
        return .refused (l.runtimeError (lit "Too many arguments to method call (max 254)"))
      else
        let ops := l.ops.take argCount ++ receiver :: method :: l.ops.drop (argCount + 1)
        dispatchCallee rt ctx method (l.withOps ops) (argCount + 1) none
  | .closure r, l, argCount, _ =>
      let closure := l.shared.closures r
      return dispatchFunction rt ctx l (.closure r) closure.function closure.upvalues argCount false
  | .function r, l, argCount, _ =>
      match rt.compileEZFunction r with
      | none => return .refused (l.runtimeError (lit "Function compilation failed"))
      | some bcFunc => return dispatchFunction rt ctx l (.function r) bcFunc [] argCount false
  | .klass r, l, argCount, _ => do
      let made ← instantiate l r (l.ops.take argCount).reverse
      return .value (made.1.withOps (made.1.ops.drop (argCount + 1))) made.2
  | callee, l, _, callSite =>
      return .refused (l.throwException (lit "TypeError") (notCallable l callee callSite))

/-- `dispatchCall`. The operands hold the arguments, the last on top, over the callee. The argument
count is a byte, so `argCount` is at most 255. -/
def dispatchCall (rt : Runtime) (ctx : Ctx) (callee : Value) (l : Local) (argCount : Nat)
    (callSite : Option Nat) : Proc Dispatched :=
  match callee with
  | .super instRef parentKlass =>
      match lookup (l.shared.classes parentKlass).methods (lit "init") with
      | none | some .nil =>
          return .refused (l.runtimeError (lit "Parent has no 'init' method for super(...) call"))
      | some method =>
          if l.frame.superCalled then
            return .refused (l.runtimeError (lit "super() has already been called"))
          else
            let l := { l with frame := { l.frame with superCalled := true } }
            let bound := Value.boundMethod (.inst instRef) method
            dispatchCallee rt ctx bound
              (l.withOps (l.ops.take argCount ++ bound :: l.ops.drop (argCount + 1))) argCount none
  | callee => dispatchCallee rt ctx callee l argCount callSite

/-! ### Calls from C++ code -/

/-- `stackTop = stack.data() + stackBefore`, for the operands of one frame. -/
def Local.cutOps (l : Local) (stackBefore : Nat) : Local :=
  l.withOps (List.replicate (stackBefore - l.ops.length) Value.nil ++
    l.ops.drop (l.ops.length - stackBefore))

/-- `restoreState` of `callFunction`, less the frames, which the end of the nested run cuts. -/
def restoreState (saved l : Local) : Local :=
  let l := l.cutOps saved.ops.length
  l.withShared
    { l.shared with
      running := saved.shared.running
      cxxFrameDepth := saved.shared.cxxFrameDepth }

/-- The end of `callFunction` after a nested run that left `v` on top of the stack: the result, or the
fault handed on. -/
def finishCall (saved l : Local) (v : Value) : Local × Value :=
  let restored := restoreState saved l
  if l.shared.pendingException.isNil then
    (restored, if saved.ops.length < l.ops.length then v else .nil)
  else (restored.withShared { restored.shared with running := false }, .nil)

/-- `callFunction` of a builtin, which it runs without the operand stack. -/
def callNative (rt : Runtime) (l : Local) (id : Nat) (args : List Value) : Proc (Local × Value) :=
  if 0 ≤ rt.nativeArity id ∧ (args.length : Int) < rt.nativeArity id then
    return (l.runtimeError (rt.nativeName id ++ lit "() expected " ++
      decimal (rt.nativeArity id).toNat ++ lit " argument(s), got " ++ decimal args.length), .nil)
  else do
    let ended ← Proc.native l id args
    match ended.2 with
    | .value v => return (ended.1, v)
    | .runtimeError v => throw (ended.1, v)
    | .stdException what =>
        return (ended.1.runtimeError (lit "Native function error: " ++ what), .nil)

/-- The state in which `callFunction` starts the call. -/
def enterCall (l : Local) (callee : Value) (args : List Value) : Local :=
  (l.withOps (args.reverse ++ callee :: l.ops)).withShared
    { l.shared with
      running := true
      cxxFrameDepth := l.shared.cxxFrameDepth + if l.shared.running then 1 else 0 }

/-- `callFunction`. When `dispatchCall` is done without a frame it runs the frames as they stand. -/
def callFunction (rt : Runtime) (ctx : Ctx) (l : Local) (callee : Value) (args : List Value) :
    Proc (Local × Value) :=
  if 200 ≤ l.shared.cxxFrameDepth then
    return (l.runtimeError (lit "RecursionError: maximum C++ call depth exceeded"), .nil)
  else if ¬l.shared.pendingException.isNil then return (l, .nil)
  else
    match callee with
    | .nativeFunction id => callNative rt l id args
    | callee => do
        let called ← tryCatch
          (dispatchCall rt ctx callee (enterCall l callee args) (args.length % 256) none)
          fun unwinding => throw (restoreState l unwinding.1, unwinding.2)
        match called with
        | .pushed below frame upvalues =>
            let ended ← Proc.nested below (some (frame, upvalues))
            return finishCall l ended.1 ended.2
        | .value below v =>
            let ended ← Proc.nested (below.push v) none
            return finishCall l ended.1 ended.2
        | .limit below =>
            let ended ← Proc.nested below none
            return finishCall l ended.1 ended.2
        | .queued below _ | .refused below => return (restoreState l below, .nil)

end EZLanguage
