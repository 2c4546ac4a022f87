import Mathlib.Algebra.GroupWithZero.Nat
import Mathlib.Algebra.Group.Int.Defs
import EZLanguage.VM.Handler
import Mathlib.Logic.Function.Iterate

/-!
# The machine

The whole VM as a state machine: the frames with their closure states, the try blocks, and the nested
activations of `run` that `callFunction` starts. A step is one instruction fetched, one request of a
handler's code, or one way a handler ends.
-/

namespace EZLanguage

/-- A builtin runs beside the frames: what it changes of the VM is the heap and the fault state. A C++
exception of a function it calls passes through it. -/
def ofNative (l : Local) : NativeCode → Resumption Request Reply (Local × NativeOutcome)
  | .done ended => .done (l.withHeap ended.1, ended.2)
  | .ask (.callFunction h callee args) k =>
      .ask (.call (l.withHeap h) callee args) fun r =>
        match r with
        | .ok r => ofNative r.1 (k (r.1.heap, r.2))
        | .error unwinding => .done (unwinding.1, .runtimeError unwinding.2)
  | .ask (.runtimeError h exc) k =>
      ofNative (l.withShared ((l.withHeap h).shared.recordFault exc)) (k (h, .nil))

/-- `TryBlock`. `depth` is the number of operands its frame had. -/
structure TryBlock where
  frameIdx : Nat
  catchIp : Nat
  depth : Nat
  deriving DecidableEq

/-- The code of a handler, from some point on. -/
abbrev HandlerCode := Resumption Request Reply (Except Unwinding Exit)

/-- A `run` that waits for the nested one it started. -/
structure Activation where
  start : Nat
  framesBefore : Nat
  k : Local × Value → HandlerCode

inductive Control where
  /-- At `DISPATCH`. -/
  | dispatch
  /-- In the code of a handler. -/
  | code (p : HandlerCode)
  /-- At `handle_vm_fault`. -/
  | fault
  /-- `run` returns. -/
  | leave
  | yielded
  | halted
  /-- Behaviour the C++ code does not define. -/
  | undefined

/-- The VM. The frames, closure states, try blocks and activations are lists with the innermost first;
`start` is the `startingFrameCount` of the innermost `run`. -/
structure VM where
  frames : List Frame
  frameUpvalues : List ClosureState
  tryStack : List TryBlock
  activations : List Activation
  start : Nat
  shared : Shared
  control : Control

namespace VM

/-- The values on the stack below the operands of the top frame. -/
def stackBelow : List Frame → Nat
  | [] => 0
  | f :: fs => f.slots.length + (fs.map fun f => f.slots.length + f.ops.length).sum

def ctx (vm : VM) : Ctx := { frameCount := vm.frames.length, stackBelow := stackBelow vm.frames }

/-- What a handler sees of the VM, when there is a frame. -/
def top (vm : VM) : Option Local :=
  match vm.frames, vm.frameUpvalues with
  | frame :: _, upvalues :: _ => some { frame, upvalues, shared := vm.shared }
  | _, _ => none

/-- `SYNC_IP` and the rest of what a handler changed. -/
def sync (vm : VM) (l : Local) : VM :=
  { vm with
    frames := l.frame :: vm.frames.tail
    frameUpvalues := l.upvalues :: vm.frameUpvalues.tail
    shared := l.shared }

def goto (vm : VM) (control : Control) : VM := { vm with control }

def push (vm : VM) (frame : Frame) (upvalues : ClosureState) : VM :=
  { vm with frames := frame :: vm.frames, frameUpvalues := upvalues :: vm.frameUpvalues }

/-- `ownsTryBlock`. -/
def ownsTryBlock (vm : VM) : Bool :=
  match vm.tryStack with
  | [] => false
  | tb :: _ => vm.start ≤ tb.frameIdx + 1

/-- The exception `exc` goes to the innermost try block: the frames above its frame are popped, the
operands are cut to what they were and get the exception, and the catch code goes on. -/
def deliver (vm : VM) (exc : Value) : VM :=
  match vm.tryStack with
  | [] => vm.goto .undefined
  | tb :: rest =>
      let popped := vm.frames.length - (tb.frameIdx + 1)
      match vm.frames.drop popped, vm.frameUpvalues.drop popped with
      | frame :: frames, upvalues :: frameUpvalues =>
          if frames.length < tb.frameIdx then vm.goto .undefined
          else
            let l := Local.cutOps { frame, upvalues, shared := vm.shared } tb.depth
            { vm with
              frames := { l.frame with ops := exc :: l.ops, ip := tb.catchIp } :: frames
              frameUpvalues := upvalues :: frameUpvalues
              tryStack := rest
              shared := { vm.shared with pendingException := .nil, running := true }
              control := .dispatch }
      | _, _ => vm.goto .undefined

/-- `handle_vm_fault`. -/
def handleFault (vm : VM) : VM :=
  if vm.shared.pendingException.isNil then
    { vm with shared := { vm.shared with running := true }, control := .dispatch }
  else if vm.ownsTryBlock then vm.deliver vm.shared.pendingException
  else vm.goto .leave

/-- The text of a thrown value, which `describeException` prefers. -/
def exceptionMessage (rt : Runtime) (h : Heap) (exc : Value) : CString :=
  match exc with
  | .dictionary r => rt.toString h ((lookup (h.dicts r) (lit "message")).getD exc)
  | .inst r =>
      match (h.instances r).shape.getOffset (lit "message") with
      | some offset => rt.toString h (((h.instances r).propertyValues[offset]?).getD .nil)
      | none => rt.toString h exc
  | exc => rt.toString h exc

/-- The end of `THROW` and of `FINALLY_END`: an exception no try block of this `run` takes is left
pending for the caller, and one no try block takes at all is reported. -/
def throwValue (rt : Runtime) (vm : VM) (exc : Value) : VM :=
  if vm.ownsTryBlock then vm.deliver exc
  else if vm.tryStack.isEmpty then
    { vm with
      shared := vm.shared.runtimeError
        (lit "Uncaught exception: " ++ exceptionMessage rt vm.shared.toHeap exc)
      control := .leave }
  else { vm with shared := { vm.shared with pendingException := exc }, control := .leave }

/-- The `catch` of `run` takes a C++ exception. -/
def caught (vm : VM) (exc : Value) : VM :=
  if vm.ownsTryBlock then vm.deliver exc
  else { vm with shared := { vm.shared with pendingException := exc }, control := .leave }

/-- `RETURN`: the try blocks of the frame go with it, and the result takes the place of the callee. -/
def returnFrom (vm : VM) (result : Value) : VM :=
  let returningFrame := vm.frames.length - 1
  let vm := { vm with
    tryStack := vm.tryStack.dropWhile fun tb => returningFrame ≤ tb.frameIdx
    frames := vm.frames.tail
    frameUpvalues := vm.frameUpvalues.tail }
  match vm.frames with
  | [] => vm.goto .leave
  | caller :: frames =>
      { vm with
        frames := { caller with ops := result :: caller.ops.tail } :: frames
        control := if frames.length + 1 < vm.start then .leave else .dispatch }

/-- A handler has ended. -/
def settle (rt : Runtime) (vm : VM) : Exit → VM
  | .dispatch l => (vm.sync l).goto .dispatch
  | .raiseFault l => (vm.sync l).goto .fault
  | .leave l => (vm.sync l).goto .leave
  | .pushFrame l frame upvalues => ((vm.sync l).push frame upvalues).goto .dispatch
  | .returned l result => (vm.sync l).returnFrom result
  | .thrown l exc =>
      throwValue rt
        (vm.sync (l.withShared { l.shared with pendingException := exc })) exc
  | .finallyEnd l =>
      if l.shared.pendingException.isNil then (vm.sync l).goto .dispatch
      else
        throwValue rt (vm.sync (l.withShared { l.shared with pendingException := .nil }))
          l.shared.pendingException
  | .tryStart l catchIp =>
      let tb := { frameIdx := vm.frames.length - 1, catchIp, depth := l.ops.length }
      { vm.sync l with tryStack := tb :: vm.tryStack, control := .dispatch }
  | .tryEnd l => { vm.sync l with tryStack := vm.tryStack.tail, control := .dispatch }
  | .yielded l => (vm.sync l).goto .yielded
  | .ended l => (vm.sync (l.withShared { l.shared with running := false })).goto .leave
  | .malformed => vm.goto .undefined

def slotValue (h : Heap) : Slot → Value
  | .value v => v
  | .cell c => h.cells c

/-- `*(stackTop - 1)`. -/
def stackTop (h : Heap) : List Frame → Value
  | [] => .nil
  | f :: fs =>
      match f.ops, f.slots.getLast? with
      | v :: _, _ => v
      | [], some slot => slotValue h slot
      | [], none => stackTop h fs

/-- The innermost `run` returns. `frames.resize(framesBefore)` cuts the frames alone. -/
def leaveRun (vm : VM) : VM :=
  match vm.activations with
  | [] => vm.goto .halted
  | a :: rest =>
      match vm.frames.drop (vm.frames.length - a.framesBefore), vm.frameUpvalues with
      | frame :: frames, upvalues :: _ =>
          if vm.frames.length < a.framesBefore then vm.goto .undefined
          else
            let l : Local := { frame, upvalues, shared := vm.shared }
            { vm with
              frames := frame :: frames
              activations := rest
              start := a.start
              control := .code (a.k (l, stackTop vm.shared.toHeap vm.frames)) }
      | _, _ => vm.goto .undefined

/-- `callFunction` starts a nested `run`. -/
def nestedRun (vm : VM) (l : Local) (pushed : Option (Frame × ClosureState))
    (k : Local × Value → HandlerCode) : VM :=
  let synced := vm.sync l
  let entered := match pushed with
    | some (frame, upvalues) => synced.push frame upvalues
    | none => synced
  { entered with
    activations := { start := vm.start, framesBefore := synced.frames.length, k } :: vm.activations
    start := entered.frames.length
    control := .dispatch }

/-- The code of a handler goes on. -/
def stepCode (rt : Runtime) (vm : VM) : HandlerCode → VM
  | .done (.ok e) => vm.settle rt e
  | .done (.error unwinding) => (vm.sync unwinding.1).caught unwinding.2
  | .ask (.call l callee args) k =>
      vm.goto (.code ((callFunction rt vm.ctx l callee args).run >>= k))
  | .ask (.native l id args) k => vm.goto (.code (ofNative l (rt.native id args l.heap) >>= k))
  | .ask (.nested l pushed) k => vm.nestedRun l pushed k

/-- The next instruction, with the state its handler starts in. -/
def fetch (vm : VM) : Option (Instr × Local) := do
  let l ← vm.top
  let i ← l.function.code[l.frame.ip]?
  return (i, l.jump 1)

theorem fetch_eq_some {vm : VM} {i : Instr} {l : Local} (h : vm.fetch = some (i, l)) :
    ∃ frame frames upvalues frameUpvalues, vm.frames = frame :: frames ∧
      vm.frameUpvalues = upvalues :: frameUpvalues ∧
      l = Local.jump { frame, upvalues, shared := vm.shared } 1 := by
  unfold VM.fetch VM.top at h
  cases hframes : vm.frames with
  | nil => simp [hframes] at h
  | cons frame frames =>
      cases hupvalues : vm.frameUpvalues with
      | nil => simp [hframes, hupvalues] at h
      | cons upvalues frameUpvalues =>
          simp only [hframes, hupvalues, Option.bind_eq_bind, Option.bind_some,
            Option.bind_eq_some_iff, pure, Option.some.injEq, Prod.mk.injEq] at h
          obtain ⟨_, _, _, rfl⟩ := h
          exact ⟨_, _, _, _, rfl, rfl, rfl⟩

/-- One step of the VM. -/
def step (rt : Runtime) (vm : VM) : VM :=
  match vm.control with
  | .dispatch =>
      if vm.shared.running then
        match vm.fetch with
        | some (i, l) => vm.goto (.code (Handler.exec rt vm.ctx i l).run)
        | none => vm.goto .undefined
      else vm.goto .fault
  | .code p => vm.stepCode rt p
  | .fault => vm.handleFault
  | .leave => vm.leaveRun
  | .yielded | .halted | .undefined => vm

/-- The VM after `n` steps. -/
def run (rt : Runtime) (vm : VM) (n : Nat) : VM := (step rt)^[n] vm

/-- The VM with its first frame just pushed: that of a script, or of the task an asynchronous call
runs. -/
def initial (frame : Frame) (shared : Shared) : VM :=
  { frames := [frame]
    frameUpvalues := [frame.closureUpvalues]
    tryStack := []
    activations := []
    start := 1
    shared := { shared with pendingException := .nil, running := true, cxxFrameDepth := 0 }
    control := .dispatch }

@[simp] theorem run_zero (rt : Runtime) (vm : VM) : run rt vm 0 = vm := rfl

theorem run_succ (rt : Runtime) (vm : VM) (n : Nat) : run rt vm (n + 1) = step rt (run rt vm n) :=
  Function.iterate_succ_apply' _ _ _

end VM

end EZLanguage
