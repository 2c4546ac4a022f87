import EZLanguage.VM.NestedRuns

/-!
# Builtins that call back

`map`, `filter`, `reduce`, `forEach`, `find`, `every` and `some` call a function for each element an
array had when they were called. An exception of the callback is left pending, and the calls that are
still to come do nothing. A pending nil is no exception, so that an exception which is nil is lost.
-/

namespace EZLanguage

/-! ### The builtins -/

def Heap.newArray (h : Heap) (elements : List Value) : Nat × Heap :=
  (h.next, { h with next := h.next + 1, arrays := Function.update h.arrays h.next elements })

/-- A loop over elements: the arguments of the callback, what becomes of its value, and the result
after the last element. -/
structure CallbackLoop (α : Type) where
  args : α → Value → List Value
  next : α → Value → Value → α ⊕ Value
  finish : α → Heap → Heap × Value

def CallbackLoop.code {α : Type} (loop : CallbackLoop α) (callee : Value) :
    List Value → α → Heap → NativeCode
  | [], acc, h => .done ((loop.finish acc h).1, .value (loop.finish acc h).2)
  | elem :: rest, acc, h =>
      .ask (.callFunction h callee (loop.args acc elem)) fun r =>
        match loop.next acc elem r.2 with
        | .inl acc => loop.code callee rest acc r.1
        | .inr result => .done (r.1, .value result)

/-- `return Value::makeArray(result)`. -/
def makeArray (result : List Value) (h : Heap) : Heap × Value :=
  ((h.newArray result).2, .array (h.newArray result).1)

def mapLoop : CallbackLoop (List Value) where
  args _ elem := [elem]
  next result _ v := .inl (result ++ [v])
  finish := makeArray

def filterLoop : CallbackLoop (List Value) where
  args _ elem := [elem]
  next result elem test := .inl (if test.isTruthy then result ++ [elem] else result)
  finish := makeArray

def reduceLoop : CallbackLoop Value where
  args acc elem := [acc, elem]
  next _ _ v := .inl v
  finish acc h := (h, acc)

def forEachLoop : CallbackLoop Unit where
  args _ elem := [elem]
  next _ _ _ := .inl ()
  finish _ h := (h, .nil)

def findLoop : CallbackLoop Unit where
  args _ elem := [elem]
  next _ elem test := if test.isTruthy then .inr elem else .inl ()
  finish _ h := (h, .nil)

def everyLoop : CallbackLoop Unit where
  args _ elem := [elem]
  next _ _ test := if test.isTruthy then .inl () else .inr (.bool false)
  finish _ h := (h, .bool true)

def someLoop : CallbackLoop Unit where
  args _ elem := [elem]
  next _ _ test := if test.isTruthy then .inr (.bool true) else .inl ()
  finish _ h := (h, .bool false)

inductive FPBuiltin where
  | map | filter | reduce | forEach | find | every | some
  deriving DecidableEq

namespace FPBuiltin

def name : FPBuiltin → CString
  | map => lit "map"
  | filter => lit "filter"
  | reduce => lit "reduce"
  | forEach => lit "forEach"
  | find => lit "find"
  | every => lit "every"
  | some => lit "some"

def arity : FPBuiltin → Nat
  | reduce => 3
  | _ => 2

/-- The loop of a builtin over elements, with the third argument of `reduce`. -/
def elements (b : FPBuiltin) (callee start : Value) (elems : List Value) (h : Heap) : NativeCode :=
  match b with
  | map => mapLoop.code callee elems [] h
  | filter => filterLoop.code callee elems [] h
  | reduce => reduceLoop.code callee elems start h
  | forEach => forEachLoop.code callee elems () h
  | find => findLoop.code callee elems () h
  | every => everyLoop.code callee elems () h
  | some => someLoop.code callee elems () h

def fail (b : FPBuiltin) (message : String) (h : Heap) : NativeCode :=
  .ask (.runtimeError h (.string (b.name ++ lit message))) fun r => .done (r.1, .value .nil)

/-- The code of a builtin, which copies the elements first. -/
def code (b : FPBuiltin) (args : List Value) (h : Heap) : NativeCode :=
  match args.getD 0 .nil with
  | .array r =>
      if (args.getD 1 .nil).isCallable then
        b.elements (args.getD 1 .nil) (args.getD 2 .nil) (h.arrays r) h
      else b.fail "() expects function as second argument" h
  | _ => b.fail "() expects array as first argument" h

end FPBuiltin

/-! ### What a builtin computes -/

/-- A result: a value, or a new array with elements. -/
inductive FPResult where
  | plain (v : Value)
  | array (elements : List Value)

namespace FPBuiltin

/-- Whether the value of a callback ends the loop. -/
def stops (b : FPBuiltin) (v : Value) : Bool :=
  match b with
  | find | some => v.isTruthy
  | every => !v.isTruthy
  | _ => false

/-- The mathematical function, of the elements with the values of the callback for them. -/
def result (b : FPBuiltin) (start : Value) (pairs : List (Value × Value)) : FPResult :=
  match b with
  | map => .array (pairs.map Prod.snd)
  | filter => .array ((pairs.filter fun p => p.2.isTruthy).map Prod.fst)
  | reduce => .plain ((pairs.map Prod.snd).getLastD start)
  | forEach => .plain .nil
  | find => .plain (((pairs.find? fun p => p.2.isTruthy).map Prod.fst).getD .nil)
  | every => .plain (.bool (pairs.all fun p => p.2.isTruthy))
  | some => .plain (.bool (pairs.any fun p => p.2.isTruthy))

/-- The arguments of the next call of the callback. -/
def callArgs (b : FPBuiltin) (start : Value) (pairs : List (Value × Value)) (elem : Value) :
    List Value :=
  match b with
  | reduce => [(pairs.map Prod.snd).getLastD start, elem]
  | _ => [elem]

end FPBuiltin

/-- A value is the result: an array has the elements. -/
def FPResult.Is (h : Heap) : FPResult → Value → Prop
  | .plain v, w => w = v
  | .array elements, w => ∃ r, w = .array r ∧ h.arrays r = elements

/-- The accumulator of a loop after calls of the callback. -/
structure Computes {α : Type} (loop : CallbackLoop α) (b : FPBuiltin) (start : Value)
    (acc : List (Value × Value) → α) : Prop where
  args : ∀ pairs elem, loop.args (acc pairs) elem = b.callArgs start pairs elem
  goes : ∀ pairs elem v, b.stops v = false →
    loop.next (acc pairs) elem v = .inl (acc (pairs ++ [(elem, v)]))
  stops : ∀ pairs elem v, (∀ p ∈ pairs, b.stops p.2 = false) → b.stops v = true →
    ∃ w, loop.next (acc pairs) elem v = .inr w ∧ b.result start (pairs ++ [(elem, v)]) = .plain w
  finish : ∀ pairs h, (∀ p ∈ pairs, b.stops p.2 = false) →
    (b.result start pairs).Is (loop.finish (acc pairs) h).1 (loop.finish (acc pairs) h).2

theorem isArray_makeArray (result : List Value) (h : Heap) :
    (FPResult.array result).Is (makeArray result h).1 (makeArray result h).2 :=
  ⟨h.next, rfl, Function.update_self _ _ _⟩

theorem mapLoop_computes (start : Value) :
    Computes mapLoop .map start fun pairs => pairs.map Prod.snd where
  args _ _ := rfl
  goes pairs elem v _ := by simp [mapLoop]
  stops _ _ _ _ h := nomatch h
  finish pairs h _ := isArray_makeArray _ h

theorem filterLoop_computes (start : Value) :
    Computes filterLoop .filter start
      fun pairs => (pairs.filter fun p => p.2.isTruthy).map Prod.fst where
  args _ _ := rfl
  goes pairs elem v _ := by
    cases htest : v.isTruthy <;> simp [filterLoop, htest]
  stops _ _ _ _ h := nomatch h
  finish pairs h _ := isArray_makeArray _ h

theorem reduceLoop_computes (start : Value) :
    Computes reduceLoop .reduce start fun pairs => (pairs.map Prod.snd).getLastD start where
  args _ _ := rfl
  goes pairs elem v _ := by simp [reduceLoop]
  stops _ _ _ _ h := nomatch h
  finish _ _ _ := rfl

theorem forEachLoop_computes (start : Value) : Computes forEachLoop .forEach start fun _ => () where
  args _ _ := rfl
  goes _ _ _ _ := rfl
  stops _ _ _ _ h := nomatch h
  finish _ _ _ := rfl

theorem find_eq_none {pairs : List (Value × Value)} (h : ∀ p ∈ pairs, p.2.isTruthy = false) :
    pairs.find? (fun p => p.2.isTruthy) = none := by
  rw [List.find?_eq_none]
  intro p hp
  simp [h p hp]

theorem findLoop_computes (start : Value) : Computes findLoop .find start fun _ => () where
  args _ _ := rfl
  goes pairs elem v h := by
    have htest : v.isTruthy = false := h
    simp [findLoop, htest]
  stops pairs elem v hpairs h := by
    have htest : v.isTruthy = true := h
    have hnone := find_eq_none hpairs
    refine ⟨elem, by simp [findLoop, htest], ?_⟩
    simp [FPBuiltin.result, List.find?_append, hnone, htest]
  finish pairs h hpairs := by
    have hnone := find_eq_none hpairs
    simp [FPBuiltin.result, hnone, FPResult.Is, findLoop]

theorem everyLoop_computes (start : Value) : Computes everyLoop .every start fun _ => () where
  args _ _ := rfl
  goes pairs elem v h := by
    have htest : v.isTruthy = true := by simpa [FPBuiltin.stops] using h
    simp [everyLoop, htest]
  stops pairs elem v _ h := by
    have htest : v.isTruthy = false := by simpa [FPBuiltin.stops] using h
    exact ⟨.bool false, by simp [everyLoop, htest], by simp [FPBuiltin.result, htest]⟩
  finish pairs h hpairs := by
    have hall : pairs.all (fun p => p.2.isTruthy) = true := by
      rw [List.all_eq_true]
      intro p hp
      simpa [FPBuiltin.stops] using hpairs p hp
    simp [FPBuiltin.result, hall, FPResult.Is, everyLoop]

theorem someLoop_computes (start : Value) : Computes someLoop .some start fun _ => () where
  args _ _ := rfl
  goes pairs elem v h := by
    have htest : v.isTruthy = false := h
    simp [someLoop, htest]
  stops pairs elem v _ h := by
    have htest : v.isTruthy = true := h
    exact ⟨.bool true, by simp [someLoop, htest], by simp [FPBuiltin.result, htest]⟩
  finish pairs h hpairs := by
    have hany : pairs.any (fun p => p.2.isTruthy) = false := by
      rw [List.any_eq_false]
      intro p hp
      have hfalse : p.2.isTruthy = false := hpairs p hp
      simp [hfalse]
    simp only [FPBuiltin.result, hany, FPResult.Is, someLoop]

namespace VM

/-! ### One call of the callback -/

/-- How a call of the callback ended, by the state in which its `run` leaves: it returned a value, or
its frames are still there and it raised what is pending. -/
inductive Outcome where
  | returned (v : Value)
  | raised (exc : Value)

def Outcome.of (height : Nat) (vm : VM) : Outcome :=
  if vm.frames.length ≤ height then .returned (stackTop vm.shared.toHeap vm.frames)
  else .raised vm.shared.pendingException

/-- A return with nothing pending, or an exception with none of the try blocks of the `run` open. -/
def Outcome.Tidy (vm : VM) : Outcome → Prop
  | .returned _ => vm.shared.pendingException.isNil = true
  | .raised _ => vm.ownsTryBlock = false

variable (rt : Runtime)

/-- What is below the `run` that `callFunction` starts. -/
def belowCall (vm : VM) (l below : Local) (k : Except Unwinding (Local × Value) → HandlerCode) :
    Below where
  caller := below.frame
  frames := vm.frames.tail
  tryStack := vm.tryStack
  activations :=
    { start := vm.start, framesBefore := vm.frames.tail.length + 1,
      k := fun ended => k (.ok (finishCall l ended.1 ended.2)) } :: vm.activations

/-- A call of the callback that pushes a frame and runs it, `n` steps long. -/
structure Invoked (vm : VM) (l : Local) (callee : Value) (args : List Value)
    (k : Except Unwinding (Local × Value) → HandlerCode) (n : Nat) (outcome : Outcome)
    (reply : Local × Value) : Prop where
  control : vm.control = .code (.ask (.call l callee args) k)
  depth : l.shared.cxxFrameDepth < 200
  pending : l.shared.pendingException.isNil = true
  running : l.shared.running = true
  callable : callee.isCallable = true
  pushed : ∃ below frame upvalues, dispatchCall rt vm.ctx callee (enterCall l callee args)
      (args.length % 256) none = pure (.pushed below frame upvalues) ∧
    Leaving (belowCall vm l below k) (vm.run rt (n + 2)) ∧
    ∀ m < n, ¬Leaving (belowCall vm l below k) (vm.run rt (m + 2)) ∧ (vm.run rt (m + 2)).EndsOwnBlock
  ended : outcome = Outcome.of (vm.frames.tail.length + 1) (vm.run rt (n + 2))
  tidy : outcome.Tidy (vm.run rt (n + 2))
  replyOf : ∃ top, (vm.run rt (n + 3)).top = some top ∧ reply = finishCall l top
    (stackTop (vm.run rt (n + 2)).shared.toHeap (vm.run rt (n + 2)).frames)
  replied : (vm.run rt (n + 3)).control = .code (k (.ok reply))

section Calls

variable {rt : Runtime} {ctx : Ctx} {l below : Local} {callee : Value} {args : List Value}
  {frame : Frame} {upvalues : ClosureState}

theorem dispatchFunction_pushed {bcFunc : Nat} {state : ClosureState} {argCount : Nat} {bypass : Bool}
    (hpushed : dispatchFunction rt ctx l callee bcFunc state argCount bypass =
      .pushed below frame upvalues) :
    below.frame = { l.frame with ops := l.ops.drop argCount } := by
  have hpack : ∀ (l' : Local) f values, (packRest l' f values).1.frame = l'.frame := fun _ _ _ => rfl
  have hframe : ∀ (l' : Local) values, pushCallFrame rt ctx l' bcFunc values state =
      .pushed below frame upvalues → below.frame = l'.frame := by
    intro l' values hpush
    unfold pushCallFrame at hpush
    dsimp only at hpush
    split at hpush
    · cases hpush
    · split at hpush
      · cases hpush
      · cases hpush
        rfl
  unfold dispatchFunction at hpushed
  dsimp only at hpushed
  split at hpushed
  · split at hpushed <;> cases hpushed
  · split at hpushed
    · cases hpushed
    · rw [hframe _ _ hpushed]
      split
      · rw [hpack]
        rfl
      · rfl

/-- A call that pushes a frame takes its arguments off the operands and leaves one value over those
of the caller. -/
theorem dispatchCallee_pushed {argCount : Nat} {callSite : Option Nat} (hops : argCount < l.ops.length)
    (hpushed : dispatchCallee rt ctx callee l argCount callSite =
      pure (.pushed below frame upvalues)) :
    ∃ x, below.frame = { l.frame with ops := x :: l.ops.drop (argCount + 1) } := by
  induction callee generalizing l argCount callSite with
  | nativeFunction id =>
      unfold dispatchCallee at hpushed
      split at hpushed <;> cases hpushed
  | boundMethod receiver method _ ih =>
      unfold dispatchCallee at hpushed
      split at hpushed
      · cases hpushed
      · have htake : (l.ops.take argCount).length = argCount := by
          rw [List.length_take]
          omega
        obtain ⟨x, hx⟩ := ih (by
          rw [Local.withOps_ops, List.length_append, htake, List.length_cons, List.length_cons]
          omega) hpushed
        refine ⟨x, ?_⟩
        have hdrop : (l.ops.take argCount ++ receiver :: method :: l.ops.drop (argCount + 1)).drop
            (argCount + 1 + 1) = l.ops.drop (argCount + 1) := by
          rw [List.drop_append, htake, List.drop_of_length_le (by omega)]
          have hcount : argCount + 1 + 1 - argCount = 2 := by omega
          rw [hcount]
          rfl
        rw [hx, Local.withOps_ops, hdrop]
        rfl
  | closure r =>
      unfold dispatchCallee at hpushed
      refine ⟨l.ops.get ⟨argCount, hops⟩, ?_⟩
      rw [dispatchFunction_pushed (Except.ok.inj (Resumption.done.inj hpushed)),
        List.drop_eq_getElem_cons hops]
      rfl
  | function r =>
      unfold dispatchCallee at hpushed
      split at hpushed
      · cases hpushed
      · refine ⟨l.ops.get ⟨argCount, hops⟩, ?_⟩
        rw [dispatchFunction_pushed (Except.ok.inj (Resumption.done.inj hpushed)),
          List.drop_eq_getElem_cons hops]
        rfl
  | klass r =>
      unfold dispatchCallee instantiate at hpushed
      dsimp only at hpushed
      split at hpushed <;> cases hpushed
  | _ =>
      unfold dispatchCallee at hpushed
      cases hpushed

theorem enterCall_pushed (hcallable : callee.isCallable = true) (hargs : args.length < 256)
    (hpushed : dispatchCall rt ctx callee (enterCall l callee args) (args.length % 256) none =
      pure (.pushed below frame upvalues)) :
    ∃ x, below.frame = { l.frame with ops := x :: l.ops } := by
  have hcallee : dispatchCallee rt ctx callee (enterCall l callee args) (args.length % 256) none =
      pure (.pushed below frame upvalues) := by
    cases callee with
    | super _ _ => cases hcallable
    | _ => exact hpushed
  rw [Nat.mod_eq_of_lt hargs] at hcallee
  have hops : (enterCall l callee args).ops = args.reverse ++ callee :: l.ops := rfl
  obtain ⟨x, hx⟩ := dispatchCallee_pushed (by
    rw [hops, List.length_append, List.length_reverse, List.length_cons]
    omega) hcallee
  refine ⟨x, ?_⟩
  have hdrop : (args.reverse ++ callee :: l.ops).drop (args.length + 1) = l.ops := by
    rw [List.drop_append, List.length_reverse, List.drop_of_length_le (by simp),
      Nat.add_sub_cancel_left]
    rfl
  rw [hx, hops, hdrop]
  rfl

variable {vm : VM} {k : Except Unwinding (Local × Value) → HandlerCode}

/-- Two steps start the `run` of the frame that was pushed. -/
theorem run_two (hcontrol : vm.control = .code (.ask (.call l callee args) k))
    (hdepth : l.shared.cxxFrameDepth < 200) (hpending : l.shared.pendingException.isNil = true)
    (hpushed : dispatchCall rt vm.ctx callee (enterCall l callee args) (args.length % 256) none =
      pure (.pushed below frame upvalues)) :
    vm.run rt 2 = vm.nestedRun below (some (frame, upvalues)) fun ended =>
      k (.ok (finishCall l ended.1 ended.2)) := by
  have hcall : (callFunction rt vm.ctx l callee args).run =
      .ask (.nested below (some (frame, upvalues))) fun ended =>
        .done (.ok (finishCall l ended.1 ended.2)) := by
    unfold callFunction
    rw [if_neg (by omega), if_neg (by simp [hpending])]
    cases callee with
    | nativeFunction id =>
        exfalso
        revert hpushed
        unfold dispatchCall dispatchCallee
        dsimp only
        split <;> exact fun h => nomatch h
    | _ =>
        simp only [hpushed]
        rfl
  have hfirst : vm.run rt 1 = vm.goto (.code ((callFunction rt vm.ctx l callee args).run >>= k)) := by
    show vm.step rt = _
    unfold VM.step
    rw [hcontrol]
    rfl
  rw [run_succ, hfirst, hcall]
  rfl

theorem inside_entered (hpushed : vm.run rt 2 =
      vm.nestedRun below (some (frame, upvalues)) fun ended => k (.ok (finishCall l ended.1 ended.2))) :
    Inside (belowCall vm l below k) [] (vm.run rt 2) := by
  rw [hpushed]
  refine ⟨⟨[frame], by simp, rfl⟩, ⟨[], rfl, by simp⟩, rfl, by simp, ?_, rfl⟩
  intro n hn
  rw [List.mem_singleton.mp hn]
  exact Nat.lt_succ_self _

end Calls

/-! ### What is left of a call -/

/-- The frames below the running one, the try blocks and the activations are as they were. -/
structure Kept (vm vm' : VM) : Prop where
  frames : vm'.frames.tail = vm.frames.tail
  tryStack : vm'.tryStack = vm.tryStack
  activations : vm'.activations = vm.activations
  start : vm'.start = vm.start

theorem Kept.refl (vm : VM) : Kept vm vm := ⟨rfl, rfl, rfl, rfl⟩

theorem Kept.trans {vm vm' vm'' : VM} (hfirst : Kept vm vm') (hnext : Kept vm' vm'') : Kept vm vm'' :=
  ⟨hnext.frames.trans hfirst.frames, hnext.tryStack.trans hfirst.tryStack,
    hnext.activations.trans hfirst.activations, hnext.start.trans hfirst.start⟩

/-- What the caller gets: a value with nothing pending, or a pending exception that stops it. -/
def Outcome.Reply (l : Local) (v : Value) : Outcome → Prop
  | .returned w => v = w ∧ l.shared.pendingException.isNil = true ∧ l.shared.running = true
  | .raised exc =>
      exc.isNil = false → l.shared.pendingException = exc ∧ l.shared.running = false

section Ends

variable {rt : Runtime} {vm : VM} {l l' : Local} {callee : Value} {args : List Value}
  {k : Except Unwinding (Local × Value) → HandlerCode} {n : Nat} {outcome : Outcome}

theorem restoreState_frame {x : Value} (hframe : l'.frame = { l.frame with ops := x :: l.ops }) :
    (restoreState l l').frame = l.frame := by
  have hops : l'.ops = x :: l.ops := congrArg Frame.ops hframe
  show ({ l'.frame with
      ops := (List.replicate (l.ops.length - l'.ops.length) Value.nil ++
        l'.ops.drop (l'.ops.length - l.ops.length)) } : Frame) = l.frame
  rw [hops, List.length_cons, Nat.sub_eq_zero_of_le (Nat.le_succ _), Nat.add_sub_cancel_left,
    List.replicate_zero, List.nil_append, List.drop_succ_cons, List.drop_zero, hframe]
  rfl

theorem finishCall_frame {x : Value} (hframe : l'.frame = { l.frame with ops := x :: l.ops })
    (v : Value) : (finishCall l l' v).1.frame = l.frame := by
  unfold finishCall
  dsimp only
  split <;> exact restoreState_frame hframe

theorem finishCall_returned {x : Value} (hframe : l'.frame = { l.frame with ops := x :: l.ops })
    (hrunning : l.shared.running = true) (hpending : l'.shared.pendingException.isNil = true)
    (v : Value) : (Outcome.returned v).Reply (finishCall l l' v).1 (finishCall l l' v).2 := by
  have hops : l'.ops = x :: l.ops := congrArg Frame.ops hframe
  unfold finishCall
  rw [if_pos hpending]
  refine ⟨if_pos ?_, hpending, hrunning⟩
  rw [hops]
  exact Nat.lt_succ_self _

theorem finishCall_raised (v : Value) :
    (Outcome.raised l'.shared.pendingException).Reply (finishCall l l' v).1 (finishCall l l' v).2 := by
  intro hpending
  unfold finishCall
  rw [if_neg (by simp [hpending])]
  exact ⟨rfl, rfl⟩

/-- A `run` that leaves with its caller's frame there hands its end on. -/
theorem step_leaving {a : Activation} {rest : List Activation} {frame : Frame} {frames : List Frame}
    (hcontrol : vm.control = .leave) (hactivations : vm.activations = a :: rest)
    (hheight : a.framesBefore ≤ vm.frames.length)
    (hframes : vm.frames.drop (vm.frames.length - a.framesBefore) = frame :: frames)
    (hreplied : ∃ p, (vm.step rt).control = .code p) :
    ∃ upvalues, (vm.step rt).top = some { frame, upvalues, shared := vm.shared } ∧
      (vm.step rt).frames = frame :: frames ∧ (vm.step rt).tryStack = vm.tryStack ∧
      (vm.step rt).activations = rest ∧ (vm.step rt).start = a.start := by
  have hstep : vm.step rt = vm.leaveRun := by
    unfold VM.step
    rw [hcontrol]
  rw [hstep] at hreplied ⊢
  unfold VM.leaveRun at hreplied ⊢
  rw [hactivations] at hreplied ⊢
  dsimp only at hreplied ⊢
  rw [hframes] at hreplied ⊢
  cases hupvalues : vm.frameUpvalues with
  | nil =>
      rw [hupvalues] at hreplied
      obtain ⟨p, hp⟩ := hreplied
      cases hp
  | cons upvalues frameUpvalues =>
      dsimp only
      rw [if_neg (by omega)]
      exact ⟨upvalues, rfl, rfl, rfl, rfl, rfl⟩

theorem run_add (rt : Runtime) (vm : VM) (m n : Nat) : vm.run rt (m + n) = (vm.run rt n).run rt m :=
  Function.iterate_add_apply _ _ _ _

/-- After a call of the callback its caller goes on as it was, but for the heap and what is pending. -/
theorem Invoked.replies {reply : Local × Value} (h : Invoked rt vm l callee args k n outcome reply)
    (hargs : args.length < 256) (htry : ∀ tb ∈ vm.tryStack, tb.frameIdx < vm.frames.tail.length + 1) :
    reply.1.frame = l.frame ∧ outcome.Reply reply.1 reply.2 ∧ Kept vm (vm.run rt (n + 3)) := by
  obtain ⟨below, frame, upvalues, hpushed, hleaving, hway⟩ := h.pushed
  obtain ⟨x, hbelow⟩ := enterCall_pushed h.callable hargs hpushed
  have hinside := inside_entered (run_two h.control h.depth h.pending hpushed)
  have hwithin := @Inside.run _ _ rt hinside htry n
    (fun m hm => by rw [← run_add]; exact (hway m hm).1)
    fun m hm => by rw [← run_add]; exact (hway m hm).2
  rw [← run_add] at hwithin
  obtain ⟨top, htop, rfl⟩ := h.replyOf
  have hreplied : ∃ p, (vm.run rt (n + 3)).control = .code p := ⟨_, h.replied⟩
  have hended := h.ended
  have htidy := h.tidy
  have hnext : vm.run rt (n + 3) = (vm.run rt (n + 2)).step rt := run_succ rt vm (n + 2)
  rw [hnext] at hreplied htop ⊢
  generalize vm.run rt (n + 2) = ending at hleaving hwithin hreplied hended htidy htop ⊢
  obtain ⟨hcontrol, hlength⟩ := hleaving
  obtain ⟨inner, hin⟩ | hreturned | hdoomed := hwithin
  · have hactivations := hin.activations
    obtain rfl : inner = [] := by
      rw [hactivations, List.length_append] at hlength
      exact List.length_eq_zero_iff.mp (by omega)
    obtain ⟨own, hne, hframes⟩ := hin.frames
    have hown := List.length_pos_iff.mpr hne
    have hheight : ending.frames.length = own.length + (vm.frames.tail.length + 1) := by
      rw [hframes, List.length_append]
      rfl
    have hraised : outcome = .raised ending.shared.pendingException := by
      rw [hended, Outcome.of, if_neg (by omega)]
    rw [hraised] at htidy ⊢
    have hdrop : ending.frames.drop (ending.frames.length - (vm.frames.tail.length + 1)) =
        below.frame :: vm.frames.tail := by
      rw [hheight, Nat.add_sub_cancel, hframes]
      exact List.drop_left
    obtain ⟨state, htop', hframes', htry', hactivations', hstart'⟩ :=
      @step_leaving rt _ _ _ _ _ hcontrol hactivations (by rw [hheight]; exact Nat.le_add_left _ _)
        hdrop hreplied
    obtain rfl := Option.some.inj (htop.symm.trans htop')
    refine ⟨@finishCall_frame l ⟨below.frame, state, ending.shared⟩ x hbelow _,
      finishCall_raised _, ⟨?_, ?_, hactivations', hstart'⟩⟩
    · rw [hframes']
      rfl
    · rw [htry']
      obtain ⟨blocks, hblocks, hlow⟩ := hin.tryStack
      cases blocks with
      | nil => exact hblocks
      | cons tb blocks =>
          have hstart : ending.start = vm.frames.tail.length + 1 + 1 :=
            Option.some.inj hin.first
          have hfirst := hlow tb List.mem_cons_self
          have howns : ending.ownsTryBlock = true := by
            rw [ownsTryBlock, hblocks]
            exact decide_eq_true (by
              rw [hstart]
              exact Nat.succ_le_succ hfirst)
          have hnot : ending.ownsTryBlock = false := htidy
          rw [howns] at hnot
          cases hnot
  · obtain ⟨result, hframes⟩ := hreturned.frames
    have hheight : ending.frames.length = vm.frames.tail.length + 1 := by
      rw [hframes]
      rfl
    have hreturns : outcome = .returned (stackTop ending.shared.toHeap ending.frames) := by
      rw [hended, Outcome.of, if_pos (by omega)]
    rw [hreturns] at htidy ⊢
    have hdrop : ending.frames.drop (ending.frames.length - (vm.frames.tail.length + 1)) =
        { below.frame with ops := result :: below.frame.ops.tail } :: vm.frames.tail := by
      rw [hheight, Nat.sub_self, hframes]
      rfl
    have hcaller : ({ below.frame with ops := result :: below.frame.ops.tail } : Frame) =
        { l.frame with ops := result :: l.ops } := by
      rw [hbelow]
      rfl
    obtain ⟨state, htop', hframes', htry', hactivations', hstart'⟩ :=
      @step_leaving rt _ _ _ _ _ hcontrol hreturned.activations (Nat.le_of_eq hheight.symm) hdrop
        hreplied
    obtain rfl := Option.some.inj (htop.symm.trans htop')
    have hnothing : ending.shared.pendingException.isNil = true := htidy
    refine ⟨@finishCall_frame l ⟨_, state, ending.shared⟩ result hcaller _,
      @finishCall_returned l ⟨_, state, ending.shared⟩ result hcaller h.running hnothing _,
      ⟨?_, ?_, hactivations', hstart'⟩⟩
    · rw [hframes']
      rfl
    · rw [htry']
      exact hreturned.tryStack
  · have hundefined := @Doomed.step _ rt hdoomed
    obtain ⟨p, hp⟩ := hreplied
    obtain h | ⟨h, -⟩ := hundefined
    · rw [h] at hp
      cases hp
    · rw [h] at hp
      cases hp

end Ends

/-! ### A builtin for a callback -/

/-- What `callFunction` makes of the end of a builtin. -/
def nativeReply (ended : Local × NativeOutcome) : Except Unwinding (Local × Value) :=
  match ended.2 with
  | .value v => .ok (ended.1, v)
  | .runtimeError v => .error (ended.1, v)
  | .stdException what =>
      .ok (ended.1.runtimeError (lit "Native function error: " ++ what), .nil)

/-- A builtin returned a value, or it recorded a fault, which stops the VM, or it threw. The first
fault is the one that counts. -/
def Outcome.ofNative (ended : Local × NativeOutcome) : Outcome :=
  match ended.2 with
  | .value v =>
      if ended.1.shared.running then .returned v else .raised ended.1.shared.pendingException
  | .runtimeError v => .raised (ended.1.shared.recordFault v).pendingException
  | .stdException what =>
      .raised (ended.1.runtimeError (lit "Native function error: " ++ what)).shared.pendingException

/-- How a builtin for a callback that calls nothing back itself ends, and after how many steps. -/
inductive Answer (rt : Runtime) (l : Local) (id : Nat) (args : List Value) :
    Nat → Local × NativeOutcome → Prop
  | refused (harity : 0 ≤ rt.nativeArity id ∧ (args.length : Int) < rt.nativeArity id) :
      Answer rt l id args 1 (l.runtimeError (rt.nativeName id ++ lit "() expected " ++
        decimal (rt.nativeArity id).toNat ++ lit " argument(s), got " ++ decimal args.length),
        .value .nil)
  | ended {ended : Local × NativeOutcome}
      (harity : ¬(0 ≤ rt.nativeArity id ∧ (args.length : Int) < rt.nativeArity id))
      (hnative : ofNative l (rt.native id args l.heap) = .done ended) : Answer rt l id args 2 ended

/-- A call of a builtin for a callback, `n` steps long. -/
structure Answered (rt : Runtime) (vm : VM) (l : Local) (id : Nat) (args : List Value)
    (k : Except Unwinding (Local × Value) → HandlerCode) (n : Nat) (answer : Local × NativeOutcome) :
    Prop where
  control : vm.control = .code (.ask (.call l (.nativeFunction id) args) k)
  depth : l.shared.cxxFrameDepth < 200
  pending : l.shared.pendingException.isNil = true
  running : l.shared.running = true
  ends : Answer rt l id args n answer

section Answers

variable {rt : Runtime} {vm : VM} {l : Local} {id : Nat} {args : List Value} {n : Nat}
  {k : Except Unwinding (Local × Value) → HandlerCode} {answer : Local × NativeOutcome}

/-- A builtin that calls nothing back leaves the frame alone. Still running, it recorded no fault. -/
theorem ofNative_done {code : NativeCode} (h : ofNative l code = .done answer) :
    answer.1.frame = l.frame ∧ (answer.1.shared.running = true →
      answer.1.shared.pendingException = l.shared.pendingException ∧ l.shared.running = true) := by
  induction code generalizing l with
  | done ended =>
      obtain rfl := Resumption.done.inj h
      exact ⟨rfl, fun hrunning => ⟨rfl, hrunning⟩⟩
  | ask call next ih =>
      cases call with
      | callFunction heap callee args =>
          unfold EZLanguage.ofNative at h
          cases h
      | runtimeError heap exc =>
          obtain ⟨hframe, hstopped⟩ := ih _ h
          exact ⟨hframe, fun hrunning => nomatch (hstopped hrunning).2⟩

theorem Answer.frame (h : Answer rt l id args n answer) : answer.1.frame = l.frame := by
  cases h with
  | refused => rfl
  | ended _ hnative => exact (ofNative_done hnative).1

theorem Answer.nothing (h : Answer rt l id args n answer) (hrunning : answer.1.shared.running = true) :
    answer.1.shared.pendingException = l.shared.pendingException := by
  cases h with
  | refused => cases hrunning
  | ended _ hnative => exact ((ofNative_done hnative).2 hrunning).1

theorem callFunction_native (hdepth : l.shared.cxxFrameDepth < 200)
    (hpending : l.shared.pendingException.isNil = true) :
    callFunction rt vm.ctx l (.nativeFunction id) args = callNative rt l id args := by
  unfold callFunction
  rw [if_neg (by omega), if_neg (by simp [hpending])]

/-- The builtin that called it goes on with its answer. -/
theorem Answered.run (h : Answered rt vm l id args k n answer) :
    vm.run rt n = vm.goto (.code (k (nativeReply answer))) := by
  have hfirst : vm.run rt 1 = vm.goto (.code ((callNative rt l id args).run >>= k)) := by
    rw [← @callFunction_native rt vm l id args h.depth h.pending]
    show vm.step rt = _
    unfold VM.step
    rw [h.control]
    rfl
  cases h.ends with
  | refused harity =>
      rw [hfirst]
      unfold callNative
      rw [if_pos harity]
      rfl
  | ended harity hnative =>
      have hcode : (callNative rt l id args).run >>= k =
          .ask (.native l id args) fun ended => k (nativeReply ended) := by
        unfold callNative
        rw [if_neg harity]
        show Resumption.ask _ _ = _
        congr 1
        funext ended
        obtain ⟨l', out⟩ := ended
        cases out <;> rfl
      rw [run_succ, hfirst, hcode]
      show vm.goto (.code (ofNative l (rt.native id args l.heap) >>= fun ended =>
        k (nativeReply ended))) = _
      rw [hnative]
      rfl

theorem Answered.kept (h : Answered rt vm l id args k n answer) : Kept vm (vm.run rt n) := by
  rw [h.run]
  exact ⟨rfl, rfl, rfl, rfl⟩

theorem Answered.replies {reply : Local × Value} (h : Answered rt vm l id args k n answer)
    (hreply : nativeReply answer = .ok reply) :
    reply.1.frame = l.frame ∧ (Outcome.ofNative answer).Reply reply.1 reply.2 := by
  have hframe := h.ends.frame
  have hnothing := h.ends.nothing
  obtain ⟨l', out⟩ := answer
  cases out with
  | value v =>
      obtain rfl := Except.ok.inj hreply
      refine ⟨hframe, ?_⟩
      unfold Outcome.ofNative
      dsimp only
      cases hrunning : l'.shared.running with
      | true =>
          rw [if_pos rfl]
          exact ⟨rfl, (congrArg Value.isNil (hnothing hrunning)).trans h.pending, hrunning⟩
      | false =>
          rw [if_neg Bool.false_ne_true]
          exact fun _ => ⟨rfl, hrunning⟩
  | runtimeError exc => cases hreply
  | stdException what =>
      obtain rfl := Except.ok.inj hreply
      exact ⟨hframe, fun _ => ⟨rfl, rfl⟩⟩

end Answers

/-! ### The calls of a builtin -/

structure Invocation where
  args : List Value
  outcome : Outcome

/-- What a builtin goes on with after a `callFunction`. -/
def nativeNext (next : Heap × Value → NativeCode) (k : Local × NativeOutcome → HandlerCode)
    (r : Except Unwinding (Local × Value)) : HandlerCode :=
  (match r with
    | .ok r => ofNative r.1 (next (r.1.heap, r.2))
    | .error unwinding => .done (unwinding.1, .runtimeError unwinding.2)) >>= k

/-- The run of the code of a builtin to its end, with the calls of the callback it makes. While an
exception is pending `callFunction` does nothing. -/
inductive Transcript (rt : Runtime) (k : Local × NativeOutcome → HandlerCode) :
    NativeCode → Local → VM → List Invocation → Local × NativeOutcome → VM → Prop
  | done {h : Heap} {out : NativeOutcome} {l : Local} {vm : VM}
      (hcontrol : vm.control = .code (k (l.withHeap h, out))) :
      Transcript rt k (.done (h, out)) l vm [] (l.withHeap h, out) vm
  | passed {h : Heap} {callee : Value} {args : List Value} {next : Heap × Value → NativeCode}
      {l : Local} {vm final : VM} {log : List Invocation} {ended : Local × NativeOutcome}
      (hcontrol : vm.control = .code (.ask (.call (l.withHeap h) callee args) (nativeNext next k)))
      (hdepth : l.shared.cxxFrameDepth < 200) (hpending : l.shared.pendingException.isNil = false)
      (hrest : Transcript rt k (next (h, .nil)) (l.withHeap h) (vm.run rt 1) log ended final) :
      Transcript rt k (.ask (.callFunction h callee args) next) l vm log ended final
  | invoked {h : Heap} {callee : Value} {args : List Value} {next : Heap × Value → NativeCode}
      {l : Local} {vm final : VM} {n : Nat} {outcome : Outcome} {reply : Local × Value}
      {log : List Invocation} {ended : Local × NativeOutcome}
      (hcall : Invoked rt vm (l.withHeap h) callee args (nativeNext next k) n outcome reply)
      (hrest : Transcript rt k (next (reply.1.heap, reply.2)) reply.1 (vm.run rt (n + 3)) log ended
        final) :
      Transcript rt k (.ask (.callFunction h callee args) next) l vm (⟨args, outcome⟩ :: log) ended
        final
  | answered {h : Heap} {id : Nat} {args : List Value} {next : Heap × Value → NativeCode}
      {l : Local} {vm final : VM} {n : Nat} {answer : Local × NativeOutcome} {reply : Local × Value}
      {log : List Invocation} {ended : Local × NativeOutcome}
      (hcall : Answered rt vm (l.withHeap h) id args (nativeNext next k) n answer)
      (hreply : nativeReply answer = .ok reply)
      (hrest : Transcript rt k (next (reply.1.heap, reply.2)) reply.1 (vm.run rt n) log ended final) :
      Transcript rt k (.ask (.callFunction h (.nativeFunction id) args) next) l vm
        (⟨args, .ofNative answer⟩ :: log) ended final
  | thrown {h : Heap} {id : Nat} {args : List Value} {next : Heap × Value → NativeCode}
      {l : Local} {vm : VM} {n : Nat} {answer : Local × NativeOutcome} {unwinding : Unwinding}
      (hcall : Answered rt vm (l.withHeap h) id args (nativeNext next k) n answer)
      (hreply : nativeReply answer = .error unwinding) :
      Transcript rt k (.ask (.callFunction h (.nativeFunction id) args) next) l vm
        [⟨args, .ofNative answer⟩] (unwinding.1, .runtimeError unwinding.2) (vm.run rt n)

/-- The calls that returned the values of the pairs, after those before. -/
def returnedCalls (b : FPBuiltin) (start : Value) (before : List (Value × Value)) :
    List (Value × Value) → List Invocation
  | [] => []
  | p :: pairs =>
      ⟨b.callArgs start before p.1, .returned p.2⟩ :: returnedCalls b start (before ++ [p]) pairs

/-- The end of a `CALL` of a builtin. -/
def callEnd (argCount : Nat) (ended : Local × NativeOutcome) : HandlerCode :=
  .done (.ok (nativeEnd argCount ended.1 ended.2).dispatchOrRefresh)

/-- The exception goes to the innermost try block of the `run` that called the builtin, or out of
it, with the frame as it was when the builtin ended. -/
def Delivers (rt : Runtime) (k : Local × NativeOutcome → HandlerCode) (exc : Value)
    (ended : Local × NativeOutcome) (final : VM) : Prop :=
  ∀ argCount, k = callEnd argCount → ∃ l : Local, l.frame = ended.1.frame ∧
    l.shared.pendingException = exc ∧ final.run rt 3 =
      if final.ownsTryBlock then ((final.sync l).goto .fault).deliver exc
      else (final.sync l).goto .leave

/-- How the calls for the rest of the elements should go: all of them return, or all before one that
raises. -/
inductive Ends (rt : Runtime) (b : FPBuiltin) (start : Value)
    (k : Local × NativeOutcome → HandlerCode) (before : List (Value × Value)) (rest : List Value) (log : List Invocation)
    (ended : Local × NativeOutcome) (final : VM) : Prop
  | returned (pairs : List (Value × Value)) (hlog : log = returnedCalls b start before pairs)
      (hfront : pairs.map Prod.fst <+: rest)
      (hgoes : ∀ front p q back, pairs = front ++ p :: q :: back → b.stops p.2 = false)
      (hall : pairs.map Prod.fst = rest ∨ ∃ front p, pairs = front ++ [p] ∧ b.stops p.2 = true)
      (hresult : ∃ v, ended.2 = .value v ∧ (b.result start (before ++ pairs)).Is ended.1.heap v)
      (hpending : ended.1.shared.pendingException.isNil = true)
  | raised (pairs : List (Value × Value)) (elem exc : Value)
      (hlog : log = returnedCalls b start before pairs ++
        [⟨b.callArgs start (before ++ pairs) elem, .raised exc⟩])
      (hfront : pairs.map Prod.fst ++ [elem] <+: rest) (hgoes : ∀ p ∈ pairs, b.stops p.2 = false)
      (hexc : exc.isNil = false) (hdelivers : Delivers rt k exc ended final)

/-- The builtin is transparent: the callback is called for the elements in order up to the first call
that raises, that exception is handed on, the caller's operands, frames and try blocks are as they
were, and if no call raises the result is the mathematical function. -/
structure Transparent (rt : Runtime) (b : FPBuiltin) (start : Value) (argCount : Nat)
    (elems : List Value) (l : Local) (vm : VM) (log : List Invocation) (ended : Local × NativeOutcome)
    (final : VM) : Prop where
  ends : Ends rt b start (callEnd argCount) [] elems log ended final
  frame : ended.1.frame = l.frame
  kept : Kept vm final
  control : final.control = .code (callEnd argCount ended)

section Transcripts

variable {rt : Runtime} {k : Local × NativeOutcome → HandlerCode} {α : Type} {loop : CallbackLoop α}
  {callee : Value} {l : Local} {vm final : VM} {log : List Invocation} {ended : Local × NativeOutcome}

/-- What stays the same to the end of a builtin. -/
structure Unmoved (k : Local × NativeOutcome → HandlerCode) (l : Local) (vm : VM)
    (ended : Local × NativeOutcome) (final : VM) : Prop where
  frame : ended.1.frame = l.frame
  kept : Kept vm final
  control : final.control = .code (k ended)

theorem kept_passed {next : Heap × Value → NativeCode} {args : List Value}
    (hcontrol : vm.control = .code (.ask (.call l callee args) (nativeNext next k))) :
    Kept vm (vm.run rt 1) := by
  have hstep : vm.run rt 1 =
      vm.goto (.code ((callFunction rt vm.ctx l callee args).run >>= nativeNext next k)) := by
    show vm.step rt = _
    unfold VM.step
    rw [hcontrol]
    rfl
  rw [hstep]
  exact ⟨rfl, rfl, rfl, rfl⟩

/-- With an exception pending the loop makes no call. -/
theorem passes {code : NativeCode} (ht : Transcript rt k code l vm log ended final)
    (hcode : (∃ rest acc h, code = loop.code callee rest acc h) ∨
      ∃ h v, code = .done (h, .value v))
    (hpending : l.shared.pendingException.isNil = false) :
    log = [] ∧ ended.1.shared.pendingException = l.shared.pendingException ∧
      ended.1.shared.running = l.shared.running ∧ (∃ v, ended.2 = .value v) ∧
      Unmoved k l vm ended final := by
  induction ht with
  | @done h out l vm hcontrol =>
      refine ⟨rfl, rfl, rfl, ?_, rfl, .refl vm, hcontrol⟩
      obtain ⟨rest, acc, h', hloop⟩ | ⟨h', v, hdone⟩ := hcode
      · cases rest with
        | nil =>
            rw [CallbackLoop.code] at hloop
            cases hloop
            exact ⟨_, rfl⟩
        | cons elem rest => cases hloop
      · cases hdone
        exact ⟨v, rfl⟩
  | @passed h callee' args next l vm final log ended hcontrol hdepth hpending' hrest ih =>
      obtain ⟨rest, acc, h', hloop⟩ | ⟨h', v, hdone⟩ := hcode
      · cases rest with
        | nil => cases hloop
        | cons elem rest =>
            rw [CallbackLoop.code] at hloop
            cases hloop
            have hnext := ih (by
              cases hn : loop.next acc elem .nil with
              | inl acc' => exact .inl ⟨rest, acc', h, by simp only [hn]⟩
              | inr result => exact .inr ⟨h, result, by simp only [hn]⟩) hpending
            obtain ⟨hlog, hsame, hrunning, hvalue, hframe, hkept, hend⟩ := hnext
            exact ⟨hlog, hsame, hrunning, hvalue, hframe, (kept_passed hcontrol).trans hkept, hend⟩
      · cases hdone
  | @invoked h callee' args next l vm final n outcome reply log ended hcall hrest ih =>
      have hnothing : l.shared.pendingException.isNil = true := hcall.pending
      rw [hpending] at hnothing
      cases hnothing
  | @answered h id args next l vm final n answer reply log ended hcall hreply hrest ih =>
      have hnothing : l.shared.pendingException.isNil = true := hcall.pending
      rw [hpending] at hnothing
      cases hnothing
  | @thrown h id args next l vm n answer unwinding hcall hreply =>
      have hnothing : l.shared.pendingException.isNil = true := hcall.pending
      rw [hpending] at hnothing
      cases hnothing

/-- A builtin that ends with an exception recorded has it delivered. -/
theorem delivers_of_refused {exc : Value}
    (hcontrol : final.control = .code (k ended)) (hexc : exc.isNil = false)
    (hrefused : ∀ argCount, ∃ l' : Local, l'.frame = ended.1.frame ∧
      l'.shared.pendingException = exc ∧ l'.shared.running = false ∧
      nativeEnd argCount ended.1 ended.2 = .refused l') :
    Delivers rt k exc ended final := by
  rintro argCount rfl
  obtain ⟨l', hframe, hpending, hrunning, hend⟩ := hrefused argCount
  have hcode : final.control = .code (.done (.ok (.dispatch l'))) := by
    rw [hcontrol, callEnd, hend]
    rfl
  have hfirst : final.run rt 1 = (final.sync l').goto .dispatch := by
    show final.step rt = _
    unfold VM.step
    rw [hcode]
    rfl
  have hsecond : final.run rt 2 = (final.sync l').goto .fault := by
    rw [run_succ, hfirst]
    unfold VM.step
    show (if (final.sync l').shared.running = true then _ else _) = _
    rw [show (final.sync l').shared.running = false from hrunning]
    rfl
  have howned : ((final.sync l').goto .fault).ownsTryBlock = final.ownsTryBlock := rfl
  refine ⟨l', hframe, hpending, ?_⟩
  rw [run_succ, hsecond]
  unfold VM.step
  show handleFault ((final.sync l').goto .fault) = _
  unfold handleFault
  rw [show ((final.sync l').goto .fault).shared.pendingException = exc from hpending, hexc,
    if_neg (Bool.false_ne_true), howned]
  rfl

/-- A value comes with an exception pending. -/
theorem refused_of_pending {exc v : Value} (hvalue : ended.2 = .value v)
    (hpending : ended.1.shared.pendingException = exc) (hexc : exc.isNil = false)
    (hrunning : ended.1.shared.running = false) (argCount : Nat) :
    ∃ l' : Local, l'.frame = ended.1.frame ∧ l'.shared.pendingException = exc ∧
      l'.shared.running = false ∧ nativeEnd argCount ended.1 ended.2 = .refused l' := by
  refine ⟨ended.1, rfl, hpending, hrunning, ?_⟩
  rw [hvalue]
  simp only [nativeEnd, hpending, hexc, if_neg (Bool.false_ne_true)]

theorem isNil_of_raised_ne_nil {exc : Value} (h : Outcome.raised exc ≠ .raised .nil) :
    exc.isNil = false := by
  cases exc with
  | nil => exact absurd rfl h
  | _ => rfl

theorem callArgs_length (b : FPBuiltin) (start : Value) (pairs : List (Value × Value))
    (elem : Value) : (b.callArgs start pairs elem).length < 256 := by
  cases b <;> simp [FPBuiltin.callArgs]

/-- One more element before the rest. -/
theorem Ends.cons {b : FPBuiltin} {start elem v : Value} {before : List (Value × Value)}
    {rest : List Value} (hgoes : b.stops v = false)
    (h : Ends rt b start k (before ++ [(elem, v)]) rest log ended final) :
    Ends rt b start k before (elem :: rest) (⟨b.callArgs start before elem, .returned v⟩ :: log) ended
      final := by
  cases h with
  | returned pairs hlog hfront hgoes' hall hresult hpending =>
      refine .returned ((elem, v) :: pairs) (by rw [hlog]; rfl) ?_ ?_ ?_ ?_ hpending
      · rw [List.map_cons]
        exact List.cons_prefix_cons.mpr ⟨rfl, hfront⟩
      · intro front p q back hpairs
        cases front with
        | nil =>
            obtain rfl := (List.cons.inj hpairs).1
            exact hgoes
        | cons first front => exact hgoes' front p q back (List.cons.inj hpairs).2
      · obtain hall | ⟨front, p, rfl, hstops⟩ := hall
        · exact .inl (by rw [List.map_cons, hall])
        · exact .inr ⟨(elem, v) :: front, p, rfl, hstops⟩
      · rw [List.append_assoc] at hresult
        exact hresult
  | raised pairs last exc hlog hfront hgoes' hexc hdelivers =>
      refine .raised ((elem, v) :: pairs) last exc ?_ ?_ ?_ hexc hdelivers
      · rw [hlog, List.append_assoc]
        rfl
      · rw [List.map_cons, List.cons_append]
        exact List.cons_prefix_cons.mpr ⟨rfl, hfront⟩
      · intro p hp
        obtain rfl | hp := List.mem_cons.mp hp
        · exact hgoes
        · exact hgoes' p hp

/-- The calls for the rest of the elements go as they should if none of them raises nil. -/
def LoopEnds (rt : Runtime) (k : Local × NativeOutcome → HandlerCode) (loop : CallbackLoop α)
    (callee : Value) (b : FPBuiltin) (start : Value) (acc : List (Value × Value) → α)
    (rest : List Value) : Prop :=
  ∀ before h l vm log ended final,
    Transcript rt k (loop.code callee rest (acc before) h) l vm log ended final →
    l.shared.pendingException.isNil = true →
    (∀ tb ∈ vm.tryStack, tb.frameIdx < vm.frames.tail.length + 1) →
    (∀ p ∈ before, b.stops p.2 = false) → (∀ inv ∈ log, inv.outcome ≠ .raised .nil) →
      Ends rt b start k before rest log ended final ∧ Unmoved k l vm ended final

section Loop

variable {b : FPBuiltin} {start elem : Value} {acc : List (Value × Value) → α} {rest : List Value}
  {before : List (Value × Value)}

theorem loopEnds_nil (hcomputes : Computes loop b start acc) :
    LoopEnds rt k loop callee b start acc [] := by
  intro before h l vm log ended final ht hpending _ hbefore _
  rw [CallbackLoop.code] at ht
  cases ht with
  | done hcontrol =>
      refine ⟨.returned [] rfl List.prefix_rfl ?_ (.inl rfl) ⟨_, rfl, ?_⟩ hpending,
        rfl, .refl _, hcontrol⟩
      · intro front p q back hpairs
        cases front <;> cases hpairs
      · rw [List.append_nil]
        exact hcomputes.finish before h hbefore

/-- After a call for an element. -/
theorem loopEnds_reply (hcomputes : Computes loop b start acc)
    (hloop : LoopEnds rt k loop callee b start acc rest) {outcome : Outcome} {reply : Local × Value}
    {vm' : VM} (hframe : reply.1.frame = l.frame) (hreply : outcome.Reply reply.1 reply.2)
    (hkept : Kept vm vm')
    (hrest : Transcript rt k
      (match loop.next (acc before) elem reply.2 with
        | .inl acc => loop.code callee rest acc reply.1.heap
        | .inr result => .done (reply.1.heap, .value result)) reply.1 vm' log ended final)
    (htry : ∀ tb ∈ vm.tryStack, tb.frameIdx < vm.frames.tail.length + 1)
    (hbefore : ∀ p ∈ before, b.stops p.2 = false)
    (hraised : ∀ inv ∈ (⟨b.callArgs start before elem, outcome⟩ : Invocation) :: log,
      inv.outcome ≠ .raised .nil) :
    Ends rt b start k before (elem :: rest) (⟨b.callArgs start before elem, outcome⟩ :: log) ended
      final ∧ Unmoved k l vm ended final := by
  cases outcome with
  | returned v =>
      obtain ⟨hvalue, hnothing, -⟩ := hreply
      rw [hvalue] at hrest
      cases hstops : b.stops v with
      | false =>
          rw [hcomputes.goes before elem v hstops] at hrest
          have hbefore' : ∀ p ∈ before ++ [(elem, v)], b.stops p.2 = false := by
            intro p hp
            obtain hp | hp := List.mem_append.mp hp
            · exact hbefore p hp
            · rw [List.mem_singleton.mp hp]
              exact hstops
          obtain ⟨hends, hunmoved⟩ := hloop _ _ _ _ _ _ _ hrest hnothing
            (by rw [hkept.tryStack, hkept.frames]; exact htry) hbefore'
            fun inv hinv => hraised inv (List.mem_cons_of_mem _ hinv)
          exact ⟨hends.cons hstops, hunmoved.frame.trans hframe, hkept.trans hunmoved.kept,
            hunmoved.control⟩
      | true =>
          obtain ⟨w, hnext, hresult⟩ := hcomputes.stops before elem v hbefore hstops
          rw [hnext] at hrest
          cases hrest with
          | done hcontrol =>
              refine ⟨.returned [(elem, v)] rfl ?_ ?_ (.inr ⟨[], _, rfl, hstops⟩) ⟨w, rfl, ?_⟩
                hnothing, hframe, hkept, hcontrol⟩
              · exact List.cons_prefix_cons.mpr ⟨rfl, List.nil_prefix⟩
              · intro front p q back hpairs
                have hlength := congrArg List.length hpairs
                simp only [List.length_append, List.length_cons, List.length_nil] at hlength
                omega
              · rw [hresult]
                rfl
  | raised exc =>
      have hexc := isNil_of_raised_ne_nil (hraised _ List.mem_cons_self)
      obtain ⟨hheld, hstopped⟩ := hreply hexc
      have hpasses := @passes rt k α loop callee _ _ _ _ _ _ hrest (by
        cases loop.next (acc before) elem reply.2 with
        | inl acc' => exact .inl ⟨rest, acc', reply.1.heap, rfl⟩
        | inr result => exact .inr ⟨reply.1.heap, result, rfl⟩) (by rw [hheld]; exact hexc)
      obtain ⟨rfl, hsame, hrunning, ⟨w, hw⟩, hunmoved⟩ := hpasses
      refine ⟨.raised [] elem exc ?_ ?_ (by simp) hexc ?_, hunmoved.frame.trans hframe,
        hkept.trans hunmoved.kept, hunmoved.control⟩
      · rw [List.append_nil]
        rfl
      · exact List.cons_prefix_cons.mpr ⟨rfl, List.nil_prefix⟩
      · exact delivers_of_refused hunmoved.control hexc
          (refused_of_pending hw (hsame.trans hheld) hexc (hrunning.trans hstopped))

theorem loopEnds_cons (hcomputes : Computes loop b start acc)
    (hloop : LoopEnds rt k loop callee b start acc rest) :
    LoopEnds rt k loop callee b start acc (elem :: rest) := by
  intro before h l vm log ended final ht hpending htry hbefore hraised
  have hargs := hcomputes.args before elem
  rw [CallbackLoop.code] at ht
  cases ht with
  | passed hcontrol hdepth hpending' hrest =>
      rw [hpending] at hpending'
      cases hpending'
  | invoked hcall hrest =>
      have hshort : (loop.args (acc before) elem).length < 256 := by
        rw [hargs]
        exact callArgs_length b start before elem
      obtain ⟨hframe, hreply, hkept⟩ := hcall.replies hshort htry
      rw [hargs] at hraised ⊢
      exact loopEnds_reply hcomputes hloop hframe hreply hkept hrest htry hbefore hraised
  | answered hcall hreply hrest =>
      obtain ⟨hframe, hreply'⟩ := hcall.replies hreply
      rw [hargs] at hraised ⊢
      exact loopEnds_reply hcomputes hloop hframe hreply' hcall.kept hrest htry hbefore hraised
  | @thrown h id args next l vm n answer unwinding hcall hreply =>
      have hframe := hcall.ends.frame
      have hrun := hcall.run
      obtain ⟨l', out⟩ := answer
      cases out with
      | value v => cases hreply
      | stdException what => cases hreply
      | runtimeError exc =>
          obtain rfl := Except.error.inj hreply
          have hexc : (l'.shared.recordFault exc).pendingException.isNil = false :=
            isNil_of_raised_ne_nil (hraised _ List.mem_cons_self)
          have hcontrol : (vm.run rt n).control = .code (k (l', .runtimeError exc)) := by
            rw [hrun]
            rfl
          refine ⟨.raised [] elem _ ?_ ?_ (by simp) hexc ?_, hframe, hcall.kept, hcontrol⟩
          · rw [List.append_nil, ← hargs]
            rfl
          · exact List.cons_prefix_cons.mpr ⟨rfl, List.nil_prefix⟩
          · exact delivers_of_refused hcontrol hexc fun _ =>
              ⟨l'.withShared (l'.shared.recordFault exc), rfl, rfl, rfl, rfl⟩

theorem loopEnds (hcomputes : Computes loop b start acc) (rest : List Value) :
    LoopEnds rt k loop callee b start acc rest := by
  induction rest with
  | nil => exact loopEnds_nil hcomputes
  | cons elem rest ih => exact loopEnds_cons hcomputes ih

end Loop

/-- No call that went as it should raised nil. -/
theorem Ends.raised_ne_nil {b : FPBuiltin} {start : Value} {rest : List Value}
    (h : Ends rt b start k [] rest log ended final) : ∀ inv ∈ log, inv.outcome ≠ .raised .nil := by
  have hreturned : ∀ pairs before, ∀ inv ∈ returnedCalls b start before pairs,
      inv.outcome ≠ .raised .nil := by
    intro pairs
    induction pairs with
    | nil => intro before inv hinv; cases hinv
    | cons p pairs ih =>
        intro before inv hinv
        obtain rfl | hinv := List.mem_cons.mp hinv
        · exact fun h => nomatch h
        · exact ih _ inv hinv
  intro inv hinv
  cases h with
  | returned pairs hlog _ _ _ _ _ =>
      rw [hlog] at hinv
      exact hreturned pairs [] inv hinv
  | raised pairs elem exc hlog _ _ hexc _ =>
      rw [hlog] at hinv
      obtain hinv | hinv := List.mem_append.mp hinv
      · exact hreturned pairs [] inv hinv
      · rw [List.mem_singleton.mp hinv]
        intro hnil
        rw [Outcome.raised.inj hnil] at hexc
        cases hexc

/-- The code of a builtin for an array is its loop. -/
theorem elements_ends {b : FPBuiltin} {start : Value} {elems : List Value} {h : Heap}
    (ht : Transcript rt k (b.elements callee start elems h) l vm log ended final)
    (hpending : l.shared.pendingException.isNil = true)
    (htry : ∀ tb ∈ vm.tryStack, tb.frameIdx < vm.frames.tail.length + 1)
    (hraised : ∀ inv ∈ log, inv.outcome ≠ .raised .nil) :
    Ends rt b start k [] elems log ended final ∧ Unmoved k l vm ended final := by
  have hnone : ∀ p ∈ ([] : List (Value × Value)), b.stops p.2 = false := fun _ hp => nomatch hp
  cases b with
  | map =>
      exact loopEnds (mapLoop_computes start) elems _ _ _ _ _ _ _ ht hpending htry hnone hraised
  | filter =>
      exact loopEnds (filterLoop_computes start) elems _ _ _ _ _ _ _ ht hpending htry hnone hraised
  | reduce =>
      exact loopEnds (reduceLoop_computes start) elems _ _ _ _ _ _ _ ht hpending htry hnone hraised
  | forEach =>
      exact loopEnds (forEachLoop_computes start) elems _ _ _ _ _ _ _ ht hpending htry hnone hraised
  | find =>
      exact loopEnds (findLoop_computes start) elems _ _ _ _ _ _ _ ht hpending htry hnone hraised
  | every =>
      exact loopEnds (everyLoop_computes start) elems _ _ _ _ _ _ _ ht hpending htry hnone hraised
  | some =>
      exact loopEnds (someLoop_computes start) elems _ _ _ _ _ _ _ ht hpending htry hnone hraised

end Transcripts

/-! ### The start of a builtin -/

section Builtin

variable {rt : Runtime} {id argCount : Nat} {l : Local} {vm : VM}

/-- One step of a `CALL` starts the code of the builtin. -/
theorem run_builtin (harity : ¬(0 ≤ rt.nativeArity id ∧ (argCount : Int) < rt.nativeArity id))
    (hcontrol : vm.control =
      .code (Handler.callAndRefresh rt vm.ctx l (.nativeFunction id) argCount).run) :
    vm.run rt 1 = vm.goto (.code (ofNative l (rt.native id (l.ops.take argCount).reverse l.heap) >>=
      callEnd argCount)) := by
  have hcode : (Handler.callAndRefresh rt vm.ctx l (.nativeFunction id) argCount).run =
      .ask (.native l id (l.ops.take argCount).reverse) fun ended => callEnd argCount ended := by
    unfold Handler.callAndRefresh
    show ((dispatchCallee rt vm.ctx (.nativeFunction id) l argCount (some l.frame.ip) >>= _) :
      Proc Exit).run = _
    unfold dispatchCallee
    rw [if_neg harity]
    rfl
  show vm.step rt = _
  unfold VM.step
  rw [hcontrol, hcode]
  rfl

end Builtin

/-! ### Runs of a script -/

/-- The runtime of the concrete runs with `map` for its builtins. -/
def mapping : Runtime :=
  { Runtime.bare with
    native := fun _ => FPBuiltin.map.code
    nativeName := fun _ => lit "map"
    nativeArity := fun _ => 2 }

def callbackFunction (callback : List Instr) : FunctionObj :=
  { FunctionObj.ofCode (lit "callback") callback with arity := 1 }

/-- The `CALL` in `try { map([7], callback) } catch (e) { }`. -/
def mapCall (callback : List Instr) : Local where
  frame :=
    { function := 0, ip := 5, slots := [], ops := [.closure 0, .array 0, .nativeFunction 0],
      superCalled := false, closureUpvalues := [] }
  upvalues := []
  shared := Shared.start
    { Heap.ofProgram
        [FunctionObj.ofCode []
          [.TRY_START 7, .LOAD_CONST (some (.nativeFunction 0)), .LOAD_CONST (some (.array 0)),
            .LOAD_CONST (some (.closure 0)), .CALL 2, .POP, .TRY_END, .JUMP 1, .POP, .END],
          callbackFunction callback] [] [] with
      arrays := fun _ => [.int 7]
      closures := fun _ => { function := 1, upvalues := [] } }

def mapScript (callback : List Instr) : VM where
  frames := [(mapCall callback).frame]
  frameUpvalues := [[]]
  tryStack := [{ frameIdx := 0, catchIp := 8, depth := 0 }]
  activations := []
  start := 1
  shared := (mapCall callback).shared
  control := .code (Handler.callAndRefresh mapping { frameCount := 1, stackBelow := 0 }
    (mapCall callback) (.nativeFunction 0) 2).run

/-- `return 1` -/
def returnOne : List Instr := [.LOAD_CONST (some (.int 1)), .RETURN]

/-- `throw nil` -/
def throwNil : List Instr := [.LOAD_CONST (some .nil), .THROW]

theorem ofNative_ask (l : Local) (h : Heap) (callee : Value) (args : List Value)
    (next : Heap × Value → NativeCode) (k : Local × NativeOutcome → HandlerCode) :
    (ofNative l (.ask (.callFunction h callee args) next) >>= k) =
      .ask (.call (l.withHeap h) callee args) (nativeNext next k) := by
  rw [ofNative]
  show Resumption.ask _ _ = _
  congr 1
  funext r
  cases r <;> rfl

theorem mapCall_code (callback : List Instr) :
    FPBuiltin.map.code [.array 0, .closure 0] (mapCall callback).heap =
      .ask (.callFunction (mapCall callback).heap (.closure 0) [.int 7]) fun r =>
        .done ((makeArray [r.2] r.1).1, .value (makeArray [r.2] r.1).2) := rfl

/-- The script is about to call the callback. -/
theorem mapScript_asks (callback : List Instr) :
    ((mapScript callback).run mapping 1).control =
      .code (.ask (.call ((mapCall callback).withHeap (mapCall callback).heap) (.closure 0) [.int 7])
        (nativeNext (fun r => .done ((makeArray [r.2] r.1).1, .value (makeArray [r.2] r.1).2))
          (callEnd 2))) := by
  have hstart : (mapScript callback).run mapping 1 =
      (mapScript callback).goto (.code (ofNative (mapCall callback)
        (FPBuiltin.map.code [.array 0, .closure 0] (mapCall callback).heap) >>= callEnd 2)) :=
    @run_builtin mapping 0 2 (mapCall callback) (mapScript callback) (by decide) rfl
  rw [hstart, mapCall_code, ofNative_ask]
  rfl

/-- The frame that the script's is below. -/
def mapBelow (callback : List Instr) : Local :=
  ((mapCall callback).push (.closure 0)).withShared
    { (mapCall callback).shared with cxxFrameDepth := 1 }

/-- The frame of the callback. -/
def callbackFrame : Frame :=
  { function := 1, ip := 0, slots := [.value (.int 7)], ops := [], superCalled := false,
    closureUpvalues := [] }

theorem mapScript_pushes (callback : List Instr) :
    dispatchCall mapping ((mapScript callback).run mapping 1).ctx (.closure 0)
      (enterCall ((mapCall callback).withHeap (mapCall callback).heap) (.closure 0) [.int 7]) 1 none =
      pure (.pushed (mapBelow callback) callbackFrame []) := by
  have hctx : ((mapScript callback).run mapping 1).ctx = { frameCount := 1, stackBelow := 0 } := rfl
  have hpush : pushCallFrame mapping { frameCount := 1, stackBelow := 0 } (mapBelow callback) 1
      [.int 7] [] = .pushed (mapBelow callback) callbackFrame [] := by
    unfold pushCallFrame
    rw [if_neg (by show ¬(4096 ≤ 1); omega),
      if_neg (by show ¬(65536 < 0 + 4 + 1 + 0 + STACK_HEADROOM); decide)]
    rfl
  have haccepts : (callbackFunction callback).accepts 1 = true := rfl
  have hdispatch : dispatchFunction mapping { frameCount := 1, stackBelow := 0 }
      (enterCall ((mapCall callback).withHeap (mapCall callback).heap) (.closure 0) [.int 7])
      (.closure 0) 1 [] 1 false = pushCallFrame mapping { frameCount := 1, stackBelow := 0 }
        (mapBelow callback) 1 [.int 7] [] := by
    unfold dispatchFunction
    dsimp only
    rw [if_neg (fun h => h haccepts)]
    rw [if_neg (fun h => nomatch h.1)]
    rfl
  rw [hctx]
  show (pure (dispatchFunction mapping { frameCount := 1, stackBelow := 0 }
    (enterCall ((mapCall callback).withHeap (mapCall callback).heap) (.closure 0) [.int 7])
    (.closure 0) 1 [] 1 false) : Proc Dispatched) = _
  rw [hdispatch, hpush]

/-- The `run` of the callback. -/
def mapEntered (callback : List Instr) : VM where
  frames := [callbackFrame, (mapBelow callback).frame]
  frameUpvalues := [[], []]
  tryStack := [{ frameIdx := 0, catchIp := 8, depth := 0 }]
  activations :=
    [{ start := 1, framesBefore := 1,
       k := fun ended => nativeNext
        (fun r => .done ((makeArray [r.2] r.1).1, .value (makeArray [r.2] r.1).2)) (callEnd 2)
        (.ok (finishCall ((mapCall callback).withHeap (mapCall callback).heap) ended.1 ended.2)) }]
  start := 2
  shared := (mapBelow callback).shared
  control := .dispatch

theorem mapScript_run (callback : List Instr) (n : Nat) :
    ((mapScript callback).run mapping 1).run mapping (n + 2) =
      (mapEntered callback).run mapping n := by
  have hdepth : ((mapCall callback).withHeap (mapCall callback).heap).shared.cxxFrameDepth < 200 :=
    Nat.succ_pos 199
  rw [run_add, run_two (mapScript_asks callback) hdepth rfl (mapScript_pushes callback)]
  rfl

/-- The end of the callback, for `map`. -/
def mapReply (callback : List Instr) (n : Nat) (top : Local) : Local × Value :=
  finishCall ((mapCall callback).withHeap (mapCall callback).heap) top
    (stackTop ((mapEntered callback).run mapping n).shared.toHeap
      ((mapEntered callback).run mapping n).frames)

/-- The end of `map`. -/
def mapEnded (reply : Local × Value) : Local × NativeOutcome :=
  (reply.1.withHeap (makeArray [reply.2] reply.1.heap).1,
    .value (makeArray [reply.2] reply.1.heap).2)

/-- Before it leaves, the callback opens and ends no try block. -/
def Quiet (vm : VM) : Prop :=
  match vm.control with
  | .dispatch | .code (.done (.ok (.dispatch _))) | .code (.done (.ok (.returned _ _)))
  | .code (.done (.ok (.thrown _ _))) => True
  | _ => False

theorem Quiet.goesOn {vm : VM} {b : Below} (h : Quiet vm) : ¬Leaving b vm ∧ vm.EndsOwnBlock := by
  constructor
  · intro hleaving
    unfold Quiet at h
    rw [hleaving.1] at h
    exact h
  · intro l hcontrol
    unfold Quiet at h
    rw [hcontrol] at h
    exact h.elim

theorem mapScript_transcript {callback : List Instr} {n : Nat} {outcome : Outcome} {top : Local}
    (hleave : ((mapEntered callback).run mapping n).control = .leave)
    (hactivations : ((mapEntered callback).run mapping n).activations.length = 1)
    (hway : ∀ m < n, Quiet ((mapEntered callback).run mapping m))
    (houtcome : outcome = Outcome.of 1 ((mapEntered callback).run mapping n))
    (htidy : outcome.Tidy ((mapEntered callback).run mapping n))
    (htop : ((mapEntered callback).run mapping (n + 1)).top = some top)
    (hreplied : ((mapEntered callback).run mapping (n + 1)).control = .code (nativeNext
      (fun r => .done ((makeArray [r.2] r.1).1, .value (makeArray [r.2] r.1).2)) (callEnd 2)
      (.ok (mapReply callback n top)))) :
    Transcript mapping (callEnd 2)
      (mapping.native 0 ((mapCall callback).ops.take 2).reverse (mapCall callback).heap)
      (mapCall callback) ((mapScript callback).run mapping 1) [⟨[.int 7], outcome⟩]
      (mapEnded (mapReply callback n top)) ((mapEntered callback).run mapping (n + 1)) := by
  have hdepth : ((mapCall callback).withHeap (mapCall callback).heap).shared.cxxFrameDepth < 200 :=
    Nat.succ_pos 199
  have hcode : mapping.native 0 ((mapCall callback).ops.take 2).reverse (mapCall callback).heap =
      .ask (.callFunction (mapCall callback).heap (.closure 0) [.int 7]) fun r =>
        .done ((makeArray [r.2] r.1).1, .value (makeArray [r.2] r.1).2) := mapCall_code callback
  have hframes : ((mapScript callback).run mapping 1).frames.tail.length + 1 = 1 := rfl
  have hcall : Invoked mapping ((mapScript callback).run mapping 1)
      ((mapCall callback).withHeap (mapCall callback).heap) (.closure 0) [.int 7]
      (nativeNext (fun r => .done ((makeArray [r.2] r.1).1, .value (makeArray [r.2] r.1).2))
        (callEnd 2)) n outcome (mapReply callback n top) := by
    refine ⟨mapScript_asks callback, hdepth, rfl, rfl, rfl,
      ⟨mapBelow callback, callbackFrame, [], mapScript_pushes callback, ?_, ?_⟩, ?_, ?_,
      ⟨top, ?_, ?_⟩, ?_⟩
    · rw [mapScript_run]
      exact ⟨hleave, hactivations⟩
    · intro m hm
      rw [mapScript_run]
      exact (hway m hm).goesOn
    · rw [mapScript_run, hframes]
      exact houtcome
    · rw [mapScript_run]
      exact htidy
    · rw [mapScript_run]
      exact htop
    · rw [mapScript_run]
      rfl
    · rw [mapScript_run]
      exact hreplied
  rw [hcode]
  refine .invoked hcall ?_
  rw [mapScript_run]
  refine .done ?_
  rw [hreplied]
  rfl

theorem mapScript_returns : ∃ top, Transcript mapping (callEnd 2)
    (mapping.native 0 ((mapCall returnOne).ops.take 2).reverse (mapCall returnOne).heap)
    (mapCall returnOne) ((mapScript returnOne).run mapping 1) [⟨[.int 7], .returned (.int 1)⟩]
    (mapEnded (mapReply returnOne 4 top)) ((mapEntered returnOne).run mapping 5) := by
  refine ⟨_, mapScript_transcript rfl rfl ?_ rfl rfl rfl rfl⟩
  intro m hm
  rcases m with _ | _ | _ | _ | m
  · trivial
  · trivial
  · trivial
  · trivial
  · omega

/-! ### Transparency -/

section Transparency

variable {rt : Runtime} {b : FPBuiltin} {id argCount r : Nat} {l : Local} {vm final : VM}
  {log : List Invocation} {ended : Local × NativeOutcome}

end Transparency

end VM

end EZLanguage
