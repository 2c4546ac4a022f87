import EZLanguage.VM.Invariant

/-!
# Faults reach their try block

A fault travels as `pendingException` with `running` off, and `handle_vm_fault` gives it to the innermost
try block of the running `run`. Two things can lose it on the way: a handler that leaves `run` by a bare
`return`, and a `callFunction` whose `dispatchCall` refuses the call, since `restoreState` turns `running`
on again. In every run that does neither, each fault is delivered.
-/

namespace EZLanguage

/-! ### Calls that are not refused -/

/-- Whether a builtin ends with a value, without asking for anything. -/
def returnsValue : NativeCode → Bool
  | .done (_, .value _) => true
  | _ => false

/-- Whether `dispatchCall` of a callee other than a super value takes the call. -/
def answersCallee (rt : Runtime) : Value → Local → Nat → Bool
  | .nativeFunction id, l, argCount =>
      !decide (0 ≤ rt.nativeArity id ∧ (argCount : Int) < rt.nativeArity id) &&
        returnsValue (rt.native id (l.ops.take argCount).reverse l.heap)
  | .boundMethod receiver method, l, argCount =>
      argCount < 255 &&
        answersCallee rt method
          (l.withOps (l.ops.take argCount ++ receiver :: method :: l.ops.drop (argCount + 1)))
          (argCount + 1)
  | .closure r, l, argCount =>
      (l.shared.functions (l.shared.closures r).function).accepts argCount
  | .function r, l, argCount =>
      match rt.compileEZFunction r with
      | none => false
      | some bcFunc => (l.shared.functions bcFunc).accepts argCount
  | .klass _, _, _ => true
  | _, _, _ => false

/-- Whether `dispatchCall` takes the call. -/
def answers (rt : Runtime) (callee : Value) (l : Local) (argCount : Nat) : Bool :=
  match callee with
  | .super instRef parentKlass =>
      match lookup (l.shared.classes parentKlass).methods (lit "init") with
      | none | some .nil => false
      | some method =>
          let bound := Value.boundMethod (.inst instRef) method
          let called := { l with frame := { l.frame with superCalled := true } }
          !l.frame.superCalled &&
            answersCallee rt bound
              (called.withOps (l.ops.take argCount ++ bound :: l.ops.drop (argCount + 1))) argCount
  | callee => answersCallee rt callee l argCount

/-- Whether `dispatchCall` is done with a callee without running anything. -/
def dispatchedAtOnce : Value → Bool
  | .nativeFunction _ | .klass _ | .super _ _ => false
  | .boundMethod _ method => dispatchedAtOnce method
  | _ => true

/-- The call was taken. -/
def Dispatched.Answered : Dispatched → Prop
  | .queued l _ => l.shared.pendingException.isNil = true
  | .refused _ => False
  | _ => True

/-- A fault that is pending has stopped the dispatch. -/
def discipline (rt : Runtime) (strict : Bool) : LocalInvariant where
  holds l := l.shared.pendingException.isNil = false → l.shared.running = false
  unwinds _ := True
  left l := strict = true → l.shared.pendingException.isNil = true
  native l id args r :=
    ∀ h v, rt.native id args l.heap = .done (h, .value v) → r = (l.withHeap h, .value v)
  unwinds_of_holds _ := trivial
  frame _ := Iff.rfl
  heap _ _ := Iff.rfl
  recordFault _ _ _ := rfl
  restart hl := hl

section Answers

variable {rt : Runtime} {ctx : Ctx} {strict : Bool} {l : Local}

theorem pushCallFrame_answered {bcFunc : Nat} {args : List Value} {upvalues : ClosureState} :
    (pushCallFrame rt ctx l bcFunc args upvalues).Answered := by
  unfold pushCallFrame
  dsimp only
  split
  · trivial
  split <;> trivial

theorem dispatchFunction_answered {callee : Value} {bcFunc : Nat} {upvalues : ClosureState}
    {argCount : Nat} {bypass : Bool} (hpending : l.shared.pendingException.isNil = true)
    (haccepts : (l.shared.functions bcFunc).accepts argCount = true) :
    (dispatchFunction rt ctx l callee bcFunc upvalues argCount bypass).Answered := by
  unfold dispatchFunction
  simp only [haccepts, not_true_eq_false, if_false]
  split
  · show Value.isNil (Shared.pendingException _) = true
    split
    · exact hpending
    · exact hpending
  · exact pushCallFrame_answered

theorem answersCallee_keeps {callee : Value} {argCount : Nat} {callSite : Option Nat}
    (hpending : l.shared.pendingException.isNil = true)
    (hanswers : answersCallee rt callee l argCount = true) :
    (discipline rt strict).Keeps
      (fun d => (discipline rt strict).OfDispatched d ∧ d.Answered)
      (dispatchCallee rt ctx callee l argCount callSite) := by
  have hl : (discipline rt strict).holds l := by simp [discipline, hpending]
  induction callee generalizing l argCount callSite with
  | nativeFunction id =>
      simp only [answersCallee, Bool.and_eq_true, Bool.not_eq_true', decide_eq_false_iff_not]
        at hanswers
      obtain ⟨harity, hvalue⟩ := hanswers
      unfold dispatchCallee
      rw [if_neg harity]
      refine (LocalInvariant.keeps_native id _ hl).bind fun ended hended => ?_
      obtain ⟨h, v, hnative⟩ :
          ∃ h v, rt.native id (l.ops.take argCount).reverse l.heap = .done (h, .value v) := by
        unfold returnsValue at hvalue
        split at hvalue
        · exact ⟨_, _, by assumption⟩
        · cases hvalue
      obtain rfl := hended.2 h v hnative
      refine ⟨(discipline rt strict).nativeEnd_keeps argCount hended.1, ?_⟩
      have hpending' : (l.withHeap h).shared.pendingException.isNil = true := hpending
      simp only [nativeEnd, hpending', if_true, Dispatched.Answered]
  | boundMethod receiver method _ ih =>
      simp only [answersCallee, Bool.and_eq_true, decide_eq_true_eq] at hanswers
      unfold dispatchCallee
      rw [if_neg (by omega)]
      exact ih hpending hanswers.2 hl
  | closure r =>
      exact ⟨(discipline rt strict).dispatchFunction_keeps rt ctx _ _ _ _ _ hl,
        dispatchFunction_answered hpending hanswers⟩
  | function r =>
      unfold answersCallee at hanswers
      unfold dispatchCallee
      split
      · rename_i hcompile
        simp [hcompile] at hanswers
      · rename_i bcFunc hcompile
        simp only [hcompile] at hanswers
        exact ⟨(discipline rt strict).dispatchFunction_keeps rt ctx _ _ _ _ _ hl,
          dispatchFunction_answered hpending hanswers⟩
  | klass r =>
      unfold dispatchCallee
      refine ((discipline rt strict).instantiate_keeps r _ hl).bind fun made hmade => ?_
      exact ⟨hmade, trivial⟩
  | _ => simp [answersCallee] at hanswers

theorem answers_keeps {callee : Value} {argCount : Nat} {callSite : Option Nat}
    (hpending : l.shared.pendingException.isNil = true)
    (hanswers : answers rt callee l argCount = true) :
    (discipline rt strict).Keeps
      (fun d => (discipline rt strict).OfDispatched d ∧ d.Answered)
      (dispatchCall rt ctx callee l argCount callSite) := by
  cases callee with
  | super instRef parentKlass =>
      unfold answers at hanswers
      unfold dispatchCall
      dsimp only at hanswers ⊢
      split
      · rename_i hinit
        simp [hinit] at hanswers
      · rename_i hinit
        simp [hinit] at hanswers
      · rename_i method hmethod hinit
        simp only [hinit, Bool.and_eq_true, Bool.not_eq_true'] at hanswers
        rw [hanswers.1, if_neg (by simp)]
        exact answersCallee_keeps hpending hanswers.2
  | _ => exact answersCallee_keeps hpending hanswers

theorem answered_returning {d : Dispatched} (hd : (discipline rt strict).OfDispatched d)
    (hanswered : d.Answered) : (discipline rt strict).OfReturning d := by
  refine ⟨hd, ?_⟩
  cases d with
  | queued l v => exact fun _ => hanswered
  | refused l => exact hanswered.elim
  | _ => trivial

theorem dispatchedAtOnce_pure (rt : Runtime) (ctx : Ctx) (l : Local) (argCount : Nat)
    (callSite : Option Nat) {callee : Value} (h : dispatchedAtOnce callee = true) :
    ∃ d, dispatchCall rt ctx callee l argCount callSite = pure d := by
  have hcallee : ∃ d, dispatchCallee rt ctx callee l argCount callSite = pure d := by
    induction callee generalizing l argCount callSite with
    | boundMethod receiver method _ ih =>
        unfold dispatchCallee
        split
        · exact ⟨_, rfl⟩
        · exact ih _ _ _ h
    | function r =>
        unfold dispatchCallee
        split <;> exact ⟨_, rfl⟩
    | nativeFunction id => cases h
    | klass r => cases h
    | _ => exact ⟨_, rfl⟩
  cases callee with
  | super instRef parentKlass => cases h
  | _ => exact hcallee

/-- Whether a `callFunction` is not lost: it is a builtin, or `dispatchCall` takes it. -/
def callAnswers (rt : Runtime) (l : Local) (callee : Value) (args : List Value) : Bool :=
  decide (200 ≤ l.shared.cxxFrameDepth) || !l.shared.pendingException.isNil ||
    match callee with
    | .nativeFunction _ => true
    | callee => answers rt callee (enterCall l callee args) (args.length % 256)

theorem callFunction_disciplined {callee : Value} {args : List Value}
    (hl : (discipline rt strict).holds l) (hanswers : callAnswers rt l callee args = true) :
    (discipline rt strict).Keeps (fun r => (discipline rt strict).holds r.1)
      (callFunction rt ctx l callee args) := by
  refine (discipline rt strict).callFunction_keeps (P := Dispatched.Answered) rt ctx callee args hl
    (fun hdepth hpending hcallee => ?_) (fun _ _ => trivial) (fun l' v _ => ?_)
    (fun l' v _ hanswered hpending => ?_) fun l' _ hanswered => hanswered.elim
  · refine answers_keeps hpending ?_
    have hdepth' : ¬200 ≤ l.shared.cxxFrameDepth := by omega
    simp only [callAnswers, hdepth', decide_false, hpending, Bool.not_true, Bool.false_or]
      at hanswers
    cases callee with
    | nativeFunction id => exact absurd rfl (hcallee id)
    | _ => exact hanswers
  · unfold finishCall
    dsimp only
    split
    · rename_i hnil
      intro hpending
      rw [show (restoreState l l').shared.pendingException = l'.shared.pendingException from rfl,
        hnil] at hpending
      cases hpending
    · exact fun _ => rfl
  · rw [show (restoreState l l').shared.pendingException = l'.shared.pendingException from rfl,
      show l'.shared.pendingException.isNil = true from hanswered] at hpending
    cases hpending

end Answers

/-! ### Bare returns -/

section Sites

open Handler

variable {rt : Runtime} {ctx : Ctx} {i : Instr} {l : Local}

/-- A handler with a bare return of its own does not run anything before it. -/
theorem exec_of_returningFault (ctx : Ctx) (h : returningFault rt i l = true) :
    ∃ e, exec rt ctx i l = pure e := by
  cases i with
  | LOAD_PROPERTY name ic =>
      show ∃ e, LOAD_PROPERTY rt ctx name ic l = pure e
      unfold LOAD_PROPERTY
      unfold returningFault at h
      split at h <;> simp_all [loadInstanceProperty, loadClassProperty, shapeHit, classHit]
  | STORE_PROPERTY name ic =>
      show ∃ e, STORE_PROPERTY rt ctx name ic l = pure e
      unfold STORE_PROPERTY
      unfold returningFault at h
      split at h <;> simp_all [shapeHit]
  | INTERCEPTED_STORE_PROPERTY name ic =>
      show ∃ e, INTERCEPTED_STORE_PROPERTY rt ctx name ic l = pure e
      unfold INTERCEPTED_STORE_PROPERTY
      unfold returningFault at h
      split at h <;> simp_all
      split
      · exact ⟨_, rfl⟩
      · split <;> exact ⟨_, rfl⟩
  | INVOKE_METHOD name ic argCount =>
      show ∃ e, INVOKE_METHOD rt ctx name ic argCount l = pure e
      unfold INVOKE_METHOD
      simp only [returningFault] at h
      split at h <;> simp_all [invokedOn, classHit]
  | NEW_INSTANCE className argc =>
      show ∃ e, NEW_INSTANCE className argc l = pure e
      unfold NEW_INSTANCE
      simp only [returningFault] at h
      split at h <;> simp_all
  | SUPER_CALL method argCount =>
      show ∃ e, SUPER_CALL rt ctx method argCount l = pure e
      unfold SUPER_CALL
      unfold returningFault at h
      split at h <;> simp_all
  | GET_METHOD method => exact ⟨_, rfl⟩
  | SUPER => exact ⟨_, rfl⟩
  | _ => simp [returningFault] at h

/-- An operator calls the overload of its left operand. -/
theorem returningCall_operator {op : String} (hop : binaryOperator i = some op) {b a : Value}
    {rest : List Value} (hops : l.ops = b :: a :: rest) :
    returningCall i l = (overload l (lit op) a).map fun bound => (b :: bound :: rest, bound, 1) := by
  unfold returningCall
  rw [hops]
  cases i <;> cases hop <;> rfl

/-- Without two operands it calls nothing. -/
theorem returningCall_operator_none {op : String} (hop : binaryOperator i = some op)
    (hops : ∀ b a rest, l.ops ≠ b :: a :: rest) : returningCall i l = none := by
  have hshort : l.ops = [] ∨ ∃ b, l.ops = [b] := by
    cases hcases : l.ops with
    | nil => exact .inl rfl
    | cons b rest =>
        cases rest with
        | nil => exact .inr ⟨b, rfl⟩
        | cons a rest => exact absurd hcases (hops b a rest)
  unfold returningCall
  obtain hnil | ⟨b, hone⟩ := hshort
  · rw [hnil]
    cases i <;> cases hop <;> rfl
  · rw [hone]
    cases i <;> cases hop <;> rfl

theorem binary_of_returningCall {op : String} {plain : Local → Value → Value → Proc Exit}
    {ops : List Value} {callee : Value} {argCount : Nat} (hop : binaryOperator i = some op)
    (h : returningCall i l = some (ops, callee, argCount)) :
    binary rt ctx op plain l = callAndReturn rt ctx (l.withOps ops) callee argCount := by
  unfold binary
  split
  · rename_i b a rest hops
    rw [returningCall_operator hop hops] at h
    cases hbound : overload l (lit op) a with
    | none =>
        rw [hbound] at h
        cases h
    | some bound =>
        rw [hbound] at h
        cases h
        rfl
  · rename_i hops
    rw [returningCall_operator_none hop hops] at h
    cases h

/-- A hook or an overload is all that its handler runs. -/
theorem exec_of_returningCall {ops : List Value} {callee : Value} {argCount : Nat}
    (h : returningCall i l = some (ops, callee, argCount)) :
    exec rt ctx i l = callAndReturn rt ctx (l.withOps ops) callee argCount := by
  cases i with
  | LOAD_PROPERTY name ic =>
      show LOAD_PROPERTY rt ctx name ic l = _
      unfold LOAD_PROPERTY
      unfold returningCall at h
      split at h <;>
        simp_all [loadInstanceProperty, loadClassProperty, shapeHit, classHit, binaryOperator]
      · obtain ⟨_, rfl, rfl, rfl⟩ := h
        rfl
      · obtain ⟨⟨⟨⟨⟨⟨_, hload⟩, _⟩, _⟩, _⟩, hhook⟩, rfl, rfl, rfl⟩ := h
        rw [if_neg (by rintro ⟨hname, hpersists⟩; simp_all), if_pos hhook]
        rfl
  | STORE_PROPERTY name ic =>
      show STORE_PROPERTY rt ctx name ic l = _
      unfold STORE_PROPERTY
      unfold returningCall at h
      split at h <;> simp_all [binaryOperator]
      obtain ⟨_, rfl, rfl, rfl⟩ := h
      rfl
  | INTERCEPTED_STORE_PROPERTY name ic =>
      show INTERCEPTED_STORE_PROPERTY rt ctx name ic l = _
      unfold INTERCEPTED_STORE_PROPERTY
      unfold returningCall at h
      split at h <;> simp_all [binaryOperator]
      obtain ⟨_, rfl, rfl, rfl⟩ := h
      rfl
  | SUPER_CALL method argCount =>
      show SUPER_CALL rt ctx method argCount l = _
      unfold SUPER_CALL
      unfold returningCall at h
      split at h <;> simp_all [binaryOperator]
      obtain ⟨hnil, rfl, rfl, rfl⟩ := h
      rw [if_neg (by simp [hnil])]
  | NEGATE =>
      show NEGATE rt ctx l = _
      unfold NEGATE
      unfold returningCall at h
      split at h <;> simp_all
  | ADD =>
      show ADD rt ctx l = _
      exact binary_of_returningCall rfl h
  | SUB =>
      show SUB rt ctx l = _
      exact binary_of_returningCall rfl h
  | MUL | DIV | EQUAL | NOT_EQUAL | LESS | LESS_EQ | GREATER | GREATER_EQ =>
      exact binary_of_returningCall rfl h
  | _ =>
      unfold returningCall at h
      generalize l.ops = stack at h
      obtain _ | ⟨b, _ | ⟨a, rest⟩⟩ := stack <;> cases h

/-- Whether a handler keeps a fault of its own from being lost: it has no bare return to take while a try
block of this `run` could catch the fault. -/
def siteSafe (rt : Runtime) (owned : Bool) (i : Instr) (l : Local) : Bool :=
  !(owned && returningFault rt i l) &&
    match returningCall i l with
    | none => true
    | some (ops, callee, argCount) =>
        answers rt callee (l.withOps ops) argCount || (!owned && dispatchedAtOnce callee)

theorem lax_site (hl : (discipline rt false).holds l) : (discipline rt false).Site rt ctx i l :=
  { steady := fun _ _ h => nomatch h
    fault := fun _ _ h => nomatch h
    call := fun ops callee argCount _ => by
      refine ((discipline rt false).dispatchCall_keeps rt ctx callee argCount none (l := l.withOps ops)
        hl).mono fun d hd => ⟨hd, ?_⟩
      cases d <;> first | exact fun h => nomatch h | trivial }

theorem strict_site (hpending : l.shared.pendingException.isNil = true)
    (hfault : returningFault rt i l = false)
    (hcall : ∀ ops callee argCount, returningCall i l = some (ops, callee, argCount) →
      answers rt callee (l.withOps ops) argCount = true) :
    (discipline rt true).Site rt ctx i l :=
  { steady := fun l' hl' _ => by rw [hl', hpending]
    fault := fun h => by simp [hfault] at h
    call := fun ops callee argCount h =>
      (answers_keeps (l := l.withOps ops) hpending (hcall ops callee argCount h)).mono fun _ hd =>
        answered_returning hd.1 hd.2 }

/-- The code of a safe handler keeps the discipline, or is a single end while no try block is owned. -/
theorem exec_disciplined (ctx : Ctx) {owned : Bool} (hpending : l.shared.pendingException.isNil = true)
    (hsafe : siteSafe rt owned i l = true) :
    (discipline rt true).Keeps (discipline rt true).OfExit (exec rt ctx i l) ∨
      owned = false ∧ ∃ e, exec rt ctx i l = pure e ∧ (discipline rt false).OfExit e := by
  have hl : ∀ strict, (discipline rt strict).holds l := by simp [discipline, hpending]
  have hpure : ∀ e, exec rt ctx i l = pure e → (discipline rt false).OfExit e := fun e he =>
    LocalInvariant.keeps_pure.mp
      (he ▸ (discipline rt false).exec_keeps rt ctx i (hl false) (lax_site (hl false)))
  simp only [siteSafe, Bool.and_eq_true, Bool.not_eq_true', Bool.and_eq_false_iff] at hsafe
  obtain ⟨hfault, hcall⟩ := hsafe
  cases hreturning : returningFault rt i l with
  | true =>
      obtain ⟨e, he⟩ := exec_of_returningFault ctx hreturning
      exact .inr ⟨by simpa [hreturning] using hfault, e, he, hpure e he⟩
  | false =>
      cases hcalled : returningCall i l with
      | none =>
          have hsite : (discipline rt true).Site rt ctx i l :=
            strict_site hpending hreturning (by simp [hcalled])
          exact .inl ((discipline rt true).exec_keeps rt ctx i (hl true) hsite)
      | some call =>
          obtain ⟨ops, callee, argCount⟩ := call
          simp only [hcalled, Bool.or_eq_true, Bool.and_eq_true, Bool.not_eq_true'] at hcall
          rcases hcall with hanswers | ⟨howned, honce⟩
          · have hsite : (discipline rt true).Site rt ctx i l := by
              refine strict_site hpending hreturning fun _ _ _ h => ?_
              rw [hcalled] at h
              cases h
              exact hanswers
            exact .inl ((discipline rt true).exec_keeps rt ctx i (hl true) hsite)
          · obtain ⟨d, hd⟩ := dispatchedAtOnce_pure rt ctx (l.withOps ops) argCount none honce
            have he : exec rt ctx i l = pure d.dispatchOrReturn := by
              rw [exec_of_returningCall hcalled, callAndReturn, hd]
              rfl
            exact .inr ⟨howned, _, he, hpure _ he⟩

end Sites

/-! ### Runs -/

/-- The fault recorded in a state, with the state. -/
def Local.fault (l : Local) : Option (Local × Value) :=
  if l.shared.pendingException.isNil then none else some (l, l.shared.pendingException)

theorem Local.fault_eq_some {l l' : Local} {exc : Value} :
    l.fault = some (l', exc) ↔
      l.shared.pendingException.isNil = false ∧ l = l' ∧ l.shared.pendingException = exc := by
  unfold Local.fault
  split <;> simp_all

/-- The fault a handler ends with, in the state it ends in. -/
def Exit.fault : Exit → Option (Local × Value)
  | .thrown l exc => some (l, exc)
  | .malformed => none
  | .dispatch l | .raiseFault l | .leave l | .pushFrame l _ _ | .returned l _ | .finallyEnd l
  | .tryStart l _ | .tryEnd l | .yielded l | .ended l => l.fault

/-- The fault a handler has just ended with: recorded, thrown, or on its way as a C++ exception. -/
def Control.raised : Control → Option (Local × Value)
  | .code (.done (.ok e)) => e.fault
  | .code (.done (.error unwinding)) => some unwinding
  | _ => none

theorem Control.code_of_raised {c : Control} {l : Local} {exc : Value}
    (h : c.raised = some (l, exc)) : ∃ r, c = .code (.done r) := by
  unfold Control.raised at h
  split at h
  · exact ⟨_, rfl⟩
  · exact ⟨_, rfl⟩
  · cases h

/-- Whether a handler has just ended in a bare `return`. -/
def Control.returns : Control → Bool
  | .code (.done (.ok (.leave _))) => true
  | _ => false

namespace VM

/-- The step loses no fault: a handler that starts is safe, and so is a `callFunction`. -/
def losesNoFault (rt : Runtime) (vm : VM) : Bool :=
  match vm.control with
  | .dispatch =>
      match vm.fetch with
      | some (i, l) => !vm.shared.running || siteSafe rt vm.ownsTryBlock i l
      | none => true
  | .code (.ask (.call l callee args) _) => callAnswers rt l callee args
  | _ => true

/-- The exception is with the catch code of the try block: the frames are cut to the block's frame, its
operands to what they were, and the exception is on top of them. -/
structure CaughtAt (tb : TryBlock) (rest : List TryBlock) (exc : Value) (before after : VM) : Prop where
  control : after.control = .dispatch
  frames : ∃ frame below,
    before.frames.drop (before.frames.length - (tb.frameIdx + 1)) = frame :: below ∧
      below.length = tb.frameIdx ∧
      after.frames =
        { frame with
          ip := tb.catchIp
          ops := exc :: (List.replicate (tb.depth - frame.ops.length) Value.nil ++
            frame.ops.drop (frame.ops.length - tb.depth)) } :: below
  tryStack : after.tryStack = rest
  pending : after.shared.pendingException = .nil
  running : after.shared.running = true
  sameRun : after.start = before.start ∧ after.activations = before.activations

/-- A fault that a handler has just raised, with the innermost try block in a frame of this `run`, is
caught there in at most three steps, in which `run` does not return. -/
def DeliversFault (rt : Runtime) (vm : VM) : Prop :=
  ∀ l exc tb rest, vm.control.raised = some (l, exc) → vm.tryStack = tb :: rest →
    vm.ownsTryBlock = true → tb.frameIdx < vm.frames.length →
    ∃ n ≤ 3, CaughtAt tb rest exc (vm.sync l) (vm.run rt n) ∧
      ∀ m ≤ n, (vm.run rt m).control ≠ .leave

section Delivery

variable {rt : Runtime} {vm : VM} {tb : TryBlock} {rest : List TryBlock} {exc : Value}

theorem deliver_caughtAt (vm : VM) (exc : Value) (htry : vm.tryStack = tb :: rest)
    (hframe : tb.frameIdx < vm.frames.length)
    (hupvalues : vm.frames.length ≤ vm.frameUpvalues.length) :
    CaughtAt tb rest exc vm (vm.deliver exc) := by
  have hframes := List.length_drop (i := vm.frames.length - (tb.frameIdx + 1)) (l := vm.frames)
  have hstates := List.length_drop (i := vm.frames.length - (tb.frameIdx + 1)) (l := vm.frameUpvalues)
  unfold VM.deliver
  simp only [htry]
  cases hdrop : vm.frames.drop (vm.frames.length - (tb.frameIdx + 1)) with
  | nil =>
      rw [hdrop, List.length_nil] at hframes
      omega
  | cons frame below =>
      cases hdropped : vm.frameUpvalues.drop (vm.frames.length - (tb.frameIdx + 1)) with
      | nil =>
          rw [hdropped, List.length_nil] at hstates
          omega
      | cons upvalues states =>
          rw [hdrop, List.length_cons] at hframes
          have hbelow : below.length = tb.frameIdx := by omega
          simp only [hbelow, Nat.lt_irrefl, if_false]
          exact
            { control := rfl
              frames := ⟨frame, below, hdrop, hbelow, rfl⟩
              tryStack := rfl
              pending := rfl
              running := rfl
              sameRun := ⟨rfl, rfl⟩ }

theorem CaughtAt.congr {before before' after : VM} (h : CaughtAt tb rest exc before after)
    (hframes : before'.frames = before.frames) (hstart : before'.start = before.start)
    (hactivations : before'.activations = before.activations) :
    CaughtAt tb rest exc before' after :=
  { h with
    frames := hframes ▸ h.frames
    sameRun := ⟨h.sameRun.1.trans hstart.symm, h.sameRun.2.trans hactivations.symm⟩ }

/-- A frame pushed above the try block's is popped again. -/
theorem CaughtAt.of_push {frame : Frame} {upvalues : ClosureState} {after : VM}
    (hframe : tb.frameIdx < vm.frames.length)
    (h : CaughtAt tb rest exc (vm.push frame upvalues) after) : CaughtAt tb rest exc vm after := by
  obtain ⟨f, below, hdrop, hbelow, hafter⟩ := h.frames
  have hpopped : (frame :: vm.frames).length - (tb.frameIdx + 1) =
      (vm.frames.length - (tb.frameIdx + 1)) + 1 := by
    rw [List.length_cons]
    omega
  have hdrop' : vm.frames.drop (vm.frames.length - (tb.frameIdx + 1)) = f :: below := by
    rw [← hdrop]
    show _ = (frame :: vm.frames).drop ((frame :: vm.frames).length - (tb.frameIdx + 1))
    rw [hpopped, List.drop_succ_cons]
  exact { h with frames := ⟨f, below, hdrop', hbelow, hafter⟩ }

/-- `handle_vm_fault` with a try block of this `run`. -/
theorem step_fault (hcontrol : vm.control = .fault)
    (hpending : vm.shared.pendingException.isNil = false) (howns : vm.ownsTryBlock = true) :
    vm.step rt = vm.deliver vm.shared.pendingException := by
  simp only [step, hcontrol, handleFault, hpending, howns, if_true, Bool.false_eq_true, if_false]

theorem step_stopped (hcontrol : vm.control = .dispatch) (hrunning : vm.shared.running = false) :
    vm.step rt = vm.goto .fault := by
  simp only [step, hcontrol, hrunning, Bool.false_eq_true, if_false]

end Delivery

/-- The invariant of a run that loses no fault. -/
structure FaultRun (rt : Runtime) (vm : VM) : Prop where
  upvalues : vm.frames.length ≤ vm.frameUpvalues.length
  dispatch : vm.control = .dispatch → vm.shared.pendingException.isNil = false →
    vm.shared.running = false
  code : ∀ p, vm.control = .code p → (discipline rt true).KeepsCode p ∨
    vm.ownsTryBlock = false ∧ ∃ e, p = .done (.ok e) ∧ (discipline rt false).OfExit e
  waiting : ∀ a ∈ vm.activations, ∀ r, (discipline rt true).KeepsCode (a.k r)

section Step

variable {rt : Runtime} {vm : VM} {tb : TryBlock} {rest : List TryBlock} {exc : Value}

theorem length_sync_frames (l : Local) (hframes : 0 < vm.frames.length) :
    (vm.sync l).frames.length = vm.frames.length := by
  show vm.frames.tail.length + 1 = _
  rw [List.length_tail]
  omega

theorem length_sync_le (l : Local) (h : vm.frames.length ≤ vm.frameUpvalues.length) :
    (vm.sync l).frames.length ≤ (vm.sync l).frameUpvalues.length := by
  show vm.frames.tail.length + 1 ≤ vm.frameUpvalues.tail.length + 1
  rw [List.length_tail, List.length_tail]
  omega

theorem caughtAt_one {l : Local} {p : HandlerCode} (hcontrol : vm.control = .code p)
    (h : CaughtAt tb rest exc (vm.sync l) (vm.step rt)) :
    ∃ n ≤ 3, CaughtAt tb rest exc (vm.sync l) (vm.run rt n) ∧
      ∀ m ≤ n, (vm.run rt m).control ≠ .leave := by
  refine ⟨1, by omega, h, fun m hm => ?_⟩
  rcases m with _ | _ | m
  · rw [run_zero, hcontrol]
    nofun
  · rw [show vm.run rt 1 = vm.step rt from rfl, h.control]
    nofun
  · omega

/-- From a fault at `handle_vm_fault` to the catch code. -/
theorem caughtAt_of_fault {l : Local} {p : HandlerCode} (hcontrol : vm.control = .code p)
    (hstep : vm.step rt = (vm.sync l).goto .fault) (htry : vm.tryStack = tb :: rest)
    (howns : vm.ownsTryBlock = true) (hframe : tb.frameIdx < (vm.sync l).frames.length)
    (hupvalues : (vm.sync l).frames.length ≤ (vm.sync l).frameUpvalues.length)
    (hpending : l.shared.pendingException.isNil = false) :
    ∃ n ≤ 3, CaughtAt tb rest l.shared.pendingException (vm.sync l) (vm.run rt n) ∧
      ∀ m ≤ n, (vm.run rt m).control ≠ .leave := by
  have htwo : vm.run rt 2 = ((vm.sync l).goto .fault).deliver l.shared.pendingException := by
    rw [run_succ, show vm.run rt 1 = vm.step rt from rfl, hstep]
    exact step_fault rfl hpending howns
  have hcaught : CaughtAt tb rest l.shared.pendingException (vm.sync l) (vm.run rt 2) := by
    rw [htwo]
    exact (deliver_caughtAt ((vm.sync l).goto .fault) _ htry hframe hupvalues).congr rfl rfl rfl
  refine ⟨2, by omega, hcaught, fun m hm => ?_⟩
  rcases m with _ | _ | _ | m
  · rw [run_zero, hcontrol]
    nofun
  · rw [show vm.run rt 1 = vm.step rt from rfl, hstep]
    nofun
  · rw [hcaught.control]
    nofun
  · omega

/-- From a dispatch that the fault has stopped to the catch code. -/
theorem caughtAt_of_stopped (stopped : VM) {before : VM} {p : HandlerCode} (hcontrol : vm.control = .code p)
    (hstep : vm.step rt = stopped.goto .dispatch) (howns : stopped.ownsTryBlock = true) (hpending : stopped.shared.pendingException.isNil = false)
    (hrunning : stopped.shared.running = false)
    (hcaught : CaughtAt tb rest stopped.shared.pendingException before
      ((stopped.goto .fault).deliver stopped.shared.pendingException)) :
    ∃ n ≤ 3, CaughtAt tb rest stopped.shared.pendingException before (vm.run rt n) ∧
      ∀ m ≤ n, (vm.run rt m).control ≠ .leave := by
  have htwo : vm.run rt 2 = stopped.goto .fault := by
    rw [run_succ, show vm.run rt 1 = vm.step rt from rfl, hstep]
    exact step_stopped rfl hrunning
  have hthree : vm.run rt 3 = (stopped.goto .fault).deliver stopped.shared.pendingException := by
    rw [run_succ, htwo]
    exact step_fault rfl hpending howns
  rw [← hthree] at hcaught
  refine ⟨3, Nat.le_refl 3, hcaught, fun m hm => ?_⟩
  rcases m with _ | _ | _ | _ | m
  · rw [run_zero, hcontrol]
    nofun
  · rw [show vm.run rt 1 = vm.step rt from rfl, hstep]
    nofun
  · rw [htwo]
    nofun
  · rw [hcaught.control]
    nofun
  · omega

/-- A fault that has been raised is caught, in a state of such a run. -/
theorem FaultRun.deliversFault (h : FaultRun rt vm) : vm.DeliversFault rt := by
  intro l exc tb rest hraised htry howns hframe
  obtain ⟨r, hcontrol⟩ := Control.code_of_raised hraised
  rw [hcontrol] at hraised
  have hframe (l : Local) : tb.frameIdx < (vm.sync l).frames.length := by
    rw [length_sync_frames l (by omega)]
    exact hframe
  have hupvalues (l : Local) := length_sync_le l h.upvalues
  have hstep : vm.step rt = vm.stepCode rt (.done r) := by simp only [step, hcontrol]
  have hends : (discipline rt true).OrUnwinds (discipline rt true).OfExit r := by
    rcases h.code _ hcontrol with hkeeps | ⟨hunowned, -⟩
    · exact hkeeps
    · rw [howns] at hunowned
      cases hunowned
  cases r with
  | error unwinding =>
      obtain rfl : unwinding = (l, exc) := Option.some.inj hraised
      refine caughtAt_one hcontrol ?_
      rw [hstep, show vm.stepCode rt (.done (.error (l, exc))) = (vm.sync l).deliver exc from
        if_pos howns]
      exact deliver_caughtAt (vm.sync l) exc htry (hframe l) (hupvalues l)
  | ok e =>
      cases e with
      | thrown l' exc' =>
          obtain ⟨rfl, rfl⟩ := Prod.mk.inj (Option.some.inj hraised)
          refine caughtAt_one hcontrol ?_
          rw [hstep, show vm.stepCode rt (.done (.ok (.thrown l' exc'))) =
            (vm.sync (l'.withShared { l'.shared with pendingException := exc' })).deliver exc' from
              if_pos howns]
          exact (deliver_caughtAt (vm.sync _) _ htry (hframe _) (hupvalues _)).congr rfl rfl rfl
      | malformed => cases hraised
      | raiseFault l' =>
          obtain ⟨hpending, rfl, rfl⟩ := Local.fault_eq_some.mp hraised
          exact caughtAt_of_fault hcontrol hstep htry howns (hframe l') (hupvalues l') hpending
      | dispatch l' =>
          obtain ⟨hpending, rfl, rfl⟩ := Local.fault_eq_some.mp hraised
          exact caughtAt_of_stopped (vm.sync l') hcontrol hstep howns hpending
            (hends hpending) ((deliver_caughtAt ((vm.sync l').goto .fault) _ htry (hframe l')
              (hupvalues l')).congr rfl rfl rfl)
      | pushFrame l' frame upvalues =>
          obtain ⟨hpending, rfl, rfl⟩ := Local.fault_eq_some.mp hraised
          have hpushed : CaughtAt tb rest l'.shared.pendingException ((vm.sync l').push frame upvalues)
              ((((vm.sync l').push frame upvalues).goto .fault).deliver l'.shared.pendingException) :=
            (deliver_caughtAt (((vm.sync l').push frame upvalues).goto .fault) _ htry
              (Nat.lt_succ_of_lt (hframe l')) (Nat.succ_le_succ (hupvalues l'))).congr rfl rfl rfl
          exact caughtAt_of_stopped ((vm.sync l').push frame upvalues) hcontrol hstep howns
            hpending (hends.1 hpending) (hpushed.of_push (hframe l'))
      | finallyEnd l' =>
          obtain ⟨hpending, rfl, rfl⟩ := Local.fault_eq_some.mp hraised
          refine caughtAt_one hcontrol ?_
          have hthrow : vm.stepCode rt (.done (.ok (.finallyEnd l'))) =
              (vm.sync (l'.withShared { l'.shared with pendingException := .nil })).deliver
                l'.shared.pendingException := by
            show (if l'.shared.pendingException.isNil = true then _ else _) = _
            rw [hpending, if_neg (by simp)]
            exact if_pos howns
          rw [hstep, hthrow]
          exact (deliver_caughtAt (vm.sync _) _ htry (hframe _) (hupvalues _)).congr rfl rfl rfl
      | leave l' | returned l' _ | tryStart l' _ | tryEnd l' | yielded l' | ended l' =>
          obtain ⟨hpending, -, -⟩ := Local.fault_eq_some.mp hraised
          rw [hends.2 rfl] at hpending
          cases hpending

theorem FaultRun.of_noCode {vm' : VM} (h : FaultRun rt vm)
    (hupvalues : vm'.frames.length ≤ vm'.frameUpvalues.length)
    (hdispatch : vm'.control = .dispatch → vm'.shared.pendingException.isNil = false →
      vm'.shared.running = false)
    (hcode : ∀ p, vm'.control ≠ .code p) (hwaiting : vm'.activations = vm.activations) :
    FaultRun rt vm' :=
  { upvalues := hupvalues
    dispatch := hdispatch
    code := fun p hp => absurd hp (hcode p)
    waiting := hwaiting ▸ h.waiting }

/-- A step away from the dispatch. -/
theorem FaultRun.goto (h : FaultRun rt vm) {c : Control} (hdispatch : c ≠ .dispatch)
    (hcode : ∀ p, c ≠ .code p) : FaultRun rt (vm.goto c) :=
  h.of_noCode h.upvalues (fun hc => absurd hc hdispatch) hcode rfl

theorem FaultRun.deliver (h : FaultRun rt vm) (exc : Value) : FaultRun rt (vm.deliver exc) := by
  unfold VM.deliver
  split
  · exact h.goto nofun nofun
  · dsimp only
    split
    · rename_i frame frames upvalues frameUpvalues hframes hupvalues
      split
      · exact h.goto nofun nofun
      · have hle : (frame :: frames).length ≤ (upvalues :: frameUpvalues).length := by
          have hupvalues' := h.upvalues
          rw [← hframes, ← hupvalues, List.length_drop, List.length_drop]
          omega
        exact h.of_noCode hle (fun _ hpending => nomatch hpending) nofun rfl
    · exact h.goto nofun nofun

theorem FaultRun.throwValue (h : FaultRun rt vm) (exc : Value) :
    FaultRun rt (throwValue rt vm exc) := by
  unfold VM.throwValue
  split
  · exact h.deliver exc
  split
  · exact h.of_noCode h.upvalues nofun nofun rfl
  · exact h.of_noCode h.upvalues nofun nofun rfl

theorem FaultRun.returnFrom (h : FaultRun rt vm)
    (hdispatch : vm.shared.pendingException.isNil = false → vm.shared.running = false)
    (result : Value) : FaultRun rt (vm.returnFrom result) := by
  have hle : vm.frames.tail.length ≤ vm.frameUpvalues.tail.length := by
    have hupvalues := h.upvalues
    rw [List.length_tail, List.length_tail]
    omega
  unfold VM.returnFrom
  dsimp only
  split
  · exact h.of_noCode hle nofun nofun rfl
  · rename_i caller frames hframes
    rw [show vm.frames.tail = caller :: frames from hframes] at hle
    refine h.of_noCode hle (fun _ => hdispatch) ?_ rfl
    dsimp only
    split <;> nofun

/-- The rest of the code of a handler in a state it ended in. -/
theorem FaultRun.sync (h : FaultRun rt vm) (l : Local) {c : Control}
    (hdispatch : c = .dispatch → l.shared.pendingException.isNil = false → l.shared.running = false)
    (hcode : ∀ p, c ≠ .code p) : FaultRun rt ((vm.sync l).goto c) :=
  h.of_noCode (length_sync_le l h.upvalues) hdispatch hcode rfl

theorem FaultRun.settle {strict : Bool} (h : FaultRun rt vm) {e : Exit}
    (he : (discipline rt strict).OfExit e) : FaultRun rt (vm.settle rt e) := by
  cases e with
  | dispatch l => exact h.sync l (fun _ => he) nofun
  | raiseFault l => exact h.sync l nofun nofun
  | leave l => exact h.sync l nofun nofun
  | pushFrame l frame upvalues =>
      exact h.of_noCode (Nat.succ_le_succ (length_sync_le l h.upvalues)) (fun _ => he.1) nofun rfl
  | returned l result => exact (h.sync l (c := .halted) nofun nofun).returnFrom he.1 result
  | thrown l exc => exact (h.sync _ (c := .halted) nofun nofun).throwValue exc
  | finallyEnd l =>
      unfold VM.settle
      dsimp only
      split
      · exact h.sync l (fun _ => he) nofun
      · exact (h.sync _ (c := .halted) nofun nofun).throwValue _
  | tryStart l catchIp =>
      exact h.of_noCode (length_sync_le l h.upvalues) (fun _ => he.1) nofun rfl
  | tryEnd l => exact h.of_noCode (length_sync_le l h.upvalues) (fun _ => he.1) nofun rfl
  | yielded l => exact h.sync l nofun nofun
  | ended l => exact h.sync _ nofun nofun
  | malformed => exact h.goto nofun nofun

theorem FaultRun.nestedRun (h : FaultRun rt vm) {l : Local}
    {pushed : Option (Frame × ClosureState)} {k : Local × Value → HandlerCode}
    (hl : (discipline rt true).holds l) (hk : ∀ r, (discipline rt true).KeepsCode (k r)) :
    FaultRun rt (vm.nestedRun l pushed k) := by
  have hwaiting : ∀ a ∈ ({ start := vm.start, framesBefore := (vm.sync l).frames.length, k } ::
      vm.activations : List Activation), ∀ r, (discipline rt true).KeepsCode (a.k r) := by
    intro a ha
    rcases List.mem_cons.mp ha with rfl | ha
    · exact hk
    · exact h.waiting a ha
  unfold VM.nestedRun
  cases pushed with
  | none =>
      exact
        { upvalues := length_sync_le l h.upvalues
          dispatch := fun _ => hl
          code := nofun
          waiting := hwaiting }
  | some entered =>
      exact
        { upvalues := Nat.succ_le_succ (length_sync_le l h.upvalues)
          dispatch := fun _ => hl
          code := nofun
          waiting := hwaiting }

theorem FaultRun.gotoCode (h : FaultRun rt vm) {p : HandlerCode}
    (hp : (discipline rt true).KeepsCode p ∨ vm.ownsTryBlock = false ∧
      ∃ e, p = .done (.ok e) ∧ (discipline rt false).OfExit e) : FaultRun rt (vm.goto (.code p)) :=
  { upvalues := h.upvalues
    dispatch := nofun
    code := fun _ hq => Control.code.inj hq ▸ hp
    waiting := h.waiting }

theorem FaultRun.stepCode (h : FaultRun rt vm) {p : HandlerCode} (hcontrol : vm.control = .code p)
    (hsafe : vm.losesNoFault rt = true) : FaultRun rt (vm.stepCode rt p) := by
  rcases h.code p hcontrol with hp | ⟨-, e, rfl, he⟩
  · cases p with
    | done r =>
        cases r with
        | ok e => exact h.settle hp
        | error unwinding =>
            have hsynced : FaultRun rt ((vm.sync unwinding.1).goto .halted) :=
              h.sync unwinding.1 nofun nofun
            show FaultRun rt ((vm.sync unwinding.1).caught unwinding.2)
            unfold caught
            split
            · exact hsynced.deliver _
            · exact hsynced.of_noCode hsynced.upvalues nofun nofun rfl
    | ask q k =>
        cases q with
        | call l callee args =>
            have hcall : callAnswers rt l callee args = true := by
              simpa only [losesNoFault, hcontrol] using hsafe
            exact h.gotoCode (.inl (Resumption.Sat.bind (callFunction_disciplined hp.1 hcall) hp.2))
        | native l id args =>
            refine h.gotoCode (.inl ?_)
            by_cases hvalue : ∃ heap v, rt.native id args l.heap = .done (heap, .value v)
            · obtain ⟨heap, v, hvalue⟩ := hvalue
              rw [hvalue]
              refine hp.2 (l.withHeap heap, .value v) ⟨hp.1, fun heap' v' heq => ?_⟩
              obtain ⟨rfl, hv⟩ := Prod.mk.inj (Resumption.done.inj (hvalue.symm.trans heq))
              rw [NativeOutcome.value.inj hv]
            · exact ((discipline rt true).ofNative_keeps _ hp.1).bind fun r hr =>
                hp.2 r ⟨hr, fun heap v heq => absurd ⟨heap, v, heq⟩ hvalue⟩
        | nested l pushed => exact h.nestedRun hp.1.1 fun r => hp.2 r trivial
  · exact h.settle he

theorem FaultRun.leaveRun (h : FaultRun rt vm) : FaultRun rt vm.leaveRun := by
  unfold VM.leaveRun
  split
  · exact h.goto nofun nofun
  · rename_i a rest hactivations
    have hwaiting := h.waiting
    rw [hactivations] at hwaiting
    split
    · rename_i frame frames upvalues frameUpvalues hframes hupvalues
      split
      · exact h.goto nofun nofun
      · have hle : (frame :: frames).length ≤ vm.frameUpvalues.length := by
          have hupvalues' := h.upvalues
          rw [← hframes, List.length_drop]
          omega
        exact
          { upvalues := hle
            dispatch := nofun
            code := fun _ hp => Control.code.inj hp ▸ .inl (hwaiting a (by simp) _)
            waiting := fun b hb => hwaiting b (by simp [hb]) }
    · exact h.goto nofun nofun

theorem FaultRun.step (h : FaultRun rt vm) (hsafe : vm.losesNoFault rt = true) :
    FaultRun rt (vm.step rt) := by
  unfold VM.step
  split
  · rename_i hcontrol
    split
    · rename_i hrunning
      split
      · rename_i i l hfetch
        have hpending : vm.shared.pendingException.isNil = true := by
          by_contra hpending
          have hstopped := h.dispatch hcontrol (by simpa using hpending)
          rw [hstopped] at hrunning
          cases hrunning
        have hsite : siteSafe rt vm.ownsTryBlock i l = true := by
          simpa only [losesNoFault, hcontrol, hfetch, hrunning, Bool.not_true, Bool.false_or]
            using hsafe
        have hl : l.shared.pendingException.isNil = true := by
          obtain ⟨_, _, _, _, -, -, rfl⟩ := fetch_eq_some hfetch
          exact hpending
        refine h.gotoCode ?_
        rcases exec_disciplined vm.ctx hl hsite with hkeeps | ⟨howned, e, he, hexit⟩
        · exact .inl hkeeps
        · exact .inr ⟨howned, e, by rw [he]; rfl, hexit⟩
      · exact h.goto nofun nofun
    · exact h.goto nofun nofun
  · rename_i p hcontrol
    exact h.stepCode hcontrol hsafe
  · unfold handleFault
    split
    · exact h.of_noCode h.upvalues (fun _ hpending => by simp_all) nofun rfl
    split
    · exact h.deliver _
    · exact h.goto nofun nofun
  · exact h.leaveRun
  · exact h
  · exact h
  · exact h

end Step

theorem FaultRun.initial (rt : Runtime) (frame : Frame) (shared : Shared) :
    FaultRun rt (initial frame shared) :=
  { upvalues := Nat.le_refl 1
    dispatch := fun _ hpending => nomatch hpending
    code := nofun
    waiting := nofun }

theorem FaultRun.run {rt : Runtime} {vm : VM} (h : FaultRun rt vm) {n : Nat}
    (hsafe : ∀ m < n, (vm.run rt m).losesNoFault rt = true) : FaultRun rt (vm.run rt n) := by
  induction n with
  | zero => exact h
  | succ n ih =>
      rw [run_succ]
      exact (ih fun m hm => hsafe m (by omega)).step (hsafe n (by omega))

/-- In every run whose steps lose no fault, each fault a handler raises while the innermost try block is
in a frame of the running `run` is delivered there. -/
theorem deliversFault_of_losesNoFault (rt : Runtime) (frame : Frame) (shared : Shared) (n : Nat)
    (hsafe : ∀ m < n, ((initial frame shared).run rt m).losesNoFault rt = true) :
    ((initial frame shared).run rt n).DeliversFault rt :=
  ((FaultRun.initial rt frame shared).run hsafe).deliversFault

/-- A bare `return` with a fault recorded loses the fault. -/
theorem not_deliversFault_of_returns {rt : Runtime} {vm : VM} {l : Local} {exc : Value}
    {tb : TryBlock} {rest : List TryBlock} (hreturns : vm.control.returns = true)
    (hfault : vm.control.raised = some (l, exc)) (htry : vm.tryStack = tb :: rest)
    (howns : vm.ownsTryBlock = true) (hframe : tb.frameIdx < vm.frames.length) :
    ¬vm.DeliversFault rt := by
  intro hdelivers
  obtain ⟨n, -, hcaught, hway⟩ := hdelivers l exc tb rest hfault htry howns hframe
  unfold Control.returns at hreturns
  split at hreturns
  · rename_i l' hcontrol
    have hleave : (vm.run rt 1).control = .leave := by
      show (vm.step rt).control = .leave
      simp only [step, hcontrol, VM.stepCode, VM.settle]
      rfl
    rcases n with _ | n
    · have hdispatch := hcaught.control
      rw [run_zero, hcontrol] at hdispatch
      cases hdispatch
    · exact hway 1 (by omega) hleave
  · cases hreturns

/-- A script whose first model, if it has one, is in the first global slot. -/
def script (code : List Instr) (classes : List Klass) : VM :=
  initial
    { function := 0, ip := 0, slots := [], ops := [], superCalled := false, closureUpvalues := [] }
    (Shared.start
      { Heap.ofProgram [FunctionObj.ofCode [] code] classes [] with globalSlots := [.klass 0] })

/-- `try { nil.pin } catch (e) { }` -/
def nilRead : VM :=
  script [.TRY_START 5, .LOAD_CONST (some .nil), .LOAD_PROPERTY (lit "pin") 0, .POP, .TRY_END,
    .JUMP 1, .POP, .END] []

theorem nilRead_delivered : (nilRead.run .bare 5).control.raised.isSome = true ∧
    (nilRead.run .bare 5).DeliversFault .bare :=
  ⟨rfl, deliversFault_of_losesNoFault .bare _ _ 5 (by decide)⟩

/-- `model Safe { hidden pin }  try { Safe.pin } catch (e) { }` -/
def hiddenRead : VM :=
  script [.TRY_START 5, .LOAD_GLOBAL_SLOT 0, .LOAD_PROPERTY (lit "pin") 0, .POP, .TRY_END, .JUMP 1,
    .POP, .END]
    [{ Klass.ofMethods (lit "Safe") [] with visibility := [(lit "pin", false)] }]

/-- The fault of `CHECK_VISIBILITY` does not reach the `catch` around it. -/
theorem hiddenRead_lost : ¬∀ n, (hiddenRead.run .bare n).DeliversFault .bare := by
  intro h
  have hfault : (hiddenRead.run .bare 5).control.raised.isSome = true := rfl
  obtain ⟨⟨l, exc⟩, hfault⟩ := Option.isSome_iff_exists.mp hfault
  have htry : (hiddenRead.run .bare 5).tryStack = [{ frameIdx := 0, catchIp := 6, depth := 0 }] := rfl
  exact not_deliversFault_of_returns (by decide) hfault htry (by decide)
    (by decide) (h 5)

end VM

end EZLanguage
