import EZLanguage.VM.Machine

/-!
# What every handler keeps

A `LocalInvariant` is a property of the local state that no operation of a handler breaks. Every handler
keeps each such invariant: it holds of everything the handler asks for and of the state it ends in, as
long as it holds of the replies. While a C++ exception unwinds and after a nested `run`, the weaker
`unwinds` is enough. The ends that do not look at the fault state need `left` besides, and `native` is
what is known of the builtins.
-/

namespace EZLanguage

structure LocalInvariant where
  holds : Local → Prop
  unwinds : Local → Prop
  left : Local → Prop
  native : Local → Nat → List Value → Local × NativeOutcome → Prop
  unwinds_of_holds : ∀ {l : Local}, holds l → unwinds l
  frame : ∀ {l : Local} {f : Frame}, f.closureUpvalues = l.frame.closureUpvalues →
    (holds { l with frame := f } ↔ holds l)
  heap : ∀ (l : Local) (h : Heap), holds (l.withHeap h) ↔ holds l
  recordFault : ∀ {l : Local} (exc : Value), unwinds l →
    holds (l.withShared (l.shared.recordFault exc))
  restart : ∀ {l : Local} {f : Frame}, holds l →
    holds { l with frame := f, upvalues := f.closureUpvalues }

namespace LocalInvariant

variable (I : LocalInvariant) {l : Local}

/-- The code ends in a result that satisfies `Q`, or throws in a state that keeps the invariant. -/
def OrUnwinds {α : Type} (Q : α → Prop) : Except Unwinding α → Prop
  | .ok a => Q a
  | .error unwinding => I.unwinds unwinding.1

/-- The invariant for what a handler asks. A frame is pushed with the variables of its closure. -/
def Asks : Request → Prop
  | .call l _ _ | .native l _ _ => I.holds l
  | .nested l pushed => I.holds l ∧ ∀ f upvalues, pushed = some (f, upvalues) → upvalues = f.closureUpvalues

def OfNative (ended : Local × NativeOutcome) : Prop :=
  match ended.2 with
  | .runtimeError _ => I.unwinds ended.1
  | _ => I.holds ended.1

def Replies : (q : Request) → Reply q → Prop
  | .call _ _ _, r => I.OrUnwinds (fun r => I.holds r.1) r
  | .native l id args, r => I.OfNative r ∧ I.native l id args r
  | .nested _ _, r => I.unwinds r.1

def OfExit : Exit → Prop
  | .dispatch l | .raiseFault l | .thrown l _ | .finallyEnd l => I.holds l
  | .leave l | .returned l _ | .tryStart l _ | .tryEnd l | .yielded l | .ended l =>
      I.holds l ∧ I.left l
  | .pushFrame l f upvalues => I.holds l ∧ upvalues = f.closureUpvalues
  | .malformed => True

def OfDispatched : Dispatched → Prop
  | .pushed l f upvalues => I.holds l ∧ upvalues = f.closureUpvalues
  | .value l _ | .limit l | .queued l _ | .refused l => I.holds l

/-- A dispatch that can end in a bare `return`. -/
def OfReturning (d : Dispatched) : Prop :=
  I.OfDispatched d ∧
    match d with
    | .queued l v => I.left (l.push v)
    | .refused l => I.left l
    | _ => True

/-- The code keeps the invariant up to a result that satisfies `Q`. -/
def Keeps {α : Type} (Q : α → Prop) (p : Proc α) : Prop :=
  p.run.Sat I.Asks I.Replies (I.OrUnwinds Q)

/-- The rest of a handler keeps the invariant. -/
abbrev KeepsCode (p : HandlerCode) : Prop := p.Sat I.Asks I.Replies (I.OrUnwinds I.OfExit)

section Code

variable {I} {α β : Type} {Q : α → Prop} {R : β → Prop}

theorem Keeps.bind {p : Proc α} {f : α → Proc β} (hp : I.Keeps Q p)
    (hf : ∀ a, Q a → I.Keeps R (f a)) : I.Keeps R (p >>= f) := by
  refine Resumption.Sat.bind hp fun r hr => ?_
  cases r with
  | ok a => exact hf a hr
  | error unwinding => exact hr

theorem Keeps.mono {p : Proc α} {Q' : α → Prop} (hp : I.Keeps Q p) (h : ∀ a, Q a → Q' a) :
    I.Keeps Q' p := by
  refine Resumption.Sat.mono hp fun r hr => ?_
  cases r with
  | ok a => exact h a hr
  | error unwinding => exact hr

theorem Keeps.tryCatch {p : Proc α} {handle : Unwinding → Proc α} (hp : I.Keeps Q p)
    (hhandle : ∀ unwinding, I.unwinds unwinding.1 → I.Keeps Q (handle unwinding)) :
    I.Keeps Q (tryCatch p handle) := by
  refine Resumption.Sat.bind hp fun r hr => ?_
  cases r with
  | ok a => exact hr
  | error unwinding => exact hhandle unwinding hr

@[simp] theorem keeps_pure {a : α} : I.Keeps Q (pure a) ↔ Q a := Iff.rfl

@[simp] theorem keeps_throw {unwinding : Unwinding} :
    I.Keeps Q (throw unwinding : Proc α) ↔ I.unwinds unwinding.1 := Iff.rfl

variable {l : Local}

theorem keeps_call (callee : Value) (args : List Value) (hl : I.holds l) :
    I.Keeps (fun r => I.holds r.1) (Proc.call l callee args) :=
  ⟨hl, fun _ hr => hr⟩

theorem keeps_native (id : Nat) (args : List Value) (hl : I.holds l) :
    I.Keeps (fun ended => I.OfNative ended ∧ I.native l id args ended) (Proc.native l id args) :=
  ⟨hl, fun _ hr => hr⟩

theorem keeps_nested {pushed : Option (Frame × ClosureState)}
    (hl : I.Asks (.nested l pushed)) : I.Keeps (fun r => I.unwinds r.1) (Proc.nested l pushed) :=
  ⟨hl, fun _ hr => hr⟩

end Code

/-! ### Operations on the local state -/

@[simp] theorem holds_withOps (ops : List Value) : I.holds (l.withOps ops) ↔ I.holds l :=
  I.frame rfl

@[simp] theorem holds_push (v : Value) : I.holds (l.push v) ↔ I.holds l := I.holds_withOps _

@[simp] theorem holds_jump (offset : Nat) : I.holds (l.jump offset) ↔ I.holds l := I.frame rfl

@[simp] theorem holds_jumpBack (offset : Nat) : I.holds (l.jumpBack offset) ↔ I.holds l :=
  I.frame rfl

@[simp] theorem holds_withHeap (h : Heap) : I.holds (l.withHeap h) ↔ I.holds l := I.heap l h

/-- A change of the heap alone. -/
theorem holds_withShared {s : Shared} (hpending : s.pendingException = l.shared.pendingException)
    (hrunning : s.running = l.shared.running) (hdepth : s.cxxFrameDepth = l.shared.cxxFrameDepth) :
    I.holds (l.withShared s) ↔ I.holds l := by
  have heq : l.withShared s = l.withHeap s.toHeap := by
    cases s
    simp_all [Local.withShared, Local.withHeap]
  rw [heq, I.heap]

@[simp] theorem holds_withShared_mk (h : Heap) :
    I.holds (l.withShared ⟨h, l.shared.pendingException, l.shared.running, l.shared.cxxFrameDepth⟩) ↔
      I.holds l :=
  I.heap l h

@[simp] theorem holds_setLocal (slot : Nat) (v : Value) :
    I.holds (l.setLocal slot v) ↔ I.holds l := by
  unfold Local.setLocal
  split
  · exact I.holds_withShared rfl rfl rfl
  · exact I.frame rfl

@[simp] theorem holds_setIC (icIdx : Nat) (entry : ICCacheEntry) :
    I.holds (l.setIC icIdx entry) ↔ I.holds l :=
  I.holds_withShared rfl rfl rfl

@[simp] theorem setProperty_fault (s : Shared) (r : Nat) (name : CString) (v : Value) :
    (s.setProperty r name v).pendingException = s.pendingException ∧
      (s.setProperty r name v).running = s.running ∧
      (s.setProperty r name v).cxxFrameDepth = s.cxxFrameDepth := by
  unfold Shared.setProperty
  dsimp only
  split <;> simp [Shared.updateInstance]

@[simp] theorem holds_setProperty (r : Nat) (name : CString) (v : Value) :
    I.holds (l.withShared (l.shared.setProperty r name v)) ↔ I.holds l :=
  I.holds_withShared (by simp) (by simp) (by simp)

@[simp] theorem holds_runtimeError (message : CString) (hl : I.holds l) :
    I.holds (l.runtimeError message) :=
  I.recordFault _ (I.unwinds_of_holds hl)

@[simp] theorem holds_throwException (className message : CString) (hl : I.holds l) :
    I.holds (l.throwException className message) := by
  unfold Local.throwException Shared.throwException
  split
  · rename_i k _
    have hmade : I.holds (l.withShared
        ((l.shared.newInstance k).2.setProperty (l.shared.newInstance k).1 (lit "message")
          (.string message))) :=
      (I.holds_withShared (by simp [Shared.newInstance]) (by simp [Shared.newInstance])
        (by simp [Shared.newInstance])).mpr hl
    exact I.recordFault _ (I.unwinds_of_holds hmade)
  · exact I.recordFault _ (I.unwinds_of_holds hl)

@[simp] theorem holds_hiddenError (klass : Nat) (propName : CString) (hl : I.holds l) :
    I.holds (l.hiddenError klass propName) :=
  I.recordFault _ (I.unwinds_of_holds hl)

/-! ### Calls -/

theorem instantiate_keeps (klass : Nat) (args : List Value) (hl : I.holds l) :
    I.Keeps (fun r => I.holds r.1) (instantiate l klass args) := by
  have hmade : I.holds (l.withShared (l.shared.newInstance klass).2) :=
    (I.holds_withShared (s := (l.shared.newInstance klass).2) rfl rfl rfl).mpr hl
  unfold instantiate
  dsimp only
  split
  · simpa using hmade
  · refine (keeps_call _ _ hmade).bind fun ended hended => ?_
    simpa using hended

theorem pushCallFrame_keeps (rt : Runtime) (ctx : Ctx) (bcFunc : Nat) (args : List Value)
    (upvalues : ClosureState) (hl : I.holds l) :
    I.OfDispatched (pushCallFrame rt ctx l bcFunc args upvalues) := by
  unfold pushCallFrame
  dsimp only
  split
  · exact I.holds_throwException _ _ hl
  · split
    · exact I.holds_runtimeError _ hl
    · exact ⟨hl, rfl⟩

theorem packRest_keeps (f : FunctionObj) (args : List Value) :
    I.holds (packRest l f args).1 ↔ I.holds l := by
  unfold packRest
  exact I.holds_withShared rfl rfl rfl

theorem dispatchFunction_keeps (rt : Runtime) (ctx : Ctx) (callee : Value) (bcFunc : Nat)
    (upvalues : ClosureState) (argCount : Nat) (bypass : Bool) (hl : I.holds l) :
    I.OfDispatched (dispatchFunction rt ctx l callee bcFunc upvalues argCount bypass) := by
  unfold dispatchFunction
  dsimp only
  split
  · split <;> exact I.holds_throwException _ _ hl
  · have hpacked : I.holds (if (l.shared.functions bcFunc).isVariadic = true then
        packRest (l.withOps (l.ops.drop argCount)) (l.shared.functions bcFunc)
          (l.ops.take argCount).reverse
        else (l.withOps (l.ops.drop argCount), (l.ops.take argCount).reverse)).1 := by
      split
      · rw [packRest_keeps]
        simpa using hl
      · simpa using hl
    split
    · simpa [OfDispatched] using hpacked
    · exact I.pushCallFrame_keeps rt ctx bcFunc _ upvalues hpacked

theorem nativeEnd_keeps (argCount : Nat) {ended : Local × NativeOutcome} (h : I.OfNative ended) :
    I.OfDispatched (nativeEnd argCount ended.1 ended.2) := by
  obtain ⟨l, outcome⟩ := ended
  cases outcome with
  | value v =>
      have hl : I.holds l := h
      unfold nativeEnd
      dsimp only
      split
      · simpa [OfDispatched] using hl
      · exact hl
  | runtimeError v => exact I.recordFault v h
  | stdException what => exact I.holds_runtimeError _ h

theorem dispatchCallee_keeps (rt : Runtime) (ctx : Ctx) (callee : Value) (argCount : Nat)
    (callSite : Option Nat) (hl : I.holds l) :
    I.Keeps I.OfDispatched (dispatchCallee rt ctx callee l argCount callSite) := by
  induction callee generalizing l argCount callSite with
  | nativeFunction id =>
      unfold dispatchCallee
      split
      · exact I.holds_runtimeError _ hl
      · refine (keeps_native id _ hl).bind fun ended hended => ?_
        simpa using I.nativeEnd_keeps argCount hended.1
  | boundMethod receiver method _ ih =>
      unfold dispatchCallee
      split
      · exact I.holds_runtimeError _ hl
      · exact ih _ _ ((I.holds_withOps _).mpr hl)
  | closure r => exact I.dispatchFunction_keeps rt ctx _ _ _ _ _ hl
  | function r =>
      unfold dispatchCallee
      split
      · exact I.holds_runtimeError _ hl
      · exact I.dispatchFunction_keeps rt ctx _ _ _ _ _ hl
  | klass r =>
      unfold dispatchCallee
      refine (I.instantiate_keeps r _ hl).bind fun made hmade => ?_
      simpa [OfDispatched] using hmade
  | _ => exact I.holds_throwException _ _ hl

theorem dispatchCall_keeps (rt : Runtime) (ctx : Ctx) (callee : Value) (argCount : Nat)
    (callSite : Option Nat) (hl : I.holds l) :
    I.Keeps I.OfDispatched (dispatchCall rt ctx callee l argCount callSite) := by
  unfold dispatchCall
  split
  · split
    · exact I.holds_runtimeError _ hl
    · exact I.holds_runtimeError _ hl
    · split
      · exact I.holds_runtimeError _ hl
      · refine I.dispatchCallee_keeps rt ctx _ _ _ ?_
        rw [holds_withOps]
        exact (I.frame (f := { l.frame with superCalled := true }) rfl).mpr hl
  · exact I.dispatchCallee_keeps rt ctx _ _ _ hl

theorem callNative_keeps (rt : Runtime) (id : Nat) (args : List Value) (hl : I.holds l) :
    I.Keeps (fun r => I.holds r.1) (callNative rt l id args) := by
  unfold callNative
  split
  · exact I.holds_runtimeError _ hl
  · refine (keeps_native id args hl).bind fun ended hended => ?_
    obtain ⟨l', outcome⟩ := ended
    cases outcome with
    | value v => exact hended.1
    | runtimeError v => exact hended.1
    | stdException what => exact I.holds_runtimeError _ hended.1

/-- `callFunction`, for a kind of dispatch `P` whose ends the restored state keeps the invariant in. -/
theorem callFunction_keeps (rt : Runtime) (ctx : Ctx) (callee : Value) (args : List Value)
    {P : Dispatched → Prop} (hl : I.holds l)
    (hdispatch : l.shared.cxxFrameDepth < 200 → l.shared.pendingException.isNil = true →
      (∀ id, callee ≠ .nativeFunction id) →
      I.Keeps (fun d => I.OfDispatched d ∧ P d)
        (dispatchCall rt ctx callee (enterCall l callee args) (args.length % 256) none))
    (hunwinds : ∀ l', I.unwinds l' → I.unwinds (restoreState l l'))
    (hfinish : ∀ l' v, I.unwinds l' → I.holds (finishCall l l' v).1)
    (hqueued : ∀ l' v, I.holds l' → P (.queued l' v) → I.holds (restoreState l l'))
    (hrefused : ∀ l', I.holds l' → P (.refused l') → I.holds (restoreState l l')) :
    I.Keeps (fun r => I.holds r.1) (callFunction rt ctx l callee args) := by
  unfold callFunction
  split
  · exact I.holds_runtimeError _ hl
  rename_i hdepth
  split
  · exact hl
  rename_i hpending
  split
  · exact I.callNative_keeps rt _ _ hl
  · rename_i hcallee
    have hdispatch := hdispatch (by omega) (by simpa using hpending) hcallee
    refine (hdispatch.tryCatch fun unwinding h => ?_).bind fun called hcalled => ?_
    · exact hunwinds unwinding.1 h
    cases called with
    | pushed below frame upvalues =>
        refine (keeps_nested ⟨hcalled.1.1, ?_⟩).bind fun ended hended => hfinish _ _ hended
        rintro f u hpushed
        obtain ⟨rfl, rfl⟩ := Prod.mk.inj (Option.some.inj hpushed)
        exact hcalled.1.2
    | value below v =>
        refine (keeps_nested ⟨?_, by simp⟩).bind fun ended hended => hfinish _ _ hended
        simpa [OfDispatched] using hcalled.1
    | limit below =>
        exact (keeps_nested ⟨hcalled.1, by simp⟩).bind fun ended hended => hfinish _ _ hended
    | queued below v => exact hqueued below v hcalled.1 hcalled.2
    | refused below => exact hrefused below hcalled.1 hcalled.2

theorem ofNative_keeps (code : NativeCode) (hl : I.holds l) :
    (ofNative l code).Sat I.Asks I.Replies I.OfNative := by
  induction code generalizing l with
  | done ended =>
      have hended : I.holds (l.withHeap ended.1) := (I.heap l ended.1).mpr hl
      obtain ⟨h, outcome⟩ := ended
      cases outcome with
      | runtimeError v => exact I.unwinds_of_holds hended
      | _ => exact hended
  | ask q k ih =>
      cases q with
      | callFunction h callee args =>
          rw [ofNative, Resumption.sat_ask]
          refine ⟨(I.heap l h).mpr hl, fun r hr => ?_⟩
          cases r with
          | ok r => exact ih _ hr
          | error unwinding => exact hr
      | runtimeError h exc =>
          rw [ofNative]
          exact ih _ (I.recordFault (l := l.withHeap h) exc
            (I.unwinds_of_holds ((I.heap l h).mpr hl)))

/-! ### Handlers -/

section Handlers

open Handler

-- The equations of the two tables, for all the lemmas below.
section
attribute [local simp] returningCall returningFault
end

variable (rt : Runtime) (ctx : Ctx)

/-- The ends of a handler that need `left`, its bare returns among them, are reached in states that allow
it. -/
structure Site (i : Instr) (l : Local) : Prop where
  steady : ∀ l', l'.shared = l.shared → I.left l'
  fault : returningFault rt i l = true → ∀ l', I.left l'
  call : ∀ ops callee argCount, returningCall i l = some (ops, callee, argCount) →
    I.Keeps I.OfReturning (dispatchCall rt ctx callee (l.withOps ops) argCount none)

theorem dispatchOrReturn_keeps {d : Dispatched} (hd : I.OfReturning d) :
    I.OfExit d.dispatchOrReturn := by
  obtain ⟨hd, hleft⟩ := hd
  cases d <;> simp_all [Dispatched.dispatchOrReturn, OfExit, OfDispatched]

theorem dispatchOrRefresh_keeps {d : Dispatched} (hd : I.OfDispatched d) :
    I.OfExit d.dispatchOrRefresh := by
  cases d <;> simpa [Dispatched.dispatchOrRefresh, OfExit, OfDispatched] using hd

variable {I rt ctx} in
theorem Site.callAndReturn {i : Instr} (hsite : I.Site rt ctx i l) (ops : List Value)
    {callee : Value} {argCount : Nat} (hcall : returningCall i l = some (ops, callee, argCount)) :
    I.Keeps I.OfExit (callAndReturn rt ctx (l.withOps ops) callee argCount) :=
  (hsite.call ops callee argCount hcall).bind fun _ hd => I.dispatchOrReturn_keeps hd

theorem callAndRefresh_keeps (callee : Value) (argCount : Nat) (hl : I.holds l) :
    I.Keeps I.OfExit (callAndRefresh rt ctx l callee argCount) :=
  (I.dispatchCall_keeps rt ctx callee argCount _ hl).bind fun _ hd => I.dispatchOrRefresh_keeps hd

@[simp] theorem holds_cacheShape (r : Nat) (propName : CString) (icIdx : Nat) :
    I.holds (cacheShape l r propName icIdx) ↔ I.holds l := by
  unfold cacheShape
  dsimp only
  split <;> simp

@[simp] theorem holds_recordWrite (r : Nat) (propName : CString) (oldValue newValue : Value) :
    I.holds (recordWrite l r propName oldValue newValue) ↔ I.holds l :=
  I.holds_withShared rfl rfl rfl

@[simp] theorem holds_cacheMethod (r : Nat) (method : Value) (icIdx : Nat) :
    I.holds (cacheMethod l r method icIdx) ↔ I.holds l :=
  I.holds_setIC _ _

variable {rt ctx}

theorem loadInstanceProperty_keeps {r : Nat} {propName : CString} {icIdx : Nat} {rest : List Value}
    (hops : l.ops = .inst r :: rest) (hl : I.holds l)
    (hsite : I.Site rt ctx (.LOAD_PROPERTY propName icIdx) l) :
    I.Keeps I.OfExit (loadInstanceProperty rt ctx (l.withOps rest) r propName icIdx) := by
  unfold loadInstanceProperty
  dsimp only
  split
  · simpa [OfExit] using hl
  rename_i hshape
  split
  · simpa [OfExit] using hl
  rename_i hklass
  split
  · rename_i hhidden
    have hfault : returningFault rt (.LOAD_PROPERTY propName icIdx) l = true := by
      simp_all [returningFault, shapeHit, classHit]
    exact ⟨I.holds_hiddenError _ _ (by simpa using hl), hsite.fault hfault _⟩
  rename_i hhidden
  split
  · split
    · rename_i hmissing hhook
      refine hsite.callAndReturn (.string propName :: .boundMethod (.inst r) _ :: rest) ?_
      simp_all [returningCall, shapeHit, classHit]
    · exact I.holds_throwException _ _ (by simpa using hl)
  split
  · simpa [OfExit] using hl
  split <;> simpa [OfExit] using hl

theorem loadClassProperty_keeps {k : Nat} {propName : CString} {icIdx : Nat} {rest : List Value}
    (hops : l.ops = .klass k :: rest) (hl : I.holds l)
    (hsite : I.Site rt ctx (.LOAD_PROPERTY propName icIdx) l) :
    I.Keeps I.OfExit (loadClassProperty rt ctx (l.withOps rest) k propName) := by
  unfold loadClassProperty
  dsimp only
  split
  · rename_i hhidden
    have hfault : returningFault rt (.LOAD_PROPERTY propName icIdx) l = true := by
      simp_all [returningFault]
    exact ⟨I.holds_hiddenError _ _ (by simpa using hl), hsite.fault hfault _⟩
  rename_i hhidden
  split
  · simpa [OfExit] using hl
  rename_i hload
  split
  · simpa [OfExit] using hl
  · simpa [OfExit] using hl
  rename_i hstatic hmethod
  split
  · simpa [OfExit] using hl
  rename_i hname
  split
  · rename_i hhook
    refine hsite.callAndReturn (.string propName :: .klass k :: _ :: rest) ?_
    simp_all [returningCall]
  · exact I.holds_runtimeError _ (by simpa using hl)

theorem LOAD_PROPERTY_keeps {propName : CString} {icIdx : Nat} (hl : I.holds l)
    (hsite : I.Site rt ctx (.LOAD_PROPERTY propName icIdx) l) :
    I.Keeps I.OfExit (LOAD_PROPERTY rt ctx propName icIdx l) := by
  unfold LOAD_PROPERTY
  split
  · trivial
  · rename_i obj rest hops
    have hrest : I.holds (l.withOps rest) := by simpa using hl
    dsimp only
    split
    · exact I.loadInstanceProperty_keeps hops hl hsite
    · unfold loadKey
      split
      · simpa [OfExit] using hl
      · exact I.holds_throwException _ _ hrest
    · exact I.loadClassProperty_keeps hops hl hsite
    · unfold loadSuperProperty
      dsimp only
      split
      · exact I.holds_throwException _ _ hrest
      · split <;> simpa [OfExit] using hl
    · unfold loadOtherProperty
      split
      · simpa [OfExit] using hl
      · exact I.holds_throwException _ _ hrest

@[simp] theorem holds_storeStatic (k : Nat) (propName : CString) (value : Value) :
    I.holds (storeStatic l k propName value) ↔ I.holds l := by
  unfold storeStatic
  exact I.holds_withShared rfl rfl rfl

@[simp] theorem holds_storeKey (r : Nat) (propName : CString) (value : Value) :
    I.holds (storeKey l r propName value) ↔ I.holds l := by
  unfold storeKey
  exact I.holds_withShared rfl rfl rfl

@[simp] theorem holds_storeField (r : Nat) (propName : CString) (icIdx : Nat) (value : Value) :
    I.holds (storeField l r propName icIdx value) ↔ I.holds l := by
  simp [storeField]

@[simp] theorem holds_storeCached (r icIdx : Nat) (value : Value) :
    I.holds (storeCached l r icIdx value) ↔ I.holds l := by
  unfold storeCached
  exact I.holds_withShared rfl rfl rfl

theorem storeOther_keeps {i : Instr} (obj : Value) (propName : CString) (value : Value)
    (hl : I.holds l) (hsite : I.Site rt ctx i l) {rest : List Value}
    (hfault : ∀ k, obj = .klass k → l.hidden k propName = true → returningFault rt i l = true) :
    I.OfExit (storeOther (l.withOps rest) obj propName value) := by
  unfold storeOther
  split
  · rename_i k
    split
    · rename_i hhidden
      exact ⟨I.holds_hiddenError _ _ (by simpa using hl), hsite.fault (hfault k rfl hhidden) _⟩
    · simpa [OfExit] using hl
  · simpa [OfExit] using hl
  · exact I.holds_runtimeError _ (by simpa using hl)

theorem STORE_PROPERTY_keeps {propName : CString} {icIdx : Nat} (hl : I.holds l)
    (hsite : I.Site rt ctx (.STORE_PROPERTY propName icIdx) l) :
    I.Keeps I.OfExit (STORE_PROPERTY rt ctx propName icIdx l) := by
  unfold STORE_PROPERTY
  split
  · rename_i value r rest hops
    dsimp only
    split
    · rename_i hhook
      refine hsite.callAndReturn
        (value :: .string propName :: .boundMethod (.inst r) _ :: rest) ?_
      simp_all [returningCall]
    rename_i hhook
    split
    · simpa [OfExit] using hl
    rename_i hshape
    split
    · rename_i hhidden
      have hfault : returningFault rt (.STORE_PROPERTY propName icIdx) l = true := by
        simp_all [returningFault, shapeHit]
      exact ⟨I.holds_hiddenError _ _ (by simpa using hl), hsite.fault hfault _⟩
    · simpa [OfExit] using hl
  · rename_i value obj rest _ hops
    refine I.storeOther_keeps obj propName value hl hsite fun k hobj hhidden => ?_
    simp_all [returningFault]
  · trivial

theorem INTERCEPTED_STORE_PROPERTY_keeps {propName : CString} {icIdx : Nat} (hl : I.holds l)
    (hsite : I.Site rt ctx (.INTERCEPTED_STORE_PROPERTY propName icIdx) l) :
    I.Keeps I.OfExit (INTERCEPTED_STORE_PROPERTY rt ctx propName icIdx l) := by
  unfold INTERCEPTED_STORE_PROPERTY
  split
  · rename_i value r rest hops
    dsimp only
    split
    · rename_i hhook
      refine hsite.callAndReturn
        (value :: .string propName :: .boundMethod (.inst r) _ :: rest) ?_
      simp_all [returningCall]
    rename_i hhook
    split
    · rename_i hbehaviors
      split
      · rename_i hhidden
        have hfault : returningFault rt (.INTERCEPTED_STORE_PROPERTY propName icIdx) l = true := by
          simp_all [returningFault]
        exact ⟨I.holds_hiddenError _ _ (by simpa using hl), hsite.fault hfault _⟩
      split <;> simpa [OfExit] using hl
    split
    · exact I.holds_runtimeError _ (by simpa using hl)
    rename_i hvalid
    split
    · rename_i hhidden
      have hfault : returningFault rt (.INTERCEPTED_STORE_PROPERTY propName icIdx) l = true := by
        simp_all [returningFault]
      exact ⟨I.holds_hiddenError _ _ (by simpa using hl), hsite.fault hfault _⟩
    · simpa [OfExit] using hl
  · rename_i value obj rest _ hops
    refine I.storeOther_keeps obj propName value hl hsite fun k hobj hhidden => ?_
    simp_all [returningFault]
  · trivial

theorem GET_CACHED_RESULT_keeps (methodName : CString) (hl : I.holds l) :
    I.OfExit (GET_CACHED_RESULT rt methodName l) := by
  rw [GET_CACHED_RESULT]
  cases hself : l.getLocal 0 with
  | inst r =>
      dsimp only
      cases lookup (l.shared.instances r).cacheStore (cacheKey rt l methodName) with
      | none => simpa [OfExit] using hl
      | some cached => simpa [OfExit] using hl
  | _ => simpa [OfExit] using hl

theorem STORE_CACHED_RESULT_keeps (methodName : CString) (hl : I.holds l) :
    I.OfExit (STORE_CACHED_RESULT rt methodName l) := by
  rw [STORE_CACHED_RESULT]
  cases hops : l.ops with
  | nil => trivial
  | cons result rest =>
      cases hself : l.getLocal 0 with
      | inst r =>
          dsimp only [OfExit]
          refine (I.holds_withShared ?_ ?_ ?_).mpr hl <;> rfl
      | _ => exact hl

theorem GET_METHOD_keeps {method : CString} (hl : I.holds l)
    (hsite : I.Site rt ctx (.GET_METHOD method) l) : I.OfExit (GET_METHOD method l) := by
  unfold GET_METHOD
  split
  · trivial
  · rename_i r rest hops
    dsimp only
    split
    · rename_i hhidden
      have hfault : returningFault rt (.GET_METHOD method) l = true := by
        simp_all [returningFault]
      exact ⟨I.holds_hiddenError _ _ hl, hsite.fault hfault _⟩
    · split <;> simpa [OfExit] using hl
  · rename_i obj rest hobj hops
    have hfault : returningFault rt (.GET_METHOD method) l = true := by
      simp_all [returningFault]
    exact ⟨I.holds_runtimeError _ hl, hsite.fault hfault _⟩

theorem invokedOn_keeps (r : Nat) (propName : CString) (icIdx : Nat) (hl : I.holds l) :
    match invokedOn l r propName icIdx with
    | .method l' _ | .value l' _ => I.holds l'
    | .missing | .hidden => True := by
  unfold invokedOn
  dsimp only
  split_ifs <;> simp [hl]

theorem INVOKE_METHOD_keeps {propName : CString} {icIdx argCount : Nat} (hl : I.holds l)
    (hsite : I.Site rt ctx (.INVOKE_METHOD propName icIdx argCount) l) :
    I.Keeps I.OfExit (INVOKE_METHOD rt ctx propName icIdx argCount l) := by
  unfold INVOKE_METHOD
  dsimp only
  split
  · trivial
  rename_i receiver rest hops
  split
  · rename_i r
    have hinvoked := I.invokedOn_keeps r propName icIdx hl
    split
    · rename_i l' m heq
      rw [heq] at hinvoked
      exact I.callAndRefresh_keeps rt ctx _ _ (by simpa using hinvoked)
    · rename_i l' v heq
      rw [heq] at hinvoked
      exact I.callAndRefresh_keeps rt ctx _ _ (by simpa using hinvoked)
    · exact I.holds_throwException _ _ hl
    · rename_i heq
      have hfault : returningFault rt (.INVOKE_METHOD propName icIdx argCount) l = true := by
        unfold invokedOn at heq
        dsimp only at heq
        split_ifs at heq
        simp_all [returningFault, classHit]
      exact ⟨I.holds_hiddenError _ _ hl, hsite.fault hfault _⟩
  · split
    · rename_i hhidden
      have hfault : returningFault rt (.INVOKE_METHOD propName icIdx argCount) l = true := by
        simp_all [returningFault]
      exact ⟨I.holds_hiddenError _ _ hl, hsite.fault hfault _⟩
    split_ifs
    all_goals first
      | exact I.callAndRefresh_keeps rt ctx _ _ (by simpa using hl)
      | exact I.holds_throwException _ _ hl
  · split
    · exact I.callAndRefresh_keeps rt ctx _ _ (by simpa using hl)
    · exact I.holds_runtimeError _ hl
  · exact I.holds_runtimeError _ hl

variable (rt ctx)

theorem stringify_keeps (val : Value) (hl : I.holds l) :
    I.Keeps (fun r => I.holds r.1) (stringify rt l val) := by
  unfold stringify
  split
  · dsimp only
    split
    · exact (keeps_call _ _ hl).bind fun ended hended => hended
    · exact hl
  · exact hl

theorem doAdd_keeps (a b : Value) (hl : I.holds l) : I.Keeps I.holds (doAdd rt l a b) := by
  unfold doAdd
  split
  · simpa using hl
  · split
    · exact I.holds_runtimeError _ hl
    · simpa using hl
  · rename_i x y
    have hmade : I.holds (l.withShared
        (l.shared.newArray (l.shared.arrays x ++ l.shared.arrays y)).2) :=
      (I.holds_withShared (s := (l.shared.newArray _).2) rfl rfl rfl).mpr hl
    simpa using hmade
  split
  · simpa using hl
  split
  · refine (I.stringify_keeps rt a hl).bind fun left hleft => ?_
    refine (I.stringify_keeps rt b hleft).bind fun right hright => ?_
    simpa using hright
  · exact I.holds_runtimeError _ hl

theorem doSubtract_keeps (a b : Value) (hl : I.holds l) :
    I.Keeps I.holds (doSubtract rt l a b) := by
  unfold doSubtract
  split
  · simpa using hl
  split
  · simpa using hl
  · exact I.holds_runtimeError _ hl

theorem guardedHelper_keeps {helper : Proc Local} (h : I.Keeps I.holds helper) :
    I.Keeps I.holds (guardedHelper helper) :=
  h.tryCatch fun unwinding hunwinding => I.recordFault unwinding.2 hunwinding

theorem primitive_keeps (p : Primitive) (hl : I.holds l) :
    I.Keeps I.OfExit (primitive rt p l) := by
  unfold primitive
  split
  · trivial
  split
  · simpa [OfExit] using hl
  · rename_i exc h _
    exact I.recordFault (l := l.withHeap h) exc (I.unwinds_of_holds (by simpa using hl))
  · rename_i exc h _
    exact I.unwinds_of_holds ((I.heap l h).mpr hl)

variable {rt ctx} in
theorem binary_keeps {i : Instr} {op : String} {plain : Local → Value → Value → Proc Exit}
    (hplain : ∀ l a b, I.holds l → I.Keeps I.OfExit (plain l a b)) (hl : I.holds l)
    (hop : ∀ b a rest, l.ops = b :: a :: rest →
      returningCall i l = (overload l (lit op) a).map fun bound => (b :: bound :: rest, bound, 1))
    (hsite : I.Site rt ctx i l) : I.Keeps I.OfExit (binary rt ctx op plain l) := by
  unfold binary
  split
  · rename_i b a rest hops
    split
    · rename_i bound hbound
      refine hsite.callAndReturn (b :: bound :: rest) ?_
      rw [hop b a rest hops, hbound, Option.map_some]
    · exact hplain _ _ _ (by simpa using hl)
  · trivial

theorem plain_keeps (p : Primitive) (l : Local) (a b : Value) (hl : I.holds l) :
    I.Keeps I.OfExit (plain rt p l a b) :=
  I.primitive_keeps rt p (by simpa using hl)

variable {rt ctx} in
theorem ADD_keeps (hl : I.holds l) (hsite : I.Site rt ctx .ADD l) :
    I.Keeps I.OfExit (ADD rt ctx l) :=
  I.binary_keeps
    (fun _ a b hl => (I.guardedHelper_keeps (I.doAdd_keeps rt a b hl)).bind fun _ h => h) hl
    (by simp +contextual [returningCall, binaryOperator]) hsite

variable {rt ctx} in
theorem SUB_keeps (hl : I.holds l) (hsite : I.Site rt ctx .SUB l) :
    I.Keeps I.OfExit (SUB rt ctx l) :=
  I.binary_keeps
    (fun _ a b hl => (I.guardedHelper_keeps (I.doSubtract_keeps rt a b hl)).bind fun _ h => h) hl
    (by simp +contextual [returningCall, binaryOperator]) hsite

variable {rt ctx} in
theorem NEGATE_keeps (hl : I.holds l) (hsite : I.Site rt ctx .NEGATE l) :
    I.Keeps I.OfExit (NEGATE rt ctx l) := by
  unfold NEGATE
  split
  · trivial
  rename_i a rest hops
  split
  · rename_i bound hbound
    refine hsite.callAndReturn (bound :: rest) ?_
    simp [returningCall, hops, hbound]
  · exact I.primitive_keeps rt _ hl

theorem stepLocal_keeps (onInt : Int64 → Int64) (onFloat : UInt64 → UInt64) (slot : Nat)
    (hl : I.holds l) : I.Keeps I.OfExit (stepLocal onInt onFloat slot l) := by
  unfold stepLocal
  split
  · simpa [OfExit] using hl
  · simpa [OfExit] using hl
  · exact I.unwinds_of_holds hl

theorem helperAndStore_keeps {helper : Proc Local} {store : Local → Value → Local}
    (hstore : ∀ l v, I.holds l → I.holds (store l v)) (h : I.Keeps I.holds helper) :
    I.Keeps I.OfExit (helperAndStore helper store) := by
  unfold helperAndStore
  refine h.bind fun l hl => ?_
  split
  · split
    · exact hstore _ _ (by simpa using hl)
    · trivial
  · exact hl

theorem fused_keeps (op : String) (fast : Value → Value → Option Value)
    {helper : Local → Value → Value → Proc Local} {store : Local → Value → Local}
    (dst src : Value) (hstore : ∀ l v, I.holds l → I.holds (store l v))
    (hhelper : ∀ l a b, I.holds l → I.Keeps I.holds (helper l a b)) (hl : I.holds l) :
    I.Keeps I.OfExit (fused op fast helper store dst src l) := by
  unfold fused
  split
  · exact hstore _ _ hl
  split
  · exact (keeps_call _ _ hl).bind fun ended hended => hstore _ _ hended
  · exact I.helperAndStore_keeps hstore (hhelper _ _ _ hl)

theorem INC_LOCAL_BY_keeps (dst : Nat) (imm : Int64) (hl : I.holds l) :
    I.Keeps I.OfExit (INC_LOCAL_BY rt dst imm l) := by
  unfold INC_LOCAL_BY
  split
  · simpa [OfExit] using hl
  · simpa [OfExit] using hl
  · exact I.helperAndStore_keeps (by simp) (I.doAdd_keeps rt _ _ hl)

theorem holds_setGlobalSlot (slot : Nat) (l : Local) (v : Value) :
    I.holds (setGlobalSlot slot l v) ↔ I.holds l := by
  unfold setGlobalSlot
  exact I.holds_withShared rfl rfl rfl

theorem ADD_GLOBAL_LOCAL_keeps (globalSlot localSlot : Nat) (hl : I.holds l) :
    I.Keeps I.OfExit (ADD_GLOBAL_LOCAL rt globalSlot localSlot l) := by
  unfold ADD_GLOBAL_LOCAL
  split
  · exact hl
  · exact I.fused_keeps _ _ _ _ (fun l v => (I.holds_setGlobalSlot globalSlot l v).mpr)
      (fun l a b => I.doAdd_keeps rt a b) hl

theorem STORE_LOCAL_keeps (slot : Nat) (hl : I.holds l) : I.OfExit (STORE_LOCAL slot l) := by
  unfold STORE_LOCAL
  split
  · trivial
  · simpa [OfExit] using hl

theorem STORE_UPVALUE_keeps (slot : Nat) (hl : I.holds l) : I.OfExit (STORE_UPVALUE slot l) := by
  unfold STORE_UPVALUE
  split
  · trivial
  · unfold writeUpvalue
    split
    · simpa [OfExit] using hl
    · exact hl

theorem LOAD_GLOBAL_keeps (name : CString) (hl : I.holds l) : I.OfExit (LOAD_GLOBAL rt name l) := by
  unfold LOAD_GLOBAL
  split
  · simpa [OfExit] using hl
  · exact I.holds_runtimeError _ hl

theorem STORE_GLOBAL_keeps (name : CString) (hl : I.holds l) : I.OfExit (STORE_GLOBAL name l) := by
  unfold STORE_GLOBAL
  split
  · trivial
  · simpa [OfExit] using hl

theorem STORE_GLOBAL_SLOT_keeps (slot : Nat) (hl : I.holds l) :
    I.OfExit (STORE_GLOBAL_SLOT slot l) := by
  unfold STORE_GLOBAL_SLOT
  split
  · trivial
  · exact (I.holds_setGlobalSlot slot l _).mpr hl

theorem POP_keeps (hl : I.holds l) : I.OfExit (POP l) := by
  unfold POP
  split <;> simp [OfExit, hl]

theorem DUP_keeps (hl : I.holds l) : I.OfExit (DUP l) := by
  unfold DUP
  split <;> simp [OfExit, hl]

theorem DUP2_keeps (hl : I.holds l) : I.OfExit (DUP2 l) := by
  unfold DUP2
  split <;> simp [OfExit, hl]

theorem NOT_keeps (hl : I.holds l) : I.OfExit (NOT l) := by
  unfold NOT
  split <;> simp [OfExit, hl]

theorem IS_INSTANCE_OF_keeps (hl : I.holds l) : I.OfExit (IS_INSTANCE_OF rt l) := by
  unfold IS_INSTANCE_OF
  split <;> simp [OfExit, hl]

variable {rt ctx} in
theorem RETURN_keeps (hl : I.holds l) (hsite : I.Site rt ctx .RETURN l) : I.OfExit (RETURN l) := by
  unfold RETURN
  split
  · trivial
  · exact ⟨(I.holds_withOps _).mpr hl, hsite.steady _ rfl⟩

theorem loopLocal_keeps (past : Int64 → Int64 → Bool) (pastNumber : UInt64 → UInt64 → Bool)
    (loopSlot endSlot exitOff : Nat) (hl : I.holds l) :
    I.OfExit (loopLocal rt past pastNumber loopSlot endSlot exitOff l) := by
  have hjump : ∀ c : Prop, ∀ _ : Decidable c, I.holds (if c then l.jump exitOff else l) := by
    intro c _
    split <;> simpa using hl
  unfold loopLocal
  split
  · exact hjump _ _
  split
  · exact hjump _ _
  · exact I.holds_runtimeError _ hl

theorem jumpIf_keeps (taken : Value → Bool) (offset : Nat) (hl : I.holds l) :
    I.OfExit (jumpIf taken offset l) := by
  unfold jumpIf
  split
  · trivial
  · simp only [OfExit]
    split <;> simpa using hl

theorem CALL_keeps (argCount : Nat) (hl : I.holds l) :
    I.Keeps I.OfExit (CALL rt ctx argCount l) := by
  unfold CALL
  dsimp only
  split
  · trivial
  split
  · refine (I.stringify_keeps rt _ hl).bind fun text htext => ?_
    simpa [OfExit] using htext
  split
  · exact I.callAndRefresh_keeps rt ctx _ _ (by simpa using hl)
  · exact I.callAndRefresh_keeps rt ctx _ _ hl

theorem CALL_KW_keeps (posCount : Nat) (hl : I.holds l) :
    I.Keeps I.OfExit (CALL_KW rt ctx posCount l) := by
  unfold CALL_KW
  split
  · rename_i d ops _
    dsimp only
    split
    · trivial
    · exact I.callAndRefresh_keeps rt ctx _ _ hl
    split
    · rename_i callee rest _ _ _
      generalize bindKeywords _ _ _ = bound
      have hbound : I.holds (((l.withOps ops).withShared
          { (l.withOps ops).shared with
            dicts := Function.update (l.withOps ops).shared.dicts d bound.2 }).withOps
          (bound.1.reverse ++ callee :: rest)) := by
        simpa using hl
      split
      · split
        · exact I.callAndRefresh_keeps rt ctx _ _ hbound
        · exact I.holds_runtimeError _ hbound
      · exact I.callAndRefresh_keeps rt ctx _ _ hbound
    split
    · exact I.callAndRefresh_keeps rt ctx _ _ (by simpa using hl)
    · exact I.holds_runtimeError _ (by simpa using hl)
  · trivial

@[simp] theorem holds_closeUpvalues (slot : Nat) : I.holds (closeUpvalues l slot) ↔ I.holds l := by
  unfold closeUpvalues
  exact I.frame rfl

theorem TAIL_CALL_keeps (argCount : Nat) (hl : I.holds l) :
    I.Keeps I.OfExit (TAIL_CALL rt ctx argCount l) := by
  unfold TAIL_CALL
  dsimp only
  split
  · trivial
  · split
    · exact I.restart (f := { restartFrame l _ with closureUpvalues := _ }) hl
    · exact I.callAndRefresh_keeps rt ctx _ _ hl
  · split
    · exact (I.frame (f := restartFrame l _) rfl).mpr hl
    · exact I.callAndRefresh_keeps rt ctx _ _ hl
  · exact I.callAndRefresh_keeps rt ctx _ _ hl

theorem CALL_SPREAD_keeps (hl : I.holds l) : I.Keeps I.OfExit (CALL_SPREAD rt ctx l) := by
  unfold CALL_SPREAD
  split
  · exact I.callAndRefresh_keeps rt ctx _ _ (by simpa using hl)
  · exact I.holds_runtimeError _ (by simpa using hl)
  · trivial

theorem captureUpvalue_keeps (slot : Nat) (hl : I.holds l) :
    ∀ r ∈ captureUpvalue l slot, I.holds r.1 := by
  intro r hr
  unfold captureUpvalue at hr
  split at hr
  · simp at hr
  · simp only [Option.mem_def, Option.some.injEq] at hr
    exact hr ▸ hl
  · rename_i v _
    simp only [Option.mem_def, Option.some.injEq] at hr
    subst hr
    have hmade : I.holds (l.withShared (l.shared.newCell v).2) :=
      (I.holds_withShared (s := (l.shared.newCell v).2) rfl rfl rfl).mpr hl
    exact (I.frame (l := l.withShared (l.shared.newCell v).2)
      (f := { l.frame with slots := l.frame.slots.set slot (.cell (l.shared.newCell v).1) })
      rfl).mpr hmade

theorem captureAll_keeps (captures : List (Bool × Nat)) (hl : I.holds l) :
    ∀ r ∈ captureAll captures l, I.holds r.1 := by
  induction captures generalizing l with
  | nil =>
      intro r hr
      simp only [captureAll, Option.mem_def, Option.some.injEq] at hr
      exact hr ▸ hl
  | cons capture captures ih =>
      obtain ⟨isLocal, index⟩ := capture
      intro r hr
      simp only [captureAll, Option.mem_def, Option.bind_eq_some_iff, Option.map_eq_some_iff] at hr
      obtain ⟨first, hfirst, rest, hrest, rfl⟩ := hr
      have hheld : I.holds first.1 := by
        cases isLocal with
        | true => exact I.captureUpvalue_keeps index hl first (by simpa using hfirst)
        | false =>
            simp only [Bool.false_eq_true, if_false, Option.map_eq_some_iff] at hfirst
            obtain ⟨c, _, rfl⟩ := hfirst
            exact hl
      exact ih hheld rest hrest

theorem CLOSURE_keeps (nested : Nat) (captures : List (Bool × Nat)) (hl : I.holds l) :
    I.OfExit (CLOSURE nested captures l) := by
  unfold CLOSURE
  split
  · rename_i function l' upvalues _ hcaptured
    have hl' : I.holds l' := I.captureAll_keeps captures hl _ hcaptured
    have hmade : I.holds (l'.withShared (l'.shared.newClosure function upvalues).2) :=
      (I.holds_withShared (s := (l'.shared.newClosure function upvalues).2) rfl rfl rfl).mpr hl'
    simpa [OfExit] using hmade
  · trivial

variable {rt ctx} in
theorem NEW_INSTANCE_keeps {className : CString} {argc : Nat} (hl : I.holds l)
    (hsite : I.Site rt ctx (.NEW_INSTANCE className argc) l) :
    I.Keeps I.OfExit (NEW_INSTANCE className argc l) := by
  unfold NEW_INSTANCE
  split
  · refine (I.instantiate_keeps _ _ (by simpa using hl)).bind fun made hmade => ?_
    simpa [OfExit] using hmade
  · rename_i hclass
    have hfault : returningFault rt (.NEW_INSTANCE className argc) l = true := by
      unfold returningFault
      dsimp only
      split
      · rename_i k hk
        exact absurd hk (hclass k)
      · rfl
    exact ⟨I.holds_runtimeError _ hl, hsite.fault hfault _⟩

variable {rt ctx} in
theorem SUPER_CALL_keeps {method : CString} {argCount : Nat} (hl : I.holds l)
    (hsite : I.Site rt ctx (.SUPER_CALL method argCount) l) :
    I.Keeps I.OfExit (SUPER_CALL rt ctx method argCount l) := by
  unfold SUPER_CALL
  split
  · rename_i instRef parentKlass ops hops
    dsimp only
    split
    · rename_i hnil
      have hfault : returningFault rt (.SUPER_CALL method argCount) l = true := by
        simp_all [returningFault]
      exact ⟨I.holds_throwException _ _ (by simpa using hl), hsite.fault hfault _⟩
    · rename_i hnil
      refine hsite.callAndReturn (_ ++ _ :: _) ?_
      simp_all [returningCall]
  · rename_i obj ops hobj hops
    have hfault : returningFault rt (.SUPER_CALL method argCount) l = true := by
      simp_all [returningFault]
    exact ⟨I.holds_runtimeError _ (by simpa using hl), hsite.fault hfault _⟩
  · trivial

variable {rt ctx} in
theorem SUPER_keeps (hl : I.holds l) (hsite : I.Site rt ctx .SUPER l) : I.OfExit (SUPER l) := by
  unfold SUPER
  split
  · simpa [OfExit] using hl
  · rename_i a b rest hoperands hops
    have hfault : returningFault rt .SUPER l = true := by
      unfold returningFault
      simp only [hops]
    exact ⟨I.holds_runtimeError _ (by simpa using hl), hsite.fault hfault _⟩
  · trivial

theorem ITER_NEXT_keeps (offset : Nat) (hl : I.holds l) : I.OfExit (ITER_NEXT offset l) := by
  unfold ITER_NEXT
  split
  · split
    · split
      · simpa [OfExit] using hl
      · simpa [OfExit] using hl
    · trivial
  · trivial

theorem THROW_keeps (hl : I.holds l) : I.OfExit (THROW rt l) := by
  unfold THROW
  split
  · trivial
  · dsimp only
    split <;> simpa [OfExit] using hl
  · simpa [OfExit] using hl

variable {rt ctx} in
theorem OP_AWAIT_keeps (hl : I.holds l) (hsite : I.Site rt ctx .OP_AWAIT l) :
    I.OfExit (OP_AWAIT rt l) := by
  unfold OP_AWAIT
  split
  · trivial
  · split
    · simpa [OfExit] using hl
    · exact I.holds_throwException _ _ hl
    split
    · exact I.holds_throwException _ _ hl
    split
    · split
      · simpa [OfExit] using hl
      · exact I.holds_throwException _ _ hl
    · exact ⟨hl, hsite.steady l rfl⟩
  · exact hl

@[simp] theorem holds_print (text : CString) : I.holds (print l text) ↔ I.holds l := by
  unfold print
  exact I.holds_withShared rfl rfl rfl

theorem TO_STRING_keeps (hl : I.holds l) : I.Keeps I.OfExit (TO_STRING rt l) := by
  unfold TO_STRING
  split
  · trivial
  · refine (I.stringify_keeps rt _ hl).bind fun text htext => ?_
    simpa [OfExit] using htext

theorem PRINT_STR_keeps (hl : I.holds l) : I.Keeps I.OfExit (PRINT_STR rt l) := by
  unfold PRINT_STR
  split
  · trivial
  · simpa [OfExit] using hl
  · refine (I.stringify_keeps rt _ (by simpa using hl)).bind fun text htext => ?_
    simpa [OfExit] using htext

theorem printCalled_keeps {d : Dispatched} (hd : I.OfDispatched d) : I.OfExit (printCalled rt d) := by
  cases d with
  | pushed => trivial
  | _ => simpa [printCalled, OfExit, OfDispatched] using hd

theorem PRINT_keeps (hl : I.holds l) : I.Keeps I.OfExit (PRINT rt ctx l) := by
  unfold PRINT
  split
  · trivial
  split
  · refine (I.dispatchCall_keeps rt ctx _ _ _ (by simpa using hl)).bind fun d hd => ?_
    exact I.printCalled_keeps rt hd
  · simpa [OfExit] using hl

/-- Every handler keeps every local invariant. -/
theorem exec_keeps (i : Instr) (hl : I.holds l) (hsite : I.Site rt ctx i l) :
    I.Keeps I.OfExit (exec rt ctx i l) := by
  cases i with
  | LOAD_CONST v =>
      cases v with
      | some v => simpa [exec, LOAD_CONST, OfExit] using hl
      | none => exact I.holds_runtimeError _ hl
  | STORE_LOCAL slot => exact I.STORE_LOCAL_keeps slot hl
  | STORE_UPVALUE slot => exact I.STORE_UPVALUE_keeps slot hl
  | LOAD_GLOBAL name => exact I.LOAD_GLOBAL_keeps rt name hl
  | STORE_GLOBAL name => exact I.STORE_GLOBAL_keeps name hl
  | STORE_GLOBAL_SLOT slot => exact I.STORE_GLOBAL_SLOT_keeps slot hl
  | LOOP_LESS_EQ_LOCAL i j offset => exact I.loopLocal_keeps rt _ _ i j offset hl
  | LOOP_GREATER_EQ_LOCAL i j offset => exact I.loopLocal_keeps rt _ _ i j offset hl
  | LOAD_PROPERTY name ic => exact I.LOAD_PROPERTY_keeps hl hsite
  | STORE_PROPERTY name ic => exact I.STORE_PROPERTY_keeps hl hsite
  | INTERCEPTED_STORE_PROPERTY name ic => exact I.INTERCEPTED_STORE_PROPERTY_keeps hl hsite
  | GET_CACHED_RESULT methodName => exact I.GET_CACHED_RESULT_keeps methodName hl
  | STORE_CACHED_RESULT methodName => exact I.STORE_CACHED_RESULT_keeps methodName hl
  | GET_METHOD name => exact I.GET_METHOD_keeps hl hsite
  | INVOKE_METHOD name ic argCount => exact I.INVOKE_METHOD_keeps hl hsite
  | POP => exact I.POP_keeps hl
  | DUP => exact I.DUP_keeps hl
  | DUP2 => exact I.DUP2_keeps hl
  | NOT => exact I.NOT_keeps hl
  | RETURN => exact I.RETURN_keeps hl hsite
  | IS_INSTANCE_OF => exact I.IS_INSTANCE_OF_keeps rt hl
  | INC_LOCAL slot => exact I.stepLocal_keeps _ _ slot hl
  | DEC_LOCAL slot => exact I.stepLocal_keeps _ _ slot hl
  | NEGATE => exact I.NEGATE_keeps hl hsite
  | ADD => exact I.ADD_keeps hl hsite
  | SUB => exact I.SUB_keeps hl hsite
  | MUL | DIV | EQUAL | NOT_EQUAL | LESS | LESS_EQ | GREATER | GREATER_EQ =>
      exact I.binary_keeps (I.plain_keeps rt _) hl
        (by simp +contextual [returningCall, binaryOperator]) hsite
  | JUMP_IF_FALSE offset | JUMP_IF_TRUE offset | JUMP_IF_NIL offset | JUMP_IF_NOT_NIL offset =>
      exact I.jumpIf_keeps _ offset hl
  | CALL argCount => exact I.CALL_keeps rt ctx argCount hl
  | CALL_KW posCount => exact I.CALL_KW_keeps rt ctx posCount hl
  | TAIL_CALL argCount => exact I.TAIL_CALL_keeps rt ctx argCount hl
  | CALL_SPREAD => exact I.CALL_SPREAD_keeps rt ctx hl
  | CLOSURE nested captures => exact I.CLOSURE_keeps nested captures hl
  | NEW_INSTANCE className argc => exact I.NEW_INSTANCE_keeps hl hsite
  | SUPER => exact I.SUPER_keeps hl hsite
  | SUPER_CALL method argCount => exact I.SUPER_CALL_keeps hl hsite
  | ITER_NEXT offset => exact I.ITER_NEXT_keeps offset hl
  | THROW => exact I.THROW_keeps rt hl
  | TO_STRING => exact I.TO_STRING_keeps rt hl
  | PRINT => exact I.PRINT_keeps rt ctx hl
  | PRINT_STR => exact I.PRINT_STR_keeps rt hl
  | OP_AWAIT => exact I.OP_AWAIT_keeps hl hsite
  | ADD_LOCAL_LOCAL dst src =>
      exact I.fused_keeps _ _ _ _ (fun l v => (I.holds_setLocal dst v).mpr)
        (fun l a b => I.doAdd_keeps rt a b) hl
  | SUB_LOCAL_LOCAL dst src =>
      exact I.fused_keeps _ _ _ _ (fun l v => (I.holds_setLocal dst v).mpr)
        (fun l a b => I.doSubtract_keeps rt a b) hl
  | INC_LOCAL_BY dst imm => exact I.INC_LOCAL_BY_keeps rt dst imm hl
  | ADD_GLOBAL_LOCAL globalSlot localSlot =>
      exact I.ADD_GLOBAL_LOCAL_keeps rt globalSlot localSlot hl
  | primitive p => exact I.primitive_keeps rt p hl
  | TRY_START | TRY_END | END => exact ⟨hl, hsite.steady l rfl⟩
  | _ => simpa [exec, LOAD_UPVALUE, OfExit] using hl

end Handlers

end LocalInvariant

end EZLanguage
