import EZLanguage.VM.Invariant

/-!
# Frames and closure states

`frames` and `frameUpvalues` are two vectors the VM pushes and pops side by side. They stay coupled, so
that each frame runs on the variables its own closure captured, exactly as long as no nested `run` ends
with frames of its own left: `callFunction` cuts those from `frames` alone.
-/

namespace EZLanguage

/-- The closure state beside the top frame is that of the closure the frame executes. -/
def coupling : LocalInvariant where
  holds l := l.upvalues = l.frame.closureUpvalues
  unwinds l := l.upvalues = l.frame.closureUpvalues
  left _ := True
  native _ _ _ _ := True
  unwinds_of_holds hl := hl
  frame := by
    intro l f hf
    simp [hf]
  heap _ _ := Iff.rfl
  recordFault _ hl := hl
  restart _ := rfl

theorem coupling_withShared {l : Local} {s : Shared} :
    coupling.holds (l.withShared s) ↔ coupling.holds l := Iff.rfl

theorem coupling_site (rt : Runtime) (ctx : Ctx) (i : Instr) {l : Local} (hl : coupling.holds l) :
    coupling.Site rt ctx i l :=
  { steady := fun _ _ => trivial
    fault := fun _ _ => trivial
    call := fun ops callee argCount _ => by
      refine (coupling.dispatchCall_keeps rt ctx callee argCount none
        ((coupling.holds_withOps ops).mpr hl)).mono fun d hd => ⟨hd, ?_⟩
      cases d <;> trivial }

theorem finishCall_coupled {saved l : Local} {v : Value} (hl : coupling.holds l) :
    coupling.holds (finishCall saved l v).1 := by
  unfold finishCall
  dsimp only
  split
  · exact hl
  · exact hl

theorem callFunction_coupled (rt : Runtime) (ctx : Ctx) {l : Local} (callee : Value)
    (args : List Value) (hl : coupling.holds l) :
    coupling.Keeps (fun r => coupling.holds r.1) (callFunction rt ctx l callee args) :=
  have henter : coupling.holds (enterCall l callee args) := hl
  coupling.callFunction_keeps (P := fun _ => True) rt ctx callee args hl
    (fun _ _ _ => (coupling.dispatchCall_keeps rt ctx callee _ _ henter).mono fun _ hd =>
      ⟨hd, trivial⟩)
    (fun _ hl' => hl') (fun _ _ hl' => finishCall_coupled hl') (fun _ _ hl' _ => hl')
    fun _ hl' _ => hl'

namespace VM

/-- `frames` and `frameUpvalues` have the same length, and `frameUpvalues[i]` holds the variables of the
closure executing in `frames[i]`. -/
def Coupled (vm : VM) : Prop := vm.frameUpvalues = vm.frames.map Frame.closureUpvalues

/-- What the upvalue instructions do in the current frame is to its own closure's variables. -/
def OwnUpvalues (rt : Runtime) (vm : VM) : Prop :=
  ∀ l slot,
    (vm.fetch = some (.LOAD_UPVALUE slot, l) →
      Handler.exec rt vm.ctx (.LOAD_UPVALUE slot) l =
        pure (.dispatch (l.push (Handler.readUpvalue l.shared l.frame.closureUpvalues slot)))) ∧
    (∀ v ops, vm.fetch = some (.STORE_UPVALUE slot, l) → l.ops = v :: ops →
      Handler.exec rt vm.ctx (.STORE_UPVALUE slot) l =
        pure (.dispatch (l.withShared
          (Handler.writeUpvalue l.shared l.frame.closureUpvalues slot v))))

/-- A nested `run` that is about to return to `callFunction` has no frames of its own left: its callee
returned, and did not hand an exception to the caller. -/
def CalleesReturned (vm : VM) : Prop :=
  ∀ a rest, vm.control = .leave → vm.activations = a :: rest → vm.frames.length ≤ a.framesBefore

/-- The invariant of a run: the vectors are coupled, and so is everything the code of the handlers, the
running one and the waiting ones, goes on with. -/
structure CoupledRun (vm : VM) : Prop where
  coupled : vm.Coupled
  code : ∀ p, vm.control = .code p → coupling.KeepsCode p
  waiting : ∀ a ∈ vm.activations, 0 < a.framesBefore ∧
    ∀ l v, coupling.holds l → coupling.KeepsCode (a.k (l, v))

section Step

variable {vm : VM}

theorem CoupledRun.of_noCode {vm' : VM} (h : CoupledRun vm) (hcoupled : vm'.Coupled)
    (hcode : ∀ p, vm'.control ≠ .code p) (hwaiting : vm'.activations = vm.activations) :
    CoupledRun vm' :=
  { coupled := hcoupled
    code := fun p hp => absurd hp (hcode p)
    waiting := hwaiting ▸ h.waiting }

theorem Coupled.sync (h : vm.Coupled) {l : Local} (hl : coupling.holds l) : (vm.sync l).Coupled := by
  have htail : vm.frameUpvalues.tail = vm.frames.tail.map Frame.closureUpvalues := by
    rw [h, List.map_tail]
  show l.upvalues :: vm.frameUpvalues.tail = (l.frame :: vm.frames.tail).map Frame.closureUpvalues
  rw [htail, List.map_cons, show l.upvalues = l.frame.closureUpvalues from hl]

theorem CoupledRun.sync (h : CoupledRun vm) {l : Local} (hl : coupling.holds l) {c : Control}
    (hc : ∀ p, c ≠ .code p) : CoupledRun ((vm.sync l).goto c) :=
  h.of_noCode (h.coupled.sync hl) hc rfl

theorem CoupledRun.deliver (h : CoupledRun vm) (exc : Value) : CoupledRun (vm.deliver exc) := by
  unfold VM.deliver
  split
  · exact h.of_noCode h.coupled nofun rfl
  · rename_i tb rest _
    dsimp only
    split
    · rename_i frame frames upvalues frameUpvalues hframes hupvalues
      split
      · exact h.of_noCode h.coupled nofun rfl
      · have hdrop : upvalues :: frameUpvalues = (frame :: frames).map Frame.closureUpvalues := by
          rw [← hframes, ← hupvalues, h.coupled, List.map_drop]
        exact h.of_noCode hdrop nofun rfl
    · exact h.of_noCode h.coupled nofun rfl

theorem CoupledRun.throwValue (rt : Runtime) (h : CoupledRun vm) (exc : Value) :
    CoupledRun (throwValue rt vm exc) := by
  unfold VM.throwValue
  split
  · exact h.deliver exc
  split
  · exact h.of_noCode h.coupled nofun rfl
  · exact h.of_noCode h.coupled nofun rfl

theorem CoupledRun.returnFrom (h : CoupledRun vm) (result : Value) :
    CoupledRun (vm.returnFrom result) := by
  have htail : vm.frameUpvalues.tail = vm.frames.tail.map Frame.closureUpvalues := by
    rw [h.coupled, List.map_tail]
  unfold VM.returnFrom
  dsimp only
  split
  · exact h.of_noCode htail nofun rfl
  · rename_i caller frames hframes
    rw [show vm.frames.tail = caller :: frames from hframes] at htail
    refine h.of_noCode htail ?_ rfl
    dsimp only
    split <;> nofun

theorem CoupledRun.settle (rt : Runtime) (h : CoupledRun vm) {e : Exit} (he : coupling.OfExit e) :
    CoupledRun (vm.settle rt e) := by
  cases e with
  | pushFrame l frame upvalues =>
      have hpushed : (((vm.sync l).push frame upvalues).goto .dispatch).Coupled := by
        show upvalues :: (vm.sync l).frameUpvalues =
          (frame :: (vm.sync l).frames).map Frame.closureUpvalues
        rw [h.coupled.sync he.1, he.2, List.map_cons]
      exact h.of_noCode hpushed nofun rfl
  | returned l result => exact (h.sync he.1 (c := .dispatch) nofun).returnFrom result
  | thrown l exc =>
      exact (h.sync (coupling_withShared.mpr he) (c := .dispatch) nofun).throwValue rt exc
  | finallyEnd l =>
      unfold VM.settle
      dsimp only
      split
      · exact h.sync he nofun
      · exact (h.sync (coupling_withShared.mpr he) (c := .dispatch) nofun).throwValue rt _
  | tryStart l catchIp => exact h.of_noCode (h.coupled.sync he.1) nofun rfl
  | tryEnd l => exact h.of_noCode (h.coupled.sync he.1) nofun rfl
  | malformed => exact h.of_noCode h.coupled nofun rfl
  | leave l => exact h.sync he.1 nofun
  | yielded l => exact h.sync he.1 nofun
  | ended l => exact h.sync (coupling_withShared.mpr he.1) nofun
  | _ => exact h.sync he nofun

theorem CoupledRun.nestedRun (h : CoupledRun vm) {l : Local}
    {pushed : Option (Frame × ClosureState)} {k : Local × Value → HandlerCode}
    (hask : coupling.Asks (.nested l pushed))
    (hk : ∀ r, coupling.holds r.1 → coupling.KeepsCode (k r)) :
    CoupledRun (vm.nestedRun l pushed k) := by
  have hsynced := h.coupled.sync hask.1
  have hwaiting : ∀ a ∈ ({ start := vm.start, framesBefore := (vm.sync l).frames.length, k } ::
      vm.activations : List Activation), 0 < a.framesBefore ∧
        ∀ l v, coupling.holds l → coupling.KeepsCode (a.k (l, v)) := by
    intro a ha
    rcases List.mem_cons.mp ha with rfl | ha
    · exact ⟨Nat.succ_pos _, fun l v hl => hk (l, v) hl⟩
    · exact h.waiting a ha
  unfold VM.nestedRun
  cases pushed with
  | none => exact { coupled := hsynced, code := nofun, waiting := hwaiting }
  | some entered =>
      obtain ⟨frame, upvalues⟩ := entered
      have hpushed : ((vm.sync l).push frame upvalues).Coupled := by
        show upvalues :: (vm.sync l).frameUpvalues =
          (frame :: (vm.sync l).frames).map Frame.closureUpvalues
        rw [hsynced, hask.2 frame upvalues rfl, List.map_cons]
      exact { coupled := hpushed, code := nofun, waiting := hwaiting }

theorem CoupledRun.gotoCode (h : CoupledRun vm) {p : HandlerCode} (hp : coupling.KeepsCode p) :
    CoupledRun (vm.goto (.code p)) :=
  { coupled := h.coupled
    code := fun _ hq => Control.code.inj hq ▸ hp
    waiting := h.waiting }

theorem CoupledRun.stepCode (rt : Runtime) (h : CoupledRun vm) {p : HandlerCode}
    (hp : coupling.KeepsCode p) : CoupledRun (vm.stepCode rt p) := by
  cases p with
  | done r =>
      cases r with
      | ok e => exact h.settle rt hp
      | error unwinding =>
          have hsynced : CoupledRun ((vm.sync unwinding.1).goto .dispatch) := h.sync hp nofun
          show CoupledRun (((vm.sync unwinding.1).goto .dispatch).caught unwinding.2)
          unfold caught
          split
          · exact hsynced.deliver _
          · exact hsynced.of_noCode hsynced.coupled nofun rfl
  | ask q k =>
      cases q with
      | call l callee args =>
          have hcall := callFunction_coupled rt vm.ctx callee args hp.1
          exact h.gotoCode (Resumption.Sat.bind hcall hp.2)
      | native l id args =>
          exact h.gotoCode ((coupling.ofNative_keeps _ hp.1).bind fun r hr => hp.2 r ⟨hr, trivial⟩)
      | nested l pushed => exact h.nestedRun hp.1 hp.2

/-- The end of a nested `run` keeps the vectors coupled when none of its frames are left. -/
theorem CoupledRun.leaveRun (h : CoupledRun vm) (hcontrol : vm.control = .leave)
    (hreturned : vm.CalleesReturned) : CoupledRun vm.leaveRun := by
  unfold VM.leaveRun
  split
  · exact h.of_noCode h.coupled nofun rfl
  · rename_i a rest hactivations
    have hle := hreturned a rest hcontrol hactivations
    have hwaiting := h.waiting
    rw [hactivations] at hwaiting
    split
    · rename_i frame frames upvalues frameUpvalues hframes hupvalues
      split
      · exact h.of_noCode h.coupled nofun rfl
      · rw [Nat.sub_eq_zero_of_le hle, List.drop_zero] at hframes
        have hcoupled : vm.frameUpvalues = (frame :: frames).map Frame.closureUpvalues :=
          hframes ▸ h.coupled
        have htop : coupling.holds { frame, upvalues, shared := vm.shared } := by
          rw [hupvalues, List.map_cons] at hcoupled
          exact (List.cons.inj hcoupled).1
        exact
          { coupled := hcoupled
            code := fun _ hp => Control.code.inj hp ▸ (hwaiting a (by simp)).2 _ _ htop
            waiting := fun b hb => hwaiting b (by simp [hb]) }
    · exact h.of_noCode h.coupled nofun rfl

theorem Coupled.fetch (h : vm.Coupled) {i : Instr} {l : Local} (hfetch : vm.fetch = some (i, l)) :
    coupling.holds l := by
  obtain ⟨frame, frames, upvalues, frameUpvalues, hframes, hupvalues, rfl⟩ := fetch_eq_some hfetch
  have hcoupled : vm.frameUpvalues = vm.frames.map Frame.closureUpvalues := h
  rw [hframes, hupvalues, List.map_cons] at hcoupled
  exact (List.cons.inj hcoupled).1

theorem CoupledRun.step (rt : Runtime) (h : CoupledRun vm) (hreturned : vm.CalleesReturned) :
    CoupledRun (vm.step rt) := by
  unfold VM.step
  split
  · split
    · split
      · rename_i i l hfetch
        have hl := h.coupled.fetch hfetch
        exact h.gotoCode (coupling.exec_keeps rt vm.ctx i hl (coupling_site rt vm.ctx i hl))
      · exact h.of_noCode h.coupled nofun rfl
    · exact h.of_noCode h.coupled nofun rfl
  · rename_i p hcontrol
    exact h.stepCode rt (h.code p hcontrol)
  · unfold handleFault
    split
    · exact h.of_noCode h.coupled nofun rfl
    split
    · exact h.deliver _
    · exact h.of_noCode h.coupled nofun rfl
  · rename_i hcontrol
    exact h.leaveRun hcontrol hreturned
  · exact h
  · exact h
  · exact h

/-- A nested `run` that ends with frames of its own left uncouples the vectors. -/
theorem CoupledRun.uncoupled (rt : Runtime) (h : CoupledRun vm) (hreturned : ¬vm.CalleesReturned) :
    ¬(vm.step rt).Coupled := by
  simp only [CalleesReturned, not_forall, Nat.not_le] at hreturned
  obtain ⟨a, rest, hcontrol, hactivations, hlt⟩ := hreturned
  have hpos : 0 < a.framesBefore := (h.waiting a (by simp [hactivations])).1
  have hlength : vm.frameUpvalues.length = vm.frames.length := by
    rw [h.coupled, List.length_map]
  intro hcoupled
  have hstep : (vm.step rt).frames.length = a.framesBefore ∧
      (vm.step rt).frameUpvalues = vm.frameUpvalues := by
    have hdropped := List.length_drop (i := vm.frames.length - a.framesBefore) (l := vm.frames)
    simp only [VM.step, hcontrol, VM.leaveRun, hactivations]
    cases hframes : vm.frames.drop (vm.frames.length - a.framesBefore) with
    | nil =>
        rw [hframes, List.length_nil] at hdropped
        omega
    | cons frame frames =>
        cases hupvalues : vm.frameUpvalues with
        | nil =>
            rw [hupvalues, List.length_nil] at hlength
            omega
        | cons upvalues frameUpvalues =>
            rw [hframes] at hdropped
            have hnot : ¬vm.frames.length < a.framesBefore := by omega
            simp only [if_neg hnot, and_true]
            omega
  have hlength' : (vm.step rt).frameUpvalues.length = (vm.step rt).frames.length := by
    rw [hcoupled, List.length_map]
  rw [hstep.1, hstep.2] at hlength'
  omega

end Step

theorem CoupledRun.initial (frame : Frame) (shared : Shared) :
    CoupledRun (initial frame shared) :=
  { coupled := rfl, code := nofun, waiting := nofun }

theorem CoupledRun.run (rt : Runtime) {vm : VM} (h : CoupledRun vm) {n : Nat}
    (hreturned : ∀ m < n, (vm.run rt m).CalleesReturned) : CoupledRun (vm.run rt n) := by
  induction n with
  | zero => exact h
  | succ n ih =>
      rw [run_succ]
      exact (ih fun m hm => hreturned m (by omega)).step rt (hreturned n (by omega))

theorem Coupled.ownUpvalues (rt : Runtime) {vm : VM} (h : vm.Coupled) : vm.OwnUpvalues rt := by
  intro l slot
  constructor
  · intro hfetch
    have hl : l.upvalues = l.frame.closureUpvalues := h.fetch hfetch
    rw [← hl]
    rfl
  · intro v ops hfetch hops
    have hl : l.upvalues = l.frame.closureUpvalues := h.fetch hfetch
    rw [← hl]
    simp only [Handler.exec, Handler.STORE_UPVALUE, hops]

/-- In every run, the frames and their closure states are coupled in each state up to the `n`-th exactly
when every nested `run` that ended on the way had its callee return. -/
theorem coupled_iff_calleesReturned (rt : Runtime) (frame : Frame) (shared : Shared) (n : Nat) :
    (∀ m ≤ n, ((initial frame shared).run rt m).Coupled ∧
      ((initial frame shared).run rt m).OwnUpvalues rt) ↔
    ∀ m < n, ((initial frame shared).run rt m).CalleesReturned := by
  have hinitial := CoupledRun.initial frame shared
  constructor
  · intro hcoupled m
    induction m using Nat.strongRecOn with
    | ind m ih =>
        intro hm
        have hrun := hinitial.run rt fun k hk => ih k hk (by omega)
        by_contra hreturned
        refine hrun.uncoupled rt hreturned ?_
        rw [← run_succ]
        exact (hcoupled (m + 1) (by omega)).1
  · intro hreturned m hm
    have hrun := hinitial.run rt (n := m) fun k hk => hreturned k (by omega)
    exact ⟨hrun.coupled, hrun.coupled.ownUpvalues rt⟩

/-- `model Boom { init() { throw "b" } }  try { Boom() } catch (e) { }` -/
def boomFunctions : List FunctionObj :=
  [FunctionObj.ofCode []
      [.TRY_START 5, .LOAD_GLOBAL_SLOT 0, .CALL 0, .POP, .TRY_END, .JUMP 1, .POP, .END],
    { FunctionObj.ofCode (lit "init") [.LOAD_CONST (some (.string (lit "b"))), .THROW] with
      paramNames := [lit "self"], arity := 1, isMethod := true, localCount := 1 }]

def boom : VM :=
  initial
    { function := 0, ip := 0, slots := [], ops := [], superCalled := false, closureUpvalues := [] }
    (Shared.start
      { Heap.ofProgram boomFunctions [Klass.ofMethods (lit "Boom") [(lit "init", .closure 0)]]
          [{ function := 1, upvalues := [] }] with
        globalSlots := [.klass 0] })

/-- After the constructor's exception was caught, its closure state is still there. -/
theorem boom_uncoupled : ¬∀ n, (boom.run .bare n).Coupled := by
  intro h
  have hcoupled := h 16
  revert hcoupled
  unfold Coupled
  decide

end VM

end EZLanguage
