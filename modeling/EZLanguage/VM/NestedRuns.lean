import EZLanguage.VM.Machine
import Mathlib.Data.List.TakeWhile

/-!
# What a nested run leaves alone

While a nested `run` goes on, the frames below its first one, the try blocks of these frames and the
activations that wait stay as they are. When its callee returns, the result is in the place of the
callee; when it leaves with an exception, its frames are still there.
-/

namespace EZLanguage

namespace VM

/-- What is below a nested `run`: the frame of the caller and those under it, the try blocks, and the
activations, the waiting one first. -/
structure Below where
  caller : Frame
  frames : List Frame
  tryStack : List TryBlock
  activations : List Activation

/-- The number of frames below. -/
def Below.height (b : Below) : Nat := b.frames.length + 1

/-- The try blocks below are of frames below. -/
def Below.Owned (b : Below) : Prop := ∀ tb ∈ b.tryStack, tb.frameIdx < b.height

/-- The nested `run` goes on, with further ones inside. -/
structure Inside (b : Below) (inner : List Activation) (vm : VM) : Prop where
  frames : ∃ own, own ≠ [] ∧ vm.frames = own ++ b.caller :: b.frames
  tryStack : ∃ own, vm.tryStack = own ++ b.tryStack ∧ ∀ tb ∈ own, b.height ≤ tb.frameIdx
  activations : vm.activations = inner ++ b.activations
  framesBefore : ∀ a ∈ inner, b.height < a.framesBefore
  starts : ∀ n ∈ vm.start :: inner.map Activation.start, b.height < n
  first : (vm.start :: inner.map Activation.start).getLast? = some (b.height + 1)

/-- The callee of the nested `run` has returned. -/
structure Returned (b : Below) (vm : VM) : Prop where
  control : vm.control = .leave
  frames : ∃ result, vm.frames = { b.caller with ops := result :: b.caller.ops.tail } :: b.frames
  tryStack : vm.tryStack = b.tryStack
  activations : vm.activations = b.activations

/-- The VM has come, or is about to come, to undefined behaviour. -/
def Doomed (vm : VM) : Prop :=
  vm.control = .undefined ∨
    vm.control = .leave ∧ ∃ a rest, vm.activations = a :: rest ∧ vm.frames.length < a.framesBefore

/-- The nested `run` is about to return to the one that waits for it. -/
def Leaving (b : Below) (vm : VM) : Prop :=
  vm.control = .leave ∧ vm.activations.length = b.activations.length

/-- `TRY_END` ends a try block of the running `run`. -/
def EndsOwnBlock (vm : VM) : Prop :=
  ∀ l, vm.control = .code (.done (.ok (.tryEnd l))) → vm.ownsTryBlock = true

/-- Where a nested `run` can be. -/
def Within (b : Below) (vm : VM) : Prop :=
  (∃ inner, Inside b inner vm) ∨ Returned b vm ∨ Doomed vm

section Steps

variable {b : Below} {inner : List Activation} {vm : VM} {rt : Runtime}

theorem Inside.congr {vm' : VM} (h : Inside b inner vm) (hframes : vm'.frames = vm.frames)
    (htry : vm'.tryStack = vm.tryStack) (hactivations : vm'.activations = vm.activations)
    (hstart : vm'.start = vm.start) : Inside b inner vm' := by
  constructor
  · rw [hframes]
    exact h.frames
  · rw [htry]
    exact h.tryStack
  · rw [hactivations]
    exact h.activations
  · exact h.framesBefore
  · rw [hstart]
    exact h.starts
  · rw [hstart]
    exact h.first

theorem Inside.goto (h : Inside b inner vm) (control : Control) : Inside b inner (vm.goto control) :=
  h.congr rfl rfl rfl rfl

theorem Inside.sync (h : Inside b inner vm) (l : Local) : Inside b inner (vm.sync l) := by
  obtain ⟨own, hne, hframes⟩ := h.frames
  obtain ⟨frame, own, rfl⟩ := List.exists_cons_of_ne_nil hne
  refine ⟨⟨l.frame :: own, by simp, ?_⟩, h.tryStack, h.activations, h.framesBefore, h.starts, h.first⟩
  show l.frame :: vm.frames.tail = _
  rw [hframes]
  rfl

theorem Inside.push (h : Inside b inner vm) (frame : Frame) (upvalues : ClosureState) :
    Inside b inner (vm.push frame upvalues) := by
  obtain ⟨own, hne, hframes⟩ := h.frames
  refine ⟨⟨frame :: own, by simp, ?_⟩, h.tryStack, h.activations, h.framesBefore, h.starts, h.first⟩
  show frame :: vm.frames = _
  rw [hframes]
  rfl

/-- Cutting fewer frames than the run has of its own. -/
theorem Inside.drop (h : Inside b inner vm) {height : Nat} (hheight : b.height < height)
    {frame : Frame} {frames : List Frame}
    (hdrop : vm.frames.drop (vm.frames.length - height) = frame :: frames) :
    ∃ own, frames = own ++ b.caller :: b.frames := by
  obtain ⟨own, hne, hframes⟩ := h.frames
  have hown := List.length_pos_iff.mpr hne
  have hlength : vm.frames.length = own.length + b.height := by
    rw [hframes, List.length_append, List.length_cons, Below.height]
  rw [hframes, List.drop_append_of_le_length (by rw [← hframes]; omega)] at hdrop
  cases hcut : own.drop ((own ++ b.caller :: b.frames).length - height) with
  | nil =>
      have hnone := List.drop_eq_nil_iff.mp hcut
      rw [← hframes] at hnone
      omega
  | cons first own' =>
      rw [hcut, List.cons_append] at hdrop
      exact ⟨own', (List.cons.inj hdrop).2.symm⟩

theorem Inside.height_lt (h : Inside b inner vm) : b.height < vm.start :=
  h.starts vm.start List.mem_cons_self

/-- The innermost try block of a `run` is one of the nested one when the `run` owns it. -/
theorem Inside.own_block (h : Inside b inner vm) (hb : b.Owned) (howns : vm.ownsTryBlock = true) :
    ∃ tb own, vm.tryStack = tb :: (own ++ b.tryStack) ∧ vm.start ≤ tb.frameIdx + 1 ∧
      ∀ tb' ∈ tb :: own, b.height ≤ tb'.frameIdx := by
  have hheight := h.height_lt
  obtain ⟨own, htry, hown⟩ := h.tryStack
  rw [ownsTryBlock, htry] at howns
  cases own with
  | nil =>
      cases hbelow : b.tryStack with
      | nil =>
          rw [hbelow] at howns
          cases howns
      | cons tb rest =>
          rw [hbelow] at howns
          have hstart : vm.start ≤ tb.frameIdx + 1 := by simpa using howns
          have hlow := hb tb (by rw [hbelow]; exact List.mem_cons_self)
          omega
  | cons tb own => exact ⟨tb, own, htry, by simpa using howns, hown⟩

theorem Inside.deliver (h : Inside b inner vm) (hb : b.Owned) (howns : vm.ownsTryBlock = true)
    (exc : Value) : Within b (vm.deliver exc) := by
  have hheight := h.height_lt
  obtain ⟨tb, own, htry, hstart, hown⟩ := h.own_block hb howns
  unfold VM.deliver
  rw [htry]
  dsimp only
  split
  · rename_i frame frames upvalues frameUpvalues hframes hupvalues
    split
    · exact .inr (.inr (.inl rfl))
    · left
      have habove : b.height < tb.frameIdx + 1 := by omega
      obtain ⟨cut, hcut⟩ := h.drop habove hframes
      refine ⟨inner, ⟨?_, ⟨own, rfl, fun tb' htb' => hown tb' (List.mem_cons_of_mem _ htb')⟩,
        h.activations, h.framesBefore, h.starts, h.first⟩⟩
      rw [hcut]
      exact ⟨_ :: cut, List.cons_ne_nil _ _, rfl⟩
  · exact .inr (.inr (.inl rfl))

theorem Inside.throwValue (h : Inside b inner vm) (hb : b.Owned) (exc : Value) :
    Within b (throwValue rt vm exc) := by
  unfold VM.throwValue
  split
  · rename_i howns
    exact h.deliver hb howns exc
  · split
    · exact .inl ⟨inner, h.congr rfl rfl rfl rfl⟩
    · exact .inl ⟨inner, h.congr rfl rfl rfl rfl⟩

theorem dropWhile_append_of_none {α : Type} {p : α → Bool} (xs : List α) {ys : List α}
    (hys : ∀ y ∈ ys, p y = false) : (xs ++ ys).dropWhile p = xs.dropWhile p ++ ys := by
  induction xs with
  | nil =>
      cases ys with
      | nil => rfl
      | cons y ys => exact List.dropWhile_cons_of_neg (by simp [hys y List.mem_cons_self])
  | cons x xs ih =>
      rw [List.cons_append, List.dropWhile_cons, List.dropWhile_cons]
      split
      · exact ih
      · rfl

theorem Inside.returnFrom (h : Inside b inner vm) (hb : b.Owned) (result : Value) :
    Within b (vm.returnFrom result) := by
  have hheight := h.height_lt
  obtain ⟨own, hne, hframes⟩ := h.frames
  obtain ⟨frame, own, rfl⟩ := List.exists_cons_of_ne_nil hne
  obtain ⟨blocks, htry, hblocks⟩ := h.tryStack
  have hreturning : vm.frames.length - 1 = own.length + b.height := by
    rw [hframes, List.length_append, List.length_cons, List.length_cons, Below.height]
    omega
  have hdropped : vm.tryStack.dropWhile (fun tb => decide (vm.frames.length - 1 ≤ tb.frameIdx)) =
      blocks.dropWhile (fun tb => decide (vm.frames.length - 1 ≤ tb.frameIdx)) ++ b.tryStack := by
    rw [htry]
    apply dropWhile_append_of_none
    intro tb htb
    have := hb tb htb
    rw [decide_eq_false_iff_not]
    omega
  have htail : vm.frames.tail = own ++ b.caller :: b.frames := by
    rw [hframes]
    rfl
  unfold VM.returnFrom
  dsimp only
  rw [htail, hdropped]
  cases own with
  | nil =>
      have hnone : blocks.dropWhile (fun tb => decide (vm.frames.length - 1 ≤ tb.frameIdx)) = [] := by
        rw [List.dropWhile_eq_nil_iff]
        intro tb htb
        have := hblocks tb htb
        rw [hreturning, List.length_nil, Nat.zero_add]
        simpa using this
      have hleaves : (if b.frames.length + 1 < vm.start then Control.leave else .dispatch) = .leave :=
        if_pos hheight
      right
      cases inner with
      | nil =>
          left
          refine ⟨hleaves, ⟨result, rfl⟩, ?_, h.activations⟩
          show _ ++ b.tryStack = _
          rw [hnone, List.nil_append]
      | cons a inner =>
          right
          right
          refine ⟨hleaves, a, inner ++ b.activations, h.activations, ?_⟩
          exact h.framesBefore a List.mem_cons_self
  | cons caller own =>
      left
      refine ⟨inner, ⟨⟨_ :: own, by simp, rfl⟩, ⟨_, rfl, fun tb htb => ?_⟩, h.activations,
        h.framesBefore, h.starts, h.first⟩⟩
      exact hblocks tb ((List.dropWhile_suffix _).subset htb)

theorem Inside.settle (h : Inside b inner vm) (hb : b.Owned) {e : Exit}
    (hends : ∀ l, e = .tryEnd l → vm.ownsTryBlock = true) : Within b (vm.settle rt e) := by
  cases e with
  | dispatch l => exact .inl ⟨inner, (h.sync l).goto _⟩
  | raiseFault l => exact .inl ⟨inner, (h.sync l).goto _⟩
  | leave l => exact .inl ⟨inner, (h.sync l).goto _⟩
  | pushFrame l frame upvalues => exact .inl ⟨inner, ((h.sync l).push frame upvalues).goto _⟩
  | returned l result => exact (h.sync l).returnFrom hb result
  | thrown l exc => exact (h.sync _).throwValue hb exc
  | finallyEnd l =>
      unfold VM.settle
      dsimp only
      split
      · exact .inl ⟨inner, (h.sync l).goto _⟩
      · exact (h.sync _).throwValue hb _
  | tryStart l catchIp =>
      obtain ⟨own, hne, hframes⟩ := h.frames
      obtain ⟨blocks, htry, hblocks⟩ := h.tryStack
      have hown := List.length_pos_iff.mpr hne
      have hsynced := h.sync l
      have hindex : b.height ≤ vm.frames.length - 1 := by
        rw [hframes, List.length_append, List.length_cons, Below.height]
        omega
      refine .inl ⟨inner, ⟨hsynced.frames, ?_, h.activations, h.framesBefore, h.starts, h.first⟩⟩
      refine ⟨_ :: blocks, congrArg (_ :: ·) htry, fun tb htb => ?_⟩
      obtain rfl | htb := List.mem_cons.mp htb
      · exact hindex
      · exact hblocks tb htb
  | tryEnd l =>
      obtain ⟨tb, own, htry, -, hown⟩ := h.own_block hb (hends l rfl)
      have hsynced := h.sync l
      refine .inl ⟨inner, ⟨hsynced.frames, ⟨own, ?_, fun tb' htb' =>
        hown tb' (List.mem_cons_of_mem _ htb')⟩, h.activations, h.framesBefore, h.starts, h.first⟩⟩
      show vm.tryStack.tail = _
      rw [htry]
      rfl
  | yielded l => exact .inl ⟨inner, (h.sync l).goto _⟩
  | ended l => exact .inl ⟨inner, (h.sync _).goto _⟩
  | malformed => exact .inr (.inr (.inl rfl))

theorem Inside.nestedRun (h : Inside b inner vm) (l : Local) (pushed : Option (Frame × ClosureState))
    (k : Local × Value → HandlerCode) : Within b (vm.nestedRun l pushed k) := by
  have hsynced := h.sync l
  have hentered : ∀ entered : VM, Inside b inner entered → entered.start = vm.start →
      entered.activations = vm.activations → (vm.sync l).frames.length ≤ entered.frames.length →
      ∀ control, Within b { entered with
        activations := { start := vm.start, framesBefore := (vm.sync l).frames.length, k } ::
          vm.activations
        start := entered.frames.length
        control := control } := by
    intro entered hin hstart hactivations hle control
    have hbefore : b.height < (vm.sync l).frames.length := by
      obtain ⟨own, hne, hframes⟩ := hsynced.frames
      have hown := List.length_pos_iff.mpr hne
      rw [hframes, List.length_append, List.length_cons, Below.height]
      omega
    refine .inl ⟨{ start := vm.start, framesBefore := (vm.sync l).frames.length, k } :: inner,
      ⟨hin.frames, hin.tryStack, ?_, ?_, ?_, ?_⟩⟩
    · show _ :: vm.activations = _
      rw [h.activations]
      rfl
    · intro a ha
      obtain rfl | ha := List.mem_cons.mp ha
      · exact hbefore
      · exact h.framesBefore a ha
    · intro n hn
      obtain rfl | hn := List.mem_cons.mp hn
      · exact Nat.lt_of_lt_of_le hbefore hle
      · exact h.starts n hn
    · exact h.first
  unfold VM.nestedRun
  cases pushed with
  | none => exact hentered _ hsynced rfl rfl (Nat.le_refl _) _
  | some entered =>
      exact hentered _ (hsynced.push entered.1 entered.2) rfl rfl (Nat.le_succ _) _

/-- The end of a `run` inside. -/
theorem Inside.leaveRun {a : Activation} (h : Inside b (a :: inner) vm) : Within b vm.leaveRun := by
  unfold VM.leaveRun
  rw [h.activations, List.cons_append]
  dsimp only
  split
  · rename_i frame frames upvalues frameUpvalues hframes hupvalues
    split
    · exact .inr (.inr (.inl rfl))
    · obtain ⟨own, hown⟩ := h.drop (h.framesBefore a List.mem_cons_self) hframes
      refine .inl ⟨inner, ⟨⟨frame :: own, by simp, ?_⟩, h.tryStack, rfl, fun a' ha' =>
        h.framesBefore a' (List.mem_cons_of_mem _ ha'), fun n hn =>
        h.starts n (List.mem_cons_of_mem _ hn), h.first⟩⟩
      rw [hown]
      rfl
  · exact .inr (.inr (.inl rfl))

theorem Inside.stepCode (h : Inside b inner vm) (hb : b.Owned) {p : HandlerCode}
    (hends : ∀ l, p = .done (.ok (.tryEnd l)) → vm.ownsTryBlock = true) :
    Within b (vm.stepCode rt p) := by
  cases p with
  | done r =>
      cases r with
      | ok e => exact h.settle hb fun l he => hends l (by rw [he])
      | error unwinding =>
          show Within b ((vm.sync unwinding.1).caught unwinding.2)
          have hsynced := h.sync unwinding.1
          unfold caught
          split
          · rename_i howns
            exact hsynced.deliver hb howns _
          · exact .inl ⟨inner, hsynced.congr rfl rfl rfl rfl⟩
  | ask q k =>
      cases q with
      | call l callee args => exact .inl ⟨inner, h.goto _⟩
      | native l id args => exact .inl ⟨inner, h.goto _⟩
      | nested l pushed => exact h.nestedRun l pushed k

/-- A step of the nested `run` before it leaves. -/
theorem Inside.step (h : Inside b inner vm) (hb : b.Owned) (hstays : ¬Leaving b vm)
    (hends : vm.EndsOwnBlock) : Within b (vm.step rt) := by
  unfold VM.step
  split
  · split
    · split
      · exact .inl ⟨inner, h.goto _⟩
      · exact .inr (.inr (.inl rfl))
    · exact .inl ⟨inner, h.goto _⟩
  · rename_i p hcontrol
    exact h.stepCode hb fun l hp => hends l (by rw [hcontrol, hp])
  · unfold handleFault
    split
    · exact .inl ⟨inner, h.congr rfl rfl rfl rfl⟩
    · split
      · rename_i howns
        exact h.deliver hb howns _
      · exact .inl ⟨inner, h.goto _⟩
  · rename_i hcontrol
    cases inner with
    | nil => exact absurd ⟨hcontrol, congrArg List.length h.activations⟩ hstays
    | cons a inner => exact h.leaveRun
  · exact .inl ⟨inner, h⟩
  · exact .inl ⟨inner, h⟩
  · exact .inl ⟨inner, h⟩

theorem Doomed.step (h : Doomed vm) : Doomed (vm.step rt) := by
  obtain hcontrol | ⟨hcontrol, a, rest, hactivations, hlength⟩ := h
  · left
    unfold VM.step
    rw [hcontrol]
    exact hcontrol
  · left
    unfold VM.step
    rw [hcontrol]
    show vm.leaveRun.control = .undefined
    unfold VM.leaveRun
    rw [hactivations]
    dsimp only
    split
    · rw [if_pos hlength]
      rfl
    · rfl

/-- All of the nested `run` up to where it leaves. -/
theorem Inside.run (h : Inside b [] vm) (hb : b.Owned) (n : Nat)
    (hstays : ∀ m < n, ¬Leaving b (vm.run rt m)) (hends : ∀ m < n, (vm.run rt m).EndsOwnBlock) :
    Within b (vm.run rt n) := by
  induction n with
  | zero => exact .inl ⟨[], h⟩
  | succ n ih =>
      rw [run_succ]
      obtain ⟨inner, hinside⟩ | hreturned | hdoomed := ih (fun m hm => hstays m (by omega))
        fun m hm => hends m (by omega)
      · exact hinside.step hb (hstays n (by omega)) (hends n (by omega))
      · exact absurd ⟨hreturned.control, congrArg List.length hreturned.activations⟩
          (hstays n (by omega))
      · exact .inr (.inr hdoomed.step)

end Steps

end VM

end EZLanguage
