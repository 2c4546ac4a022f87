import EZLanguage.Runtime.Sandbox
import EZLanguage.Support.Runs

/-!
# What the sandbox stops

Where nothing is granted and nobody can be asked, the policy accepts the files of the working directory for
reading and nothing else, and it stays as it is. Every file that is open is then one of these, open for
reading. What the policy is not asked about happens.
-/

namespace EZLanguage

namespace Sandbox

open SecurityPolicy Runs

variable {sys : System} {s : State}

/-! ### The checks -/

theorem denied_of_sealed {p : Policy} (hsealed : Sealed sys p) {capability : Capability}
    {target : CString} (hallowed : isAllowed sys p capability target = false) :
    ∃ message, check sys p { capability := capability, target := target, line := none } =
      (.denied message, p) := by
  obtain ⟨message, hask⟩ := check_of_not_allowed (r := ⟨capability, target, none⟩) hallowed
  have hclosed : (p.noPrompt || !sys.interactive) = true := by
    obtain h | h := hsealed.prompt <;> simp [h]
  exact ⟨message, by rw [hask, ask, promptUser, hclosed]; rfl⟩

theorem readAllowed_of_sealed {p : Policy} (hsealed : Sealed sys p) (target : CString) :
    isAllowed sys p .read target = isSubpathOrEqual sys sys.currentPath target := by
  simp [isAllowed, readAllowed, hsealed.safeMode, hsealed.allowAll, hsealed.allowRead,
    hsealed.readPaths]

theorem not_allowed_of_sealed {p : Policy} (hsealed : Sealed sys p) (target : CString) :
    isAllowed sys p .ffi target = false ∧ isAllowed sys p .process target = false ∧
      isAllowed sys p .write target = false := by
  simp [isAllowed, ffiAllowed, processAllowed, writeAllowed, hsealed.safeMode, hsealed.allowAll,
    hsealed.allowFFI, hsealed.allowProcess, hsealed.allowWrite, hsealed.writePaths]

theorem guarded_denied (hsealed : Sealed sys s.policy) {capability : Capability}
    {target : CString} (hallowed : isAllowed sys s.policy capability target = false)
    (next : State → Result) :
    ∃ message, guarded sys capability target s next = (.error message, s) := by
  obtain ⟨message, hcheck⟩ := denied_of_sealed hsealed hallowed
  exact ⟨message, by rw [guarded, hcheck]; rfl⟩

theorem guarded_allowed {capability : Capability} {target : CString}
    (hallowed : isAllowed sys s.policy capability target = true) (next : State → Result) :
    guarded sys capability target s next = next s := by
  rw [guarded, check_of_allowed (r := ⟨capability, target, none⟩) hallowed]

/-! ### What every reachable state has -/

/-- The policy is as at the start, and what is open is open for reading in the working directory. -/
structure Inv (sys : System) (s : State) : Prop where
  policy : Sealed sys s.policy
  streams : ∀ r stream, s.streams r = some stream →
    isReadMode stream.mode = true ∧ isSubpathOrEqual sys sys.currentPath stream.path = true

theorem inv_of_start (hstart : Start sys s) : Inv sys s where
  policy := hstart.policy
  streams r stream hstream := by
    rw [hstart.streams r] at hstream
    cases hstream

theorem flushed_of_inv (hinv : Inv sys s) {r : Nat} {stream : Stream}
    (hstream : s.streams r = some stream) : flushed stream = [] := by
  rw [flushed, if_pos (hinv.streams r stream hstream).1]

/-- A request is denied, with the state as it was, or it is to read in the working directory. -/
theorem guarded_cases (hinv : Inv sys s) (capability : Capability) (hnet : capability ≠ .net)
    (target : CString) (next : State → Result) :
    (∃ message, guarded sys capability target s next = (.error message, s)) ∨
      capability = .read ∧ isSubpathOrEqual sys sys.currentPath target = true ∧
        guarded sys capability target s next = next s := by
  obtain ⟨hffi, hprocess, hwrite⟩ := not_allowed_of_sealed hinv.policy target
  cases capability with
  | ffi => exact Or.inl (guarded_denied hinv.policy hffi next)
  | process => exact Or.inl (guarded_denied hinv.policy hprocess next)
  | net => exact absurd rfl hnet
  | write => exact Or.inl (guarded_denied hinv.policy hwrite next)
  | read =>
      have hread := readAllowed_of_sealed hinv.policy target
      cases hsub : isSubpathOrEqual sys sys.currentPath target with
      | false => exact Or.inl (guarded_denied hinv.policy (hread.trans hsub) next)
      | true => exact Or.inr ⟨rfl, rfl, guarded_allowed (hread.trans hsub) next⟩

theorem inv_closed (hinv : Inv sys s) (r : Nat) :
    Inv sys { s with streams := Function.update s.streams r none } where
  policy := hinv.policy
  streams r' stream hstream := by
    by_cases heq : r' = r
    · subst heq
      simp at hstream
    · have hold : Function.update s.streams r none r' = some stream := hstream
      rw [Function.update_of_ne heq] at hold
      exact hinv.streams r' stream hold

theorem inv_same {s' : State} (hinv : Inv sys s) (hpolicy : s'.policy = s.policy)
    (hstreams : s'.streams = s.streams) : Inv sys s' where
  policy := hpolicy ▸ hinv.policy
  streams := hstreams ▸ hinv.streams

/-- A file is opened for reading in the working directory, or the call fails. -/
theorem fileInit_cases (hinv : Inv sys s) (r : Nat) (path mode : CString) :
    (∃ message, fileInit sys r path mode s = (.error message, s)) ∨
      isReadMode mode = true ∧ isSubpathOrEqual sys sys.currentPath path = true ∧
        fileInit sys r path mode s =
          done
            { s with
              streams := Function.update s.streams r (some { path := path, mode := mode })
              pathProperty := Function.update s.pathProperty r path
              modeProperty := Function.update s.modeProperty r mode }
            [.readFile path] := by
  rw [fileInit]
  obtain ⟨message, hdenied⟩ | ⟨hread, hsub, hnext⟩ :=
    guarded_cases hinv (if isReadMode mode then .read else .write) (by split <;> nofun) path _
  · exact Or.inl ⟨message, hdenied⟩
  · have hmode : isReadMode mode = true := by
      by_contra hnot
      rw [if_neg hnot] at hread
      cases hread
    have hvalid : isMode mode = true := by simp [isMode, hmode]
    refine Or.inr ⟨hmode, hsub, ?_⟩
    rw [hnext, if_pos hvalid, if_pos hmode]

theorem inv_fileInit (hinv : Inv sys s) (r : Nat) (path mode : CString) :
    Inv sys (fileInit sys r path mode s).2 := by
  obtain ⟨message, hfail⟩ | ⟨hmode, hsub, hopen⟩ := fileInit_cases hinv r path mode
  · rw [hfail]
    exact hinv
  · rw [hopen]
    constructor
    · exact hinv.policy
    · intro r' stream hstream
      by_cases heq : r' = r
      · subst heq
        simp only [done, Function.update_self, Option.some.injEq] at hstream
        subst hstream
        exact ⟨hmode, hsub⟩
      · simp only [done, Function.update_of_ne heq] at hstream
        exact hinv.streams r' stream hstream

/-- Every call keeps the invariant. -/
theorem inv_exec (hinv : Inv sys s) (c : Call) : Inv sys (exec sys s c).2 := by
  have hguarded : ∀ capability, capability ≠ .net → ∀ target effects,
      Inv sys (guarded sys capability target s fun s => done s effects).2 := by
    intro capability hnet target effects
    obtain ⟨message, h⟩ | ⟨_, _, h⟩ := guarded_cases hinv capability hnet target _ <;> rw [h] <;>
      exact hinv
  cases c with
  | readFile path => exact hguarded .read nofun path _
  | writeFile path => exact hguarded .write nofun path _
  | fileInit r path mode => exact inv_fileInit hinv r path mode
  | fileRead method r =>
      simp only [exec, fileRead]
      split
      · exact hinv
      · split <;> exact hinv
  | fileWrite method r =>
      simp only [exec, fileWrite]
      split
      · exact hinv
      · split <;> exact hinv
  | fileFlush r =>
      simp only [exec, fileFlush]
      split <;> exact hinv
  | fileSizeOpen r =>
      simp only [exec, fileSizeOpen]
      split <;> exact hinv
  | fileClose r =>
      simp only [exec, fileClose]
      split
      · exact hinv
      · exact inv_closed hinv r
  | system command => exact hguarded .process nofun command _
  | osLoadLib name => exact hguarded .ffi nofun name _
  | osCall nullMessage function =>
      simp only [exec, osCall]
      split <;> exact hinv
  | osAlloc size address =>
      simp only [exec, osAlloc]
      split
      · exact hinv
      split
      · exact hinv
      · exact inv_same hinv rfl rfl
  | osFree address =>
      simp only [exec, osFree]
      split
      · exact hinv
      split
      · exact inv_same hinv rfl rfl
      · exact hinv
  | osRead base offset size =>
      simp only [exec, osRead]
      split <;> exact hinv
  | osWrite base offset size =>
      simp only [exec, osWrite]
      split <;> exact hinv
  | osBufferFromPtr address size =>
      simp only [exec, osBufferFromPtr]
      split
      · exact hinv
      split
      · exact hinv
      split <;> exact hinv
  | _ => exact inv_same hinv rfl rfl

/-! ### What one call may do -/

theorem contained_iff_done {c : Call} {effects : List Effect}
    (hexec : (exec sys s c).1 = .ok effects) :
    Contained sys s c ↔ ∀ e ∈ effects, Harmless sys e := by
  constructor
  · intro h
    exact h effects hexec
  · intro h effects' hexec'
    obtain rfl := Except.ok.inj (hexec.symm.trans hexec')
    exact h

theorem contained_of_error {c : Call} {message : CString}
    (hexec : (exec sys s c).1 = .error message) : Contained sys s c := by
  intro effects hok
  rw [hexec] at hok
  cases hok

/-- A builtin that asks the policy for something else than to read has no effect. -/
theorem contained_of_guarded (hinv : Inv sys s) {c : Call} {capability : Capability}
    (hnet : capability ≠ .net) (hread : capability ≠ .read) {target : CString}
    {next : State → Result} (hexec : exec sys s c = guarded sys capability target s next) :
    Contained sys s c := by
  obtain ⟨message, h⟩ | ⟨h, _⟩ := guarded_cases hinv capability hnet target next
  · exact contained_of_error (by rw [hexec, h])
  · exact absurd h hread

theorem contained_fileInit (hinv : Inv sys s) (r : Nat) (path mode : CString) :
    Contained sys s (.fileInit r path mode) := by
  have hexec : exec sys s (.fileInit r path mode) = fileInit sys r path mode s := rfl
  obtain ⟨message, hfail⟩ | ⟨_, hsub, hopen⟩ := fileInit_cases hinv r path mode
  · exact contained_of_error (by rw [hexec, hfail])
  · apply (contained_iff_done (by rw [hexec, hopen]; rfl)).mpr
    intro e he
    rw [List.mem_singleton.mp he]
    exact hsub

/-- In a reachable state a call is contained exactly when it is restrained. -/
theorem contained_iff_restrained (hinv : Inv sys s) (c : Call) :
    Contained sys s c ↔ Restrained sys s c := by
  cases c with
  | readFile path =>
      apply iff_of_true _ trivial
      have hexec : exec sys s (.readFile path) =
        guarded sys .read path s fun s => done s [.readFile path] := rfl
      obtain ⟨message, h⟩ | ⟨_, hsub, h⟩ := guarded_cases hinv .read nofun path
        fun s => done s [.readFile path]
      · exact contained_of_error (by rw [hexec, h])
      · apply (contained_iff_done (by rw [hexec, h]; rfl)).mpr
        intro e he
        rw [List.mem_singleton.mp he]
        exact hsub
  | writeFile path =>
      exact iff_of_true (contained_of_guarded hinv (by nofun : Capability.write ≠ .net) nofun rfl)
        trivial
  | fileInit r path mode => exact iff_of_true (contained_fileInit hinv r path mode) trivial
  | fileRead method r =>
      apply iff_of_true _ trivial
      intro effects heffects e he
      simp only [exec, fileRead] at heffects
      split at heffects
      · cases heffects
      next stream hstream =>
      split at heffects
      · cases heffects
      · cases heffects
        split at he
        · cases he
        · rw [List.mem_singleton.mp he]
          exact (hinv.streams r stream hstream).2
  | fileWrite method r =>
      apply iff_of_true _ trivial
      intro effects heffects e he
      simp only [exec, fileWrite] at heffects
      split at heffects
      · cases heffects
      next stream hstream =>
      split at heffects
      · cases heffects
      · cases heffects
        rw [if_pos (hinv.streams r stream hstream).1] at he
        cases he
  | fileFlush r =>
      apply iff_of_true _ trivial
      intro effects heffects e he
      simp only [exec, fileFlush] at heffects
      split at heffects
      · cases heffects
      next stream hstream =>
      cases heffects
      rw [flushed_of_inv hinv hstream] at he
      cases he
  | fileSizeOpen r =>
      cases hstream : s.streams r with
      | none =>
          apply iff_of_true _ (Or.inl hstream)
          exact contained_of_error (by simp only [exec, fileSizeOpen, hstream]; rfl)
      | some stream =>
          rw [contained_iff_done (by simp only [exec, fileSizeOpen, hstream]; rfl),
            flushed_of_inv hinv hstream]
          simp [Harmless, Restrained, hstream]
  | fileClose r =>
      apply iff_of_true _ trivial
      intro effects heffects e he
      simp only [exec, fileClose] at heffects
      split at heffects
      · cases heffects
        cases he
      next stream hstream =>
      cases heffects
      rw [flushed_of_inv hinv hstream] at he
      cases he
  | setPath r path => simp [contained_iff_done (c := .setPath r path) rfl, Restrained]
  | setMode r mode => simp [contained_iff_done (c := .setMode r mode) rfl, Restrained]
  | fileRemove path => simp [contained_iff_done (c := .fileRemove path) rfl, Restrained, Harmless]
  | fileRename source target =>
      simp [contained_iff_done (c := .fileRename source target) rfl, Restrained, Harmless]
  | fileQuery path => simp [contained_iff_done (c := .fileQuery path) rfl, Restrained, Harmless]
  | system command =>
      exact iff_of_true (contained_of_guarded hinv (by nofun : Capability.process ≠ .net) nofun rfl)
        trivial
  | clear =>
      rw [contained_iff_done (c := .clear) rfl]
      cases hwindows : sys.windows <;> simp [Restrained, Harmless, hwindows]
  | osLoadLib name =>
      exact iff_of_true (contained_of_guarded hinv (by nofun : Capability.ffi ≠ .net) nofun rfl)
        trivial
  | osFreeLib handle => simp [contained_iff_done (c := .osFreeLib handle) rfl, Restrained, Harmless]
  | osGetFunc handle => simp [contained_iff_done (c := .osGetFunc handle) rfl, Restrained, Harmless]
  | osCall nullMessage function =>
      by_cases hnull : function = 0
      · apply iff_of_true _ hnull
        exact contained_of_error (by simp only [exec, osCall, if_pos hnull]; rfl)
      · rw [contained_iff_done (by simp only [exec, osCall, if_neg hnull]; rfl)]
        simp [Restrained, Harmless, hnull]
  | osAlloc size address =>
      apply iff_of_true _ trivial
      intro effects heffects e he
      simp only [exec, osAlloc] at heffects
      split at heffects
      · cases heffects
      split at heffects <;> cases heffects <;> cases he
  | osFree address =>
      apply iff_of_true _ trivial
      intro effects heffects e he
      simp only [exec, osFree] at heffects
      split at heffects
      · cases heffects
        cases he
      split at heffects <;> cases heffects
      cases he
  | osRead base offset size =>
      cases hbounds : ffiBoundsCheck s base offset size with
      | some message =>
          apply iff_of_true _ (by simp [Restrained, hbounds])
          exact contained_of_error (by simp only [exec, osRead, hbounds]; rfl)
      | none =>
          rw [contained_iff_done (by simp only [exec, osRead, hbounds]; rfl)]
          simp [Restrained, Harmless, hbounds]
  | osWrite base offset size =>
      cases hbounds : ffiBoundsCheck s base offset size with
      | some message =>
          apply iff_of_true _ (by simp [Restrained, hbounds])
          exact contained_of_error (by simp only [exec, osWrite, hbounds]; rfl)
      | none =>
          rw [contained_iff_done (by simp only [exec, osWrite, hbounds]; rfl)]
          simp [Restrained, Harmless, hbounds]
  | osReadPointer address =>
      rw [contained_iff_done (c := .osReadPointer address) rfl]
      by_cases hnull : address = 0 <;> simp [Restrained, Harmless, hnull]
  | osBufferFromPtr address size =>
      by_cases hneg : size < 0
      · apply iff_of_true _ (Or.inl (by omega))
        exact contained_of_error (by simp only [exec, osBufferFromPtr, if_pos hneg]; rfl)
      by_cases hzero : size = 0
      · apply iff_of_true _ (Or.inl (by omega))
        apply (contained_iff_done (by
          simp only [exec, osBufferFromPtr, if_neg hneg, if_pos hzero]; rfl)).mpr
        nofun
      by_cases hnull : address = 0
      · apply iff_of_true _ (Or.inr hnull)
        exact contained_of_error (by
          simp only [exec, osBufferFromPtr, if_neg hneg, if_neg hzero, if_pos hnull]; rfl)
      · rw [contained_iff_done (by
          simp only [exec, osBufferFromPtr, if_neg hneg, if_neg hzero, if_neg hnull]; rfl)]
        have hpos : ¬ size ≤ 0 := by omega
        simp [Restrained, Harmless, hnull, hpos]
  | persist path =>
      rw [contained_iff_done (c := .persist path) rfl]
      by_cases hempty : path = [] <;> simp [Restrained, Harmless, hempty]
  | evalUse path => simp [contained_iff_done (c := .evalUse path) rfl, Restrained, Harmless]
  | other => simp [contained_iff_done (c := .other) rfl, Restrained]

/-! ### Runs -/

/-- A call that is restrained in the state it is made in. -/
def RestrainedStep (sys : System) (c : Call) (s s' : State) : Prop :=
  Restrained sys s c ∧ (exec sys s c).2 = s'

/-- Safe mode with nothing granted, on a system without a terminal. -/
def sealedStart : State where
  policy :=
    { safeMode := true
      allowAll := false
      allowFFI := false
      allowProcess := false
      allowNet := false
      allowRead := false
      allowWrite := false
      noPrompt := false
      allowedReadPaths := []
      allowedWritePaths := []
      allowedNetHosts := [] }
  streams _ := none
  pathProperty _ := []
  modeProperty _ := []
  allocs := []

def batchSystem : System where
  interactive := false
  windows := false
  currentPath := lit "/work"
  weaklyCanonical path := some [path]

theorem start_sealedStart : Start batchSystem sealedStart where
  policy :=
    { safeMode := rfl
      allowAll := rfl
      allowFFI := rfl
      allowProcess := rfl
      allowRead := rfl
      allowWrite := rfl
      readPaths := rfl
      writePaths := rfl
      prompt := Or.inr rfl }
  streams _ := rfl

end Sandbox

end EZLanguage
