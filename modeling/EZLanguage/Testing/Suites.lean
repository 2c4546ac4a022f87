import Mathlib.Algebra.GroupWithZero.Nat
import Mathlib.Algebra.Group.Int.Defs
import Mathlib.Tactic.Common

/-!
# Suites of tests

The testing library collects suites and tests in a tree and runs them. Of a hook or the body of a test only
its outcome counts. A script is what a program does while it collects: `describe` may be nested, and a
suite body may throw, whether someone catches it or not.
-/

namespace EZLanguage

namespace Testing

inductive Outcome where
  | completes
  | throws
  deriving DecidableEq

/-- The hooks of a suite. -/
structure Hooks where
  beforeEach : Option Outcome := none
  afterEach : Option Outcome := none
  beforeAll : Option Outcome := none
  afterAll : Option Outcome := none
  deriving DecidableEq

/-- There is such a hook, and it throws. -/
def fails (hook : Option Outcome) : Bool := hook == some .throws

/-- The tests and nested suites of a suite in order. A test has a number of its own. -/
inductive Items where
  | nil
  | test (id : Nat) (fn : Outcome) (skipped : Bool) (rest : Items)
  | suite (hooks : Hooks) (tests : Items) (rest : Items)
  deriving DecidableEq

namespace Items

def append : Items → Items → Items
  | nil, items => items
  | test id fn skipped rest, items => test id fn skipped (rest.append items)
  | suite hooks tests rest, items => suite hooks tests (rest.append items)

/-- The number of tests. -/
def count : Items → Nat
  | nil => 0
  | test _ _ _ rest => rest.count + 1
  | suite _ tests rest => tests.count + rest.count

/-- The tests that are not skipped, in order. -/
def live : Items → List Nat
  | nil => []
  | test id _ skipped rest => if skipped then rest.live else id :: rest.live
  | suite _ tests rest => tests.live ++ rest.live

@[simp] theorem count_append (items items' : Items) :
    (items.append items').count = items.count + items'.count := by
  induction items with
  | nil => simp [append, count]
  | test id fn skipped rest ih =>
      simp only [append, count, ih]
      omega
  | suite hooks tests rest _ ih =>
      simp only [append, count, ih]
      omega

theorem live_eq_nil {items : Items} (hcount : items.count = 0) : items.live = [] := by
  induction items with
  | nil => rfl
  | test id fn skipped rest _ => cases hcount
  | suite hooks tests rest ihtests ihrest =>
      simp only [count, Nat.add_eq_zero_iff] at hcount
      rw [live, ihtests hcount.1, ihrest hcount.2, List.append_nil]

end Items

/-! ### Collecting -/

/-- What a program does to collect tests, one call after another. -/
inductive Script where
  | done
  | describe (suiteFn : Script) (rest : Script)
  | it (testFn : Outcome) (rest : Script)
  | skipe (fn : Outcome) (rest : Script)
  | beforeEach (fn : Outcome) (rest : Script)
  | afterEach (fn : Outcome) (rest : Script)
  | beforeAll (fn : Outcome) (rest : Script)
  | afterAll (fn : Outcome) (rest : Script)
  | throw
  | guarded (body : Script) (rest : Script)

/-- A suite that is being collected. -/
structure Suite where
  hooks : Hooks := {}
  tests : Items := .nil
  deriving DecidableEq

/-- What `__testState` holds while tests are collected: the current suite with those it stands in, and the
list of suites. `registered` is not in the source. It counts the tests. -/
structure Registry where
  currentSuite : List Suite := []
  suites : Items := .nil
  registered : Nat := 0
  deriving DecidableEq

namespace Registry

/-- An item is pushed to the current suite, or to the list of suites. -/
def push (s : Registry) (item : Items) : Registry :=
  match s.currentSuite with
  | current :: outer =>
      { s with currentSuite := { current with tests := current.tests.append item } :: outer }
  | [] => { s with suites := s.suites.append item }

def setHooks (s : Registry) (f : Hooks → Hooks) : Registry :=
  match s.currentSuite with
  | current :: outer => { s with currentSuite := { current with hooks := f current.hooks } :: outer }
  | [] => s

/-- `it` and `skipe`. -/
def addTest (s : Registry) (fn : Outcome) (skipped : Bool) : Registry :=
  { s.push (.test s.registered fn skipped .nil) with registered := s.registered + 1 }

/-- A new suite becomes the current one. -/
def enter (s : Registry) : Registry := { s with currentSuite := {} :: s.currentSuite }

/-- Behind the suite function: the suite that was current at `depth` is so again, and the new suite is
pushed to it. Suites inside it that were given up in the middle are lost. -/
def leave (s : Registry) (depth : Nat) : Registry :=
  match s.currentSuite.drop (s.currentSuite.length - (depth + 1)) with
  | suite :: outer => { s with currentSuite := outer }.push (.suite suite.hooks suite.tests .nil)
  | [] => s

end Registry

/-- The registry behind a script, and how it ends. -/
def collect : Script → Registry → Registry × Outcome
  | .done, s => (s, .completes)
  | .describe suiteFn rest, s =>
      match collect suiteFn s.enter with
      | (s', .completes) => collect rest (s'.leave s.currentSuite.length)
      | (s', .throws) => (s', .throws)
  | .it testFn rest, s => collect rest (s.addTest testFn false)
  | .skipe fn rest, s => collect rest (s.addTest fn true)
  | .beforeEach fn rest, s => collect rest (s.setHooks fun hooks => { hooks with beforeEach := some fn })
  | .afterEach fn rest, s => collect rest (s.setHooks fun hooks => { hooks with afterEach := some fn })
  | .beforeAll fn rest, s => collect rest (s.setHooks fun hooks => { hooks with beforeAll := some fn })
  | .afterAll fn rest, s => collect rest (s.setHooks fun hooks => { hooks with afterAll := some fn })
  | .throw, s => (s, .throws)
  | .guarded body rest, s => collect rest (collect body s).1

/-- What a program has collected when it runs its tests. -/
def registry (script : Script) : Registry := (collect script {}).1

/-! ### Running -/

/-- What `__testState` holds while tests run. The last two fields are not in the source: the tests
`__runTest` was asked to run that are not skipped, and those whose body it called. -/
structure Run where
  totalCount : Nat := 0
  skipCount : Nat := 0
  passCount : Nat := 0
  failCount : Nat := 0
  attempted : List Nat := []
  called : List Nat := []
  deriving DecidableEq

/-- `__runTest`, in a suite with these hooks. -/
def runTest (hooks : Hooks) (id : Nat) (fn : Outcome) (skipped : Bool) (s : Run) : Run :=
  let s := { s with totalCount := s.totalCount + 1 }
  if skipped then { s with skipCount := s.skipCount + 1 }
  else
    let s := { s with attempted := s.attempted ++ [id] }
    if fails hooks.beforeEach then { s with failCount := s.failCount + 1 }
    else
      let s := { s with called := s.called ++ [id] }
      -- a failing test stays failed whatever the hook behind it does
      let passed := fn = .completes ∧ fails hooks.afterEach = false
      if passed then { s with passCount := s.passCount + 1 } else { s with failCount := s.failCount + 1 }

/-- The items of a suite with these hooks, one after another; a nested suite is `__runSuite`, which prints
that a hook around all its tests has failed. -/
def runItems (hooks : Hooks) : Items → Run → Run
  | .nil, s => s
  | .test id fn skipped rest, s => runItems hooks rest (runTest hooks id fn skipped s)
  | .suite inner tests rest, s =>
      runItems hooks rest (if fails inner.beforeAll then s else runItems inner tests s)

/-- The summary `runTests` gives. -/
structure Summary where
  passed : Nat
  failed : Nat
  skipped : Nat
  total : Nat
  success : Bool
  deriving DecidableEq

/-- The state when all top-level items have run. -/
def runAll (suites : Items) : Run := runItems {} suites {}

def runTests (suites : Items) : Summary :=
  let s := runAll suites
  { passed := s.passCount, failed := s.failCount, skipped := s.skipCount, total := s.totalCount,
    success := s.failCount == 0 }

/-! ### Telling the truth -/

namespace Items

/-- Every test that is not skipped completes, and so do the hooks before and after it. -/
def Passes (hooks : Hooks) : Items → Prop
  | nil => True
  | test _ fn skipped rest =>
      (skipped = false →
        fails hooks.beforeEach = false ∧ fn = .completes ∧ fails hooks.afterEach = false) ∧
        rest.Passes hooks
  | suite inner tests rest => tests.Passes inner ∧ rest.Passes hooks

/-- A hook before all tests of a suite throws in suites without tests only. -/
def Unblocked : Items → Prop
  | nil => True
  | test _ _ _ rest => rest.Unblocked
  | suite inner tests rest =>
      (fails inner.beforeAll = true → tests.count = 0) ∧ tests.Unblocked ∧ rest.Unblocked

/-- Around each test that is not skipped the hooks behind all tests complete. -/
def ClosedCleanly : Items → Prop
  | nil => True
  | test _ _ _ rest => rest.ClosedCleanly
  | suite inner tests rest =>
      (tests.live ≠ [] → fails inner.afterAll = false) ∧ tests.ClosedCleanly ∧ rest.ClosedCleanly

/-- Around each test that is not skipped the hooks before all tests complete. -/
def OpenedCleanly : Items → Prop
  | nil => True
  | test _ _ _ rest => rest.OpenedCleanly
  | suite inner tests rest =>
      (tests.live ≠ [] → fails inner.beforeAll = false) ∧ tests.OpenedCleanly ∧ rest.OpenedCleanly

end Items

/-- What the summary of a run should say about the tests that were registered: each that is not skipped was
attempted once, the counts add up to all of them, and success means that every test that is not skipped
was called and completed with every hook that applies to it. -/
structure TellsTruth (s : Registry) : Prop where
  attempted : (runAll s.suites).attempted = s.suites.live
  sum : (runTests s.suites).total =
    (runTests s.suites).passed + (runTests s.suites).failed + (runTests s.suites).skipped
  total : (runTests s.suites).total = s.registered
  success : (runTests s.suites).success = true →
    (runAll s.suites).called = s.suites.live ∧ s.suites.Passes {} ∧ s.suites.OpenedCleanly ∧
      s.suites.ClosedCleanly

/-- No test was registered in a suite that was given up, no hook before all tests of a suite throws
where the suite has tests, and a hook behind all tests throws only where some test fails anyway. -/
def Sound (s : Registry) : Prop :=
  s.suites.count = s.registered ∧ s.suites.Unblocked ∧ (s.suites.Passes {} → s.suites.ClosedCleanly)

/-- The current suite behind a call of `describe`. -/
def RestoresSuite (suiteFn : Script) (s : Registry) : Prop :=
  (collect (.describe suiteFn .done) s).1.currentSuite.length = s.currentSuite.length

/-! ### What a run counts -/

/-- The tests that a run comes to. -/
def Items.reached : Items → Nat
  | nil => 0
  | test _ _ _ rest => rest.reached + 1
  | suite inner tests rest => (if fails inner.beforeAll then 0 else tests.reached) + rest.reached

theorem Items.reached_le_count (items : Items) : items.reached ≤ items.count := by
  induction items with
  | nil => exact Nat.le_refl 0
  | test id fn skipped rest ih => exact Nat.succ_le_succ ih
  | suite inner tests rest ihtests ihrest =>
      simp only [reached, count]
      split <;> omega

/-- A run comes to all tests where none is behind a hook that throws. -/
theorem Items.reached_eq_count_iff {items : Items} : items.reached = items.count ↔ items.Unblocked := by
  induction items with
  | nil => simp [reached, count, Unblocked]
  | test id fn skipped rest ih =>
      simp only [reached, count, Unblocked, Nat.add_right_cancel_iff]
      exact ih
  | suite inner tests rest ihtests ihrest =>
      have htests := reached_le_count tests
      have hrest := reached_le_count rest
      simp only [reached, count, Unblocked]
      rw [← ihtests, ← ihrest]
      cases hfails : fails inner.beforeAll with
      | true =>
          simp only [if_true, forall_const]
          omega
      | false =>
          simp only [Bool.false_eq_true, if_false, false_imp_iff, true_and]
          omega

theorem runTest_totalCount (hooks : Hooks) (id : Nat) (fn : Outcome) (skipped : Bool) (s : Run) :
    (runTest hooks id fn skipped s).totalCount = s.totalCount + 1 := by
  unfold runTest
  simp only []
  split
  · rfl
  · split
    · rfl
    · split <;> rfl

theorem runItems_totalCount (hooks : Hooks) (items : Items) (s : Run) :
    (runItems hooks items s).totalCount = s.totalCount + items.reached := by
  induction items generalizing hooks s with
  | nil => rfl
  | test id fn skipped rest ih =>
      rw [runItems, ih, runTest_totalCount, Items.reached]
      omega
  | suite inner tests rest ihtests ihrest =>
      rw [runItems, ihrest, Items.reached]
      split
      · omega
      · rw [ihtests]
        omega

/-- What running a part of the tree adds to a run, where no test is behind a hook that throws. -/
structure Adds (s s' : Run) (tests : Nat) (live : List Nat) (passes : Prop) : Prop where
  counts : s'.passCount + s'.failCount + s'.skipCount =
    s.passCount + s.failCount + s.skipCount + tests
  attempted : s'.attempted = s.attempted ++ live
  grows : s.failCount ≤ s'.failCount
  passes : s'.failCount = s.failCount ↔ passes
  called : s'.failCount = s.failCount → s'.called = s.called ++ live

theorem Adds.trans {s s' s'' : Run} {n n' : Nat} {live live' : List Nat} {p p' : Prop}
    (hfirst : Adds s s' n live p) (hsecond : Adds s' s'' n' live' p') :
    Adds s s'' (n + n') (live ++ live') (p ∧ p') where
  counts := by
    rw [hsecond.counts, hfirst.counts, Nat.add_assoc]
  attempted := by
    rw [hsecond.attempted, hfirst.attempted, List.append_assoc]
  grows := Nat.le_trans hfirst.grows hsecond.grows
  passes := by
    have h₁ := hfirst.grows
    have h₂ := hsecond.grows
    rw [← hfirst.passes, ← hsecond.passes]
    omega
  called := by
    intro hfail
    have h₁ := hfirst.grows
    have h₂ := hsecond.grows
    rw [hsecond.called (by omega), hfirst.called (by omega), List.append_assoc]

theorem runTest_adds (hooks : Hooks) (id : Nat) (fn : Outcome) (skipped : Bool) (s : Run) :
    Adds s (runTest hooks id fn skipped s) 1 (if skipped then [] else [id])
      (skipped = false →
        fails hooks.beforeEach = false ∧ fn = .completes ∧ fails hooks.afterEach = false) := by
  unfold runTest
  cases skipped with
  | true => exact ⟨rfl, by simp, Nat.le_refl _, by simp, by simp⟩
  | false =>
      simp only [Bool.false_eq_true, if_false, forall_const]
      split
      case isTrue hbefore =>
          refine ⟨?_, rfl, Nat.le_succ _, ?_, ?_⟩
          · simp only []
            omega
          · simp [hbefore]
          · simp
      case isFalse hbefore =>
          rw [Bool.not_eq_true] at hbefore
          split
          case isTrue hpassed =>
              refine ⟨?_, rfl, Nat.le_refl _, ?_, fun _ => rfl⟩
              · simp only []
                omega
              · exact iff_of_true rfl ⟨hbefore, hpassed⟩
          case isFalse hpassed =>
              refine ⟨?_, rfl, Nat.le_succ _, ?_, ?_⟩
              · simp only []
                omega
              · exact iff_of_false (Nat.succ_ne_self _) fun h => hpassed h.2
              · simp

theorem Items.passes_of_count {hooks : Hooks} {items : Items} (hcount : items.count = 0) :
    items.Passes hooks := by
  induction items generalizing hooks with
  | nil => trivial
  | test id fn skipped rest _ => cases hcount
  | suite inner tests rest ihtests ihrest =>
      simp only [count, Nat.add_eq_zero_iff] at hcount
      exact ⟨ihtests hcount.1, ihrest hcount.2⟩

theorem runItems_adds {hooks : Hooks} {items : Items} (hunblocked : items.Unblocked) (s : Run) :
    Adds s (runItems hooks items s) items.count items.live (items.Passes hooks) := by
  induction items generalizing hooks s with
  | nil => exact ⟨rfl, (List.append_nil _).symm, Nat.le_refl _, iff_of_true rfl trivial,
      fun _ => (List.append_nil _).symm⟩
  | test id fn skipped rest ih =>
      have h := (runTest_adds hooks id fn skipped s).trans
        (@ih hooks hunblocked (runTest hooks id fn skipped s))
      rw [Nat.add_comm] at h
      cases skipped with
      | true => exact h
      | false => exact h
  | suite inner tests rest ihtests ihrest =>
      obtain ⟨hblocked, htests, hrest⟩ := hunblocked
      rw [runItems]
      have hinner : Adds s (if fails inner.beforeAll then s else runItems inner tests s) tests.count
          tests.live (tests.Passes inner) := by
        split
        case isTrue hfails =>
            -- the suite is left at once, and there was nothing to run
            have hcount := hblocked hfails
            rw [hcount, Items.live_eq_nil hcount]
            exact ⟨rfl, (List.append_nil _).symm, Nat.le_refl _,
              iff_of_true rfl (Items.passes_of_count hcount), fun _ => (List.append_nil _).symm⟩
        case isFalse => exact ihtests htests s
      exact hinner.trans (ihrest hrest _)

theorem Items.Unblocked.openedCleanly {items : Items} (hunblocked : items.Unblocked) :
    items.OpenedCleanly := by
  induction items with
  | nil => trivial
  | test id fn skipped rest ih => exact ih hunblocked
  | suite inner tests rest ihtests ihrest =>
      obtain ⟨hblocked, htests, hrest⟩ := hunblocked
      refine ⟨fun hlive => ?_, ihtests htests, ihrest hrest⟩
      rw [← Bool.not_eq_true]
      exact fun hfails => hlive (live_eq_nil (hblocked hfails))

/-! ### What a script registers -/

/-- The tests in the suites that are being collected. -/
def Registry.heldOpen (stack : List Suite) : Nat := (stack.map fun suite => suite.tests.count).sum

/-- The tests that can still be run. -/
def Registry.held (s : Registry) : Nat := s.suites.count + heldOpen s.currentSuite

namespace Registry

theorem push_held (s : Registry) (item : Items) : (s.push item).held = s.held + item.count := by
  unfold push held heldOpen
  split
  case h_1 current outer heq =>
      simp only [heq, List.map_cons, List.sum_cons, Items.count_append]
      omega
  case h_2 heq =>
      simp only [heq, Items.count_append]
      omega

@[simp] theorem push_registered (s : Registry) (item : Items) :
    (s.push item).registered = s.registered := by
  unfold push
  split <;> rfl

theorem push_depth (s : Registry) (item : Items) :
    (s.push item).currentSuite.length = s.currentSuite.length := by
  unfold push
  split
  case h_1 current outer heq => simp [heq]
  case h_2 heq => simp

theorem setHooks_same (s : Registry) (f : Hooks → Hooks) :
    (s.setHooks f).held = s.held ∧ (s.setHooks f).registered = s.registered ∧
      (s.setHooks f).currentSuite.length = s.currentSuite.length := by
  unfold setHooks held heldOpen
  split
  case h_1 current outer heq => simp [heq]
  case h_2 heq => simp [heq]

theorem heldOpen_drop_le (stack : List Suite) (n : Nat) :
    heldOpen (stack.drop n) ≤ heldOpen stack := by
  induction stack generalizing n with
  | nil => simp
  | cons suite stack ih =>
      cases n with
      | zero => exact Nat.le_refl _
      | succ n =>
          have h := ih n
          simp only [heldOpen, List.drop_succ_cons, List.map_cons, List.sum_cons] at h ⊢
          omega

/-- Leaving a suite that stands at a depth holds what it held, or less where suites are lost. -/
theorem leave_spec {s : Registry} {depth : Nat} (hdepth : depth < s.currentSuite.length) :
    (s.leave depth).held ≤ s.held ∧ (s.leave depth).registered = s.registered ∧
      (s.leave depth).currentSuite.length = depth ∧
      (s.currentSuite.length = depth + 1 → (s.leave depth).held = s.held) := by
  have hlength : (s.currentSuite.drop (s.currentSuite.length - (depth + 1))).length = depth + 1 := by
    rw [List.length_drop]
    omega
  have hle := heldOpen_drop_le s.currentSuite (s.currentSuite.length - (depth + 1))
  unfold leave
  split
  case h_1 suite outer heq =>
      rw [heq] at hlength hle
      simp only [heldOpen, List.map_cons, List.sum_cons, List.length_cons] at hlength hle
      rw [push_held, push_registered, push_depth]
      simp only [held, heldOpen, Items.count]
      refine ⟨by omega, trivial, by omega, fun hexact => ?_⟩
      rw [hexact, Nat.sub_self, List.drop_zero] at heq
      rw [heq, List.map_cons, List.sum_cons]
      omega
  case h_2 heq =>
      rw [heq] at hlength
      cases hlength

end Registry

/-- The tests a script makes runnable are among those it registers, and it never closes a suite it did not
open. -/
structure Registers (s s' : Registry) : Prop where
  held : s'.held + s.registered ≤ s.held + s'.registered
  depth : s.currentSuite.length ≤ s'.currentSuite.length

theorem Registers.trans {s s' s'' : Registry} (hfirst : Registers s s') (hsecond : Registers s' s'') :
    Registers s s'' where
  held := by
    have h₁ := hfirst.held
    have h₂ := hsecond.held
    omega
  depth := Nat.le_trans hfirst.depth hsecond.depth

/-- Every test that is registered is runnable, and the current suite stays. -/
structure RegistersAll (s s' : Registry) : Prop where
  held : s'.held + s.registered = s.held + s'.registered
  depth : s'.currentSuite.length = s.currentSuite.length

theorem RegistersAll.registers {s s' : Registry} (h : RegistersAll s s') : Registers s s' :=
  ⟨Nat.le_of_eq h.held, Nat.le_of_eq h.depth.symm⟩

theorem RegistersAll.trans {s s' s'' : Registry} (hfirst : RegistersAll s s')
    (hsecond : RegistersAll s' s'') : RegistersAll s s'' where
  held := by
    have h₁ := hfirst.held
    have h₂ := hsecond.held
    omega
  depth := hsecond.depth.trans hfirst.depth

theorem registersAll_setHooks (s : Registry) (f : Hooks → Hooks) : RegistersAll s (s.setHooks f) := by
  obtain ⟨hheld, hregistered, hdepth⟩ := s.setHooks_same f
  exact ⟨by omega, hdepth⟩

theorem registersAll_addTest (s : Registry) (fn : Outcome) (skipped : Bool) :
    RegistersAll s (s.addTest fn skipped) where
  held := by
    have hheld : (s.addTest fn skipped).held = s.held + 1 :=
      s.push_held (.test s.registered fn skipped .nil)
    have hregistered : (s.addTest fn skipped).registered = s.registered + 1 := rfl
    omega
  depth := s.push_depth (.test s.registered fn skipped .nil)

theorem enter_held (s : Registry) : s.enter.held = s.held := by
  simp [Registry.enter, Registry.held, Registry.heldOpen, Items.count]

theorem collect_registers (script : Script) (s : Registry) : Registers s (collect script s).1 := by
  induction script generalizing s with
  | done => exact ⟨Nat.le_refl _, Nat.le_refl _⟩
  | throw => exact ⟨Nat.le_refl _, Nat.le_refl _⟩
  | it testFn rest ih => exact (registersAll_addTest s testFn false).registers.trans (ih _)
  | skipe fn rest ih => exact (registersAll_addTest s fn true).registers.trans (ih _)
  | beforeEach fn rest ih | afterEach fn rest ih | beforeAll fn rest ih | afterAll fn rest ih =>
      exact (registersAll_setHooks s _).registers.trans (ih _)
  | guarded body rest ihbody ihrest => exact (ihbody s).trans (ihrest _)
  | describe suiteFn rest ihsuite ihrest =>
      have hbody := ihsuite s.enter
      have henter := enter_held s
      have hheld := hbody.held
      have hdepth : s.currentSuite.length < (collect suiteFn s.enter).1.currentSuite.length := hbody.depth
      have hregistered : s.enter.registered = s.registered := rfl
      rw [collect]
      generalize collect suiteFn s.enter = r at hheld hdepth ⊢
      obtain ⟨s', outcome⟩ := r
      cases outcome with
      | throws => exact ⟨by simp only [] at hheld ⊢; omega, Nat.le_of_lt hdepth⟩
      | completes =>
          obtain ⟨hle, hsame, hleave, -⟩ := Registry.leave_spec hdepth
          refine Registers.trans ⟨?_, ?_⟩ (ihrest _)
          · simp only [] at hheld hle hsame
            omega
          · exact Nat.le_of_eq hleave.symm

/-- `describe` makes the suite that was current so again where its suite function completes. -/
theorem restoresSuite_iff_completes (suiteFn : Script) (s : Registry) :
    RestoresSuite suiteFn s ↔ (collect suiteFn s.enter).2 = .completes := by
  have hdepth : s.currentSuite.length < (collect suiteFn s.enter).1.currentSuite.length :=
    (collect_registers suiteFn s.enter).depth
  unfold RestoresSuite
  rw [collect]
  generalize collect suiteFn s.enter = r at hdepth ⊢
  obtain ⟨s', outcome⟩ := r
  cases outcome with
  | completes => exact iff_of_true (Registry.leave_spec hdepth).2.2.1 rfl
  | throws => exact iff_of_false (Nat.ne_of_gt hdepth) (by simp)

/-- Nothing in a script throws while it collects. -/
def Calm : Script → Prop
  | .done => True
  | .throw => False
  | .describe suiteFn rest => Calm suiteFn ∧ Calm rest
  | .guarded body rest => Calm body ∧ Calm rest
  | .it _ rest | .skipe _ rest | .beforeEach _ rest | .afterEach _ rest | .beforeAll _ rest
  | .afterAll _ rest => Calm rest

/-- Without an error nothing is lost. -/
theorem collect_calm {script : Script} (hcalm : Calm script) (s : Registry) :
    (collect script s).2 = .completes ∧ RegistersAll s (collect script s).1 := by
  induction script generalizing s with
  | done => exact ⟨rfl, rfl, rfl⟩
  | throw => exact hcalm.elim
  | it testFn rest ih =>
      obtain ⟨hcompletes, hall⟩ := ih hcalm (s.addTest testFn false)
      exact ⟨hcompletes, (registersAll_addTest s testFn false).trans hall⟩
  | skipe fn rest ih =>
      obtain ⟨hcompletes, hall⟩ := ih hcalm (s.addTest fn true)
      exact ⟨hcompletes, (registersAll_addTest s fn true).trans hall⟩
  | beforeEach fn rest ih | afterEach fn rest ih | beforeAll fn rest ih | afterAll fn rest ih =>
      obtain ⟨hcompletes, hall⟩ := ih hcalm (s.setHooks _)
      exact ⟨hcompletes, (registersAll_setHooks s _).trans hall⟩
  | guarded body rest ihbody ihrest =>
      obtain ⟨-, hbody⟩ := ihbody hcalm.1 s
      obtain ⟨hcompletes, hrest⟩ := ihrest hcalm.2 (collect body s).1
      exact ⟨hcompletes, hbody.trans hrest⟩
  | describe suiteFn rest ihsuite ihrest =>
      obtain ⟨hcompletes, hbody⟩ := ihsuite hcalm.1 s.enter
      have henter := enter_held s
      have hheld := hbody.held
      have hdepth : (collect suiteFn s.enter).1.currentSuite.length = s.currentSuite.length + 1 :=
        hbody.depth
      have hregistered : s.enter.registered = s.registered := rfl
      rw [collect]
      generalize collect suiteFn s.enter = r at hcompletes hheld hdepth ⊢
      obtain ⟨s', outcome⟩ := r
      simp only [] at hcompletes hheld hdepth ⊢
      subst hcompletes
      obtain ⟨-, hsame, hleave, hexact⟩ := @Registry.leave_spec _ s.currentSuite.length
        (show s.currentSuite.length < s'.currentSuite.length by omega)
      obtain ⟨hrest, hall⟩ := ihrest hcalm.2 (s'.leave s.currentSuite.length)
      refine ⟨hrest, RegistersAll.trans ⟨?_, hleave⟩ hall⟩
      have hheld' := hexact hdepth
      omega

/-- After a calm script every test is in a suite that can be run. -/
theorem registry_count_of_calm {script : Script} (hcalm : Calm script) :
    (registry script).suites.count = (registry script).registered := by
  obtain ⟨-, hall⟩ := collect_calm hcalm {}
  have hheld : (registry script).held + 0 = 0 + (registry script).registered := hall.held
  have hclosed : (registry script).currentSuite = [] := List.eq_nil_of_length_eq_zero hall.depth
  have hcount : (registry script).held = (registry script).suites.count := by
    simp [Registry.held, Registry.heldOpen, hclosed]
  omega

theorem registry_count_le (script : Script) :
    (registry script).suites.count ≤ (registry script).registered := by
  have hheld : (registry script).held + 0 ≤ 0 + (registry script).registered :=
    (collect_registers script {}).held
  have hle : (registry script).suites.count ≤ (registry script).held := Nat.le_add_right _ _
  omega

/-! ### The summary -/

/-- Where no test is lost or blocked, the summary tells the truth unless it hides a hook behind all tests
that throws. -/
theorem tellsTruth_of_sound {s : Registry} (hsound : Sound s) : TellsTruth s := by
  obtain ⟨hcount, hunblocked, hclosed⟩ := hsound
  have hadds := @runItems_adds {} _ hunblocked {}
  have htotal : (runAll s.suites).totalCount = 0 + s.suites.reached := runItems_totalCount {} s.suites {}
  have hcounts : (runAll s.suites).passCount + (runAll s.suites).failCount + (runAll s.suites).skipCount =
      0 + s.suites.count := hadds.counts
  rw [Items.reached_eq_count_iff.mpr hunblocked] at htotal
  refine ⟨hadds.attempted, ?_, ?_, fun hsuccess => ?_⟩
  · change (runAll s.suites).totalCount = (runAll s.suites).passCount + (runAll s.suites).failCount +
      (runAll s.suites).skipCount
    omega
  · change (runAll s.suites).totalCount = s.registered
    omega
  · have hnone : (runAll s.suites).failCount = 0 := eq_of_beq hsuccess
    have hpasses := hadds.passes.mp hnone
    exact ⟨hadds.called hnone, hpasses, hunblocked.openedCleanly, hclosed hpasses⟩

/-- A summary that tells the truth leaves no test out. -/
theorem sound_of_tellsTruth {script : Script} (htruth : TellsTruth (registry script)) :
    Sound (registry script) := by
  have htotal : 0 + (registry script).suites.reached = (registry script).registered :=
    (runItems_totalCount {} (registry script).suites {}).symm.trans htruth.total
  have hreached := Items.reached_le_count (registry script).suites
  have hcount := registry_count_le script
  have hunblocked := Items.reached_eq_count_iff.mp
    (show (registry script).suites.reached = (registry script).suites.count by omega)
  refine ⟨by omega, hunblocked, fun hpasses => ?_⟩
  have hnone : (runAll (registry script).suites).failCount = 0 :=
    (@runItems_adds {} _ hunblocked {}).passes.mpr hpasses
  have hsuccess : (runTests (registry script).suites).success = true := by
    change ((runAll (registry script).suites).failCount == 0) = true
    rw [hnone]
    rfl
  exact (htruth.success hsuccess).2.2.2

/-- Exactly when the summary of what a script collects tells the truth, and when `describe` leaves the
current suite as it was. -/
theorem tellsTruth_iff (script suiteFn : Script) (s : Registry) :
    (TellsTruth (registry script) ↔ Sound (registry script)) ∧
      (RestoresSuite suiteFn s ↔ (collect suiteFn s.enter).2 = .completes) :=
  ⟨⟨sound_of_tellsTruth, tellsTruth_of_sound⟩, restoresSuite_iff_completes suiteFn s⟩

/-- A suite with one test, and a hook before it that throws. -/
def greenScript : Script := .describe (.beforeAll .throws (.it .completes .done)) .done

/-- The run is green, and no test ran. -/
theorem greenScript_summary :
    runTests (registry greenScript).suites =
        { passed := 0, failed := 0, skipped := 0, total := 0, success := true } ∧
      ¬TellsTruth (registry greenScript) :=
  ⟨by decide, fun htruth => absurd htruth.total (by decide)⟩

end Testing

end EZLanguage
