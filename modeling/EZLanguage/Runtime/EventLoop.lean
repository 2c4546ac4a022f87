import EZLanguage.Support.Interleaving
import EZLanguage.Support.Runs

/-!
# The event loop

One thread runs the loop: it executes the tasks in the queue, and it leaves when it finds the queue empty
and the counter of pending operations at zero. Workers retain the loop, push the tasks that complete
their operation and release the loop. Every section that holds the mutex is one step, as are the reads of
the counter without the mutex and the signals to libuv, which calls back after each of them and ends
`uv_run` after `uv_stop`.

The loop looks at the queue first and at the counter afterwards. What a worker does in between is not
seen by either.
-/

namespace EZLanguage

/-- The members of `EventLoop`, and what libuv has been told: that a callback is due, and to stop. -/
structure EventLoop (Task : Type*) where
  taskQueue : List Task
  pendingIoCount : Int
  isRunning : Bool
  stopRequested : Bool
  asyncSent : Bool
  uvStopped : Bool
  deriving DecidableEq

namespace EventLoop

open Interleaving Runs

variable {Task Worker : Type*}

/-- The locked section of `pushTask`. -/
def pushTask (loop : EventLoop Task) (task : Task) : EventLoop Task :=
  { loop with taskQueue := loop.taskQueue ++ [task] }

def retain (loop : EventLoop Task) : EventLoop Task :=
  { loop with pendingIoCount := loop.pendingIoCount + 1 }

/-- The locked section of `release`. -/
def release (loop : EventLoop Task) : EventLoop Task :=
  let pendingIoCount := loop.pendingIoCount - 1
  { loop with pendingIoCount := if pendingIoCount < 0 then 0 else pendingIoCount }

def stop (loop : EventLoop Task) : EventLoop Task :=
  { loop with stopRequested := true, uvStopped := true }

/-- `uv_async_send`. -/
def asyncSend (loop : EventLoop Task) : EventLoop Task := { loop with asyncSent := true }

def hasTasks (loop : EventLoop Task) : Bool := !loop.taskQueue.isEmpty

/-- The condition under which both places that look for more work find none. -/
def nothingLeft (loop : EventLoop Task) (hasTasks : Bool) : Bool :=
  !hasTasks && loop.pendingIoCount == 0

/-- What a thread does to the loop in one step. -/
inductive Event (Task : Type*) where
  | retained
  | pushed (task : Task)
  | released
  | sent
  | stopped
  | entered
  | refused
  | looked
  | executed (task : Task)
  | finished
  | drained
  | checked (hasTasks : Bool)
  | counted
  | calledBack
  | uvReturned
  | returned (stopRequested : Bool)
  deriving DecidableEq

/-- Where a thread is. `inUv` says that `asyncCallback` was called by libuv and not by `run`. -/
inductive Point where
  /-- A worker that has not retained the loop, or has released it. -/
  | idle
  /-- A worker that has retained the loop. -/
  | working
  /-- `pushTask` or `release` has released the mutex and not called `uv_async_send` yet. -/
  | sending (next : Point)
  /-- The loop thread outside `run`. -/
  | outside
  /-- At the condition of the loop in `run`. -/
  | deciding
  /-- In the loop of `asyncCallback`, before it takes the mutex. -/
  | draining (inUv : Bool)
  | executing (inUv : Bool)
  /-- In `asyncCallback`, before the second look at the queue. -/
  | checking (inUv : Bool)
  /-- In `asyncCallback`, before it reads the counter. -/
  | counting (inUv hasTasks : Bool)
  /-- In `run`, before the look at the queue. -/
  | exitChecking
  /-- In `run`, before it reads the counter. -/
  | exitCounting (hasTasks : Bool)
  /-- In `uv_run`. -/
  | polling
  deriving DecidableEq

/-- A worker whose retain is outstanding. -/
def Point.retains : Point → Bool
  | .working => true
  | .sending next => next.retains
  | _ => false

/-- The loop thread where it runs the program: before `run`, after it, and in tasks. -/
def Point.inProgram : Point → Bool
  | .outside | .executing _ => true
  | _ => false

/-- The tasks that were pushed, in order. -/
def pushed (history : List (Option Worker × Event Task)) : List Task :=
  history.filterMap fun l => match l.2 with
    | .pushed task => some task
    | _ => none

/-- The tasks that were executed, in order. -/
def executed (history : List (Option Worker × Event Task)) : List Task :=
  history.filterMap fun l => match l.2 with
    | .executed task => some task
    | _ => none

section Steps

/-- The steps of the workers, which are `some t`, and of the loop thread, which is `none`. -/
inductive act : Event Task → Atomic (Option Worker) Point (EventLoop Task)
  | retain {t s} : act .retained (some t) .idle s .working s.retain
  | push {t s task} : act (.pushed task) (some t) .working s (.sending .working) (s.pushTask task)
  | release {t s} : act .released (some t) .working s (.sending .idle) s.release
  | send {t p s} : act .sent t (.sending p) s p s.asyncSend
  | stop {t p s} : act .stopped (some t) p s p s.stop
  -- What the program does on the loop thread.
  | pushInProgram {p s task} (hp : p.inProgram = true) :
      act (.pushed task) none p s (.sending p) (s.pushTask task)
  | stopInProgram {p s} (hp : p.inProgram = true) : act .stopped none p s p s.stop
  | reenter {p s} (hp : p.inProgram = true) (hrunning : s.isRunning = true) :
      act .refused none p s p s
  -- `run`
  | enter {s} (hrunning : s.isRunning = false) :
      act .entered none .outside s .deciding { s with isRunning := true }
  | leave {s} (hstop : s.stopRequested = true) :
      act (.returned true) none .deciding s .outside { s with isRunning := false }
  | look {s} (hstop : s.stopRequested = false) : act .looked none .deciding s (.draining false) s
  -- `asyncCallback`
  | pop {inUv s task rest} (hqueue : s.taskQueue = task :: rest) :
      act (.executed task) none (.draining inUv) s (.executing inUv) { s with taskQueue := rest }
  | finish {inUv s} : act .finished none (.executing inUv) s (.draining inUv) s
  | drain {inUv s} (hqueue : s.taskQueue = []) :
      act .drained none (.draining inUv) s (.checking inUv) s
  | check {inUv s} :
      act (.checked s.hasTasks) none (.checking inUv) s (.counting inUv s.hasTasks) s
  | count {inUv hasTasks s} :
      act .counted none (.counting inUv hasTasks) s (if inUv then .polling else .exitChecking)
        { s with uvStopped := s.uvStopped || s.nothingLeft hasTasks }
  -- The rest of the loop in `run`.
  | exitCheck {s} :
      act (.checked s.hasTasks) none .exitChecking s (.exitCounting s.hasTasks) s
  | exit {hasTasks s} (hnothing : s.nothingLeft hasTasks = true) :
      act (.returned false) none (.exitCounting hasTasks) s .outside { s with isRunning := false }
  | uvRun {hasTasks s} (hsomething : s.nothingLeft hasTasks = false) :
      act .counted none (.exitCounting hasTasks) s .polling s
  | callBack {s} (hsent : s.asyncSent = true) :
      act .calledBack none .polling s (.draining true) { s with asyncSent := false }
  | uvReturn {s} (hstopped : s.uvStopped = true) :
      act .uvReturned none .polling s .deciding { s with uvStopped := false }

variable [DecidableEq Worker]

/-- A thread takes the step of an event. -/
def step (l : Option Worker × Event Task) :
    World (Option Worker) Point (EventLoop Task) →
      World (Option Worker) Point (EventLoop Task) → Prop :=
  Step (act l.2) l.1

/-- A new loop, which nobody has retained. -/
def initial : World (Option Worker) Point (EventLoop Task) :=
  { point := fun t => if t.isSome then .idle else .outside
    shared := { taskQueue := [], pendingIoCount := 0, isRunning := false, stopRequested := false
                asyncSent := false, uvStopped := false } }

/-- All is done: the queue is empty, no retain is outstanding, and every task that was pushed has been
executed once, in the order of the pushes. -/
structure AllDone (history : List (Option Worker × Event Task))
    (w : World (Option Worker) Point (EventLoop Task)) : Prop where
  queue : w.shared.taskQueue = []
  released : ∀ t, (w.point t).retains = false
  executed : executed history = pushed history

/-- A step that gives up the last retain while there are tasks in the queue, after the loop thread has
found the queue empty and before it reads the counter. -/
def ReleasesUnseen (l : Option Worker × Event Task)
    (w : World (Option Worker) Point (EventLoop Task)) : Prop :=
  l.2 = .released ∧ w.point none = .exitCounting false ∧ w.shared.taskQueue ≠ [] ∧
    w.shared.pendingIoCount = 1

/-- The steps but for those. -/
def seenStep (l : Option Worker × Event Task)
    (w w' : World (Option Worker) Point (EventLoop Task)) : Prop :=
  step l w w' ∧ ¬ReleasesUnseen l w

end Steps

/-! ### What a step does -/

theorem pushed_append (history rest : List (Option Worker × Event Task)) :
    pushed (history ++ rest) = pushed history ++ pushed rest :=
  List.filterMap_append

theorem executed_append (history rest : List (Option Worker × Event Task)) :
    executed (history ++ rest) = executed history ++ executed rest :=
  List.filterMap_append

variable {e : Event Task} {t : Option Worker} {p p' : Point} {s s' : EventLoop Task}

/-- A step executes the front of the queue, or pushes to its end. -/
theorem act_queue (hact : act e t p s p' s') :
    executed [(t, e)] ++ s'.taskQueue = s.taskQueue ++ pushed [(t, e)] := by
  cases hact with
  | pop hqueue => simp [executed, pushed, hqueue]
  | _ => simp [executed, pushed, pushTask, retain, release, stop, asyncSend]

/-- The counter follows the worker that moves. -/
theorem act_counts (hact : act e t p s p' s') (hpos : p.retains = true → 1 ≤ s.pendingIoCount) :
    s'.pendingIoCount + indicator p.retains = s.pendingIoCount + indicator p'.retains := by
  cases hact with
  | release =>
      have hone : 1 ≤ s.pendingIoCount := hpos rfl
      have hkept : ¬s.pendingIoCount - 1 < 0 := by omega
      simp [release, hkept, Point.retains, indicator]
  | retain => simp [retain, Point.retains, indicator]
  | count =>
      rename_i inUv hasTasks
      cases inUv <;> rfl
  | _ => rfl

/-- While the loop thread waits to read the counter, a worker keeps the queue empty or the counter above
zero. -/
theorem act_seen_worker {u : Worker} (hact : act e (some u) p s p' s')
    (hpos : p.retains = true → 1 ≤ s.pendingIoCount)
    (hseen : s.taskQueue = [] ∨ 0 < s.pendingIoCount)
    (hcareful : ¬(e = .released ∧ s.taskQueue ≠ [] ∧ s.pendingIoCount = 1)) :
    s'.taskQueue = [] ∨ 0 < s'.pendingIoCount := by
  cases hact with
  | push =>
      right
      have hone : 1 ≤ s.pendingIoCount := hpos rfl
      change 0 < s.pendingIoCount
      omega
  | release =>
      by_cases hqueue : s.taskQueue = []
      · exact .inl hqueue
      · right
        have hmore : 0 < s.pendingIoCount := hseen.resolve_left hqueue
        have hnotOne : s.pendingIoCount ≠ 1 := fun hone => hcareful ⟨rfl, hqueue, hone⟩
        have hkept : ¬s.pendingIoCount - 1 < 0 := by omega
        simp only [release, if_neg hkept]
        omega
  | retain =>
      obtain hqueue | hmore := hseen
      · exact .inl hqueue
      · right
        change 0 < s.pendingIoCount + 1
        omega
  | _ => exact hseen

/-- The loop thread comes to wait there when it has found the queue empty. -/
theorem act_seen_loop (hact : act e (none : Option Worker) p s (.exitCounting false) s')
    (hsending : ∀ next, p = .sending next → next.inProgram = true) : s'.taskQueue = [] := by
  generalize hp' : Point.exitCounting false = p' at hact
  cases hact with
  | send =>
      rw [← hp'] at hsending
      cases hsending _ rfl
  | stopInProgram hp | reenter hp _ =>
      rw [← hp'] at hp
      cases hp
  | count =>
      split at hp' <;> cases hp'
  | exitCheck =>
      have hnone := (Point.exitCounting.inj hp').symm
      simpa [hasTasks] using hnone
  | _ => cases hp'

/-- The loop thread sends on behalf of the program only. -/
theorem act_sending (hact : act e (none : Option Worker) p s p' s')
    (hsending : ∀ next, p = .sending next → next.inProgram = true) :
    ∀ next, p' = .sending next → next.inProgram = true := by
  intro next hnext
  cases hact with
  | pushInProgram hp =>
      cases hnext
      exact hp
  | send =>
      rw [hnext] at hsending
      exact absurd (hsending _ rfl) (by simp [Point.inProgram])
  | stopInProgram hp | reenter hp _ =>
      rw [hnext] at hp
      cases hp
  | count => split at hnext <;> cases hnext
  | _ => cases hnext

theorem act_returned (hact : act (.returned false) t p s p' s') :
    p = .exitCounting false ∧ s.pendingIoCount = 0 ∧ s'.taskQueue = s.taskQueue ∧
      s'.pendingIoCount = s.pendingIoCount := by
  cases hact with
  | exit hnothing =>
      rename_i hasTasks
      cases hasTasks with
      | true => cases hnothing
      | false =>
          have hzero : s.pendingIoCount = 0 := by simpa [nothingLeft] using hnothing
          exact ⟨rfl, hzero, rfl, rfl⟩

/-! ### Runs -/

/-- What holds after every run without an unseen release. -/
structure Invariant (history : List (Option Worker × Event Task))
    (w : World (Option Worker) Point (EventLoop Task)) : Prop where
  queue : executed history ++ w.shared.taskQueue = pushed history
  counts : Counts Point.retains w.point w.shared.pendingIoCount
  sending : ∀ next, w.point none = .sending next → next.inProgram = true
  seen : w.point none = .exitCounting false →
    w.shared.taskQueue = [] ∨ 0 < w.shared.pendingIoCount

theorem invariant_initial :
    Invariant [] (initial : World (Option Worker) Point (EventLoop Task)) := by
  constructor
  · rfl
  · refine ⟨∅, fun t => ?_, rfl⟩
    cases t <;> simp [initial, Point.retains]
  · intro next hnext
    cases hnext
  · intro hpoint
    cases hpoint

variable [DecidableEq Worker]

theorem Invariant.step {history : List (Option Worker × Event Task)}
    {l : Option Worker × Event Task} {w w' : World (Option Worker) Point (EventLoop Task)}
    (hw : Invariant history w) (hstep : seenStep l w w') : Invariant (history ++ [l]) w' := by
  obtain ⟨t, e⟩ := l
  obtain ⟨⟨hact⟩, hcareful⟩ := hstep
  rename_i point s s' p
  have hpos : (point t).retains = true → 1 ≤ s.pendingIoCount := fun ht => hw.counts.pos ht
  constructor
  · have hqueue := act_queue hact
    rw [executed_append, pushed_append, ← hw.queue, List.append_assoc, List.append_assoc]
    exact congrArg _ hqueue
  · exact hw.counts.update (act_counts hact hpos)
  · intro next hnext
    change Function.update point t p none = .sending next at hnext
    cases t with
    | none =>
        rw [Function.update_self] at hnext
        exact act_sending hact hw.sending next hnext
    | some u =>
        rw [Function.update_of_ne (by simp)] at hnext
        exact hw.sending next hnext
  · intro hpoint
    change Function.update point t p none = .exitCounting false at hpoint
    cases t with
    | none =>
        rw [Function.update_self] at hpoint
        rw [hpoint] at hact
        exact .inl (act_seen_loop hact hw.sending)
    | some u =>
        rw [Function.update_of_ne (by simp)] at hpoint
        apply act_seen_worker hact hpos (hw.seen hpoint)
        intro hunseen
        exact hcareful ⟨hunseen.1, hpoint, hunseen.2.1, hunseen.2.2⟩

theorem invariant_of_run {history : List (Option Worker × Event Task)}
    {w : World (Option Worker) Point (EventLoop Task)} (hrun : Run seenStep initial history w) :
    Invariant history w := by
  apply Run.history invariant_initial _ hrun
  intro history l s s' _ hs hstep
  exact hs.step hstep

/-- In every run without an unseen release, `run` returns unasked only when all is done. -/
theorem returns_when_done {history : List (Option Worker × Event Task)}
    {w : World (Option Worker) Point (EventLoop Task)}
    (hrun : Run seenStep initial (history ++ [(none, .returned false)]) w) : AllDone history w := by
  obtain ⟨before, hbefore, hstep⟩ := hrun.last
  have hinv := invariant_of_run hbefore
  have hafter := invariant_of_run hrun
  obtain ⟨⟨hact⟩, -⟩ := hstep
  obtain ⟨hpoint, hzero, hqueue, hcount⟩ := act_returned hact
  have hempty : _ = [] := (hinv.seen hpoint).resolve_right (by simp only; omega)
  constructor
  · exact hqueue.trans hempty
  · have hcounts := hafter.counts
    rw [hcount, hzero] at hcounts
    exact hcounts.eq_false_of_eq_zero
  · have hall := hinv.queue
    rw [hempty, List.append_nil] at hall
    exact hall

/-! ### Two runs -/

theorem run_snoc {history : List (Option Worker × Event Task)}
    {w : World (Option Worker) Point (EventLoop Task)} (hrun : Run step initial history w)
    (t : Option Worker) (e : Event Task) {p : Point} {s : EventLoop Task}
    (hact : act e t (w.point t) w.shared p s) :
    Run step initial (history ++ [(t, e)]) ⟨Function.update w.point t p, s⟩ :=
  hrun.snoc (.mk hact)

/-- The worker pushes its task and releases the loop after the loop thread has found the queue empty. -/
def lost : List (Option Unit × Event Nat) :=
  [(some (), .retained), (none, .entered), (none, .looked), (none, .drained),
    (none, .checked false), (none, .counted), (none, .checked false), (some (), .pushed 7),
    (some (), .sent), (some (), .released)]

/-- The loop thread reads the counter then, and returns with the task in the queue. -/
theorem lost_not_done :
    ∃ w : World (Option Unit) Point (EventLoop Nat),
      Run step initial (lost ++ [(none, .returned false)]) w ∧ ¬AllDone lost w := by
  have hstart : Run step initial ([] : List (Option Unit × Event Nat)) initial := .nil
  have hretained := run_snoc hstart (some ()) .retained .retain
  have hentered := run_snoc hretained none .entered (.enter rfl)
  have hlooked := run_snoc hentered none .looked (.look rfl)
  have hdrained := run_snoc hlooked none .drained (.drain rfl)
  have hchecked := run_snoc hdrained none _ .check
  have hcounted := run_snoc hchecked none .counted .count
  have hexitChecked := run_snoc hcounted none _ .exitCheck
  have hpushed := run_snoc hexitChecked (some ()) (.pushed 7) .push
  have hsent := run_snoc hpushed (some ()) .sent .send
  have hreleased := run_snoc hsent (some ()) .released .release
  have hreturned := run_snoc hreleased none (.returned false) (.exit rfl)
  refine ⟨_, hreturned, fun hdone => ?_⟩
  have hexecuted := hdone.executed
  revert hexecuted
  decide

/-- The program pushes a task before it runs the loop. -/
def prepared : List (Option Unit × Event Nat) :=
  [(none, .pushed 7), (none, .sent), (none, .entered), (none, .looked), (none, .executed 7),
    (none, .finished), (none, .drained), (none, .checked false), (none, .counted),
    (none, .checked false)]

theorem seen_snoc {history : List (Option Worker × Event Task)}
    {w : World (Option Worker) Point (EventLoop Task)} (hrun : Run seenStep initial history w)
    (e : Event Task) (he : e ≠ .released) {p : Point} {s : EventLoop Task}
    (hact : act e (none : Option Worker) (w.point none) w.shared p s) :
    Run seenStep initial (history ++ [(none, e)]) ⟨Function.update w.point none p, s⟩ :=
  hrun.snoc ⟨.mk hact, fun hunseen => he hunseen.1⟩

theorem prepared_run :
    ∃ w : World (Option Unit) Point (EventLoop Nat),
      Run seenStep initial (prepared ++ [(none, .returned false)]) w := by
  have hstart : Run seenStep initial ([] : List (Option Unit × Event Nat)) initial := .nil
  have hpushed := seen_snoc hstart (.pushed 7) (by simp) (.pushInProgram rfl)
  have hsent := seen_snoc hpushed .sent (by simp) .send
  have hentered := seen_snoc hsent .entered (by simp) (.enter rfl)
  have hlooked := seen_snoc hentered .looked (by simp) (.look rfl)
  have hexecuted := seen_snoc hlooked (.executed 7) (by simp) (.pop rfl)
  have hfinished := seen_snoc hexecuted .finished (by simp) .finish
  have hdrained := seen_snoc hfinished .drained (by simp) (.drain rfl)
  have hchecked := seen_snoc hdrained _ (by simp) .check
  have hcounted := seen_snoc hchecked .counted (by simp) .count
  have hexitChecked := seen_snoc hcounted _ (by simp) .exitCheck
  exact ⟨_, seen_snoc hexitChecked (.returned false) (by simp) (.exit rfl)⟩

theorem prepared_done :
    ∃ w : World (Option Unit) Point (EventLoop Nat), AllDone prepared w := by
  obtain ⟨w, hrun⟩ := prepared_run
  exact ⟨w, returns_when_done hrun⟩

end EventLoop

end EZLanguage
