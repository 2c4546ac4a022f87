import EZLanguage.Support.Interleaving
import EZLanguage.Support.Runs
import EZLanguage.VM.Value

/-!
# Futures

A future has an outcome, a list of callbacks, a mutex, and an event (on Windows) or a condition variable
with a flag (elsewhere) to wait on. Every section that holds the mutex is one step of a thread. The
notification comes after the mutex is released, and the callbacks after the notification. A callback runs
without the mutex and may use the future itself, so that a thread can be inside several loops over
callbacks at once. The callbacks that the program registers are never empty and do not throw.

The callbacks that were executed, those in the hands of threads and those in the list are the callbacks
that were registered.
-/

namespace EZLanguage

/-- The fields of a future. `ready` is the flag of that name, or whether `hEvent` is signaled. -/
structure EZFuture (Callback : Type*) where
  ready : Bool
  result : Option Value
  hasError : Bool
  errorMsg : CString
  onReady : List Callback

namespace EZFuture

open Interleaving Runs

variable {Callback : Type*}

/-- The locked section of `set`: what it moved out of `onReady`, and the future after it. -/
def set (windows : Bool) (future : EZFuture Callback) (val : Value) :
    List Callback × EZFuture Callback :=
  let completed :=
    if future.result.isNone && !future.hasError then
      { future with result := some val, ready := if windows then future.ready else true }
    else future
  (completed.onReady, { completed with onReady := [] })

/-- The locked section of `setError`. -/
def setError (windows : Bool) (future : EZFuture Callback) (msg : CString) :
    List Callback × EZFuture Callback :=
  let completed :=
    if future.result.isNone && !future.hasError then
      { future with
        hasError := true
        errorMsg := msg
        ready := if windows then future.ready else true }
    else future
  (completed.onReady, { completed with onReady := [] })

def cancel (windows : Bool) (future : EZFuture Callback) : List Callback × EZFuture Callback :=
  future.setError windows (lit "Cancelled")

/-- The locked section of `then`: whether to execute the callback now, and the future after it. -/
def then_ (windows : Bool) (future : EZFuture Callback) (callback : Callback) :
    Bool × EZFuture Callback :=
  if (if windows then future.result.isSome || future.hasError else future.ready) then
    (true, future)
  else (false, { future with onReady := future.onReady ++ [callback] })

/-- The locked section of `get`. -/
def get (future : EZFuture Callback) : Except CString Value :=
  if future.hasError then .error future.errorMsg
  else match future.result with
    | some result => .ok result
    | none => .ok .nil

/-- What a future was completed with. -/
def outcome (future : EZFuture Callback) : Option (Except CString Value) :=
  if future.hasError then some (.error future.errorMsg) else future.result.map .ok

/-- What a thread does to the future in one step. -/
inductive Event (Callback : Type*) where
  | set (val : Value)
  | setError (msg : CString)
  | cancel
  | notified
  | registered (callback : Callback)
  | executed (callback : Callback)
  | returned
  | finished
  | passed
  | blocked
  | got (result : Except CString Value)
  | polled (ready : Bool)

/-- Where a thread is in a call, or outside of all but those it runs a callback for. -/
inductive Phase (Callback : Type*) where
  | user
  /-- `set` or `setError` has released the mutex and not notified yet. -/
  | notifying (callbacks : List Callback)
  /-- Has these callbacks still to call. -/
  | calling (callbacks : List Callback)
  /-- Blocked in `wait`. -/
  | waiting
  /-- `get` after its `wait`. -/
  | reading

/-- Where a thread is: its phase, and what is left of the loops whose callbacks it is inside of, the
innermost first. -/
structure Point (Callback : Type*) where
  phase : Phase Callback
  loops : List (List Callback)

/-- Not in any call. -/
def Point.outside : Point Callback := ⟨.user, []⟩

/-- The callbacks that a thread has taken and not called. -/
def Phase.held : Phase Callback → List Callback
  | .notifying callbacks => callbacks
  | .calling callbacks => callbacks
  | _ => []

def Point.held (p : Point Callback) : Multiset Callback := (p.phase.held ++ p.loops.flatten : List _)

variable {Thread : Type*}

/-- What the completing calls came with. -/
def completions (history : List (Thread × Event Callback)) : List (Except CString Value) :=
  history.filterMap fun l => match l.2 with
    | .set val => some (.ok val)
    | .setError msg => some (.error msg)
    | .cancel => some (.error (lit "Cancelled"))
    | _ => none

def registered (history : List (Thread × Event Callback)) : List Callback :=
  history.filterMap fun l => match l.2 with
    | .registered callback => some callback
    | _ => none

def executed (history : List (Thread × Event Callback)) : List Callback :=
  history.filterMap fun l => match l.2 with
    | .executed callback => some callback
    | _ => none

/-- The future, and the threads blocked in `wait` that nobody has notified. -/
structure Shared (Thread Callback : Type*) where
  future : EZFuture Callback
  cv : List Thread

section Steps

variable [DecidableEq Thread]

/-- The steps of the operations, in the order of the source. -/
inductive act (windows : Bool) :
    Event Callback → Atomic Thread (Point Callback) (Shared Thread Callback)
  | cancel {t loops s} :
      act windows .cancel t ⟨.user, loops⟩ s ⟨.notifying (s.future.cancel windows).1, loops⟩
        { s with future := (s.future.cancel windows).2 }
  | wait {t loops s} (hready : s.future.ready = true) :
      act windows .passed t ⟨.user, loops⟩ s ⟨.reading, loops⟩ s
  | block {t loops s} (hready : s.future.ready = false) :
      act windows .blocked t ⟨.user, loops⟩ s ⟨.waiting, loops⟩ { s with cv := t :: s.cv }
  -- A wake-up need not come from a notification.
  | wake {t loops s} (hready : s.future.ready = true) :
      act windows .passed t ⟨.waiting, loops⟩ s ⟨.reading, loops⟩ { s with cv := s.cv.erase t }
  | sleep {t loops s} (hready : s.future.ready = false) :
      act windows .blocked t ⟨.waiting, loops⟩ s ⟨.waiting, loops⟩
        { s with cv := t :: s.cv.erase t }
  | isReady {t loops s} :
      act windows (.polled s.future.ready) t ⟨.user, loops⟩ s ⟨.user, loops⟩ s
  | then_ {t loops s callback} :
      act windows (.registered callback) t ⟨.user, loops⟩ s
        ⟨if (s.future.then_ windows callback).1 then .calling [callback] else .user, loops⟩
        { s with future := (s.future.then_ windows callback).2 }
  | set {t loops s val} :
      act windows (.set val) t ⟨.user, loops⟩ s ⟨.notifying (s.future.set windows val).1, loops⟩
        { s with future := (s.future.set windows val).2 }
  | setError {t loops s msg} :
      act windows (.setError msg) t ⟨.user, loops⟩ s
        ⟨.notifying (s.future.setError windows msg).1, loops⟩
        { s with future := (s.future.setError windows msg).2 }
  -- `SetEvent` signals the event for good, `notify_all` only wakes up those who wait.
  | notify {t loops s callbacks} :
      act windows .notified t ⟨.notifying callbacks, loops⟩ s ⟨.calling callbacks, loops⟩
        { future := { s.future with ready := s.future.ready || windows }, cv := [] }
  | call {t loops s callback rest} :
      act windows (.executed callback) t ⟨.calling (callback :: rest), loops⟩ s
        ⟨.user, rest :: loops⟩ s
  | returns {t loops s rest} :
      act windows .returned t ⟨.user, rest :: loops⟩ s ⟨.calling rest, loops⟩ s
  | finish {t loops s} :
      act windows .finished t ⟨.calling [], loops⟩ s ⟨.user, loops⟩ s
  | get {t loops s} :
      act windows (.got s.future.get) t ⟨.reading, loops⟩ s ⟨.user, loops⟩ s

/-- A thread takes the step of an event. -/
def step (windows : Bool) (l : Thread × Event Callback) :
    World Thread (Point Callback) (Shared Thread Callback) →
      World Thread (Point Callback) (Shared Thread Callback) → Prop :=
  Step (act windows l.2) l.1

/-- A new future, and no thread at it. -/
def initial : World Thread (Point Callback) (Shared Thread Callback) :=
  { point := fun _ => .outside
    shared := { future := ⟨false, none, false, [], []⟩, cv := [] } }

end Steps

/-! ### What an operation does to the future -/

theorem completions_append (history rest : List (Thread × Event Callback)) :
    completions (history ++ rest) = completions history ++ completions rest :=
  List.filterMap_append

theorem registered_append (history rest : List (Thread × Event Callback)) :
    registered (history ++ rest) = registered history ++ registered rest :=
  List.filterMap_append

theorem executed_append (history rest : List (Thread × Event Callback)) :
    executed (history ++ rest) = executed history ++ executed rest :=
  List.filterMap_append

/-- What the fields of a future say about each other. -/
structure Consistent (windows : Bool) (future : EZFuture Callback) : Prop where
  completed : future.ready = true → future.outcome ≠ none
  ready : windows = false → future.outcome ≠ none → future.ready = true
  drained : future.outcome ≠ none → future.onReady = []

/-- What a completing call does: it takes the callbacks, and the outcome is its own only where there was
none. -/
structure Completes (windows : Bool) (future : EZFuture Callback) (own : Except CString Value)
    (after : List Callback × EZFuture Callback) : Prop where
  taken : after.1 = future.onReady
  onReady : after.2.onReady = []
  outcome : after.2.outcome = some (future.outcome.getD own)
  ready : after.2.ready = (future.ready || !windows && future.outcome.isNone)

theorem set_completes (windows : Bool) (future : EZFuture Callback) (val : Value) :
    Completes windows future (.ok val) (future.set windows val) := by
  cases herror : future.hasError with
  | true => constructor <;> simp [set, outcome, herror]
  | false =>
      cases hresult : future.result with
      | none => constructor <;> cases windows <;> simp [set, outcome, herror, hresult]
      | some result => constructor <;> simp [set, outcome, herror, hresult]

theorem setError_completes (windows : Bool) (future : EZFuture Callback) (msg : CString) :
    Completes windows future (.error msg) (future.setError windows msg) := by
  cases herror : future.hasError with
  | true => constructor <;> simp [setError, outcome, herror]
  | false =>
      cases hresult : future.result with
      | none => constructor <;> cases windows <;> simp [setError, outcome, herror, hresult]
      | some result => constructor <;> simp [setError, outcome, herror, hresult]

theorem Completes.consistent {windows : Bool} {future : EZFuture Callback}
    {own : Except CString Value} {after : List Callback × EZFuture Callback}
    (hafter : Completes windows future own after) (hfuture : Consistent windows future) :
    Consistent windows after.2 := by
  constructor
  · intro _
    rw [hafter.outcome]
    simp
  · intro hposix _
    rw [hafter.ready]
    cases houtcome : future.outcome with
    | none => simp [hposix]
    | some result => simp [hfuture.ready hposix (by simp [houtcome])]
  · intro _
    exact hafter.onReady

theorem get_of_outcome {future : EZFuture Callback} {result : Except CString Value}
    (houtcome : future.outcome = some result) : future.get = result := by
  cases herror : future.hasError with
  | true => simpa [outcome, get, herror] using houtcome
  | false =>
      obtain ⟨val, hresult, hval⟩ : ∃ val, future.result = some val ∧ .ok val = result := by
        simpa [outcome, herror] using houtcome
      simpa [get, herror, hresult] using hval

/-- `then` executes the callback now where the future is complete, and keeps it otherwise. -/
theorem then_spec {windows : Bool} {future : EZFuture Callback}
    (hfuture : Consistent windows future) (callback : Callback) :
    (future.outcome ≠ none ∧ future.then_ windows callback = (true, future)) ∨
      (future.outcome = none ∧ future.then_ windows callback =
        (false, { future with onReady := future.onReady ++ [callback] })) := by
  cases windows with
  | true =>
      cases herror : future.hasError with
      | true => exact .inl ⟨by simp [outcome, herror], by simp [then_, herror]⟩
      | false =>
          cases hresult : future.result with
          | none => exact .inr ⟨by simp [outcome, herror, hresult], by simp [then_, herror, hresult]⟩
          | some val => exact .inl ⟨by simp [outcome, herror, hresult], by simp [then_, hresult]⟩
  | false =>
      cases hready : future.ready with
      | true => exact .inl ⟨hfuture.completed hready, by simp [then_, hready]⟩
      | false =>
          refine .inr ⟨?_, by simp [then_, hready]⟩
          by_contra houtcome
          have htrue := hfuture.ready rfl houtcome
          rw [hready] at htrue
          cases htrue

/-! ### What a step does -/

/-- A thread that has waited for the result, has completed the future or has callbacks to call. -/
def Point.PastCompletion (p : Point Callback) : Prop :=
  p.phase = .reading ∨ (∃ callbacks, p.phase = .notifying callbacks) ∨ p.held ≠ 0

/-- What holds between the point of a thread and the future, before and after each step. -/
structure Placed (windows : Bool) (p : Point Callback) (future : EZFuture Callback) : Prop where
  consistent : Consistent windows future
  completed : p.PastCompletion → future.outcome ≠ none

/-- The record that a step makes of what it does to the callbacks and the outcome. -/
structure Booked (windows : Bool) (l : Thread × Event Callback) (p : Point Callback)
    (s : Shared Thread Callback) (p' : Point Callback) (s' : Shared Thread Callback) : Prop where
  callbacks : (executed [l] : Multiset Callback) + s'.future.onReady + p'.held =
    s.future.onReady + p.held + (registered [l] : Multiset Callback)
  outcome : s'.future.outcome = s.future.outcome.or (completions [l]).head?
  placed : Placed windows p' s'.future

/-- A step that leaves the future and the callbacks alone. -/
theorem Booked.same {windows : Bool} {t : Thread} {e : Event Callback} {p p' : Point Callback}
    {s s' : Shared Thread Callback} (hplaced : Placed windows p s.future)
    (hfuture : s'.future = s.future) (hheld : p'.held = p.held)
    (hpast : p'.PastCompletion → p.PastCompletion ∨ s.future.ready = true)
    (hcompletions : completions [(t, e)] = []) (hexecuted : executed [(t, e)] = [])
    (hregistered : registered [(t, e)] = []) : Booked windows (t, e) p s p' s' := by
  constructor
  · simp [hexecuted, hregistered, hfuture, hheld]
  · simp [hcompletions, hfuture]
  · rw [hfuture]
    refine ⟨hplaced.consistent, fun hp' => ?_⟩
    obtain hp | hready := hpast hp'
    · exact hplaced.completed hp
    · exact hplaced.consistent.completed hready

theorem Booked.complete {windows : Bool} {t : Thread} {e : Event Callback}
    {loops : List (List Callback)} {s : Shared Thread Callback} {own : Except CString Value}
    {after : List Callback × EZFuture Callback}
    (hplaced : Placed windows ⟨.user, loops⟩ s.future)
    (hafter : Completes windows s.future own after)
    (hcompletions : completions [(t, e)] = [own]) (hexecuted : executed [(t, e)] = [])
    (hregistered : registered [(t, e)] = []) :
    Booked windows (t, e) ⟨.user, loops⟩ s ⟨.notifying after.1, loops⟩
      { s with future := after.2 } := by
  constructor
  · simp [hexecuted, hregistered, hafter.onReady, hafter.taken, Point.held, Phase.held]
  · rw [hafter.outcome, hcompletions]
    cases s.future.outcome <;> rfl
  · refine ⟨hafter.consistent hplaced.consistent, fun _ => ?_⟩
    rw [hafter.outcome]
    simp

variable [DecidableEq Thread]

theorem coe_insert (xs ys : List Callback) (x : Callback) :
    ((xs ++ x :: ys : List Callback) : Multiset Callback) = ↑(xs ++ ys) + {x} := by
  rw [← Multiset.coe_singleton, Multiset.coe_add, Multiset.coe_eq_coe]
  exact List.perm_middle.trans (List.perm_append_singleton x _).symm

theorem act_booked {windows : Bool} {e : Event Callback} {t : Thread} {p p' : Point Callback}
    {s s' : Shared Thread Callback} (hact : act windows e t p s p' s')
    (hplaced : Placed windows p s.future) : Booked windows (t, e) p s p' s' := by
  cases hact with
  | cancel => exact .complete hplaced (setError_completes windows _ _) rfl rfl rfl
  | set => exact .complete hplaced (set_completes windows _ _) rfl rfl rfl
  | setError => exact .complete hplaced (setError_completes windows _ _) rfl rfl rfl
  | wait hready | wake hready =>
      exact .same hplaced rfl rfl (fun _ => .inr hready) rfl rfl rfl
  | then_ =>
      rename_i loops callback
      obtain ⟨houtcome, hthen⟩ | ⟨houtcome, hthen⟩ := then_spec hplaced.consistent callback
      · rw [hthen]
        constructor
        · simp [executed, registered, Point.held, Phase.held, coe_insert]
        · simp [completions]
        · exact ⟨hplaced.consistent, fun _ => houtcome⟩
      · rw [hthen]
        constructor
        · simpa [executed, registered, Point.held, Phase.held] using
            coe_insert s.future.onReady loops.flatten callback
        · simp [completions, outcome]
        · constructor
          · exact ⟨hplaced.consistent.completed, hplaced.consistent.ready,
              fun h => absurd houtcome h⟩
          · intro hpast
            exact hplaced.completed hpast
  | notify =>
      constructor
      · simp [executed, registered, Point.held, Phase.held]
      · simp [completions, outcome]
      · have houtcome := hplaced.completed (.inr (.inl ⟨_, rfl⟩))
        refine ⟨⟨fun _ => houtcome, fun _ _ => ?_, hplaced.consistent.drained⟩, fun _ => houtcome⟩
        change (s.future.ready || windows) = true
        rename_i hposix _
        rw [hplaced.consistent.ready hposix houtcome, Bool.true_or]
  | call =>
      constructor
      · simpa [executed, registered, Point.held, Phase.held] using List.perm_middle.symm
      · simp [completions]
      · refine ⟨hplaced.consistent, fun _ => hplaced.completed (.inr (.inr ?_))⟩
        simp [Point.held, Phase.held]
  | get => exact .same hplaced rfl rfl (fun _ => .inl (.inl rfl)) rfl rfl rfl
  | block | sleep | isReady | returns | finish =>
      apply Booked.same hplaced
      · rfl
      · simp [Point.held, Phase.held]
      · intro hpast
        left
        simpa [Point.PastCompletion, Point.held, Phase.held] using hpast
      all_goals rfl

/-! ### Runs -/

/-- What a history of calls says about the future. -/
structure Recorded (windows : Bool) (history : List (Thread × Event Callback))
    (w : World Thread (Point Callback) (Shared Thread Callback)) : Prop where
  callbacks : ∃ total, Total Point.held w.point total ∧
    (executed history : Multiset Callback) + w.shared.future.onReady + total = registered history
  outcome : w.shared.future.outcome = (completions history).head?
  consistent : Consistent windows w.shared.future
  completed : ∀ t, (w.point t).PastCompletion → w.shared.future.outcome ≠ none

omit [DecidableEq Thread] in
theorem Recorded.placed {windows : Bool} {history : List (Thread × Event Callback)}
    {w : World Thread (Point Callback) (Shared Thread Callback)} (hw : Recorded windows history w)
    (t : Thread) : Placed windows (w.point t) w.shared.future :=
  ⟨hw.consistent, hw.completed t⟩

omit [DecidableEq Thread] in
theorem recorded_initial (windows : Bool) :
    Recorded windows [] (initial : World Thread (Point Callback) (Shared Thread Callback)) := by
  constructor
  · exact ⟨0, .of_eq_zero fun t => rfl, rfl⟩
  · rfl
  · constructor <;> simp [initial, outcome]
  · intro t
    simp [initial, Point.outside, Point.PastCompletion, Point.held, Phase.held]

theorem Recorded.step {windows : Bool} {history : List (Thread × Event Callback)}
    {l : Thread × Event Callback} {w w' : World Thread (Point Callback) (Shared Thread Callback)}
    (hw : Recorded windows history w) (hstep : step windows l w w') :
    Recorded windows (history ++ [l]) w' := by
  obtain ⟨t, e⟩ := l
  obtain ⟨hact⟩ := hstep
  rename_i point s s' p
  have hbooked := act_booked hact (hw.placed t)
  constructor
  · classical
    obtain ⟨total, htotal, hall⟩ := hw.callbacks
    obtain ⟨total', htotal', hmoved⟩ := htotal.update t p
    refine ⟨total', htotal', ?_⟩
    rw [executed_append, registered_append, ← Multiset.coe_add, ← Multiset.coe_add]
    ext callback
    have hbefore := congrArg (Multiset.count callback) hall
    have hbook := congrArg (Multiset.count callback) hbooked.callbacks
    have hmove := congrArg (Multiset.count callback) hmoved
    simp only [Multiset.count_add] at hbefore hbook hmove ⊢
    omega
  · rw [hbooked.outcome, hw.outcome, completions_append, List.head?_append]
  · exact hbooked.placed.consistent
  · intro u hpast
    change (Function.update point t p u).PastCompletion at hpast
    by_cases hu : u = t
    · rw [hu, Function.update_self] at hpast
      exact hbooked.placed.completed hpast
    · rw [Function.update_of_ne hu] at hpast
      have houtcome := hw.completed u hpast
      rw [hbooked.outcome]
      intro hnone
      exact houtcome (Option.or_eq_none_iff.mp hnone).1

theorem recorded_of_run {windows : Bool} {history : List (Thread × Event Callback)}
    {w : World Thread (Point Callback) (Shared Thread Callback)}
    (hrun : Run (step windows) initial history w) : Recorded windows history w := by
  apply Run.history (recorded_initial windows) _ hrun
  intro history l s s' _ hs hstep
  exact hs.step hstep

/-! ### Waking up -/

/-- A thread that has completed the future and not notified yet. -/
def Notifying (w : World Thread (Point Callback) (Shared Thread Callback)) : Prop :=
  ∃ t callbacks, (w.point t).phase = .notifying callbacks

/-- Once the future is complete and everybody has notified, nobody is left asleep. -/
def Awake (w : World Thread (Point Callback) (Shared Thread Callback)) : Prop :=
  w.shared.future.outcome ≠ none → ¬ Notifying w →
    w.shared.future.ready = true ∧ w.shared.cv = []

/-- What one thread leaves alone, the others see as before. -/
theorem not_notifying_of_update {point : Thread → Point Callback} {t : Thread}
    {p : Point Callback} {s s' : Shared Thread Callback}
    (hnone : ¬ Notifying ⟨Function.update point t p, s'⟩)
    (ht : ∀ callbacks, (point t).phase ≠ .notifying callbacks) : ¬ Notifying ⟨point, s⟩ := by
  intro h
  obtain ⟨u, callbacks, hu⟩ := h
  by_cases hut : u = t
  · rw [hut] at hu
    exact ht callbacks hu
  · refine hnone ⟨u, callbacks, ?_⟩
    change (Function.update point t p u).phase = .notifying callbacks
    rw [Function.update_of_ne hut]
    exact hu

theorem act_awake {windows : Bool} {e : Event Callback} {t : Thread} {p p' : Point Callback}
    {s s' : Shared Thread Callback} (hact : act windows e t p s p' s')
    (hplaced : Placed windows p s.future)
    (hkept : (∀ callbacks, p.phase ≠ .notifying callbacks) → s.future.outcome ≠ none →
      s.future.ready = true ∧ s.cv = [])
    (hnone : ∀ callbacks, p'.phase ≠ .notifying callbacks) (houtcome : s'.future.outcome ≠ none) :
    s'.future.ready = true ∧ s'.cv = [] := by
  cases hact with
  | cancel | set | setError => exact absurd rfl (hnone _)
  | block hready | sleep hready =>
      obtain ⟨htrue, -⟩ := hkept (by simp) houtcome
      rw [hready] at htrue
      cases htrue
  | wake _ =>
      obtain ⟨hready, hcv⟩ := hkept (by simp) houtcome
      exact ⟨hready, by rw [hcv]; rfl⟩
  | then_ =>
      rename_i loops callback
      obtain ⟨-, hthen⟩ | ⟨hopen, hthen⟩ := then_spec hplaced.consistent callback
      · rw [hthen] at houtcome ⊢
        exact hkept (by simp) houtcome
      · rw [hthen] at houtcome
        exact absurd hopen houtcome
  | notify =>
      refine ⟨?_, rfl⟩
      change (s.future.ready || windows) = true
      cases windows with
      | true => exact Bool.or_true _
      | false => rw [hplaced.consistent.ready rfl houtcome, Bool.true_or]
  | _ => exact hkept (by simp) houtcome

theorem awake_of_run {windows : Bool} {history : List (Thread × Event Callback)}
    {w : World Thread (Point Callback) (Shared Thread Callback)}
    (hrun : Run (step windows) initial history w) : Awake w := by
  apply Run.history (I := fun _ w => Awake w) _ _ hrun
  · intro houtcome _
    exact absurd rfl houtcome
  · intro history l w w' hbefore hw hstep houtcome hnone
    have hplaced := (recorded_of_run hbefore).placed l.1
    obtain ⟨hact⟩ := hstep
    rename_i point s s' p
    refine act_awake hact hplaced (fun hphase hcompleted => ?_) (fun callbacks hp => ?_) houtcome
    · exact hw hcompleted (not_notifying_of_update hnone hphase)
    · refine hnone ⟨l.1, callbacks, ?_⟩
      change (Function.update point l.1 p l.1).phase = .notifying callbacks
      rw [Function.update_self]
      exact hp

/-- Once the wait is over, a thread inside a call can go on. -/
theorem goes_on_of_ready {windows : Bool}
    {w : World Thread (Point Callback) (Shared Thread Callback)} {t : Thread}
    (hready : w.shared.future.ready = true) (hinside : w.point t ≠ .outside) :
    ∃ e w', step windows (t, e) w w' := by
  suffices hact : ∃ e p s', act windows e t (w.point t) w.shared p s' by
    obtain ⟨e, p, s', hact⟩ := hact
    exact ⟨e, _, .mk hact⟩
  generalize w.point t = p at hinside
  obtain ⟨phase, loops⟩ := p
  cases phase with
  | user =>
      cases loops with
      | nil => exact absurd rfl hinside
      | cons rest loops => exact ⟨_, _, _, .returns⟩
  | notifying callbacks => exact ⟨_, _, _, .notify⟩
  | calling callbacks =>
      cases callbacks with
      | nil => exact ⟨_, _, _, .finish⟩
      | cons callback rest => exact ⟨_, _, _, .call⟩
  | waiting => exact ⟨_, _, _, .wake hready⟩
  | reading => exact ⟨_, _, _, .get⟩

theorem executed_pastCompletion {windows : Bool} {t : Thread} {callback : Callback}
    {p p' : Point Callback} {s s' : Shared Thread Callback}
    (hact : act windows (.executed callback) t p s p' s') : p.PastCompletion := by
  cases hact
  simp [Point.PastCompletion, Point.held, Phase.held]

theorem got_pastCompletion {windows : Bool} {t : Thread} {result : Except CString Value}
    {p p' : Point Callback} {s s' : Shared Thread Callback}
    (hact : act windows (.got result) t p s p' s') :
    p.PastCompletion ∧ result = s.future.get := by
  cases hact
  exact ⟨.inl rfl, rfl⟩

/-- In every run, the outcome of a future is that of the first completing call. Callbacks are executed
after a completion only, none more often than it was registered, and as often as that in the end. Every
`get` returns or throws that outcome. Once the future is complete and everybody has notified, no thread
inside a call is stuck. -/
theorem future_completes_once {windows : Bool} {history : List (Thread × Event Callback)}
    {w : World Thread (Point Callback) (Shared Thread Callback)}
    (hrun : Run (step windows) initial history w) :
    w.shared.future.outcome = (completions history).head? ∧
      (∀ before t callback after, history = before ++ (t, .executed callback) :: after →
        completions before ≠ []) ∧
      (executed history).Subperm (registered history) ∧
      (completions history ≠ [] → (∀ t, w.point t = .outside) →
        (executed history).Perm (registered history)) ∧
      (∀ before t result after, history = before ++ (t, .got result) :: after →
        (completions before).head? = some result) ∧
      (completions history ≠ [] → ¬ Notifying w →
        w.shared.cv = [] ∧ ∀ t, w.point t ≠ .outside → ∃ e w', step windows (t, e) w w') := by
  have hrecorded := recorded_of_run hrun
  have hcompleted (hsome : completions history ≠ []) : w.shared.future.outcome ≠ none := by
    rw [hrecorded.outcome, ne_eq, List.head?_eq_none_iff]
    exact hsome
  obtain ⟨total, htotal, hall⟩ := hrecorded.callbacks
  refine ⟨hrecorded.outcome, ?_, ?_, ?_, ?_, ?_⟩
  · intro before t callback after hhistory
    rw [hhistory] at hrun
    obtain ⟨s, s', hbefore, hstep, -⟩ := hrun.step_at
    have hs := recorded_of_run hbefore
    obtain ⟨hact⟩ := hstep
    have houtcome := hs.completed t (executed_pastCompletion hact)
    rw [hs.outcome, ne_eq, List.head?_eq_none_iff] at houtcome
    exact houtcome
  · rw [← Multiset.coe_le, ← hall, add_assoc]
    exact Multiset.le_add_right _ _
  · intro hsome houtside
    have hzero := htotal.eq_zero fun t => by rw [houtside t]; rfl
    have hdrained := hrecorded.consistent.drained (hcompleted hsome)
    rw [hzero, hdrained] at hall
    simpa using hall
  · intro before t result after hhistory
    rw [hhistory] at hrun
    obtain ⟨s, s', hbefore, hstep, -⟩ := hrun.step_at
    have hs := recorded_of_run hbefore
    obtain ⟨hact⟩ := hstep
    obtain ⟨hpast, hresult⟩ := got_pastCompletion hact
    obtain ⟨outcome, houtcome⟩ := Option.ne_none_iff_exists'.mp (hs.completed t hpast)
    rw [← hs.outcome, houtcome, hresult, get_of_outcome houtcome]
  · intro hsome hnone
    obtain ⟨hready, hcv⟩ := awake_of_run hrun (hcompleted hsome) hnone
    exact ⟨hcv, fun t hinside => goes_on_of_ready hready hinside⟩

/-- A callback is registered, the future is set, cancelled in vain and read. -/
def settled : List (Bool × Event Nat) :=
  [(true, .registered 7), (false, .set (.int 5)), (true, .cancel), (false, .notified),
    (false, .executed 7), (false, .returned), (false, .finished), (true, .notified),
    (true, .finished), (true, .passed), (true, .got (.ok (.int 5)))]

theorem run_snoc {windows : Bool} {history : List (Thread × Event Callback)}
    {w : World Thread (Point Callback) (Shared Thread Callback)}
    (hrun : Run (step windows) initial history w) (t : Thread) (e : Event Callback)
    {p : Point Callback} {s : Shared Thread Callback}
    (hact : act windows e t (w.point t) w.shared p s) :
    Run (step windows) initial (history ++ [(t, e)]) ⟨Function.update w.point t p, s⟩ :=
  hrun.snoc (.mk hact)

theorem settled_run :
    ∃ w : World Bool (Point Nat) (Shared Bool Nat), Run (step false) initial settled w := by
  have hstart : Run (step false) initial ([] : List (Bool × Event Nat)) initial := .nil
  have hregistered := run_snoc hstart true (.registered 7) .then_
  have hset := run_snoc hregistered false (.set (.int 5)) .set
  have hcancel := run_snoc hset true .cancel .cancel
  have hnotified := run_snoc hcancel false .notified .notify
  have hexecuted := run_snoc hnotified false (.executed 7) .call
  have hreturned := run_snoc hexecuted false .returned .returns
  have hfinished := run_snoc hreturned false .finished .finish
  have hnothing := run_snoc hfinished true .notified .notify
  have hnone := run_snoc hnothing true .finished .finish
  have hpassed := run_snoc hnone true .passed (.wait rfl)
  have hgot := run_snoc hpassed true _ .get
  exact ⟨_, hgot⟩

theorem settled_completes_once :
    ∃ w : World Bool (Point Nat) (Shared Bool Nat),
      w.shared.future.outcome = (completions settled).head? ∧
        (executed settled).Subperm (registered settled) := by
  obtain ⟨w, hrun⟩ := settled_run
  obtain ⟨houtcome, -, hsubperm, -⟩ := future_completes_once hrun
  exact ⟨w, houtcome, hsubperm⟩

end EZFuture

end EZLanguage
