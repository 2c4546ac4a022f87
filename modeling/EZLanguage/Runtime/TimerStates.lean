import EZLanguage.Support.Runs
import Mathlib.Logic.Function.Basic

/-!
# The states of a timer

`Timer.start` and `Timer.stop` steer a ticker thread through two shared flags. Every load and store is a
step of its own, and the steps of any number of callers and ticker threads interleave. The flags carry
no number of the series they belong to, so a thread of an earlier series reads and writes them as the
newest one does.
-/

namespace EZLanguage

namespace Timer

/-- Where a caller stands inside `start` or `stop`. -/
inductive CallerAt
  | idle
  | loaded
  | armed
  | cleared
  | stopping
  deriving DecidableEq

/-- Where a ticker thread stands. A thread leaves its loop on a stop request or after its only tick. -/
inductive TickerAt
  | unborn
  | sleeping
  | due
  | inCallback
  | leaving (stopped : Bool)
  | dead (stopped : Bool)
  deriving DecidableEq

/-- What `start` answers after its first load. -/
inductive Answer
  | alreadyRunning
  | noCallback
  | passed
  deriving DecidableEq

/-- `EZTimerState` with the callers and the ticker threads, and how many callbacks each thread began. -/
structure State where
  running : Bool
  stopRequested : Bool
  callable : Bool
  callers : Nat → CallerAt
  tickers : Nat → TickerAt
  begun : Nat → Nat
  spawned : Nat

/-- The timer as `init` leaves it. -/
def State.start : State where
  running := false
  stopRequested := false
  callable := false
  callers := fun _ => .idle
  tickers := fun _ => .unborn
  begun := fun _ => 0
  spawned := 0

def State.setCaller (s : State) (c : Nat) (place : CallerAt) : State :=
  { s with callers := Function.update s.callers c place }

def State.setTicker (s : State) (k : Nat) (place : TickerAt) : State :=
  { s with tickers := Function.update s.tickers k place }

/-- The thread was started and has not ended. -/
def TickerAt.Alive : TickerAt → Prop
  | .unborn => False
  | .dead _ => False
  | _ => True

/-- The caller is inside `start`. -/
def CallerAt.Starting : CallerAt → Prop
  | .loaded => True
  | .armed => True
  | .cleared => True
  | _ => False

inductive Label
  | onTick
  | startLoad (c : Nat) (answer : Answer)
  | startRunning (c : Nat)
  | startClear (c : Nat)
  | startSpawn (c : Nat)
  | stopRequest (c : Nat)
  | stopRunning (c : Nat)
  | isRunning (c : Nat) (answer : Bool)
  | wake (k : Nat)
  | tick (k : Nat)
  | done (k : Nat)
  | finish (k : Nat)
  deriving DecidableEq

/-- The steps of a timer that repeats or not. -/
inductive Step (repeats : Bool) : Label → State → State → Prop
  | onTick (s : State) : Step repeats .onTick s { s with callable := true }
  | alreadyRunning {s : State} {c : Nat} (hidle : s.callers c = .idle) (hrunning : s.running = true) :
      Step repeats (.startLoad c .alreadyRunning) s s
  | noCallback {s : State} {c : Nat} (hidle : s.callers c = .idle) (hrunning : s.running = false)
      (hcallable : s.callable = false) : Step repeats (.startLoad c .noCallback) s s
  | passed {s : State} {c : Nat} (hidle : s.callers c = .idle) (hrunning : s.running = false)
      (hcallable : s.callable = true) :
      Step repeats (.startLoad c .passed) s (s.setCaller c .loaded)
  | startRunning {s : State} {c : Nat} (hat : s.callers c = .loaded) :
      Step repeats (.startRunning c) s { s.setCaller c .armed with running := true }
  | startClear {s : State} {c : Nat} (hat : s.callers c = .armed) :
      Step repeats (.startClear c) s { s.setCaller c .cleared with stopRequested := false }
  | startSpawn {s : State} {c : Nat} (hat : s.callers c = .cleared) :
      Step repeats (.startSpawn c) s
        { (s.setCaller c .idle).setTicker s.spawned .sleeping with spawned := s.spawned + 1 }
  | stopRequest {s : State} {c : Nat} (hidle : s.callers c = .idle) :
      Step repeats (.stopRequest c) s { s.setCaller c .stopping with stopRequested := true }
  | stopRunning {s : State} {c : Nat} (hat : s.callers c = .stopping) :
      Step repeats (.stopRunning c) s { s.setCaller c .idle with running := false }
  | isRunning {s : State} {c : Nat} {answer : Bool} (hidle : s.callers c = .idle)
      (hanswer : s.running = answer) : Step repeats (.isRunning c answer) s s
  | wake {s : State} {k : Nat} (hat : s.tickers k = .sleeping) :
      Step repeats (.wake k) s (s.setTicker k (if s.stopRequested then .leaving true else .due))
  | tick {s : State} {k : Nat} (hat : s.tickers k = .due) :
      Step repeats (.tick k) s
        { s.setTicker k .inCallback with begun := Function.update s.begun k (s.begun k + 1) }
  | done {s : State} {k : Nat} (hat : s.tickers k = .inCallback) :
      Step repeats (.done k) s (s.setTicker k (if repeats then .sleeping else .leaving false))
  | finish {s : State} {k : Nat} {stopped : Bool} (hat : s.tickers k = .leaving stopped) :
      Step repeats (.finish k) s { s.setTicker k (.dead stopped) with running := false }

/-- What the history of a timer amounts to: the number of series started, the one that was neither
stopped nor finished, and whether a stop was requested that no start followed. -/
structure Progress where
  started : Nat
  current : Option Nat
  stopped : Bool

def Progress.advance (p : Progress) : Label → Progress
  | .startRunning _ => { p with started := p.started + 1, current := some p.started }
  | .startSpawn _ => { p with stopped := false }
  | .stopRequest _ => { p with stopped := true }
  | .stopRunning _ => { p with current := none }
  | .finish k => { p with current := if p.current = some k then none else p.current }
  | _ => p

example (p : Progress) (c : Nat) : p.advance (.stopRequest c) = { p with stopped := true } := by
  rw [Progress.advance]

def progress (labels : List Label) : Progress := labels.foldl Progress.advance ⟨0, none, false⟩

theorem progress_snoc (labels : List Label) (l : Label) :
    progress (labels ++ [l]) = (progress labels).advance l := by
  rw [progress, List.foldl_append]
  rfl

/-- What a step needs for the timer to behave: a start that passes finds no thread of an earlier series
and no call under way, and a stop finds no thread that has already decided to tick and no start under
way. -/
def Careful (l : Label) (s : State) : Prop :=
  match l with
  | .startLoad _ .passed => (∀ k, ¬(s.tickers k).Alive) ∧ ∀ c, s.callers c = .idle
  | .stopRequest _ => (∀ k, s.tickers k ≠ .due) ∧ ∀ c, ¬(s.callers c).Starting
  | _ => True

/-- The callbacks a one-shot thread has begun at a place. -/
def TickerAt.ticks : TickerAt → Nat
  | .inCallback => 1
  | .leaving false => 1
  | .dead false => 1
  | _ => 0

/-- What careful steps keep. -/
structure Inv (repeats : Bool) (p : Progress) (s : State) : Prop where
  starting : ∀ c, (s.callers c).Starting →
    (∀ k, ¬(s.tickers k).Alive) ∧ ∀ c', c' ≠ c → s.callers c' = .idle
  unborn : ∀ k, s.spawned ≤ k → s.tickers k = .unborn ∧ s.begun k = 0
  newest : ∀ k, (s.tickers k).Alive → k + 1 = s.spawned
  loaded : ∀ c, s.callers c = .loaded → s.running = false
  cleared : ∀ c, s.callers c = .cleared → s.stopRequested = false
  running : p.current.isSome = s.running
  current : ∀ n, p.current = some n → n + 1 = p.started
  starts : ∀ c, s.callers c = .armed ∨ s.callers c = .cleared → p.started = s.spawned + 1
  spawns : (∀ c, s.callers c ≠ .armed ∧ s.callers c ≠ .cleared) → p.started = s.spawned
  stopped : p.stopped = true →
    (∀ k, s.tickers k ≠ .due) ∧ (s.stopRequested = true ∨ ∀ k, ¬(s.tickers k).Alive)
  oneShot : repeats = false → ∀ k, s.begun k = (s.tickers k).ticks

variable {repeats : Bool} {p : Progress} {s s' : State} {l : Label}

theorem Inv.start (repeats : Bool) : Inv repeats ⟨0, none, false⟩ State.start := by
  constructor <;> simp [State.start, CallerAt.Starting, TickerAt.Alive, TickerAt.ticks]

/-- A thread's end clears the current series: it is the newest one. -/
theorem Inv.current_finished (hinv : Inv repeats p s) {k : Nat} (halive : (s.tickers k).Alive) :
    (if p.current = some k then none else p.current) = none := by
  have hquiet : ∀ c, s.callers c ≠ .armed ∧ s.callers c ≠ .cleared := by
    intro c
    have hstarting := hinv.starting c
    constructor
    · intro hat
      rw [hat] at hstarting
      exact (hstarting trivial).1 k halive
    · intro hat
      rw [hat] at hstarting
      exact (hstarting trivial).1 k halive
  have hstarted := hinv.spawns hquiet
  have hnewest := hinv.newest k halive
  cases hcurrent : p.current with
  | none => simp
  | some n =>
      have hn := hinv.current n hcurrent
      have hsame : n = k := by omega
      rw [hsame, if_pos rfl]

/-- A start that passes finds no thread alive and no call under way. -/
theorem Inv.passed (hinv : Inv repeats p s) {c : Nat} (hcareful : Careful (.startLoad c .passed) s)
    (hnot : s.running = false) :
    Inv repeats (p.advance (.startLoad c .passed))
      (s.setCaller c .loaded) := by
  obtain ⟨hstarting, hunborn, hnewest, hloaded, hcleared, hrunning, hcurrent, hstarts, hspawns, hstopped,
    honeShot⟩ := hinv
  simp only [Careful] at hcareful
  constructor <;> simp only [State.setCaller, Progress.advance, Function.update_apply] <;>
    grind [CallerAt.Starting]

theorem Inv.startRunning (hinv : Inv repeats p s) {c : Nat} (hat : s.callers c = .loaded) :
    Inv repeats (p.advance (.startRunning c))
      { s.setCaller c .armed with running := true } := by
  obtain ⟨hstarting, hunborn, hnewest, hloaded, hcleared, hrunning, hcurrent, hstarts, hspawns, hstopped,
    honeShot⟩ := hinv
  constructor <;> simp only [State.setCaller, Progress.advance, Function.update_apply] <;>
    grind [CallerAt.Starting]

theorem Inv.startClear (hinv : Inv repeats p s) {c : Nat} (hat : s.callers c = .armed) :
    Inv repeats (p.advance (.startClear c))
      { s.setCaller c .cleared with stopRequested := false } := by
  obtain ⟨hstarting, hunborn, hnewest, hloaded, hcleared, hrunning, hcurrent, hstarts, hspawns, hstopped,
    honeShot⟩ := hinv
  constructor <;> simp only [State.setCaller, Progress.advance, Function.update_apply] <;>
    grind [CallerAt.Starting]

/-- The thread that is spawned is the only one, as no other was alive since the call began. -/
theorem Inv.startSpawn (hinv : Inv repeats p s) {c : Nat} (hat : s.callers c = .cleared) :
    Inv repeats (p.advance (.startSpawn c))
      { (s.setCaller c .idle).setTicker s.spawned .sleeping with spawned := s.spawned + 1 } := by
  obtain ⟨hstarting, hunborn, hnewest, hloaded, hcleared, hrunning, hcurrent, hstarts, hspawns, hstopped,
    honeShot⟩ := hinv
  constructor <;>
    simp only [State.setCaller, State.setTicker, Progress.advance, Function.update_apply] <;>
    grind [CallerAt.Starting, TickerAt.Alive, TickerAt.ticks]

theorem Inv.stopRequest (hinv : Inv repeats p s) {c : Nat} (hcareful : Careful (.stopRequest c) s) :
    Inv repeats (p.advance (.stopRequest c))
      { s.setCaller c .stopping with stopRequested := true } := by
  obtain ⟨hstarting, hunborn, hnewest, hloaded, hcleared, hrunning, hcurrent, hstarts, hspawns, hstopped,
    honeShot⟩ := hinv
  simp only [Careful] at hcareful
  constructor <;> simp only [State.setCaller, Progress.advance, Function.update_apply] <;>
    grind [CallerAt.Starting]

theorem Inv.stopRunning (hinv : Inv repeats p s) {c : Nat} (hat : s.callers c = .stopping) :
    Inv repeats (p.advance (.stopRunning c))
      { s.setCaller c .idle with running := false } := by
  obtain ⟨hstarting, hunborn, hnewest, hloaded, hcleared, hrunning, hcurrent, hstarts, hspawns, hstopped,
    honeShot⟩ := hinv
  constructor <;> simp only [State.setCaller, Progress.advance, Function.update_apply] <;>
    grind [CallerAt.Starting]

/-- After a stop request the flag sends the thread out of its loop. -/
theorem Inv.wake (hinv : Inv repeats p s) {k : Nat} (hat : s.tickers k = .sleeping) :
    Inv repeats (p.advance (.wake k))
      (s.setTicker k (if s.stopRequested then .leaving true else .due)) := by
  obtain ⟨hstarting, hunborn, hnewest, hloaded, hcleared, hrunning, hcurrent, hstarts, hspawns, hstopped,
    honeShot⟩ := hinv
  constructor <;> simp only [State.setTicker, Progress.advance, Function.update_apply] <;>
    grind [TickerAt.Alive, TickerAt.ticks]

theorem Inv.tick (hinv : Inv repeats p s) {k : Nat} (hat : s.tickers k = .due) :
    Inv repeats (p.advance (.tick k))
      { s.setTicker k .inCallback with begun := Function.update s.begun k (s.begun k + 1) } := by
  obtain ⟨hstarting, hunborn, hnewest, hloaded, hcleared, hrunning, hcurrent, hstarts, hspawns, hstopped,
    honeShot⟩ := hinv
  constructor <;> simp only [State.setTicker, Progress.advance, Function.update_apply] <;>
    grind [TickerAt.Alive, TickerAt.ticks]

theorem Inv.done (hinv : Inv repeats p s) {k : Nat} (hat : s.tickers k = .inCallback) :
    Inv repeats (p.advance (.done k))
      (s.setTicker k (if repeats then .sleeping else .leaving false)) := by
  obtain ⟨hstarting, hunborn, hnewest, hloaded, hcleared, hrunning, hcurrent, hstarts, hspawns, hstopped,
    honeShot⟩ := hinv
  constructor <;> simp only [State.setTicker, Progress.advance, Function.update_apply] <;>
    grind [TickerAt.Alive, TickerAt.ticks]

theorem Inv.finish (hinv : Inv repeats p s) {k : Nat} {stopped : Bool}
    (hat : s.tickers k = .leaving stopped) :
    Inv repeats (p.advance (.finish k))
      { s.setTicker k (.dead stopped) with running := false } := by
  have halive : (s.tickers k).Alive := by
    rw [hat]
    trivial
  have hnone := hinv.current_finished halive
  have hticks : (TickerAt.dead stopped).ticks = (TickerAt.leaving stopped).ticks := by
    cases stopped <;> rfl
  obtain ⟨hstarting, hunborn, hnewest, hloaded, hcleared, hrunning, hcurrent, hstarts, hspawns, hstopped,
    honeShot⟩ := hinv
  constructor <;> simp only [State.setTicker, Progress.advance, Function.update_apply, hnone] <;>
    grind [TickerAt.Alive]

/-- Every careful step keeps the invariant. -/
theorem Inv.step (hinv : Inv repeats p s) (hcareful : Careful l s) (hstep : Step repeats l s s') :
    Inv repeats (p.advance l) s' := by
  cases hstep with
  | onTick =>
      exact ⟨hinv.starting, hinv.unborn, hinv.newest, hinv.loaded, hinv.cleared, hinv.running, hinv.current,
        hinv.starts, hinv.spawns, hinv.stopped, hinv.oneShot⟩
  | alreadyRunning => exact hinv
  | noCallback => exact hinv
  | passed hidle hnot => exact hinv.passed hcareful hnot
  | startRunning hat => exact hinv.startRunning hat
  | startClear hat => exact hinv.startClear hat
  | startSpawn hat => exact hinv.startSpawn hat
  | stopRequest hidle => exact hinv.stopRequest hcareful
  | stopRunning hat => exact hinv.stopRunning hat
  | isRunning => exact hinv
  | wake hat => exact hinv.wake hat
  | tick hat => exact hinv.tick hat
  | done hat => exact hinv.done hat
  | finish hat => exact hinv.finish hat

/-- A step that meets its condition. -/
def CarefulStep (repeats : Bool) (l : Label) (s s' : State) : Prop :=
  Careful l s ∧ Step repeats l s s'

theorem inv_run {labels : List Label} (hrun : Runs.Run (CarefulStep repeats) State.start labels s) :
    Inv repeats (progress labels) s := by
  apply hrun.history (I := fun labels s => Inv repeats (progress labels) s)
  · exact Inv.start repeats
  · intro labels l s s' _ hinv hstep
    rw [progress_snoc]
    exact hinv.step hstep.1 hstep.2

/-- What is expected of a timer in a state that a history leads to. -/
structure Behaves (repeats : Bool) (labels : List Label) (s : State) : Prop where
  /-- At most one thread is alive and not asked to stop. -/
  one_ticker : s.stopRequested = false →
    ∀ i j, (s.tickers i).Alive → (s.tickers j).Alive → i = j
  /-- No callback begins after a stop that no start followed. -/
  no_late_tick : ∀ before k after, labels = before ++ .tick k :: after →
    (progress before).stopped = false
  /-- A start is refused only while a series is under way. -/
  not_refused : ∀ before c answer after, labels = before ++ .startLoad c answer :: after →
    (progress before).current = none → answer ≠ .alreadyRunning
  /-- A start arms one new series, and no other is left. -/
  one_series : ∀ before c, labels = before ++ [.startSpawn c] →
    ∃ k, s.tickers k = .sleeping ∧ s.begun k = 0 ∧ ∀ j, (s.tickers j).Alive → j = k
  /-- A one-shot thread ticks once before it leaves, unless it was asked to stop. -/
  one_tick : repeats = false → ∀ k, s.begun k = (s.tickers k).ticks
  /-- `isRunning` answers whether a started series was neither stopped nor finished. -/
  is_running : ∀ before c answer after, labels = before ++ .isRunning c answer :: after →
    (answer = true ↔ (progress before).current.isSome = true)

/-- In a run of careful steps the timer behaves. -/
theorem timer_run {labels : List Label}
    (hrun : Runs.Run (CarefulStep repeats) State.start labels s) : Behaves repeats labels s where
  one_ticker := by
    intro _ i j hi hj
    have hinv := inv_run hrun
    have hnewest := hinv.newest i hi
    have hnewest' := hinv.newest j hj
    omega
  no_late_tick := by
    intro before k after hsplit
    rw [hsplit] at hrun
    obtain ⟨t, t', hbefore, hstep, _⟩ := hrun.step_at
    have hinv := inv_run hbefore
    cases hstep.2 with
    | tick hat =>
        by_contra hstopped
        rw [Bool.not_eq_false] at hstopped
        exact (hinv.stopped hstopped).1 k hat
  not_refused := by
    intro before c answer after hsplit hnone hanswer
    rw [hsplit, hanswer] at hrun
    obtain ⟨t, t', hbefore, hstep, _⟩ := hrun.step_at
    have hinv := (inv_run hbefore).running
    cases hstep.2 with
    | alreadyRunning hidle hrunning =>
        rw [hnone, hrunning] at hinv
        cases hinv
  one_series := by
    intro before c hsplit
    rw [hsplit] at hrun
    obtain ⟨t, hbefore, hstep⟩ := hrun.last
    have hinv := inv_run hbefore
    have hafter := inv_run hrun
    cases hstep.2 with
    | startSpawn hat =>
        refine ⟨t.spawned, ?_, ?_, ?_⟩
        · simp [State.setTicker]
        · exact (hinv.unborn t.spawned (Nat.le_refl _)).2
        · intro j hj
          have hnewest := hafter.newest j hj
          dsimp only at hnewest
          omega
  one_tick := (inv_run hrun).oneShot
  is_running := by
    intro before c answer after hsplit
    rw [hsplit] at hrun
    obtain ⟨t, t', hbefore, hstep, _⟩ := hrun.step_at
    have hinv := (inv_run hbefore).running
    cases hstep.2 with
    | isRunning hidle hanswer => rw [hinv, hanswer]

/-- One tick of a one-shot timer. -/
theorem timer_run_once :
    ∃ s, Behaves false [.onTick, .startLoad 0 .passed, .startRunning 0, .startClear 0, .startSpawn 0,
      .isRunning 0 true, .wake 0, .tick 0, .done 0, .finish 0] s := by
  have hquiet : Careful (.startLoad 0 .passed) { State.start with callable := true } :=
    ⟨fun _ hdead => hdead, fun _ => rfl⟩
  have hrun : Runs.Run (CarefulStep false) State.start [] State.start := .nil
  have hset := hrun.snoc (l := Label.onTick) ⟨trivial, .onTick _⟩
  have hload := hset.snoc (l := Label.startLoad 0 .passed) ⟨hquiet, .passed rfl rfl rfl⟩
  have harmed := (hload.snoc (l := Label.startRunning 0) ⟨trivial, .startRunning rfl⟩).snoc
    (l := Label.startClear 0) ⟨trivial, .startClear rfl⟩
  have hspawned := (harmed.snoc (l := Label.startSpawn 0) ⟨trivial, .startSpawn rfl⟩).snoc
    (l := Label.isRunning 0 true) ⟨trivial, .isRunning rfl rfl⟩
  have hticked := (hspawned.snoc (l := Label.wake 0) ⟨trivial, .wake rfl⟩).snoc
    (l := Label.tick 0) ⟨trivial, .tick rfl⟩
  have hfinished := (hticked.snoc (l := Label.done 0) ⟨trivial, .done rfl⟩).snoc
    (l := Label.finish 0) ⟨trivial, .finish rfl⟩
  exact ⟨_, timer_run hfinished⟩

/-- A stop and a start within one interval leave two threads ticking. -/
theorem timer_two_tickers :
    ¬∀ (repeats : Bool) (labels : List Label) (s : State),
      Runs.Run (Step repeats) State.start labels s → Behaves repeats labels s := by
  intro hall
  have hstart : Runs.Run (Step true) State.start [] State.start := .nil
  have hrun := hstart.snoc (.onTick _)
  have harmed := ((hrun.snoc (.passed (c := 0) rfl rfl rfl)).snoc
    (.startRunning (c := 0) rfl)).snoc (.startClear (c := 0) rfl)
  have hstopped := ((harmed.snoc (.startSpawn (c := 0) rfl)).snoc
    (.stopRequest (c := 0) rfl)).snoc (.stopRunning (c := 0) rfl)
  have hagain := ((hstopped.snoc (.passed (c := 0) rfl rfl rfl)).snoc
    (.startRunning (c := 0) rfl)).snoc (.startClear (c := 0) rfl)
  have htwo := hagain.snoc (.startSpawn (c := 0) rfl)
  have hsame := (hall true _ _ htwo).one_ticker rfl 0 1 trivial trivial
  cases hsame

end Timer

end EZLanguage
