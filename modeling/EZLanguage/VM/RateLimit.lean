import EZLanguage.Bytecode.Chunk
import EZLanguage.Support.Runs
import EZLanguage.Support.SlidingWindow

/-!
# Rate limits

`@ratelimit(n, period)` makes every call of a task go through a window of the admitted calls' times. The
windows of all tasks stand in one registry under the tasks' names. The parser narrows the literal `n` to
`int`, and the check reads the window's oldest entry when it rejects a call.
-/

namespace EZLanguage

namespace RateLimit

open SlidingWindow

/-- A task declared with `@ratelimit`. -/
structure Task where
  declaration : Nat
  name : CString
  count : Int64
  per : CString
  deriving DecidableEq

namespace Task

/-- The count the parser keeps of the literal. -/
def maxCnt (task : Task) : Int := task.count.toInt32.toInt

/-- The length of the period, with a minute for a period of another name. -/
def windowMs (task : Task) : Int :=
  if task.per = lit "second" then 1000
  else if task.per = lit "minute" then 60000
  else if task.per = lit "hour" then 3600000
  else if task.per = lit "day" then 86400000
  else 60000

/-- The key of the task's window. -/
def key (task : Task) : CString := task.name ++ lit ":" ++ lit "global"

end Task

/-- `rateLimiterRegistry`, with no entry as an empty window, and `rateLimitSweepCounter`. -/
structure Registry where
  window : CString → List Int
  sweepCounter : Nat

/-- The registry at the start of a program. -/
def Registry.start : Registry := ⟨fun _ => [], 0⟩

/-- How a call leaves the check. Nothing is known of a read from an empty deque. -/
inductive Outcome
  | admitted
  | rejected (waitMs : Int)
  | undefined
  deriving DecidableEq

/-- The window under one key is replaced. -/
def Registry.store (reg : Registry) (key : CString) (win : List Int) : CString → List Int :=
  fun key' => if key' = key then win else reg.window key'

/-- The sweep over the registry. -/
def sweep (now : Int) (window : CString → List Int) : CString → List Int :=
  fun key =>
    match (window key).getLast? with
    | none => []
    | some back => if 86400000 < now - back then [] else window key

/-- `RATELIMIT_CHECK`. -/
def check (reg : Registry) (task : Task) (now : Int) : Registry × Outcome :=
  let win := prune task.windowMs now (reg.window task.key)
  if task.maxCnt ≤ win.length then
    match win with
    | [] => (⟨reg.store task.key win, reg.sweepCounter⟩, .undefined)
    | front :: _ =>
        (⟨reg.store task.key win, reg.sweepCounter⟩, .rejected (task.windowMs - (now - front)))
  else
    let window := reg.store task.key (win ++ [now])
    if 1000 < reg.sweepCounter + 1 then (⟨sweep now window, 0⟩, .admitted)
    else (⟨window, reg.sweepCounter + 1⟩, .admitted)

/-- A call of a rate-limited task, with the clock reading of its check and its outcome. -/
structure Call where
  task : Task
  now : Int
  outcome : Outcome

/-- One call of a program. -/
def step (call : Call) (reg reg' : Registry) : Prop :=
  check reg call.task call.now = (reg', call.outcome)

/-- The times of a task's admitted calls. -/
def admittedTimes (task : Task) (calls : List Call) : List Int :=
  (calls.filter fun call => decide (call.task = task ∧ call.outcome = .admitted)).map Call.now

/-- What a rate limit promises of a program's calls. -/
structure Limited (task : Task) (calls : List Call) : Prop where
  /-- No half-open stretch of the period's length has more than the admitted calls. -/
  admitted_le : ∀ lo, ((admittedTimes task calls).countP
    (fun t => decide (lo ≤ t ∧ t < lo + task.windowMs)) : Int) ≤ task.count.toInt
  /-- A call that is not admitted ends a half-open stretch that is full. -/
  rejected_full : ∀ before call after, calls = before ++ call :: after → call.task = task →
    call.outcome ≠ .admitted → ((admittedTimes task before).countP
      (fun t => decide (call.now - task.windowMs < t ∧ t ≤ call.now)) : Int) = task.count.toInt
  /-- No call reads the oldest entry of an empty window. -/
  no_empty_read : ∀ call ∈ calls, call.task = task → call.outcome ≠ .undefined

/-- What a call needs for its limit to be kept: a positive count that fits `int`, and a full window whose
oldest entry is not exactly as old as the period is long. -/
structure Careful (call : Call) (reg : Registry) : Prop where
  positive : 0 < call.task.count.toInt
  narrow : call.task.maxCnt = call.task.count.toInt
  boundary : ∀ front rest, prune call.task.windowMs call.now (reg.window call.task.key) = front :: rest →
    call.now - front = call.task.windowMs → ((front :: rest).length : Int) < call.task.maxCnt

theorem windowMs_le (task : Task) : task.windowMs ≤ 86400000 := by
  rw [Task.windowMs]
  split_ifs <;> omega

/-- What one check does. -/
theorem check_cases {reg reg' : Registry} {task : Task} {now : Int} {outcome : Outcome}
    (hcheck : check reg task now = (reg', outcome)) :
    (task.maxCnt ≤ (prune task.windowMs now (reg.window task.key)).length ∧
      outcome ≠ .admitted ∧
      (outcome = .undefined ↔ prune task.windowMs now (reg.window task.key) = []) ∧
      reg' = ⟨reg.store task.key (prune task.windowMs now (reg.window task.key)), reg.sweepCounter⟩) ∨
    (((prune task.windowMs now (reg.window task.key)).length : Int) < task.maxCnt ∧
      outcome = .admitted ∧
      (reg'.window = reg.store task.key (prune task.windowMs now (reg.window task.key) ++ [now]) ∨
        reg'.window =
          sweep now (reg.store task.key (prune task.windowMs now (reg.window task.key) ++ [now])))) := by
  dsimp only [check] at hcheck
  generalize hwin : prune task.windowMs now (reg.window task.key) = win at hcheck
  by_cases hfull : task.maxCnt ≤ win.length
  · rw [if_pos hfull] at hcheck
    left
    cases win with
    | nil =>
        obtain ⟨rfl, rfl⟩ := Prod.mk.inj hcheck
        exact ⟨hfull, by simp, by simp, rfl⟩
    | cons front rest =>
        obtain ⟨rfl, rfl⟩ := Prod.mk.inj hcheck
        exact ⟨hfull, by simp, by simp, rfl⟩
  · rw [if_neg hfull] at hcheck
    right
    split_ifs at hcheck
    · obtain ⟨rfl, rfl⟩ := Prod.mk.inj hcheck
      exact ⟨by omega, rfl, .inr rfl⟩
    · obtain ⟨rfl, rfl⟩ := Prod.mk.inj hcheck
      exact ⟨by omega, rfl, .inl rfl⟩

/-- The sweep drops windows that are too old for every period. -/
theorem Tracks.sweep {task : Task} {now : Int} {times : List Int} {window : CString → List Int}
    {key : CString} (htracks : Tracks task.windowMs now times (window key)) :
    Tracks task.windowMs now times (sweep now window key) := by
  rw [RateLimit.sweep]
  cases hback : (window key).getLast? with
  | none =>
      rw [List.getLast?_eq_none_iff] at hback
      rwa [hback] at htracks
  | some back =>
      dsimp only
      split_ifs with hold
      · apply htracks.clear
        intro t hmem
        have hle : t ≤ back := by
          obtain ⟨init, hinit⟩ := List.getLast?_eq_some_iff.mp hback
          have hsorted := htracks.sorted_win
          rw [hinit, List.pairwise_append] at hsorted
          rw [hinit] at hmem
          cases List.mem_append.mp hmem with
          | inl hfront => exact hsorted.2.2 t hfront back (List.mem_singleton_self back)
          | inr hlast => exact le_of_eq (List.mem_singleton.mp hlast)
        have hday := windowMs_le task
        omega
      · exact htracks

theorem admittedTimes_snoc (task : Task) (calls : List Call) (call : Call) :
    admittedTimes task (calls ++ [call]) = admittedTimes task calls ++
      if call.task = task ∧ call.outcome = .admitted then [call.now] else [] := by
  rw [admittedTimes, List.filter_append, List.map_append, ← admittedTimes]
  congr 1
  split_ifs with hown
  · simp [hown]
  · simp [hown]

/-- The window of a task follows its admitted calls, of which no stretch of the period's length has more
than the count. -/
structure Kept (task : Task) (calls : List Call) (reg : Registry) : Prop where
  tracks : ∀ clock, (∀ call ∈ calls, call.now ≤ clock) →
    Tracks task.windowMs clock (admittedTimes task calls) (reg.window task.key)
  bound : ∀ lo, within lo (lo + task.windowMs) (admittedTimes task calls) ≤ task.maxCnt.toNat

theorem Kept.start (task : Task) : Kept task [] Registry.start where
  tracks := fun clock _ => Tracks.empty task.windowMs clock
  bound := fun _ => Nat.zero_le _

/-- One call keeps the window of a task no other task shares. -/
theorem Kept.step {task : Task} {calls : List Call} {call : Call} {reg reg' : Registry}
    (hkept : Kept task calls reg) (hstep : step call reg reg')
    (hclock : ∀ earlier ∈ calls, earlier.now ≤ call.now)
    (hown : call.task.key = task.key → call.task = task) : Kept task (calls ++ [call]) reg' := by
  have hnow := hkept.tracks call.now hclock
  rw [RateLimit.step] at hstep
  by_cases hkey : call.task.key = task.key
  · obtain rfl := hown hkey
    have hpruned := hnow.prune
    rcases check_cases hstep with ⟨hfull, hout, _, rfl⟩ | ⟨hroom, hout, hwindow⟩
    · have htimes : admittedTimes call.task (calls ++ [call]) = admittedTimes call.task calls := by
        rw [admittedTimes_snoc, if_neg (by simp [hout]), List.append_nil]
      constructor
      · intro clock hclock'
        have hle := hclock' call (List.mem_append_right _ (List.mem_singleton_self call))
        rw [htimes]
        simpa [Registry.store] using hpruned.later hle
      · rw [htimes]
        exact hkept.bound
    · have htimes : admittedTimes call.task (calls ++ [call]) =
          admittedTimes call.task calls ++ [call.now] := by
        rw [admittedTimes_snoc, if_pos ⟨rfl, hout⟩]
      have hpush := hpruned.push
      constructor
      · intro clock hclock'
        have hle := hclock' call (List.mem_append_right _ (List.mem_singleton_self call))
        rw [htimes]
        apply Tracks.later _ hle
        cases hwindow with
        | inl hstored => simpa [hstored, Registry.store] using hpush
        | inr hswept =>
            rw [hswept]
            apply Tracks.sweep
            simpa [Registry.store] using hpush
      · intro lo
        rw [htimes]
        apply hnow.bound_push hkept.bound
        omega
  · have hother : call.task ≠ task := fun hsame => hkey (by rw [hsame])
    have htimes : admittedTimes task (calls ++ [call]) = admittedTimes task calls := by
      rw [admittedTimes_snoc, if_neg (by simp [hother]), List.append_nil]
    have hkey' : task.key ≠ call.task.key := fun hsame => hkey hsame.symm
    constructor
    · intro clock hclock'
      have hle := hclock' call (List.mem_append_right _ (List.mem_singleton_self call))
      rw [htimes]
      apply Tracks.later _ hle
      rcases check_cases hstep with ⟨_, _, _, rfl⟩ | ⟨_, _, hstored | hswept⟩
      · simpa [Registry.store, hkey'] using hnow
      · simpa [hstored, Registry.store, hkey'] using hnow
      · rw [hswept]
        apply Tracks.sweep
        simpa [Registry.store, hkey'] using hnow
    · rw [htimes]
      exact hkept.bound

/-- A call as a step that meets the conditions of its limit. -/
def CarefulStep (call : Call) (reg reg' : Registry) : Prop :=
  Careful call reg ∧ step call reg reg'

theorem kept_run {task : Task} {calls : List Call} {reg : Registry}
    (hrun : Runs.Run CarefulStep Registry.start calls reg)
    (hclock : calls.Pairwise fun a b => a.now ≤ b.now)
    (hown : ∀ call ∈ calls, call.task.key = task.key → call.task = task) : Kept task calls reg := by
  induction hrun with
  | nil => exact Kept.start task
  | snoc hrun hstep ih =>
      rw [List.pairwise_append] at hclock
      have hkept := ih hclock.1 fun call hmem => hown call (List.mem_append_left _ hmem)
      apply hkept.step hstep.2
      · exact fun earlier hmem => hclock.2.2 earlier hmem _ (List.mem_singleton_self _)
      · exact hown _ (List.mem_append_right _ (List.mem_singleton_self _))

/-- A careful call that is not admitted finds a window full of calls younger than the period. -/
theorem full_of_rejected {calls : List Call} {call : Call} {reg reg' : Registry}
    (hkept : Kept call.task calls reg) (hcareful : Careful call reg) (hstep : step call reg reg')
    (hclock : ∀ earlier ∈ calls, earlier.now ≤ call.now) (hout : call.outcome ≠ .admitted) :
    ((admittedTimes call.task calls).countP
      (fun t => decide (call.now - call.task.windowMs < t ∧ t ≤ call.now)) : Int) =
        call.task.count.toInt := by
  have hnow := hkept.tracks call.now hclock
  have hlength := hnow.length_prune
  have hbound := hkept.bound (call.now - call.task.windowMs)
  have hpositive := hcareful.positive
  have hnarrow := hcareful.narrow
  rw [Int.sub_add_cancel] at hbound
  rcases check_cases hstep with ⟨hfull, _, _, _⟩ | ⟨_, hadmitted, _⟩
  · have hyoung : (admittedTimes call.task calls).countP
        (fun t => decide (call.now - call.task.windowMs < t ∧ t ≤ call.now)) =
          within (call.now - call.task.windowMs) call.now (admittedTimes call.task calls) := by
      apply List.countP_congr
      intro t hmem
      rw [decide_eq_true_eq, decide_eq_true_eq]
      have hne : t ≠ call.now - call.task.windowMs := by
        obtain ⟨dropped, hsplit, hold⟩ := hnow.prune.old
        rw [hsplit] at hmem
        cases List.mem_append.mp hmem with
        | inl hdropped =>
            have holder := hold t hdropped
            omega
        | inr hkeptIn =>
            -- the oldest kept entry is younger than the period, and the others are not older
            obtain ⟨front, rest, hfront⟩ := List.exists_cons_of_ne_nil (List.ne_nil_of_mem hkeptIn)
            have hrecent := recent_of_prune hnow.sorted_win (hfront ▸ List.mem_cons_self)
            have hsorted := hnow.prune.sorted_win
            have hboundary := hcareful.boundary front rest hfront
            rw [hfront] at hkeptIn hsorted hfull
            have hyounger : call.now - front ≠ call.task.windowMs := by
              intro hexact
              have hroom := hboundary hexact
              omega
            cases hkeptIn with
            | head => omega
            | tail _ hrest =>
                have hle := (List.pairwise_cons.mp hsorted).1 t hrest
                omega
      omega
    rw [hyoung, ← hlength]
    omega
  · exact absurd hadmitted hout

/-- A rejected call leaves the other windows, the sweep counter and what later calls see of its own
window as they were. -/
theorem window_of_rejected {reg reg' : Registry} {task : Task} {now waitMs : Int}
    (hcheck : check reg task now = (reg', .rejected waitMs)) :
    reg'.sweepCounter = reg.sweepCounter ∧
    (∀ key, key ≠ task.key → reg'.window key = reg.window key) ∧
    ∀ later, now ≤ later → prune task.windowMs later (reg'.window task.key) =
      prune task.windowMs later (reg.window task.key) := by
  rcases check_cases hcheck with ⟨_, _, _, rfl⟩ | ⟨_, hadmitted, _⟩
  · constructor
    · rfl
    constructor
    · intro key hkey
      simp [Registry.store, hkey]
    · intro later hle
      simp [Registry.store, prune_prune hle]
  · cases hadmitted

/-- In a run of careful calls whose windows are not shared between tasks every rate limit is kept. -/
theorem rate_limit_run {calls : List Call} {reg : Registry}
    (hrun : Runs.Run CarefulStep Registry.start calls reg)
    (hclock : calls.Pairwise fun a b => a.now ≤ b.now)
    (hshared : ∀ a ∈ calls, ∀ b ∈ calls, a.task.key = b.task.key → a.task = b.task) :
    (∀ call ∈ calls, Limited call.task calls) ∧
    ∀ task now reg' waitMs, check reg task now = (reg', .rejected waitMs) →
      reg'.sweepCounter = reg.sweepCounter ∧
      (∀ key, key ≠ task.key → reg'.window key = reg.window key) ∧
      ∀ later, now ≤ later → prune task.windowMs later (reg'.window task.key) =
        prune task.windowMs later (reg.window task.key) := by
  constructor
  · intro called hcalled
    have hown : ∀ call ∈ calls, call.task.key = called.task.key → call.task = called.task :=
      fun call hmem => hshared call hmem called hcalled
    have hkept := kept_run hrun hclock hown
    obtain ⟨before, after, hsplit⟩ := List.append_of_mem hcalled
    have hlimit : called.task.maxCnt = called.task.count.toInt ∧ 0 < called.task.count.toInt := by
      rw [hsplit] at hrun
      obtain ⟨_, _, _, hstep, _⟩ := hrun.step_at
      exact ⟨hstep.1.narrow, hstep.1.positive⟩
    constructor
    · intro lo
      have hbound := hkept.bound lo
      have hle : (admittedTimes called.task calls).countP
          (fun t => decide (lo ≤ t ∧ t < lo + called.task.windowMs)) ≤
            within lo (lo + called.task.windowMs) (admittedTimes called.task calls) := by
        apply List.countP_mono_left
        intro t _ hinside
        rw [decide_eq_true_eq] at hinside ⊢
        omega
      omega
    · intro before call after hsplit htask hout
      rw [hsplit] at hrun hclock hown
      obtain ⟨s, s', hbefore, hstep, _⟩ := hrun.step_at
      rw [List.pairwise_append] at hclock
      have hkeptBefore := kept_run hbefore hclock.1 fun earlier hmem =>
        hown earlier (List.mem_append_left _ hmem)
      rw [← htask] at hkeptBefore ⊢
      apply full_of_rejected hkeptBefore hstep.1 hstep.2 _ hout
      exact fun earlier hmem => hclock.2.2 earlier hmem call List.mem_cons_self
    · intro call hmem htask hout
      obtain ⟨before, after, hsplit⟩ := List.append_of_mem hmem
      rw [hsplit] at hrun
      obtain ⟨s, s', _, hstep, _⟩ := hrun.step_at
      have hpositive := hstep.1.positive
      have hnarrow := hstep.1.narrow
      rcases check_cases hstep.2 with ⟨hfull, _, hundefined, _⟩ | ⟨_, hadmitted, _⟩
      · rw [hundefined.mp hout] at hfull
        simp only [List.length_nil] at hfull
        omega
      · rw [hadmitted] at hout
        cases hout
  · intro task now reg' waitMs hcheck
    exact window_of_rejected hcheck

/-- A task with a limit of one call a second. -/
def onceASecond : Task := ⟨0, lit "poll", 1, lit "second"⟩

/-- The registry after the first call of the task, at the reading 0. -/
def afterFirst : Registry := ⟨Registry.start.store onceASecond.key [0], 1⟩

theorem rate_limit_run_second :
    Limited onceASecond [⟨onceASecond, 0, .admitted⟩, ⟨onceASecond, 500, .rejected 500⟩] := by
  have hwidth : onceASecond.windowMs = 1000 := by decide
  have hmax : onceASecond.maxCnt = 1 := by decide
  have hstart : prune 1000 0 (Registry.start.window onceASecond.key) = [] := by
    simp [Registry.start, prune]
  have hsecond : prune 1000 500 (afterFirst.window onceASecond.key) = [0] := by
    simp [afterFirst, Registry.store, prune]
  have hfirst : CarefulStep ⟨onceASecond, 0, .admitted⟩ Registry.start afterFirst := by
    refine ⟨⟨by decide, by decide, ?_⟩, ?_⟩
    · intro front rest hfront
      simp only [hwidth] at hfront
      rw [hstart] at hfront
      cases hfront
    · simp [step, check, hwidth, hmax, prune, afterFirst, Registry.start]
  have hthen : CarefulStep ⟨onceASecond, 500, .rejected 500⟩ afterFirst
      ⟨afterFirst.store onceASecond.key [0], 1⟩ := by
    refine ⟨⟨by decide, by decide, ?_⟩, ?_⟩
    · intro front rest hfront hexact
      simp only [hwidth] at hfront hexact
      rw [hsecond] at hfront
      cases hfront
      omega
    · simp [step, check, hwidth, hmax, hsecond]
      rfl
  have hall := (rate_limit_run (.snoc (.snoc .nil hfirst) hthen) (by simp) (by simp)).1
  exact hall ⟨onceASecond, 0, .admitted⟩ (by simp)

/-- A limit of no calls makes the first call read the oldest entry of an empty window. -/
theorem rate_limit_counterexample :
    ¬∀ (calls : List Call) (reg : Registry), Runs.Run step Registry.start calls reg →
      calls.Pairwise (fun a b => a.now ≤ b.now) → ∀ call ∈ calls, Limited call.task calls := by
  intro hall
  have hmax : (⟨0, lit "poll", 0, lit "second"⟩ : Task).maxCnt = 0 := by decide
  have hstep : step ⟨⟨0, lit "poll", 0, lit "second"⟩, 0, .undefined⟩ Registry.start
      ⟨Registry.start.store (lit "poll" ++ lit ":" ++ lit "global") [], 0⟩ := by
    simp [step, check, hmax, Registry.start, prune, Task.key]
  have hlimited := hall _ _ (.snoc .nil hstep) (by simp) _ (List.mem_singleton_self _)
  exact hlimited.no_empty_read _ (List.mem_singleton_self _) rfl rfl

end RateLimit

end EZLanguage
