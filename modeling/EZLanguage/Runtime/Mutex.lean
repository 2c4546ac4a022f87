import EZLanguage.Support.Interleaving
import Mathlib.Data.List.Basic

/-!
# Mutexes

`lock` takes a recursive mutex, calls its function, and gives the mutex back on every way out of the call.
Threads run functions that lock mutexes, nested in any way, and read and write what they share.
-/

namespace EZLanguage

namespace Mutex

/-! ### Recursive mutexes -/

section Recursive

variable {Thread : Type*} [DecidableEq Thread]

/-- The thread that holds the mutex and how often, after `mtx.lock()`. None where the thread has to wait. -/
def acquire (t : Thread) : Option (Thread × Nat) → Option (Option (Thread × Nat))
  | none => some (some (t, 1))
  | some (u, n) => if u = t then some (some (u, n + 1)) else none

/-- The same after `mtx.unlock()`, which is undefined for a thread that does not hold the mutex. -/
def release (t : Thread) : Option (Thread × Nat) → Option (Option (Thread × Nat))
  | none => none
  | some (u, n) => if u = t then some (if n ≤ 1 then none else some (u, n - 1)) else none

/-- The mutex belongs to the one thread that has locked it and not unlocked it yet. -/
def OwnedBy : Option (Thread × Nat) → (Thread → Nat) → Prop
  | none, locked => ∀ t, locked t = 0
  | some (u, n), locked => 0 < n ∧ locked u = n ∧ ∀ t, t ≠ u → locked t = 0

variable {owner owner' : Option (Thread × Nat)} {locked : Thread → Nat} {t u : Thread}

theorem OwnedBy.unique (howned : OwnedBy owner locked) (ht : 0 < locked t) (hu : 0 < locked u) :
    t = u := by
  cases owner with
  | none => exact absurd (howned t) (Nat.ne_of_gt ht)
  | some held =>
      obtain ⟨_, _, hother⟩ := howned
      have hself : ∀ v, 0 < locked v → v = held.1 := by
        intro v hv
        by_contra hne
        exact absurd (hother v hne) (Nat.ne_of_gt hv)
      rw [hself t ht, hself u hu]

theorem OwnedBy.eq_none_iff (howned : OwnedBy owner locked) : owner = none ↔ ∀ t, locked t = 0 := by
  cases owner with
  | none => exact iff_of_true rfl howned
  | some held =>
      obtain ⟨hpos, hcount, _⟩ := howned
      refine iff_of_false (Option.some_ne_none held) fun hall => ?_
      rw [hall] at hcount
      omega

theorem OwnedBy.eq_some (howned : OwnedBy owner locked) (ht : 0 < locked t) :
    owner = some (t, locked t) := by
  cases owner with
  | none => exact absurd (howned t) (Nat.ne_of_gt ht)
  | some held =>
      obtain ⟨u, n⟩ := held
      obtain ⟨_, hcount, hother⟩ := howned
      have hself : t = u := by
        by_contra hne
        exact absurd (hother t hne) (Nat.ne_of_gt ht)
      rw [hself, hcount]

theorem OwnedBy.acquire (howned : OwnedBy owner locked)
    (hacquire : Mutex.acquire t owner = some owner') :
    OwnedBy owner' (Function.update locked t (locked t + 1)) := by
  cases owner with
  | none =>
      obtain rfl := Option.some_inj.mp hacquire
      refine ⟨Nat.one_pos, ?_, fun u hu => ?_⟩
      · rw [Function.update_self, howned t]
      · rw [Function.update_of_ne hu, howned u]
  | some held =>
      obtain ⟨u, n⟩ := held
      obtain ⟨_, hcount, hother⟩ := howned
      rw [Mutex.acquire] at hacquire
      split_ifs at hacquire with hself
      obtain rfl := Option.some_inj.mp hacquire
      subst hself
      refine ⟨Nat.succ_pos n, ?_, fun v hv => ?_⟩
      · rw [Function.update_self, hcount]
      · rw [Function.update_of_ne hv, hother v hv]

/-- Whoever has locked a mutex can unlock it. -/
theorem OwnedBy.release (howned : OwnedBy owner locked) (ht : 0 < locked t) :
    ∃ owner', Mutex.release t owner = some owner' ∧
      OwnedBy owner' (Function.update locked t (locked t - 1)) := by
  rw [howned.eq_some ht, Mutex.release, if_pos rfl]
  refine ⟨_, rfl, ?_⟩
  have hother : ∀ u, u ≠ t → locked u = 0 := by
    intro u hu
    by_contra hne
    exact hu (howned.unique (Nat.pos_of_ne_zero hne) ht)
  split_ifs with hlast
  · intro u
    by_cases hu : u = t
    · rw [hu, Function.update_self]
      omega
    · rw [Function.update_of_ne hu, hother u hu]
  · refine ⟨by omega, Function.update_self _ _ _, fun u hu => ?_⟩
    rw [Function.update_of_ne hu, hother u hu]

end Recursive

/-! ### Threads -/

/-- A function on its way through the mutexes: the result of an access decides how it goes on, and so does
whether a call of `lock` threw. -/
inductive Body (Name Op Reply : Type) where
  | give
  | throwException
  | access (op : Op) (next : Reply → Body Name Op Reply)
  | lock (mutex : Name) (body : Body Name Op Reply) (next : Bool → Body Name Op Reply)

variable {Thread Name Op Reply Memory : Type}

/-- A call of `lock` that goes on: its mutex, and the caller behind it. -/
abbrev Frame (Name Op Reply : Type) := Name × (Bool → Body Name Op Reply)

/-- What a thread runs, inside the calls of `lock` on its stack. -/
structure Point (Name Op Reply : Type) where
  body : Body Name Op Reply
  stack : List (Frame Name Op Reply)

/-- The mutexes, the memory, whether an `unlock` was undefined, and the bodies that got a mutex their thread
did not hold yet. -/
structure Shared (Thread Name Op Reply Memory : Type) where
  owner : Name → Option (Thread × Nat)
  memory : Memory
  undefinedUnlock : Bool
  entered : List (Name × Body Name Op Reply)

variable [DecidableEq Thread] [DecidableEq Name]

/-- The destructor of `Unlocker`. -/
def Shared.unlock (t : Thread) (m : Name) (s : Shared Thread Name Op Reply Memory) :
    Shared Thread Name Op Reply Memory :=
  match release t (s.owner m) with
  | some owner => { s with owner := Function.update s.owner m owner }
  | none => { s with undefinedUnlock := true }

variable (apply : Op → Memory → Reply × Memory)

/-- One step of a thread. -/
inductive ThreadStep :
    Interleaving.Atomic Thread (Point Name Op Reply) (Shared Thread Name Op Reply Memory)
  | access {t : Thread} {op : Op} {next : Reply → Body Name Op Reply} {stack : List (Frame Name Op Reply)}
      {s : Shared Thread Name Op Reply Memory} :
      ThreadStep t ⟨.access op next, stack⟩ s ⟨next (apply op s.memory).1, stack⟩
        { s with memory := (apply op s.memory).2 }
  | lock {t : Thread} {m : Name} {body : Body Name Op Reply} {next : Bool → Body Name Op Reply}
      {stack : List (Frame Name Op Reply)} {s : Shared Thread Name Op Reply Memory}
      {owner : Option (Thread × Nat)} (hacquire : acquire t (s.owner m) = some owner) :
      ThreadStep t ⟨.lock m body next, stack⟩ s ⟨body, (m, next) :: stack⟩
        { s with
          owner := Function.update s.owner m owner
          entered := if s.owner m = none then s.entered ++ [(m, body)] else s.entered }
  | give {t : Thread} {m : Name} {next : Bool → Body Name Op Reply} {stack : List (Frame Name Op Reply)}
      {s : Shared Thread Name Op Reply Memory} :
      ThreadStep t ⟨.give, (m, next) :: stack⟩ s ⟨next false, stack⟩ (s.unlock t m)
  | throwException {t : Thread} {m : Name} {next : Bool → Body Name Op Reply}
      {stack : List (Frame Name Op Reply)} {s : Shared Thread Name Op Reply Memory} :
      ThreadStep t ⟨.throwException, (m, next) :: stack⟩ s ⟨next true, stack⟩ (s.unlock t m)

abbrev World (Thread Name Op Reply Memory : Type) :=
  Interleaving.World Thread (Point Name Op Reply) (Shared Thread Name Op Reply Memory)

def Step (w w' : World Thread Name Op Reply Memory) : Prop :=
  ∃ t, Interleaving.Step (ThreadStep apply) t w w'

/-- Every thread at the beginning of its function, and every mutex free. -/
def start (main : Thread → Body Name Op Reply) (memory : Memory) : World Thread Name Op Reply Memory :=
  ⟨fun t => ⟨main t, []⟩, ⟨fun _ => none, memory, false, []⟩⟩

/-- How often a thread is inside calls of `lock` for a mutex. -/
def Point.locked (p : Point Name Op Reply) (m : Name) : Nat := (p.stack.map Prod.fst).count m

/-! ### One thread at a time -/

/-- Each mutex belongs to the thread that is inside its calls. -/
structure Exclusive (w : World Thread Name Op Reply Memory) : Prop where
  owned : ∀ m, OwnedBy (w.shared.owner m) fun t => (w.point t).locked m
  defined : w.shared.undefinedUnlock = false

theorem locked_update (point : Thread → Point Name Op Reply) (t : Thread) (p : Point Name Op Reply)
    (m : Name) : (fun u => (Function.update point t p u).locked m) =
      Function.update (fun u => (point u).locked m) t (p.locked m) := by
  funext u
  by_cases hu : u = t
  · rw [hu, Function.update_self, Function.update_self]
  · rw [Function.update_of_ne hu, Function.update_of_ne hu]

theorem locked_push (m m' : Name) (next : Bool → Body Name Op Reply) (body body' : Body Name Op Reply)
    (stack : List (Frame Name Op Reply)) : (Point.mk body ((m', next) :: stack)).locked m =
      (Point.mk body' stack).locked m + if m' = m then 1 else 0 := by
  rw [Point.locked, List.map_cons, List.count_cons]
  simp only [beq_iff_eq]
  rfl

theorem update_id {α β : Type*} [DecidableEq α] {f : α → β} {a : α} {b : β} (h : f a = b) :
    Function.update f a b = f := by
  rw [← h, Function.update_eq_self]

section Owned

variable {point : Thread → Point Name Op Reply} {s s' : Shared Thread Name Op Reply Memory} {t : Thread}
  {m : Name} {body : Body Name Op Reply} {next : Bool → Body Name Op Reply}
  {stack : List (Frame Name Op Reply)}

/-- What a thread unlocks it holds. -/
theorem unlock_owned (body' : Body Name Op Reply)
    (hpoint : point t = ⟨body, (m, next) :: stack⟩) (hs : Exclusive ⟨point, s⟩) :
    Exclusive (⟨Function.update point t ⟨body', stack⟩, s.unlock t m⟩ : World Thread Name Op Reply Memory) ∧
      ∃ owner, release t (s.owner m) = some owner ∧
        s.unlock t m = { s with owner := Function.update s.owner m owner } := by
  have hpush := fun m' => locked_push m' m next body body' stack
  have hpos : 0 < (point t).locked m := by
    rw [hpoint, hpush m, if_pos rfl]
    exact Nat.succ_pos _
  obtain ⟨owner, hrelease, howned⟩ := (hs.owned m).release hpos
  have hunlock : s.unlock t m = { s with owner := Function.update s.owner m owner } := by
    rw [Shared.unlock, hrelease]
  refine ⟨⟨fun m' => ?_, ?_⟩, owner, hrelease, hunlock⟩
  · rw [hunlock]
    show OwnedBy (Function.update s.owner m owner m') fun u => (Function.update point t _ u).locked m'
    rw [locked_update]
    by_cases hm : m' = m
    · subst hm
      rw [Function.update_self]
      have hless : (point t).locked m' - 1 = (Point.mk body' stack).locked m' := by
        rw [hpoint, hpush m', if_pos rfl, Nat.add_sub_cancel]
      rw [← hless]
      exact howned
    · rw [Function.update_of_ne hm, update_id]
      · exact hs.owned m'
      · rw [hpoint, hpush m', if_neg (Ne.symm hm)]
        rfl
  · rw [hunlock]
    exact hs.defined

theorem lock_owned {owner : Option (Thread × Nat)}
    (hpoint : point t = ⟨.lock m body next, stack⟩) (hacquire : acquire t (s.owner m) = some owner)
    (howner : s'.owner = Function.update s.owner m owner) (hundefined : s'.undefinedUnlock = s.undefinedUnlock)
    (hs : Exclusive ⟨point, s⟩) :
    Exclusive (⟨Function.update point t ⟨body, (m, next) :: stack⟩, s'⟩ :
      World Thread Name Op Reply Memory) := by
  have hpush := fun m' => locked_push m' m next body (.lock m body next) stack
  refine ⟨fun m' => ?_, hundefined.trans hs.defined⟩
  show OwnedBy (s'.owner m') fun u => (Function.update point t _ u).locked m'
  rw [locked_update, howner]
  by_cases hm : m' = m
  · subst hm
    rw [Function.update_self, hpush m', if_pos rfl, ← hpoint]
    exact (hs.owned m').acquire hacquire
  · rw [Function.update_of_ne hm, update_id]
    · exact hs.owned m'
    · rw [hpush m', if_neg (Ne.symm hm), hpoint]
      rfl

end Owned

theorem exclusive_start (main : Thread → Body Name Op Reply) (memory : Memory) :
    Exclusive (start main memory) :=
  ⟨fun _ _ => rfl, rfl⟩

theorem exclusive_step {w w' : World Thread Name Op Reply Memory} (hw : Exclusive w)
    (hstep : Step apply w w') : Exclusive w' := by
  obtain ⟨t, hstep⟩ := hstep
  cases hstep with
  | @mk point s s' p hmove =>
      generalize hpoint : point t = p₀ at hmove
      cases hmove with
      | access =>
          refine ⟨fun m => ?_, hw.defined⟩
          show OwnedBy (s.owner m) fun u => (Function.update point t _ u).locked m
          rw [locked_update, update_id]
          · exact hw.owned m
          · rw [hpoint]
            rfl
      | lock hacquire => exact lock_owned hpoint hacquire rfl rfl hw
      | give => exact (unlock_owned _ hpoint hw).1
      | throwException => exact (unlock_owned _ hpoint hw).1

/-- Never are two threads inside calls of `lock` for one mutex, no thread unlocks what it does not hold,
and a thread whose calls have all ended, by an exception or not, holds nothing. -/
theorem lock_exclusive (main : Thread → Body Name Op Reply) (memory : Memory)
    {w : World Thread Name Op Reply Memory}
    (hrun : Relation.ReflTransGen (Step apply) (start main memory) w) :
    (∀ m t u, 0 < (w.point t).locked m → 0 < (w.point u).locked m → t = u) ∧
      w.shared.undefinedUnlock = false ∧
      ∀ t, (w.point t).stack = [] → ∀ m n, w.shared.owner m ≠ some (t, n) := by
  have hw : Exclusive w := Interleaving.invariant_of_run (exclusive_start main memory)
    (fun _ _ h hstep => exclusive_step apply h hstep) hrun
  refine ⟨fun m t u ht hu => (hw.owned m).unique ht hu, hw.defined, fun t hstack m n howner => ?_⟩
  have howned := hw.owned m
  rw [howner] at howned
  obtain ⟨hpos, hcount, _⟩ := howned
  have hzero : (w.point t).locked m = 0 := by
    unfold Point.locked
    rw [hstack]
    rfl
  exact absurd (hcount.symm.trans hzero) (Nat.ne_of_gt hpos)

/-! ### One section after another -/

/-- A body that runs alone: whether it throws, and the memory behind it. -/
def Body.run : Body Name Op Reply → Memory → Bool × Memory
  | .give, memory => (false, memory)
  | .throwException, memory => (true, memory)
  | .access op next, memory => (next (apply op memory).1).run (apply op memory).2
  | .lock _ body next, memory => (next (body.run memory).1).run (body.run memory).2

/-- The memory after sections that run alone, one after another. -/
def replay (sections : List (Body Name Op Reply)) (memory : Memory) : Memory :=
  sections.foldl (fun memory body => (body.run apply memory).2) memory

/-- The bodies that got a mutex their thread did not hold yet, in order. -/
def sections (m : Name) (entered : List (Name × Body Name Op Reply)) : List (Body Name Op Reply) :=
  (entered.filter fun e => e.1 = m).map Prod.snd

/-- The body uses the memory under the mutex only. -/
def Guarded (m : Name) : Body Name Op Reply → Prop
  | .give => True
  | .throwException => True
  | .access _ _ => False
  | .lock m' body next => (m' = m ∨ Guarded m body) ∧ ∀ thrown, Guarded m (next thrown)

/-- So does all a thread has before it. -/
def GuardedAll (m : Name) : Body Name Op Reply → List (Frame Name Op Reply) → Prop
  | body, [] => Guarded m body
  | body, (m', next) :: stack =>
      (m ∈ m' :: stack.map Prod.fst ∨ Guarded m body) ∧ ∀ thrown, GuardedAll m (next thrown) stack

/-- The memory once a thread that runs alone has left its section. -/
def finish (m : Name) : Body Name Op Reply → List (Frame Name Op Reply) → Memory → Memory
  | body, [], memory => (body.run apply memory).2
  | body, (_, next) :: stack, memory =>
      if m ∈ stack.map Prod.fst then
        finish m (next (body.run apply memory).1) stack (body.run apply memory).2
      else (body.run apply memory).2

theorem finish_run {m : Name} {body body' : Body Name Op Reply} {stack : List (Frame Name Op Reply)}
    {memory memory' : Memory} (hrun : body.run apply memory = body'.run apply memory') :
    finish apply m body stack memory = finish apply m body' stack memory' := by
  cases stack with
  | nil => exact congrArg Prod.snd hrun
  | cons frame stack =>
      obtain ⟨m', next⟩ := frame
      rw [finish, finish, hrun]

omit [DecidableEq Name] in
theorem GuardedAll.body {m : Name} {body : Body Name Op Reply} {stack : List (Frame Name Op Reply)}
    (h : GuardedAll m body stack) (hout : m ∉ stack.map Prod.fst) : Guarded m body := by
  cases stack with
  | nil => exact h
  | cons frame stack => exact h.1.resolve_left hout

omit [DecidableEq Name] in
theorem GuardedAll.step {m : Name} {body body' : Body Name Op Reply} {stack : List (Frame Name Op Reply)}
    (h : GuardedAll m body stack) (hbody : m ∉ stack.map Prod.fst → Guarded m body') :
    GuardedAll m body' stack := by
  cases stack with
  | nil => exact hbody List.not_mem_nil
  | cons frame stack => exact ⟨or_iff_not_imp_left.mpr hbody, h.2⟩

theorem locked_pos_iff (p : Point Name Op Reply) (m : Name) :
    0 < p.locked m ↔ m ∈ p.stack.map Prod.fst :=
  List.count_pos_iff

/-- The memory is what the sections make of it one after another, once the one that goes on is done. -/
structure Serial (m : Name) (before : Memory) (w : World Thread Name Op Reply Memory) : Prop where
  exclusive : Exclusive w
  guarded : ∀ t, GuardedAll m (w.point t).body (w.point t).stack
  between : w.shared.owner m = none → w.shared.memory = replay apply (sections m w.shared.entered) before
  inside : ∀ t, 0 < (w.point t).locked m →
    finish apply m (w.point t).body (w.point t).stack w.shared.memory =
      replay apply (sections m w.shared.entered) before

theorem serial_start {m : Name} {main : Thread → Body Name Op Reply} (hmain : ∀ t, Guarded m (main t))
    (memory : Memory) : Serial apply m memory (start main memory) where
  exclusive := exclusive_start main memory
  guarded := hmain
  between _ := rfl
  inside _ h := absurd h (Nat.lt_irrefl 0)

theorem sections_append (m m' : Name) (entered : List (Name × Body Name Op Reply))
    (body : Body Name Op Reply) : sections m (entered ++ [(m', body)]) =
      if m' = m then sections m entered ++ [body] else sections m entered := by
  unfold sections
  rw [List.filter_append, List.map_append]
  split_ifs with hm
  · rw [List.filter_cons_of_pos (by simpa using hm)]
    rfl
  · rw [List.filter_cons_of_neg (by simpa using hm)]
    exact List.append_nil _

omit [DecidableEq Name] in
theorem replay_append (history : List (Body Name Op Reply)) (body : Body Name Op Reply) (memory : Memory) :
    replay apply (history ++ [body]) memory = (body.run apply (replay apply history memory)).2 := by
  rw [replay, List.foldl_append]
  rfl

section Steps

variable {m : Name} {before : Memory} {point : Thread → Point Name Op Reply}
  {s : Shared Thread Name Op Reply Memory} {t : Thread} {stack : List (Frame Name Op Reply)}

/-- What has to be shown where one thread moves. -/
theorem Serial.moved {s' : Shared Thread Name Op Reply Memory} {body : Body Name Op Reply}
    (hs : Serial apply m before ⟨point, s⟩)
    (hexclusive : Exclusive (⟨Function.update point t ⟨body, stack⟩, s'⟩ : World Thread Name Op Reply Memory))
    (hguarded : GuardedAll m body stack)
    (hbetween : s'.owner m = none → s'.memory = replay apply (sections m s'.entered) before)
    (hself : m ∈ stack.map Prod.fst →
      finish apply m body stack s'.memory = replay apply (sections m s'.entered) before)
    (hother : ∀ u, u ≠ t → 0 < (point u).locked m →
      finish apply m (point u).body (point u).stack s'.memory = replay apply (sections m s'.entered) before) :
    Serial apply m before ⟨Function.update point t ⟨body, stack⟩, s'⟩ := by
  refine ⟨hexclusive, fun u => ?_, hbetween, fun u => ?_⟩
  · show GuardedAll m (Function.update point t _ u).body (Function.update point t _ u).stack
    by_cases hut : u = t
    · rw [hut, Function.update_self]
      exact hguarded
    · rw [Function.update_of_ne hut]
      exact hs.guarded u
  · show 0 < (Function.update point t _ u).locked m → finish apply m (Function.update point t _ u).body
      (Function.update point t _ u).stack s'.memory = _
    by_cases hut : u = t
    · rw [hut, Function.update_self]
      exact fun hu => hself ((locked_pos_iff _ m).mp hu)
    · rw [Function.update_of_ne hut]
      exact hother u hut

/-- A call of `lock` ends, and the caller goes on. -/
theorem serial_unlock {m' : Name} {next : Bool → Body Name Op Reply} {body : Body Name Op Reply}
    {thrown : Bool} (hpoint : point t = ⟨body, (m', next) :: stack⟩)
    (hrun : ∀ memory, body.run apply memory = (thrown, memory))
    (hs : Serial apply m before ⟨point, s⟩) :
    Serial apply m before
      (⟨Function.update point t ⟨next thrown, stack⟩, s.unlock t m'⟩ : World Thread Name Op Reply Memory) := by
  obtain ⟨hexclusive, owner, _, hunlock⟩ := unlock_owned (next thrown) hpoint hs.exclusive
  have hguarded : GuardedAll m (point t).body (point t).stack := hs.guarded t
  have hin : 0 < (point t).locked m → finish apply m (point t).body (point t).stack s.memory =
      replay apply (sections m s.entered) before := hs.inside t
  rw [hpoint] at hguarded hin
  have hmemory : (s.unlock t m').memory = s.memory := by rw [hunlock]
  have hentered : (s.unlock t m').entered = s.entered := by rw [hunlock]
  refine hs.moved apply hexclusive (hguarded.2 thrown) ?_ ?_ ?_ <;> rw [hmemory, hentered]
  · intro hfree
    have hnone := (hexclusive.owned m).eq_none_iff.mp hfree t
    replace hnone : (Function.update point t ⟨next thrown, stack⟩ t).locked m = 0 := hnone
    rw [Function.update_self] at hnone
    have hout : m ∉ stack.map Prod.fst := fun hmem =>
      absurd ((locked_pos_iff ⟨next thrown, stack⟩ m).mpr hmem) (by rw [hnone]; exact Nat.lt_irrefl 0)
    by_cases hm : m' = m
    · have hdone := hin ((locked_pos_iff ⟨body, (m', next) :: stack⟩ m).mpr
        (by rw [List.map_cons, hm]; exact List.mem_cons_self))
      rw [finish, if_neg hout, hrun] at hdone
      exact hdone
    · have hsame : (s.unlock t m').owner m = s.owner m := by
        rw [hunlock]
        exact Function.update_of_ne (Ne.symm hm) _ _
      exact hs.between (hsame.symm.trans hfree)
  · intro hmem
    have hdone := hin ((locked_pos_iff ⟨body, (m', next) :: stack⟩ m).mpr (List.mem_cons_of_mem _ hmem))
    rw [finish, if_pos hmem, hrun] at hdone
    exact hdone
  · exact fun u _ hu => hs.inside u hu

theorem serial_lock {m' : Name} {body : Body Name Op Reply} {next : Bool → Body Name Op Reply}
    {owner : Option (Thread × Nat)} (hpoint : point t = ⟨.lock m' body next, stack⟩)
    (hacquire : acquire t (s.owner m') = some owner) (hs : Serial apply m before ⟨point, s⟩) :
    Serial apply m before
      (⟨Function.update point t ⟨body, (m', next) :: stack⟩,
        { s with
          owner := Function.update s.owner m' owner
          entered := if s.owner m' = none then s.entered ++ [(m', body)] else s.entered }⟩ :
        World Thread Name Op Reply Memory) := by
  have hguarded : GuardedAll m (point t).body (point t).stack := hs.guarded t
  have howned : OwnedBy (s.owner m) fun u => (point u).locked m := hs.exclusive.owned m
  rw [hpoint] at hguarded
  -- The section is a new one of `m` only if nobody held `m`.
  have hentered : m' ≠ m ∨ s.owner m ≠ none →
      sections m (if s.owner m' = none then s.entered ++ [(m', body)] else s.entered) =
        sections m s.entered := by
    intro h
    by_cases hfree : s.owner m' = none
    · rw [if_pos hfree, sections_append]
      by_cases hm : m' = m
      · subst hm
        exact absurd hfree (h.resolve_left fun hne => hne rfl)
      · exact if_neg hm
    · rw [if_neg hfree]
  have htaken : ∀ u, 0 < (point u).locked m → s.owner m ≠ none := by
    intro u hu hfree
    have hzero : (point u).locked m = 0 := howned.eq_none_iff.mp hfree u
    omega
  refine hs.moved apply (lock_owned hpoint hacquire rfl rfl hs.exclusive) ⟨?_, fun thrown => ?_⟩
    (fun hfree => ?_) (fun hmem' => ?_) fun u _ hu => ?_
  · by_cases hmem : m ∈ stack.map Prod.fst
    · exact Or.inl (List.mem_cons_of_mem _ hmem)
    · have hbody : m' = m ∨ Guarded m body := (hguarded.body hmem).1
      exact hbody.imp_left fun h => by rw [h]; exact List.mem_cons_self
  · exact hguarded.step fun hout => (hguarded.body hout).2 thrown
  · replace hfree : Function.update s.owner m' owner m = none := hfree
    have hm : m ≠ m' := by
      rintro rfl
      rw [Function.update_self] at hfree
      subst hfree
      exact absurd ((hs.exclusive.owned m).acquire hacquire t)
        (by rw [Function.update_self]; exact Nat.succ_ne_zero _)
    rw [Function.update_of_ne hm] at hfree
    exact (hs.between hfree).trans (by rw [hentered (Or.inl (Ne.symm hm))])
  · show finish apply m body ((m', next) :: stack) s.memory =
      replay apply (sections m (if s.owner m' = none then s.entered ++ [(m', body)] else s.entered)) before
    by_cases hmem : m ∈ stack.map Prod.fst
    · have hpos : 0 < (point t).locked m := by
        rw [hpoint]
        exact (locked_pos_iff _ m).mpr hmem
      have hdone : finish apply m (point t).body (point t).stack s.memory =
          replay apply (sections m s.entered) before := hs.inside t hpos
      rw [hentered (Or.inr (htaken t hpos)), ← hdone, hpoint, finish, if_pos hmem]
      exact finish_run apply rfl
    · have hm : m' = m := (List.mem_cons.mp hmem').resolve_right hmem |>.symm
      have hfree : s.owner m = none := by
        rw [howned.eq_none_iff]
        intro v
        by_contra hne
        have hv : 0 < (point v).locked m := Nat.pos_of_ne_zero hne
        rw [hm, howned.eq_some hv, acquire] at hacquire
        split_ifs at hacquire with hvt
        rw [hvt, hpoint] at hv
        exact hmem ((locked_pos_iff _ m).mp hv)
      rw [hm, if_pos hfree, sections_append, if_pos rfl, replay_append, finish, if_neg hmem,
        ← hs.between hfree]
  · rw [hentered (Or.inr (htaken u hu))]
    exact hs.inside u hu

theorem serial_access {op : Op} {next : Reply → Body Name Op Reply}
    (hpoint : point t = ⟨.access op next, stack⟩) (hs : Serial apply m before ⟨point, s⟩)
    (hexclusive : Exclusive (⟨Function.update point t ⟨next (apply op s.memory).1, stack⟩,
      { s with memory := (apply op s.memory).2 }⟩ : World Thread Name Op Reply Memory)) :
    Serial apply m before
      (⟨Function.update point t ⟨next (apply op s.memory).1, stack⟩,
        { s with memory := (apply op s.memory).2 }⟩ : World Thread Name Op Reply Memory) := by
  have hguarded : GuardedAll m (point t).body (point t).stack := hs.guarded t
  have howned : OwnedBy (s.owner m) fun u => (point u).locked m := hs.exclusive.owned m
  rw [hpoint] at hguarded
  -- The thread is inside a section.
  have hmem : m ∈ stack.map Prod.fst := by
    by_contra hout
    exact hguarded.body hout
  have hpos : 0 < (point t).locked m := by
    rw [hpoint]
    exact (locked_pos_iff _ m).mpr hmem
  refine hs.moved apply hexclusive (hguarded.step fun hout => absurd hmem hout) (fun hfree => ?_)
    (fun _ => ?_) fun u hut hu => absurd (howned.unique hu hpos) hut
  · have hzero : (point t).locked m = 0 := howned.eq_none_iff.mp hfree t
    omega
  · have hdone : finish apply m (point t).body (point t).stack s.memory =
        replay apply (sections m s.entered) before := hs.inside t hpos
    show finish apply m _ stack (apply op s.memory).2 = replay apply (sections m s.entered) before
    rw [← hdone, hpoint]
    exact finish_run apply rfl

end Steps

theorem serial_step {m : Name} {before : Memory} {w w' : World Thread Name Op Reply Memory}
    (hw : Serial apply m before w) (hstep : Step apply w w') : Serial apply m before w' := by
  have hexclusive := exclusive_step apply hw.exclusive hstep
  obtain ⟨t, hstep⟩ := hstep
  cases hstep with
  | @mk point s s' p hmove =>
      generalize hpoint : point t = p₀ at hmove
      cases hmove with
      | access => exact serial_access apply hpoint hw hexclusive
      | lock hacquire => exact serial_lock apply hpoint hacquire hw
      | give => exact serial_unlock apply hpoint (fun _ => rfl) hw
      | throwException => exact serial_unlock apply hpoint (fun _ => rfl) hw

/-- Where every thread uses the memory under one mutex only, the memory is at any time between two sections
what the sections so far make of it one after another, each alone and in the order they got the mutex. -/
theorem guarded_sections_serial {m : Name} {main : Thread → Body Name Op Reply}
    (hmain : ∀ t, Guarded m (main t)) (memory : Memory) {w : World Thread Name Op Reply Memory}
    (hrun : Relation.ReflTransGen (Step apply) (start main memory) w)
    (hbetween : ∀ t, (w.point t).locked m = 0) :
    w.shared.memory = replay apply (sections m w.shared.entered) memory := by
  have hw : Serial apply m memory w := Interleaving.invariant_of_run (serial_start apply hmain memory)
    (fun _ _ h hstep => serial_step apply h hstep) hrun
  exact hw.between ((hw.exclusive.owned m).eq_none_iff.mpr hbetween)

/-- A counter that is read by `none` and written by `some`. -/
def counter : Option Int → Int → Int × Int
  | none, n => (n, n)
  | some n, _ => (n, n)

/-- `lock(m, || { n = n + 1 })`. -/
def increment : Body Unit (Option Int) Int :=
  .lock () (.access none fun n => .access (some (n + 1)) fun _ => .give) fun _ => .give

/-- One of two threads is inside its section, and it is the only one. -/
theorem increment_exclusive : ∃ w,
    Relation.ReflTransGen (Step counter) (start (fun _ : Bool => increment) 0) w ∧
      0 < (w.point true).locked () ∧ ∀ u, 0 < (w.point u).locked () → u = true := by
  have hlock := Relation.ReflTransGen.refl.tail
    (show Step counter (start (fun _ : Bool => increment) 0) _ from ⟨true, .mk (.lock rfl)⟩)
  exact ⟨_, hlock, Nat.one_pos, fun u hu =>
    (lock_exclusive counter (fun _ => increment) 0 hlock).1 () u true hu Nat.one_pos⟩

/-- One of two threads has been through its section. -/
theorem increment_serial : ∃ w, Relation.ReflTransGen (Step counter) (start (fun _ : Bool => increment) 0) w ∧
    w.shared.memory = replay counter (sections () w.shared.entered) 0 := by
  have hguarded : ∀ _ : Bool, Guarded () increment := fun _ => ⟨Or.inl rfl, fun _ => trivial⟩
  have hlock := Relation.ReflTransGen.refl.tail
    (show Step counter (start (fun _ : Bool => increment) 0) _ from ⟨true, .mk (.lock rfl)⟩)
  have hread := hlock.tail ⟨true, .mk .access⟩
  have hwrite := hread.tail ⟨true, .mk .access⟩
  have hrun := hwrite.tail ⟨true, .mk .give⟩
  exact ⟨_, hrun, guarded_sections_serial counter hguarded 0 hrun fun t => by cases t <;> rfl⟩

end Mutex

end EZLanguage
