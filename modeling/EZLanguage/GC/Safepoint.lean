import EZLanguage.Support.Interleaving

/-!
# The safepoint protocol

Mutator threads register and leave, park when a collection asks them to, count as parked inside safe
regions, and collect. Every lock and every atomic operation of the collector's code is one step of a
thread, and the steps of any number of threads come in any order.

A thread that finds itself the only mutator collects without a handshake, so it asks nobody to park and
still clears the request when it is done. A thread can register after the collector has looked at the
number of mutators and before it takes the lock that registration waits for. The protocol is safe in the
runs in which neither goes wrong.
-/

namespace EZLanguage

namespace CycleCollector

open Interleaving

/-- Where a thread is in the code of the collector. Between two atomic operations, a point is named
after the one before it. -/
inductive Point where
  /-- Not started, or ended. -/
  | outside
  /-- `beginMutatorThread`, with `mutex_` held: before and after the increment. -/
  | beginLocked | beginCounted
  /-- Running bytecode. -/
  | running
  /-- `endMutatorThread`, with `mutex_` held: before and after the decrement. -/
  | endLocked | endCounted
  /-- `track` with `mutex_` held for the new entry. -/
  | trackLocked
  /-- `parkAtSafepoint`, with `safepointMutex_` held: entered, the request seen, counted as parked and
  about to look at the request, the request seen gone. -/
  | parkLocked | parkRequested | parkCounted | parkCleared
  /-- Waiting for the all-clear, with the mutex released. -/
  | parkWaiting
  /-- `enterSafeRegion`, with `safepointMutex_` held: before and after the increment. -/
  | enterLocked | enterCounted
  | safeRegion
  /-- `exitSafeRegion`, with `safepointMutex_` held: about to look at the request, and the request
  seen gone. -/
  | exitLocked | exitCleared
  | exitWaiting
  /-- No longer counted as parked, and about to release `safepointMutex_`. -/
  | leaving
  /-- `bringToSafepoint`: there are other mutators, and the request is set. -/
  | bringOthers | bringRequested
  /-- The wait for the others, with `safepointMutex_` held: about to look, the number of the others
  seen, too few of them parked, the request withdrawn, all of them parked. -/
  | bringLocked | bringLooked (stillRunning : Int) | bringShort | bringWithdrawn | bringArrived
  | bringWaiting
  /-- `bringToSafepoint` returned true; `alone` if there was nobody to ask. -/
  | admitted (alone : Bool)
  /-- The collection, with `mutex_` held. -/
  | collecting (alone : Bool)
  /-- `releaseSafepoint`: before and after taking `safepointMutex_`. -/
  | collected (alone : Bool) | releaseLocked (alone : Bool)
  deriving DecidableEq

/-- The members of the collector the protocol uses. -/
structure Members (Thread : Type*) where
  activeMutators : Int
  parkedMutators : Int
  safepointRequested : Bool
  mutex : Option Thread
  safepointMutex : Option Thread

namespace Point

/-- `activeMutators_` counts the thread. -/
def registered : Point → Bool
  | outside | beginLocked | endCounted => false
  | _ => true

/-- `parkedMutators_` counts the thread. -/
def counted : Point → Bool
  | parkCounted | parkCleared | parkWaiting | enterCounted | safeRegion | exitLocked | exitCleared
  | exitWaiting => true
  | _ => false

/-- The thread holds `mutex_`. -/
def holdsMutex : Point → Bool
  | beginLocked | beginCounted | endLocked | endCounted | trackLocked | collecting _ => true
  | _ => false

/-- The thread holds `safepointMutex_`. -/
def holdsSafepoint : Point → Bool
  | parkLocked | parkRequested | parkCounted | parkCleared | enterLocked | enterCounted | exitLocked
  | exitCleared | leaving | bringLocked | bringLooked _ | bringShort | bringWithdrawn | bringArrived
  | releaseLocked _ => true
  | _ => false

def isCollecting : Point → Bool
  | collecting _ => true
  | _ => false

/-- The thread is parked or inside a safe region, and leaves neither while a request is pending. -/
def parked : Point → Bool
  | parkCounted | parkWaiting | enterCounted | safeRegion | exitLocked | exitWaiting => true
  | _ => false

/-- The thread has made the request that is pending. -/
def drives : Point → Bool
  | bringRequested | bringLocked | bringLooked _ | bringShort | bringArrived | bringWaiting
  | admitted false | collecting false | collected false | releaseLocked false => true
  | _ => false

/-- The thread collects without having asked anyone to park. -/
def alone : Point → Bool
  | admitted true | collecting true => true
  | _ => false

/-- The thread has found all others parked. -/
def arrived : Point → Bool
  | bringArrived | admitted false | collecting false => true
  | _ => false

/-- The thread has looked at the number of mutators and not yet taken `mutex_`. -/
def hasLooked : Point → Bool
  | bringLooked _ | bringArrived | admitted _ => true
  | _ => false

end Point

variable {Thread : Type*}

/-- The atomic operations, in the order of the source. -/
inductive atomic : Atomic Thread Point (Members Thread)
  | beginLock {t m} (hfree : m.mutex = none) :
      atomic t .outside m .beginLocked { m with mutex := some t }
  | beginAdd {t m} :
      atomic t .beginLocked m .beginCounted { m with activeMutators := m.activeMutators + 1 }
  | beginUnlock {t m} : atomic t .beginCounted m .running { m with mutex := none }
  | endLock {t m} (hfree : m.mutex = none) :
      atomic t .running m .endLocked { m with mutex := some t }
  | endSub {t m} :
      atomic t .endLocked m .endCounted { m with activeMutators := m.activeMutators - 1 }
  | endUnlock {t m} : atomic t .endCounted m .outside { m with mutex := none }
  | trackLock {t m} (hfree : m.mutex = none) :
      atomic t .running m .trackLocked { m with mutex := some t }
  | trackUnlock {t m} : atomic t .trackLocked m .running { m with mutex := none }
  | parkLock {t m} (hfree : m.safepointMutex = none) :
      atomic t .running m .parkLocked { m with safepointMutex := some t }
  | parkWithdrawn {t m} (hclear : m.safepointRequested = false) : atomic t .parkLocked m .leaving m
  | parkSee {t m} (hset : m.safepointRequested = true) : atomic t .parkLocked m .parkRequested m
  | parkAdd {t m} :
      atomic t .parkRequested m .parkCounted { m with parkedMutators := m.parkedMutators + 1 }
  | parkWait {t m} (hset : m.safepointRequested = true) :
      atomic t .parkCounted m .parkWaiting { m with safepointMutex := none }
  | parkWake {t m} (hfree : m.safepointMutex = none) :
      atomic t .parkWaiting m .parkCounted { m with safepointMutex := some t }
  | parkClear {t m} (hclear : m.safepointRequested = false) : atomic t .parkCounted m .parkCleared m
  | parkSub {t m} :
      atomic t .parkCleared m .leaving { m with parkedMutators := m.parkedMutators - 1 }
  | leave {t m} : atomic t .leaving m .running { m with safepointMutex := none }
  | enterLock {t m} (hfree : m.safepointMutex = none) :
      atomic t .running m .enterLocked { m with safepointMutex := some t }
  | enterAdd {t m} :
      atomic t .enterLocked m .enterCounted { m with parkedMutators := m.parkedMutators + 1 }
  | enterUnlock {t m} : atomic t .enterCounted m .safeRegion { m with safepointMutex := none }
  | exitLock {t m} (hfree : m.safepointMutex = none) :
      atomic t .safeRegion m .exitLocked { m with safepointMutex := some t }
  | exitWait {t m} (hset : m.safepointRequested = true) :
      atomic t .exitLocked m .exitWaiting { m with safepointMutex := none }
  | exitWake {t m} (hfree : m.safepointMutex = none) :
      atomic t .exitWaiting m .exitLocked { m with safepointMutex := some t }
  | exitClear {t m} (hclear : m.safepointRequested = false) : atomic t .exitLocked m .exitCleared m
  | exitSub {t m} :
      atomic t .exitCleared m .leaving { m with parkedMutators := m.parkedMutators - 1 }
  | bringAlone {t m} (hnone : m.activeMutators - 1 ≤ 0) : atomic t .running m (.admitted true) m
  | bringLoad {t m} (hsome : 0 < m.activeMutators - 1) : atomic t .running m .bringOthers m
  | bringBusy {t m} (hset : m.safepointRequested = true) : atomic t .bringOthers m .running m
  | bringRequest {t m} (hclear : m.safepointRequested = false) :
      atomic t .bringOthers m .bringRequested { m with safepointRequested := true }
  | bringLock {t m} (hfree : m.safepointMutex = none) :
      atomic t .bringRequested m .bringLocked { m with safepointMutex := some t }
  | bringLook {t m} : atomic t .bringLocked m (.bringLooked (m.activeMutators - 1)) m
  | bringAll {t m n} (hall : n ≤ m.parkedMutators ∨ n ≤ 0) :
      atomic t (.bringLooked n) m .bringArrived m
  | bringMissing {t m n} (hmissing : ¬(n ≤ m.parkedMutators ∨ n ≤ 0)) :
      atomic t (.bringLooked n) m .bringShort m
  | bringWait {t m} : atomic t .bringShort m .bringWaiting { m with safepointMutex := none }
  | bringWake {t m} (hfree : m.safepointMutex = none) :
      atomic t .bringWaiting m .bringLocked { m with safepointMutex := some t }
  | bringTimeout {t m} :
      atomic t .bringShort m .bringWithdrawn { m with safepointRequested := false }
  | bringFail {t m} : atomic t .bringWithdrawn m .running { m with safepointMutex := none }
  | bringSucceed {t m} :
      atomic t .bringArrived m (.admitted false) { m with safepointMutex := none }
  | collectLock {t m alone} (hfree : m.mutex = none) :
      atomic t (.admitted alone) m (.collecting alone) { m with mutex := some t }
  | collectUnlock {t m alone} :
      atomic t (.collecting alone) m (.collected alone) { m with mutex := none }
  | releaseLock {t m alone} (hfree : m.safepointMutex = none) :
      atomic t (.collected alone) m (.releaseLocked alone) { m with safepointMutex := some t }
  | releaseStore {t m alone} :
      atomic t (.releaseLocked alone) m .leaving { m with safepointRequested := false }

/-! ### What one step does to the members -/

section Steps

variable {t : Thread} {p p' : Point} {m m' : Members Thread}

theorem atomic.active (h : atomic t p m p' m') :
    m'.activeMutators + indicator p.registered = m.activeMutators + indicator p'.registered := by
  cases h <;> simp [Point.registered, indicator]

theorem atomic.parked (h : atomic t p m p' m') :
    m'.parkedMutators + indicator p.counted = m.parkedMutators + indicator p'.counted := by
  cases h <;> simp [Point.counted, indicator]

theorem atomic.mutex (h : atomic t p m p' m') :
    LockStep Point.holdsMutex t p p' m.mutex m'.mutex := by
  cases h <;> simp_all [LockStep, Point.holdsMutex]

theorem atomic.safepointMutex (h : atomic t p m p' m') :
    LockStep Point.holdsSafepoint t p p' m.safepointMutex m'.safepointMutex := by
  cases h <;> simp_all [LockStep, Point.holdsSafepoint]

/-- What becomes of the request: it is made by a thread that then drives it, withdrawn or released by
that thread, or cleared by a thread that collected alone. -/
theorem atomic.requested (h : atomic t p m p' m') :
    (p'.drives = p.drives ∧ m'.safepointRequested = m.safepointRequested) ∨
      (m.safepointRequested = false ∧ p'.drives = true ∧ m'.safepointRequested = true) ∨
      (p.drives = true ∧ p'.drives = false ∧ m'.safepointRequested = false) ∨
      (p = .releaseLocked true ∧ p' = .leaving ∧ m'.safepointRequested = false) := by
  cases h with
  | collectLock | releaseLock =>
      rename_i alone _
      cases alone <;> simp_all [Point.drives]
  | collectUnlock =>
      rename_i alone
      cases alone <;> simp [Point.drives]
  | releaseStore =>
      rename_i alone
      cases alone <;> simp [Point.drives]
  | _ => simp_all [Point.drives]

theorem atomic.registers (h : atomic t p m p' m') (hbefore : p.registered = false)
    (hafter : p'.registered = true) : p = .beginLocked := by
  cases h <;> simp_all [Point.registered]

theorem atomic.looks {n : Int} (h : atomic t p m (.bringLooked n) m') :
    m' = m ∧ n = m.activeMutators - 1 := by
  cases h
  exact ⟨rfl, rfl⟩

/-- A parked thread stays parked while a request is pending. -/
theorem atomic.staysParked (h : atomic t p m p' m') (hparked : p.parked = true)
    (hset : m.safepointRequested = true) : p'.parked = true := by
  cases h <;> simp_all [Point.parked]

theorem atomic.becomesAlone (h : atomic t p m p' m') (halone : p'.alone = true) :
    p.alone = true ∨ (p = .running ∧ m.activeMutators - 1 ≤ 0) := by
  cases h with
  | collectLock =>
      rename_i alone _
      cases alone <;> simp_all [Point.alone]
  | bringAlone hnone => exact Or.inr ⟨rfl, hnone⟩
  | _ => simp_all [Point.alone]

theorem atomic.arrives (h : atomic t p m p' m') (harrived : p'.arrived = true) :
    p.arrived = true ∨
      ∃ n, p = .bringLooked n ∧ m' = m ∧ (n ≤ m.parkedMutators ∨ n ≤ 0) := by
  cases h with
  | collectLock =>
      rename_i alone _
      cases alone <;> simp_all [Point.arrived]
  | bringAll hall => exact Or.inr ⟨_, rfl, rfl, hall⟩
  | bringSucceed => exact Or.inl rfl
  | _ => simp_all [Point.arrived]

end Steps

/-! ### Points -/

namespace Point

theorem registered_of_counted {p : Point} (h : p.counted = true) : p.registered = true := by
  cases p <;> simp_all [counted, registered]

/-- A thread that counts as parked leaves only with `safepointMutex_` held. -/
theorem parked_of_counted {p : Point} (hcounted : p.counted = true)
    (hfree : p.holdsSafepoint = false) : p.parked = true := by
  cases p <;> simp_all [counted, holdsSafepoint, parked]

theorem drives_of_arrived {p : Point} (h : p.arrived = true) : p.drives = true := by
  cases p with
  | bringArrived => rfl
  | admitted alone | collecting alone => cases alone <;> simp_all [arrived, drives]
  | _ => cases h

/-- A thread about to collect or collecting has looked at the mutators or holds `mutex_`. -/
theorem looked_or_holds {p : Point} (h : p.arrived = true ∨ p.alone = true) :
    p.hasLooked = true ∨ p.holdsMutex = true := by
  cases p <;> simp_all [arrived, Point.alone, hasLooked, holdsMutex]

end Point

/-! ### Runs -/

/-- The state of the collector and all threads. -/
abbrev World (Thread : Type*) := Interleaving.World Thread Point (Members Thread)

variable [DecidableEq Thread]

/-- The main thread runs, and it is the only one. -/
def start (main : Thread) : World Thread where
  point := Function.update (fun _ => .outside) main .running
  shared :=
    { activeMutators := 1, parkedMutators := 0, safepointRequested := false, mutex := none,
      safepointMutex := none }

/-- While a thread collects, every other registered mutator is parked or inside a safe region, and no
other thread collects. -/
def Safe (w : World Thread) : Prop :=
  ∀ t, (w.point t).isCollecting = true → ∀ u, u ≠ t →
    ((w.point u).registered = true → (w.point u).parked = true) ∧ (w.point u).isCollecting = false

/-- A thread does not register between a collector's look at the number of mutators and its lock, and
one that collected alone does not clear the request of another. -/
structure Careful (t : Thread) (w : World Thread) : Prop where
  registers : w.point t = .beginLocked → ∀ u, (w.point u).hasLooked = false
  releases : w.point t = .releaseLocked true → w.shared.safepointRequested = false

def CarefulStep (w w' : World Thread) : Prop := ∃ t, Careful t w ∧ Step atomic t w w'

structure Invariant (w : World Thread) : Prop where
  active : Counts Point.registered w.point w.shared.activeMutators
  parked : Counts Point.counted w.point w.shared.parkedMutators
  mutex : Owned Point.holdsMutex w.point w.shared.mutex
  safepointMutex : Owned Point.holdsSafepoint w.point w.shared.safepointMutex
  /-- The request is pending exactly while one thread drives it. -/
  driven : ∃ driver, Owned Point.drives w.point driver ∧
    w.shared.safepointRequested = driver.isSome
  /-- The others a collector has seen are at least those there are. -/
  looked : ∀ t n, w.point t = .bringLooked n → w.shared.activeMutators - 1 ≤ n
  alone : ∀ t, (w.point t).alone = true → ∀ u, (w.point u).registered = true → u = t
  stopped : ∀ t, (w.point t).arrived = true → ∀ u, u ≠ t → (w.point u).registered = true →
    (w.point u).parked = true

theorem invariant_start (main : Thread) : Invariant (start main) := by
  have hpoint : ∀ t, (start main).point t = if t = main then .running else .outside :=
    fun t => Function.update_apply (fun _ => Point.outside) main Point.running t
  have hnone : ∀ P : Point → Bool, P .running = false → P .outside = false →
      ∀ t, P ((start main).point t) = false := by
    intro P hrunning houtside t
    rw [hpoint]
    split <;> assumption
  have hfree : ∀ P : Point → Bool, P .running = false → P .outside = false →
      Owned P (start main).point none := by
    intro P hrunning houtside t
    rw [hnone P hrunning houtside t]
    exact ⟨(fun h => nomatch h), fun h => nomatch h⟩
  refine ⟨⟨{main}, fun t => ?_, rfl⟩, ⟨∅, fun t => ?_, rfl⟩, hfree _ rfl rfl, hfree _ rfl rfl,
    ⟨none, hfree _ rfl rfl, rfl⟩, fun t n h => ?_, fun t h => ?_, fun t h => ?_⟩
  · rw [hpoint, Finset.mem_singleton]
    by_cases ht : t = main
    · rw [if_pos ht]
      exact ⟨fun _ => rfl, fun _ => ht⟩
    · rw [if_neg ht]
      exact ⟨fun h => absurd h ht, fun h => nomatch h⟩
  · rw [hnone Point.counted rfl rfl t]
    exact ⟨fun h => absurd h (Finset.notMem_empty t), fun h => nomatch h⟩
  · rw [hpoint] at h
    split at h <;> cases h
  · rw [hnone Point.alone rfl rfl t] at h
    cases h
  · rw [hnone Point.arrived rfl rfl t] at h
    cases h

section Preserved

variable {t : Thread} {w : World Thread} {m' : Members Thread} {p : Point}

omit [DecidableEq Thread] in
/-- No thread registers while another is about to collect or collects. -/
theorem registered_before (hmutex : Owned Point.holdsMutex w.point w.shared.mutex)
    (hcareful : Careful t w) (h : atomic t (w.point t) w.shared p m') {u : Thread} (hne : u ≠ t)
    (hu : (w.point u).arrived = true ∨ (w.point u).alone = true) (hafter : p.registered = true) :
    (w.point t).registered = true := by
  by_contra hbefore
  rw [Bool.not_eq_true] at hbefore
  have hbegin := h.registers hbefore hafter
  obtain hlooked | hholds := Point.looked_or_holds hu
  · have hnot := hcareful.registers hbegin u
    rw [hlooked] at hnot
    cases hnot
  · refine hne (hmutex.unique (t := t) ?_ hholds)
    rw [hbegin]
    rfl

theorem driven_step (hinv : Invariant w) (hcareful : Careful t w)
    (h : atomic t (w.point t) w.shared p m') :
    ∃ driver, Owned Point.drives (Function.update w.point t p) driver ∧
      m'.safepointRequested = driver.isSome := by
  obtain ⟨driver, howned, hset⟩ := hinv.driven
  obtain ⟨hdrives, hsame⟩ | ⟨hclear, hdrives, hset'⟩ | ⟨hbefore, hafter, hclear⟩ |
    ⟨hrelease, hleaving, hclear⟩ := h.requested
  · exact ⟨driver, howned.update (Or.inl ⟨hdrives, rfl⟩), hsame.trans hset⟩
  · have hnone : driver = none := by
      rw [← Option.not_isSome_iff_eq_none, ← hset]
      exact Bool.eq_false_iff.mp hclear
    exact ⟨some t, howned.update (Or.inr (Or.inl ⟨hnone, hdrives, rfl⟩)), hset'⟩
  · exact ⟨none, howned.update (Or.inr (Or.inr ⟨hbefore, hafter, rfl⟩)), hclear⟩
  · -- a thread that collected alone clears nothing, as no request is pending
    have hsame := hcareful.releases hrelease
    refine ⟨driver, howned.update (Or.inl ⟨?_, rfl⟩), hclear.trans (hsame.symm.trans hset)⟩
    rw [hrelease, hleaving]
    rfl

theorem looked_step (hinv : Invariant w) (hcareful : Careful t w)
    (h : atomic t (w.point t) w.shared p m') (u : Thread) (n : Int)
    (hu : Function.update w.point t p u = .bringLooked n) : m'.activeMutators - 1 ≤ n := by
  by_cases htu : u = t
  · rw [htu, Function.update_self] at hu
    rw [hu] at h
    obtain ⟨hsame, rfl⟩ := h.looks
    rw [hsame]
  · rw [Function.update_of_ne htu] at hu
    have hle := hinv.looked u n hu
    have hactive := h.active
    have hnot : (w.point t).registered = true ∨ p.registered = false := by
      by_contra hcontra
      rw [not_or, Bool.not_eq_true, Bool.not_eq_false] at hcontra
      have hlooked := hcareful.registers (h.registers hcontra.1 hcontra.2) u
      rw [hu] at hlooked
      cases hlooked
    have hmono : indicator p.registered ≤ indicator (w.point t).registered := by
      obtain hreg | hreg := hnot
      · rw [hreg]
        cases p.registered <;> decide
      · rw [hreg]
        cases (w.point t).registered <;> decide
    omega

theorem alone_step (hinv : Invariant w) (hcareful : Careful t w)
    (h : atomic t (w.point t) w.shared p m') (u : Thread)
    (hu : (Function.update w.point t p u).alone = true) (v : Thread)
    (hv : (Function.update w.point t p v).registered = true) : v = u := by
  by_cases htu : u = t
  · rw [htu, Function.update_self] at hu
    by_cases htv : v = t
    · rw [htv, htu]
    · rw [Function.update_of_ne htv] at hv
      rw [htu]
      obtain hbefore | ⟨hrunning, hnone⟩ := h.becomesAlone hu
      · exact hinv.alone t hbefore v hv
      · refine hinv.active.unique (by omega) ?_ hv
        rw [hrunning]
        rfl
  · rw [Function.update_of_ne htu] at hu
    by_cases htv : v = t
    · rw [htv, Function.update_self] at hv
      have hbefore := registered_before hinv.mutex hcareful h htu (Or.inr hu) hv
      rw [htv]
      exact hinv.alone u hu t hbefore
    · rw [Function.update_of_ne htv] at hv
      exact hinv.alone u hu v hv

/-- A collector that sees as many parked as there are others has all of them parked. -/
theorem all_parked (hinv : Invariant w) {n : Int} (hlooked : w.point t = .bringLooked n)
    (hall : n ≤ w.shared.parkedMutators ∨ n ≤ 0) {v : Thread} (hne : v ≠ t)
    (hv : (w.point v).registered = true) : (w.point v).parked = true := by
  have hothers := hinv.looked t n hlooked
  have hle : w.shared.activeMutators - 1 ≤ w.shared.parkedMutators := by
    obtain ⟨threads, -, hcard⟩ := hinv.parked
    omega
  have hcounted : (w.point v).counted = true := by
    refine hinv.parked.all_of_le hinv.active (fun u hu => Point.registered_of_counted hu)
      (t := t) ?_ ?_ hle hne hv
    · rw [hlooked]
      rfl
    · rw [hlooked]
      rfl
  refine Point.parked_of_counted hcounted ?_
  by_contra hholds
  rw [Bool.not_eq_false] at hholds
  refine hne (hinv.safepointMutex.unique (t := t) ?_ hholds)
  rw [hlooked]
  rfl

theorem stopped_step (hinv : Invariant w) (hcareful : Careful t w)
    (h : atomic t (w.point t) w.shared p m') (u : Thread)
    (hu : (Function.update w.point t p u).arrived = true) (v : Thread) (hne : v ≠ u)
    (hv : (Function.update w.point t p v).registered = true) :
    (Function.update w.point t p v).parked = true := by
  by_cases htu : u = t
  · rw [htu] at hne
    rw [htu, Function.update_self] at hu
    rw [Function.update_of_ne hne] at hv ⊢
    obtain hbefore | ⟨n, hlooked, -, hall⟩ := h.arrives hu
    · exact hinv.stopped t hbefore v hne hv
    · exact all_parked hinv hlooked hall hne hv
  · rw [Function.update_of_ne htu] at hu
    by_cases htv : v = t
    · rw [htv, Function.update_self] at hv ⊢
      rw [htv] at hne
      have hbefore := registered_before hinv.mutex hcareful h htu (Or.inl hu) hv
      have hparked := hinv.stopped u hu t hne hbefore
      obtain ⟨driver, howned, hset⟩ := hinv.driven
      have hdriver := (howned u).mp (Point.drives_of_arrived hu)
      rw [hdriver] at hset
      exact h.staysParked hparked hset
    · rw [Function.update_of_ne htv] at hv ⊢
      exact hinv.stopped u hu v hne hv

end Preserved

theorem invariant_step {w w' : World Thread} (hinv : Invariant w) (hstep : CarefulStep w w') :
    Invariant w' := by
  obtain ⟨t, hcareful, hstep⟩ := hstep
  cases hstep with
  | mk h =>
      exact
        { active := hinv.active.update h.active
          parked := hinv.parked.update h.parked
          mutex := hinv.mutex.update h.mutex
          safepointMutex := hinv.safepointMutex.update h.safepointMutex
          driven := driven_step hinv hcareful h
          looked := looked_step hinv hcareful h
          alone := alone_step hinv hcareful h
          stopped := stopped_step hinv hcareful h }

omit [DecidableEq Thread] in
theorem safe_of_invariant {w : World Thread} (hinv : Invariant w) : Safe w := by
  intro t ht u hne
  constructor
  · intro hu
    cases hpoint : w.point t with
    | collecting alone =>
        cases alone with
        | false => exact hinv.stopped t (by rw [hpoint]; rfl) u hne hu
        | true => exact absurd (hinv.alone t (by rw [hpoint]; rfl) u hu) hne
    | _ =>
        rw [hpoint] at ht
        cases ht
  · have hholds : ∀ p : Point, p.isCollecting = true → p.holdsMutex = true := by
      intro p hp
      cases p <;> first | rfl | cases hp
    by_contra hu
    rw [Bool.not_eq_false] at hu
    exact hne (hinv.mutex.unique (hholds _ ht) (hholds _ hu))

/-- In every interleaving of careful steps of any number of threads, the world is stopped while one
thread collects. -/
theorem safe_of_run (main : Thread) {w : World Thread}
    (hrun : Relation.ReflTransGen CarefulStep (start main) w) : Safe w :=
  safe_of_invariant (invariant_of_run (invariant_start main)
    (fun _ _ hinv hstep => invariant_step hinv hstep) hrun)

/-! ### Two runs of two threads -/

/-- The worker registers and parks for the main thread, which then collects. -/
theorem handshake_safe :
    ∃ w : World Bool, w.point false = .collecting false ∧ w.point true = .parkWaiting ∧ Safe w := by
  have step : ∀ (t : Bool) {w w' : World Bool}, Careful t w → Step atomic t w w' →
      Relation.ReflTransGen CarefulStep (start false) w →
      Relation.ReflTransGen CarefulStep (start false) w' :=
    fun t _ _ hcareful hstep hrun => hrun.tail ⟨t, hcareful, hstep⟩
  have hregistered := step true ⟨by decide, by decide⟩ (.mk atomic.beginUnlock)
    (step true ⟨by decide, by decide⟩ (.mk atomic.beginAdd)
      (step true ⟨by decide, by decide⟩ (.mk (atomic.beginLock rfl)) .refl))
  have hrequested := step false ⟨by decide, by decide⟩ (.mk (atomic.bringRequest rfl))
    (step false ⟨by decide, by decide⟩ (.mk (atomic.bringLoad (by decide))) hregistered)
  have hparked := step true ⟨by decide, by decide⟩ (.mk (atomic.parkWait rfl))
    (step true ⟨by decide, by decide⟩ (.mk atomic.parkAdd)
      (step true ⟨by decide, by decide⟩ (.mk (atomic.parkSee rfl))
        (step true ⟨by decide, by decide⟩ (.mk (atomic.parkLock rfl)) hrequested)))
  have harrived := step false ⟨by decide, by decide⟩ (.mk atomic.bringSucceed)
    (step false ⟨by decide, by decide⟩ (.mk (atomic.bringAll (by decide)))
      (step false ⟨by decide, by decide⟩ (.mk atomic.bringLook)
        (step false ⟨by decide, by decide⟩ (.mk (atomic.bringLock rfl)) hparked)))
  have hcollecting := step false ⟨by decide, by decide⟩
    (.mk (p := .collecting false) (atomic.collectLock rfl)) harrived
  exact ⟨_, rfl, rfl, safe_of_run false hcollecting⟩

/-- A worker registers between the main thread's look at the number of mutators and its lock, and runs
bytecode during the collection. -/
theorem lateRegistration_unsafe :
    ¬∀ w : World Bool,
      Relation.ReflTransGen (fun w w' => ∃ t, Step atomic t w w') (start false) w → Safe w := by
  intro h
  have step : ∀ (t : Bool) {w w' : World Bool}, Step atomic t w w' →
      Relation.ReflTransGen (fun w w' => ∃ t, Step atomic t w w') (start false) w →
      Relation.ReflTransGen (fun w w' => ∃ t, Step atomic t w w') (start false) w' :=
    fun t _ _ hstep hrun => hrun.tail ⟨t, hstep⟩
  have hadmitted := step false (.mk (atomic.bringAlone (by decide))) .refl
  have hregistered := step true (.mk atomic.beginUnlock) (step true (.mk atomic.beginAdd)
    (step true (.mk (atomic.beginLock rfl)) hadmitted))
  have hcollecting := step false (.mk (p := .collecting true) (atomic.collectLock rfl)) hregistered
  have hparked := (h _ hcollecting false rfl true (by decide)).1 rfl
  cases hparked

end CycleCollector

end EZLanguage
