import Mathlib.Algebra.BigOperators.Group.Finset.Basic
import Mathlib.Data.Finset.Card
import Mathlib.Data.Finset.Insert
import Mathlib.Logic.Function.Basic
import Mathlib.Logic.Relation

/-!
# Threads taking atomic steps in any order

A thread is at a point of its program, and the threads share a state. An atomic step moves one thread
and the shared state. What counters and locks of the shared state say about the points of all threads is
kept up by what a step does to its own thread.
-/

namespace EZLanguage

namespace Interleaving

variable {Thread Point Shared : Type*}

/-- The points of the threads and the state they share. -/
structure World (Thread Point Shared : Type*) where
  point : Thread → Point
  shared : Shared

/-- What a thread can do in one atomic step. -/
abbrev Atomic (Thread Point Shared : Type*) :=
  Thread → Point → Shared → Point → Shared → Prop

/-! ### Counters and locks -/

/-- 1 for true and 0 for false. -/
def indicator (b : Bool) : Int := if b then 1 else 0

/-- As many threads as `n` says are at points with the property. -/
def Counts (P : Point → Bool) (point : Thread → Point) (n : Int) : Prop :=
  ∃ threads : Finset Thread, (∀ t, t ∈ threads ↔ P (point t) = true) ∧ n = threads.card

/-- At most one thread is counted where the counter is at most one. -/
theorem Counts.unique {P : Point → Bool} {point : Thread → Point} {n : Int}
    (hP : Counts P point n) (hn : n ≤ 1) {t u : Thread} (ht : P (point t) = true)
    (hu : P (point u) = true) : u = t := by
  obtain ⟨ps, hps, hcard⟩ := hP
  exact Finset.card_le_one.mp (by omega) u ((hps u).mpr hu) t ((hps t).mpr ht)

theorem Counts.pos {P : Point → Bool} {point : Thread → Point} {n : Int} (hP : Counts P point n)
    {t : Thread} (ht : P (point t) = true) : 1 ≤ n := by
  obtain ⟨ps, hps, hcard⟩ := hP
  have hpos := Finset.card_pos.mpr ⟨t, (hps t).mpr ht⟩
  omega

theorem Counts.eq_false_of_eq_zero {P : Point → Bool} {point : Thread → Point}
    (hP : Counts P point 0) (t : Thread) : P (point t) = false := by
  rw [← Bool.not_eq_true]
  intro ht
  have hpos := hP.pos ht
  omega

/-- The threads at points with the property are the owner of the lock. -/
def Owned (P : Point → Bool) (point : Thread → Point) (owner : Option Thread) : Prop :=
  ∀ t, P (point t) = true ↔ owner = some t

theorem Owned.unique {P : Point → Bool} {point : Thread → Point} {owner : Option Thread}
    (howned : Owned P point owner) {t u : Thread} (ht : P (point t) = true)
    (hu : P (point u) = true) : u = t :=
  Option.some.inj (((howned u).mp hu).symm.trans ((howned t).mp ht))

/-- What the points of all threads come to, where all but finitely many come to nothing. -/
def Total {M : Type*} [AddCommMonoid M] (f : Point → M) (point : Thread → Point) (total : M) : Prop :=
  ∃ threads : Finset Thread, (∀ t, t ∉ threads → f (point t) = 0) ∧ total = ∑ t ∈ threads, f (point t)

theorem Total.of_eq_zero {M : Type*} [AddCommMonoid M] {f : Point → M} {point : Thread → Point}
    (hzero : ∀ t, f (point t) = 0) : Total f point 0 :=
  ⟨∅, fun t _ => hzero t, rfl⟩

theorem Total.eq_zero {M : Type*} [AddCommMonoid M] {f : Point → M} {point : Thread → Point}
    {total : M} (htotal : Total f point total) (hzero : ∀ t, f (point t) = 0) : total = 0 := by
  obtain ⟨threads, -, rfl⟩ := htotal
  exact Finset.sum_eq_zero fun t _ => hzero t

/-! ### Steps -/

variable [DecidableEq Thread]

/-- Thread `t` takes a step. -/
inductive Step (atomic : Atomic Thread Point Shared) (t : Thread) :
    World Thread Point Shared → World Thread Point Shared → Prop
  | mk {point : Thread → Point} {shared shared' : Shared} {p : Point}
      (h : atomic t (point t) shared p shared') :
      Step atomic t ⟨point, shared⟩ ⟨Function.update point t p, shared'⟩

/-- What holds at first and is kept by every step holds after every run. -/
theorem invariant_of_run {α : Type*} {step : α → α → Prop} {I : α → Prop} {start final : α}
    (hstart : I start) (hstep : ∀ a b, I a → step a b → I b)
    (hrun : Relation.ReflTransGen step start final) : I final := by
  induction hrun with
  | refl => exact hstart
  | tail _ hlast ih => exact hstep _ _ ih hlast

/-- A counter that follows the moving thread keeps counting. -/
theorem Counts.update {P : Point → Bool} {point : Thread → Point} {n m : Int}
    (hcounts : Counts P point n) {t : Thread} {p : Point}
    (hm : m + indicator (P (point t)) = n + indicator (P p)) :
    Counts P (Function.update point t p) m := by
  obtain ⟨threads, hmem, hn⟩ := hcounts
  have hother : ∀ u, u ≠ t → (u ∈ threads ↔ P (Function.update point t p u) = true) := by
    intro u hu
    rw [Function.update_of_ne hu]
    exact hmem u
  by_cases hbefore : P (point t) = true
  · have ht : t ∈ threads := (hmem t).mpr hbefore
    by_cases hafter : P p = true
    · refine ⟨threads, fun u => ?_, ?_⟩
      · by_cases hu : u = t
        · rw [hu, Function.update_self]
          exact ⟨fun _ => hafter, fun _ => ht⟩
        · exact hother u hu
      · rw [hbefore, hafter] at hm
        omega
    · refine ⟨threads.erase t, fun u => ?_, ?_⟩
      · by_cases hu : u = t
        · rw [hu, Function.update_self]
          exact ⟨fun h => absurd rfl (Finset.ne_of_mem_erase h), fun h => absurd h hafter⟩
        · rw [Finset.mem_erase, and_iff_right hu]
          exact hother u hu
      · have hcard := Finset.card_erase_add_one ht
        rw [Bool.not_eq_true] at hafter
        simp only [hbefore, hafter, indicator] at hm
        simp at hm
        omega
  · have ht : t ∉ threads := fun h => hbefore ((hmem t).mp h)
    by_cases hafter : P p = true
    · refine ⟨insert t threads, fun u => ?_, ?_⟩
      · by_cases hu : u = t
        · rw [hu, Function.update_self]
          exact ⟨fun _ => hafter, fun _ => Finset.mem_insert_self t threads⟩
        · rw [Finset.mem_insert, or_iff_right hu]
          exact hother u hu
      · rw [Bool.not_eq_true] at hbefore
        rw [Finset.card_insert_of_notMem ht]
        simp only [hbefore, hafter, indicator] at hm
        simp at hm
        omega
    · refine ⟨threads, fun u => ?_, ?_⟩
      · by_cases hu : u = t
        · rw [hu, Function.update_self]
          exact ⟨fun h => absurd h ht, fun h => absurd h hafter⟩
        · exact hother u hu
      · rw [Bool.not_eq_true] at hbefore hafter
        rw [hbefore, hafter] at hm
        omega

/-- The total changes by what the moving thread comes to. -/
theorem Total.update {M : Type*} [AddCommMonoid M] {f : Point → M} {point : Thread → Point} {n : M}
    (htotal : Total f point n) (t : Thread) (p : Point) :
    ∃ m, Total f (Function.update point t p) m ∧ m + f (point t) = n + f p := by
  obtain ⟨threads, hzero, hn⟩ := htotal
  have hsame : ∀ u, u ≠ t → f (Function.update point t p u) = f (point u) := by
    intro u hu
    rw [Function.update_of_ne hu]
  refine ⟨_, ⟨insert t threads, fun u hu => ?_, rfl⟩, ?_⟩
  · rw [Finset.mem_insert, not_or] at hu
    rw [hsame u hu.1]
    exact hzero u hu.2
  · have herase : ∑ u ∈ threads.erase t, f (Function.update point t p u) =
        ∑ u ∈ threads.erase t, f (point u) :=
      Finset.sum_congr rfl fun u hu => hsame u (Finset.ne_of_mem_erase hu)
    have hmem := Finset.mem_insert_self t threads
    calc ∑ u ∈ insert t threads, f (Function.update point t p u) + f (point t)
        = ∑ u ∈ threads.erase t, f (point u) + f (point t) + f p := by
          rw [← Finset.sum_erase_add _ _ hmem, Finset.erase_insert_eq_erase, herase,
            Function.update_self, add_right_comm]
      _ = ∑ u ∈ insert t threads, f (point u) + f p := by
          rw [← Finset.sum_erase_add _ _ hmem, Finset.erase_insert_eq_erase]
      _ = n + f p := by rw [hn, Finset.sum_insert_of_eq_zero_if_notMem (hzero t)]

/-- Where the threads of one kind are some of another kind but for `t`, and no fewer, they are all of
them but for `t`. -/
theorem Counts.all_of_le {P Q : Point → Bool} {point : Thread → Point} {n m : Int}
    (hP : Counts P point n) (hQ : Counts Q point m) (hsub : ∀ u, P (point u) = true → Q (point u) = true)
    {t : Thread} (ht : P (point t) = false) (hQt : Q (point t) = true) (hle : m - 1 ≤ n) {u : Thread}
    (hu : u ≠ t) (hQu : Q (point u) = true) : P (point u) = true := by
  obtain ⟨ps, hps, hn⟩ := hP
  obtain ⟨qs, hqs, hm⟩ := hQ
  have htq : t ∈ qs := (hqs t).mpr hQt
  have hinto : ps ⊆ qs.erase t := by
    intro v hv
    refine Finset.mem_erase.mpr ⟨fun h => ?_, (hqs v).mpr (hsub v ((hps v).mp hv))⟩
    rw [h] at hv
    have := (hps t).mp hv
    rw [ht] at this
    cases this
  have hcard := Finset.card_erase_add_one htq
  have heq : ps = qs.erase t := Finset.eq_of_subset_of_card_le hinto (by omega)
  have huq : u ∈ qs.erase t := Finset.mem_erase.mpr ⟨hu, (hqs u).mpr hQu⟩
  exact (hps u).mp (heq ▸ huq)

/-- What a step can do to a lock: leave it, take it when it is free, or give it back. -/
def LockStep (P : Point → Bool) (t : Thread) (p p' : Point) (owner owner' : Option Thread) : Prop :=
  (P p' = P p ∧ owner' = owner) ∨
    (owner = none ∧ P p' = true ∧ owner' = some t) ∨
    (P p = true ∧ P p' = false ∧ owner' = none)

theorem Owned.update {P : Point → Bool} {point : Thread → Point} {owner owner' : Option Thread}
    (howned : Owned P point owner) {t : Thread} {p : Point}
    (hstep : LockStep P t (point t) p owner owner') :
    Owned P (Function.update point t p) owner' := by
  intro u
  by_cases hu : u = t
  · rw [hu, Function.update_self]
    obtain ⟨hP, rfl⟩ | ⟨-, hP, rfl⟩ | ⟨-, hP, rfl⟩ := hstep
    · rw [hP]
      exact howned t
    · exact ⟨fun _ => rfl, fun _ => hP⟩
    · rw [hP]
      exact ⟨(fun h => nomatch h), fun h => nomatch h⟩
  · rw [Function.update_of_ne hu, howned u]
    obtain ⟨-, rfl⟩ | ⟨rfl, -, rfl⟩ | ⟨hbefore, -, rfl⟩ := hstep
    · exact Iff.rfl
    · exact ⟨(fun h => nomatch h), fun h => absurd (Option.some.inj h).symm hu⟩
    · have howner := (howned t).mp hbefore
      rw [howner]
      exact ⟨fun h => absurd (Option.some.inj h).symm hu, fun h => nomatch h⟩

end Interleaving

end EZLanguage
