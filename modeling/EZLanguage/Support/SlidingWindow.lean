import Mathlib.Data.List.TakeWhile
import Mathlib.Order.Lattice

/-!
# Sliding windows over a clock

A window keeps the recent part of a growing history of clock readings: entries are pushed at the back
and dropped from the front once they are too old. While the clock does not go back, the window is the
part of the history that is recent enough, so its length bounds what any stretch of the clock holds.
-/

namespace EZLanguage

namespace SlidingWindow

/-- The entries that are not older than the width. -/
def prune (width now : Int) (win : List Int) : List Int :=
  win.dropWhile fun t => decide (width < now - t)

/-- How many of the times lie between two readings, both included. -/
def within (lo hi : Int) (times : List Int) : Nat :=
  times.countP fun t => decide (lo ≤ t ∧ t ≤ hi)

/-- At a reading of the clock a window lacks only old entries of a history. -/
structure Tracks (width clock : Int) (times win : List Int) : Prop where
  sorted : times.Pairwise (· ≤ ·)
  past : ∀ t ∈ times, t ≤ clock
  old : ∃ dropped, times = dropped ++ win ∧ ∀ t ∈ dropped, width < clock - t

variable {width clock now : Int} {times win : List Int}

theorem Tracks.empty (width clock : Int) : Tracks width clock [] [] where
  sorted := List.Pairwise.nil
  past := by simp
  old := ⟨[], rfl, by simp⟩

theorem Tracks.later (htracks : Tracks width clock times win) (hle : clock ≤ now) :
    Tracks width now times win where
  sorted := htracks.sorted
  past := by
    intro t hmem
    have hpast := htracks.past t hmem
    omega
  old := by
    obtain ⟨dropped, hsplit, hold⟩ := htracks.old
    refine ⟨dropped, hsplit, fun t hmem => ?_⟩
    have hdropped := hold t hmem
    omega

/-- Pruning drops only what is too old. -/
theorem Tracks.prune (htracks : Tracks width now times win) :
    Tracks width now times (prune width now win) where
  sorted := htracks.sorted
  past := htracks.past
  old := by
    obtain ⟨dropped, hsplit, hold⟩ := htracks.old
    refine ⟨dropped ++ win.takeWhile fun t => decide (width < now - t), ?_, ?_⟩
    · rw [List.append_assoc, SlidingWindow.prune, List.takeWhile_append_dropWhile, hsplit]
    · intro t hmem
      cases List.mem_append.mp hmem with
      | inl hdropped => exact hold t hdropped
      | inr htaken =>
          have hopen := List.mem_takeWhile_imp htaken
          exact of_decide_eq_true hopen

/-- A window all of whose entries are too old can be dropped. -/
theorem Tracks.clear (htracks : Tracks width now times win) (hall : ∀ t ∈ win, width < now - t) :
    Tracks width now times [] where
  sorted := htracks.sorted
  past := htracks.past
  old := by
    obtain ⟨dropped, hsplit, hold⟩ := htracks.old
    refine ⟨times, (List.append_nil _).symm, fun t hmem => ?_⟩
    rw [hsplit] at hmem
    cases List.mem_append.mp hmem with
    | inl hdropped => exact hold t hdropped
    | inr hwin => exact hall t hwin

theorem Tracks.push (htracks : Tracks width now times win) :
    Tracks width now (times ++ [now]) (win ++ [now]) where
  sorted := by
    rw [List.pairwise_append]
    refine ⟨htracks.sorted, List.pairwise_singleton _ _, fun t hmem t' hmem' => ?_⟩
    rw [List.mem_singleton.mp hmem']
    exact htracks.past t hmem
  past := by
    intro t hmem
    cases List.mem_append.mp hmem with
    | inl htimes => exact htracks.past t htimes
    | inr hnow => exact le_of_eq (List.mem_singleton.mp hnow)
  old := by
    obtain ⟨dropped, hsplit, hold⟩ := htracks.old
    exact ⟨dropped, by rw [hsplit, List.append_assoc], hold⟩

theorem Tracks.sorted_win (htracks : Tracks width now times win) : win.Pairwise (· ≤ ·) := by
  obtain ⟨dropped, hsplit, _⟩ := htracks.old
  have hsorted := htracks.sorted
  rw [hsplit] at hsorted
  exact (List.pairwise_append.mp hsorted).2.1

/-- What is left after pruning a sorted window is recent. -/
theorem recent_of_prune (hsorted : win.Pairwise (· ≤ ·)) {t : Int}
    (hmem : t ∈ prune width now win) : now - t ≤ width := by
  induction win with
  | nil => simp [prune] at hmem
  | cons front win ih =>
      rw [List.pairwise_cons] at hsorted
      rw [prune, List.dropWhile_cons] at hmem
      split_ifs at hmem with hfront
      · exact ih hsorted.2 hmem
      · rw [decide_eq_true_eq] at hfront
        cases hmem with
        | head => omega
        | tail _ hrest =>
            have hle := hsorted.1 t hrest
            omega

/-- The pruned window counts the history up to the clock. -/
theorem Tracks.length_prune (htracks : Tracks width now times win) :
    (SlidingWindow.prune width now win).length = within (now - width) now times := by
  have hpruned := htracks.prune
  obtain ⟨dropped, hsplit, hold⟩ := hpruned.old
  have hdropped : within (now - width) now dropped = 0 := by
    rw [within, List.countP_eq_zero]
    intro t hmem
    have hlt := hold t hmem
    rw [decide_eq_true_eq]
    omega
  have hkept : within (now - width) now (SlidingWindow.prune width now win) =
      (SlidingWindow.prune width now win).length := by
    rw [within, List.countP_eq_length]
    intro t hmem
    have hrecent := recent_of_prune htracks.sorted_win hmem
    have hpast := htracks.past t (by rw [hsplit]; exact List.mem_append_right _ hmem)
    rw [decide_eq_true_eq]
    omega
  conv_rhs => rw [hsplit]
  rw [within, List.countP_append, ← within, ← within, hdropped, hkept, Nat.zero_add]

/-- A push into a window that is not full keeps the bound on every stretch of the clock. -/
theorem Tracks.bound_push (htracks : Tracks width now times win) {n : Nat}
    (hbound : ∀ lo, within lo (lo + width) times ≤ n)
    (hroom : (SlidingWindow.prune width now win).length < n) (lo : Int) :
    within lo (lo + width) (times ++ [now]) ≤ n := by
  rw [within, List.countP_append, ← within, ← within]
  by_cases hinside : lo ≤ now ∧ now ≤ lo + width
  · have hone : within lo (lo + width) [now] = 1 := by simp [within, hinside]
    have hle : within lo (lo + width) times ≤ within (now - width) now times := by
      apply List.countP_mono_left
      intro t hmem hlo
      have hpast := htracks.past t hmem
      rw [decide_eq_true_eq] at hlo ⊢
      omega
    rw [htracks.length_prune] at hroom
    omega
  · have hzero : within lo (lo + width) [now] = 0 := by
      rw [within, List.countP_eq_zero]
      intro t hmem
      rw [List.mem_singleton.mp hmem, decide_eq_true_eq]
      exact hinside
    have hle := hbound lo
    omega

/-- A window that was pruned looks the same to every later prune. -/
theorem prune_prune {later : Int} (hle : now ≤ later) (win : List Int) :
    prune width later (prune width now win) = prune width later win := by
  induction win with
  | nil => rfl
  | cons front win ih =>
      by_cases hfront : width < now - front
      · have hlater : width < later - front := by omega
        have hnow : prune width now (front :: win) = prune width now win := by
          simp [prune, hfront]
        rw [hnow, ih]
        simp [prune, hlater]
      · simp [prune, hfront]

end SlidingWindow

end EZLanguage
