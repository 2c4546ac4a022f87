import Mathlib

/-!
# Periods of a line

The integers cut at a sequence of bounds. A period is known by the functions that give its first and its
last point.
-/

namespace EZLanguage

/-- Every point is in one period, all points of a period have the same ends, and the next period starts
right behind the last point. -/
structure Periods (startOf endOf : Int → Int) : Prop where
  start_le : ∀ t, startOf t ≤ t
  le_end : ∀ t, t ≤ endOf t
  next : ∀ t, endOf t + 1 = startOf (endOf t + 1)
  same : ∀ t t', startOf t ≤ t' → t' ≤ endOf t → startOf t' = startOf t ∧ endOf t' = endOf t

namespace Periods

variable {b n startOf endOf : Int → Int}

theorem strictMono_bounds (hstep : ∀ i, b i < b (i + 1)) : StrictMono b :=
  strictMono_int_of_lt_succ hstep

/-- A point between two bounds has the index of the first. -/
theorem eq_index (hstep : ∀ i, b i < b (i + 1))
    (hindex : ∀ t, b (n t) ≤ t ∧ t < b (n t + 1)) {t i : Int} (hi : b i ≤ t)
    (hi' : t < b (i + 1)) : n t = i := by
  have hmono := strictMono_bounds hstep
  obtain ⟨hle, hlt⟩ := hindex t
  have hbelow := hmono.lt_iff_lt.mp (Int.lt_of_le_of_lt hle hi')
  have habove := hmono.lt_iff_lt.mp (Int.lt_of_le_of_lt hi hlt)
  omega

/-- Periods from their bounds and the index of the period of each point. -/
theorem of_indices (hstep : ∀ i, b i < b (i + 1))
    (hindex : ∀ t, b (n t) ≤ t ∧ t < b (n t + 1))
    (hstart : ∀ t, startOf t = b (n t)) (hend : ∀ t, endOf t = b (n t + 1) - 1) :
    Periods startOf endOf where
  start_le t := by
    rw [hstart]
    exact (hindex t).1
  le_end t := by
    rw [hend]
    have hlt := (hindex t).2
    omega
  next t := by
    have hnext : n (endOf t + 1) = n t + 1 := by
      apply eq_index hstep hindex
      · rw [hend]
        omega
      · rw [hend, Int.sub_add_cancel]
        exact hstep _
    rw [hstart (endOf t + 1), hnext, hend, Int.sub_add_cancel]
  same t t' hle hge := by
    rw [hstart] at hle
    rw [hend] at hge
    have hsame := eq_index hstep hindex hle (by omega)
    rw [hstart, hstart, hend, hend, hsame]
    exact ⟨rfl, rfl⟩

end Periods

end EZLanguage
