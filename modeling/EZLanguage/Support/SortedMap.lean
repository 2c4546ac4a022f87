import Mathlib.Order.Lattice
import Mathlib.Order.Defs.LinearOrder
import Mathlib.Data.List.Basic
import Mathlib.Data.List.TakeWhile

/-!
# Ordered maps as sorted lists

A map over ordered keys is the list of its entries in the order of the keys. Besides assigning and
erasing it answers which entry has the greatest key that is not above a given one.
-/

namespace EZLanguage

namespace SortedMap

variable {κ α : Type*} [LinearOrder κ]

/-- The entries stand in the order of their keys, and no key stands twice. -/
def Sorted (entries : List (κ × α)) : Prop := entries.Pairwise fun a b => a.1 < b.1

def assign (key : κ) (val : α) : List (κ × α) → List (κ × α)
  | [] => [(key, val)]
  | entry :: rest =>
      if key < entry.1 then (key, val) :: entry :: rest
      else if key = entry.1 then (key, val) :: rest
      else entry :: assign key val rest

def erase (key : κ) (entries : List (κ × α)) : List (κ × α) :=
  entries.filter fun entry => entry.1 ≠ key

/-- The entry with the greatest key that is not above the given one. -/
def floor (key : κ) (entries : List (κ × α)) : Option (κ × α) :=
  (entries.takeWhile fun entry => entry.1 ≤ key).getLast?

theorem sorted_nil : Sorted ([] : List (κ × α)) := List.Pairwise.nil

theorem mem_assign {entries : List (κ × α)} (hsorted : Sorted entries) (key : κ) (val : α)
    (entry : κ × α) :
    entry ∈ assign key val entries ↔ entry = (key, val) ∨ entry.1 ≠ key ∧ entry ∈ entries := by
  induction entries with
  | nil => simp [assign]
  | cons first rest ih =>
      obtain ⟨hfirst, hrest⟩ := List.pairwise_cons.mp hsorted
      have hlater : ∀ e ∈ rest, key ≤ first.1 → e.1 ≠ key := by
        intro e he hle heq
        exact absurd (lt_of_le_of_lt hle (hfirst e he)) (by rw [heq]; exact lt_irrefl key)
      unfold assign
      by_cases hlt : key < first.1
      · rw [if_pos hlt, List.mem_cons, List.mem_cons]
        apply or_congr_right
        apply Iff.symm
        apply and_iff_right_of_imp
        intro hmem
        rcases hmem with heq | hmem
        · rw [heq]
          exact ne_of_gt hlt
        · exact hlater entry hmem (le_of_lt hlt)
      · rw [if_neg hlt]
        by_cases heq : key = first.1
        · rw [if_pos heq, List.mem_cons, List.mem_cons]
          apply or_congr_right
          apply Iff.intro
          · intro hmem
            exact ⟨hlater entry hmem (le_of_eq heq), Or.inr hmem⟩
          · intro h
            rcases h.2 with hhere | hmem
            · exact absurd (by rw [hhere, heq]) h.1
            · exact hmem
        · rw [if_neg heq, List.mem_cons, List.mem_cons, ih hrest]
          have hne : entry = first → entry.1 ≠ key := by
            intro h
            rw [h]
            exact fun h => heq h.symm
          tauto

theorem Sorted.assign {entries : List (κ × α)} (hsorted : Sorted entries) (key : κ) (val : α) :
    Sorted (assign key val entries) := by
  induction entries with
  | nil => exact List.pairwise_singleton _ _
  | cons first rest ih =>
      obtain ⟨hfirst, hrest⟩ := List.pairwise_cons.mp hsorted
      unfold SortedMap.assign
      by_cases hlt : key < first.1
      · rw [if_pos hlt]
        apply List.pairwise_cons.mpr
        refine ⟨?_, hsorted⟩
        intro entry hmem
        rcases List.mem_cons.mp hmem with heq | hmem
        · rw [heq]
          exact hlt
        · exact lt_trans hlt (hfirst entry hmem)
      · rw [if_neg hlt]
        by_cases heq : key = first.1
        · rw [if_pos heq]
          apply List.pairwise_cons.mpr
          refine ⟨?_, hrest⟩
          intro entry hmem
          show key < entry.1
          rw [heq]
          exact hfirst entry hmem
        · rw [if_neg heq]
          apply List.pairwise_cons.mpr
          refine ⟨?_, ih hrest⟩
          intro entry hmem
          rcases (mem_assign hrest key val entry).mp hmem with hnew | hold
          · rw [hnew]
            exact lt_of_le_of_ne (le_of_not_gt hlt) (fun h => heq h.symm)
          · exact hfirst entry hold.2

theorem mem_erase (key : κ) (entries : List (κ × α)) (entry : κ × α) :
    entry ∈ erase key entries ↔ entry ∈ entries ∧ entry.1 ≠ key := by
  simp [erase]

theorem Sorted.erase {entries : List (κ × α)} (hsorted : Sorted entries) (key : κ) :
    Sorted (erase key entries) :=
  hsorted.filter _

theorem floor_cons (key : κ) (first : κ × α) (rest : List (κ × α)) :
    floor key (first :: rest) =
      if first.1 ≤ key then some ((floor key rest).getD first) else none := by
  unfold floor
  by_cases hle : first.1 ≤ key
  · rw [if_pos hle, List.takeWhile_cons_of_pos (by simpa using hle), List.getLast?_cons]
  · rw [if_neg hle, List.takeWhile_cons_of_neg (by simpa using hle), List.getLast?_nil]

theorem floor_eq_none_iff {entries : List (κ × α)} (hsorted : Sorted entries) (key : κ) :
    floor key entries = none ↔ ∀ entry ∈ entries, key < entry.1 := by
  cases entries with
  | nil => simp [floor]
  | cons first rest =>
      rw [floor_cons]
      by_cases hle : first.1 ≤ key
      · rw [if_pos hle]
        apply iff_of_false (Option.some_ne_none _)
        intro h
        exact absurd hle (not_le_of_gt (h first List.mem_cons_self))
      · rw [if_neg hle]
        apply iff_of_true rfl
        intro entry hmem
        have hfirst := lt_of_not_ge hle
        rcases List.mem_cons.mp hmem with heq | hmem
        · rw [heq]
          exact hfirst
        · exact lt_trans hfirst ((List.pairwise_cons.mp hsorted).1 entry hmem)

/-- The floor is an entry below the key that no other entry below the key exceeds. -/
theorem floor_eq_some {entries : List (κ × α)} (hsorted : Sorted entries) {key : κ}
    {entry : κ × α} (hfloor : floor key entries = some entry) :
    entry ∈ entries ∧ entry.1 ≤ key ∧ ∀ other ∈ entries, other.1 ≤ key → other.1 ≤ entry.1 := by
  induction entries generalizing entry with
  | nil => simp [floor] at hfloor
  | cons first rest ih =>
      obtain ⟨hfirst, hrest⟩ := List.pairwise_cons.mp hsorted
      rw [floor_cons] at hfloor
      by_cases hle : first.1 ≤ key
      · rw [if_pos hle, Option.some_inj] at hfloor
        cases hbelow : floor key rest with
        | none =>
            have hnone := (floor_eq_none_iff hrest key).mp hbelow
            rw [hbelow, Option.getD_none] at hfloor
            subst hfloor
            refine ⟨List.mem_cons_self, hle, ?_⟩
            intro other hmem hother
            rcases List.mem_cons.mp hmem with heq | hmem
            · exact le_of_eq (by rw [heq])
            · exact absurd hother (not_le_of_gt (hnone other hmem))
        | some last =>
            have hlast := ih hrest hbelow
            rw [hbelow, Option.getD_some] at hfloor
            subst hfloor
            refine ⟨List.mem_cons_of_mem _ hlast.1, hlast.2.1, ?_⟩
            intro other hmem hother
            rcases List.mem_cons.mp hmem with heq | hmem
            · rw [heq]
              exact le_of_lt (hfirst last hlast.1)
            · exact hlast.2.2 other hmem hother
      · rw [if_neg hle] at hfloor
        cases hfloor

end SortedMap

end EZLanguage
