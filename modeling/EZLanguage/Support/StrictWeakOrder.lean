import Mathlib.Data.List.Forall2
import Mathlib.Data.List.Perm.Basic

/-!
# Strict weak orders on the elements of a list

A comparison that need not order all values, only those of a list. Where it does, being sorted determines
a list up to the exchange of elements neither of which comes first, and there is a sorted list.
-/

namespace EZLanguage

namespace StrictWeak

variable {α : Type*} (less : α → α → Bool)

/-- The comparison is a strict weak order on the elements of a list. -/
structure StrictWeakOn (xs : List α) : Prop where
  irrefl : ∀ a ∈ xs, less a a = false
  trans : ∀ a ∈ xs, ∀ b ∈ xs, ∀ c ∈ xs, less a b = true → less b c = true → less a c = true
  incomp : ∀ a ∈ xs, ∀ b ∈ xs, ∀ c ∈ xs, less a b = false → less b a = false →
    less b c = false → less c b = false → less a c = false ∧ less c a = false

/-- Neither of two elements comes first. -/
def Equivalent (a b : α) : Prop := less a b = false ∧ less b a = false

/-- No later element compares less than an earlier one. -/
def Sorted (xs : List α) : Prop := xs.Pairwise fun a b => less b a = false

variable {less}

theorem StrictWeakOn.asymm {xs : List α} (h : StrictWeakOn less xs) {a b : α} (ha : a ∈ xs)
    (hb : b ∈ xs) (hab : less a b = true) : less b a = false := by
  rw [← Bool.not_eq_true]
  intro hba
  have haa := h.trans a ha b hb a ha hab hba
  rw [h.irrefl a ha] at haa
  cases haa

/-- An element between two others in the order of the list is beside one of them. -/
theorem StrictWeakOn.split {xs : List α} (h : StrictWeakOn less xs) {a b c : α} (ha : a ∈ xs)
    (hb : b ∈ xs) (hc : c ∈ xs) (hab : less a b = true) : less a c = true ∨ less c b = true := by
  by_contra hneither
  rw [not_or, Bool.not_eq_true, Bool.not_eq_true] at hneither
  obtain ⟨hac, hcb⟩ := hneither
  by_cases hca : less c a = true
  · rw [h.trans c hc a ha b hb hca hab] at hcb
    cases hcb
  by_cases hbc : less b c = true
  · rw [h.trans a ha b hb c hc hab hbc] at hac
    cases hac
  · have hincomp := h.incomp a ha c hc b hb hac (by simpa using hca) hcb (by simpa using hbc)
    rw [hincomp.1] at hab
    cases hab

/-- Asymmetry and the splitting of every comparison make a strict weak order. -/
theorem strictWeakOn_of_split {xs : List α}
    (hasymm : ∀ a ∈ xs, ∀ b ∈ xs, less a b = true → less b a = false)
    (hsplit : ∀ a ∈ xs, ∀ b ∈ xs, ∀ c ∈ xs, less a b = true → less a c = true ∨ less c b = true) :
    StrictWeakOn less xs := by
  have hirrefl : ∀ a ∈ xs, less a a = false := by
    intro a ha
    rw [← Bool.not_eq_true]
    intro haa
    rw [hasymm a ha a ha haa] at haa
    cases haa
  refine ⟨hirrefl, ?_, ?_⟩
  · intro a ha b hb c hc hab hbc
    obtain hac | hcb := hsplit a ha b hb c hc hab
    · exact hac
    · rw [hasymm b hb c hc hbc] at hcb
      cases hcb
  · intro a ha b hb c hc hab hba hbc hcb
    constructor
    · rw [← Bool.not_eq_true]
      intro hac
      obtain h | h := hsplit a ha c hc b hb hac
      · rw [hab] at h
        cases h
      · rw [hbc] at h
        cases h
    · rw [← Bool.not_eq_true]
      intro hca
      obtain h | h := hsplit c hc a ha b hb hca
      · rw [hcb] at h
        cases h
      · rw [hba] at h
        cases h

theorem StrictWeakOn.perm {xs ys : List α} (h : StrictWeakOn less xs) (hperm : ys.Perm xs) :
    StrictWeakOn less ys := by
  have hmem : ∀ a ∈ ys, a ∈ xs := fun a ha => hperm.mem_iff.mp ha
  exact ⟨fun a ha => h.irrefl a (hmem a ha),
    fun a ha b hb c hc => h.trans a (hmem a ha) b (hmem b hb) c (hmem c hc),
    fun a ha b hb c hc => h.incomp a (hmem a ha) b (hmem b hb) c (hmem c hc)⟩

theorem Sorted.not_less {ys : List α} (hsorted : Sorted less ys) (hirrefl : ∀ a ∈ ys, less a a = false)
    {i j : Nat} (hij : i ≤ j) (hj : j < ys.length) : less ys[j] ys[i] = false := by
  obtain hlt | rfl := Nat.lt_or_eq_of_le hij
  · exact List.pairwise_iff_getElem.mp hsorted i j (by omega) hj hlt
  · exact hirrefl _ (List.getElem_mem hj)

/-- At each place of two sorted lists with the same elements neither element comes first: the elements
below the later one would be more in one list than in the other. -/
theorem not_less_at {ys zs : List α} (h : StrictWeakOn less ys) (hperm : zs.Perm ys)
    (hys : Sorted less ys) (hzs : Sorted less zs) {i : Nat} (hi : i < ys.length)
    (hi' : i < zs.length) : less ys[i] zs[i] = false := by
  have hz := h.perm hperm
  rw [← Bool.not_eq_true]
  intro hless
  have hin : zs[i] ∈ ys := hperm.mem_iff.mp (List.getElem_mem hi')
  have hbelow : ∀ a ∈ ys.take (i + 1), less a zs[i] = true := by
    intro a ha
    obtain ⟨j, hj, rfl⟩ := List.mem_iff_getElem.mp ha
    rw [List.length_take] at hj
    rw [List.getElem_take]
    have hji := hys.not_less h.irrefl (i := j) (j := i) (by omega) hi
    obtain hbad | hgood := h.split (List.getElem_mem hi) hin
      (List.getElem_mem (show j < ys.length by omega)) hless
    · rw [hji] at hbad
      cases hbad
    · exact hgood
  have habove : ∀ a ∈ zs.drop i, ¬ less a zs[i] = true := by
    intro a ha
    obtain ⟨j, hj, rfl⟩ := List.mem_iff_getElem.mp ha
    rw [List.length_drop] at hj
    rw [List.getElem_drop, Bool.not_eq_true]
    exact hzs.not_less hz.irrefl (i := i) (j := i + j) (by omega) (by omega)
  have hmany : i + 1 ≤ ys.countP fun a => less a zs[i] := by
    have hall : (ys.take (i + 1)).countP (fun a => less a zs[i]) = (ys.take (i + 1)).length :=
      List.countP_eq_length.mpr hbelow
    have hle := (List.take_sublist (i + 1) ys).countP_le (p := fun a => less a zs[i])
    rw [hall, List.length_take] at hle
    omega
  have hfew : zs.countP (fun a => less a zs[i]) ≤ i := by
    have hnone : (zs.drop i).countP (fun a => less a zs[i]) = 0 := List.countP_eq_zero.mpr habove
    have hsplit : zs.countP (fun a => less a zs[i]) =
        (zs.take i).countP (fun a => less a zs[i]) + (zs.drop i).countP (fun a => less a zs[i]) := by
      rw [← List.countP_append, List.take_append_drop]
    have hle := List.countP_le_length (p := fun a => less a zs[i]) (l := zs.take i)
    rw [List.length_take] at hle
    omega
  rw [hperm.countP_eq] at hfew
  omega

/-- Sorted lists with the same elements agree up to equivalent elements. -/
theorem forall₂_equivalent {ys zs : List α} (h : StrictWeakOn less ys) (hperm : zs.Perm ys)
    (hys : Sorted less ys) (hzs : Sorted less zs) : List.Forall₂ (Equivalent less) ys zs := by
  rw [List.forall₂_iff_get]
  refine ⟨hperm.length_eq.symm, ?_⟩
  intro i hi hi'
  exact ⟨not_less_at h hperm hys hzs hi hi', not_less_at (h.perm hperm) hperm.symm hzs hys hi' hi⟩

variable (less)

/-- A sort of the elements of a list, which compares no other values. -/
def sortElements (xs : List α) : List α :=
  (xs.attach.mergeSort fun a b => !less b.1 a.1).map Subtype.val

theorem perm_sortElements (xs : List α) : (sortElements less xs).Perm xs := by
  have hperm := (List.mergeSort_perm xs.attach fun a b => !less b.1 a.1).map Subtype.val
  rwa [List.attach_map_subtype_val] at hperm

theorem sorted_sortElements {xs : List α} (h : StrictWeakOn less xs) :
    Sorted less (sortElements less xs) := by
  have hsorted : (xs.attach.mergeSort fun a b => !less b.1 a.1).Pairwise
      fun a b => (!less b.1 a.1) = true := by
    apply List.pairwise_mergeSort
    · intro a b c hab hbc
      rw [Bool.not_eq_true'] at hab hbc ⊢
      rw [← Bool.not_eq_true]
      intro hca
      obtain hcb | hba := h.split c.2 a.2 b.2 hca
      · rw [hbc] at hcb
        cases hcb
      · rw [hab] at hba
        cases hba
    · intro a b
      by_cases hba : less b.1 a.1 = true
      · rw [h.asymm b.2 a.2 hba, hba]
        rfl
      · rw [Bool.not_eq_true] at hba
        rw [hba]
        rfl
  rw [Sorted, sortElements, List.pairwise_map]
  exact hsorted.imp fun hab => by simpa using hab

end StrictWeak

end EZLanguage
