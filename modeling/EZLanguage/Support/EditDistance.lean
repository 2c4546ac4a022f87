import Mathlib.Data.List.Forall2
import Mathlib.Order.MinMax
import Mathlib.Tactic.Common

/-!
# The edit distance of two lists

The least number of insertions, deletions and replacements that make one list of another, where an element
may stay in the place of another that counts as the same. The recursion takes the lists from the front;
scripts of edits show that it does not matter from which end they are taken.
-/

namespace EditDistance

variable {α : Type*} (same : α → α → Bool)

/-- The price of one element in the place of another. -/
def cost (x y : α) : Nat := if same x y then 0 else 1

def distance : List α → List α → Nat
  | [], ys => ys.length
  | x :: xs, [] => (x :: xs).length
  | x :: xs, y :: ys =>
      min (distance xs (y :: ys) + 1)
        (min (distance (x :: xs) ys + 1) (distance xs ys + cost same x y))
termination_by xs ys => xs.length + ys.length

@[simp] theorem distance_nil_left (ys : List α) : distance same [] ys = ys.length := by
  rw [distance]

@[simp] theorem distance_nil_right (xs : List α) : distance same xs [] = xs.length := by
  cases xs with
  | nil => exact distance_nil_left same []
  | cons x xs => rw [distance]

theorem distance_cons_cons (x y : α) (xs ys : List α) :
    distance same (x :: xs) (y :: ys) =
      min (distance same xs (y :: ys) + 1)
        (min (distance same (x :: xs) ys + 1) (distance same xs ys + cost same x y)) := by
  rw [distance]

/-! ### Scripts -/

/-- A way to make the second list of the first, and its price. -/
inductive Script : List α → List α → Nat → Prop where
  | nil : Script [] [] 0
  | delete {xs ys : List α} {n : Nat} (x : α) (h : Script xs ys n) : Script (x :: xs) ys (n + 1)
  | insert {xs ys : List α} {n : Nat} (y : α) (h : Script xs ys n) : Script xs (y :: ys) (n + 1)
  | replace {xs ys : List α} {n : Nat} (x y : α) (h : Script xs ys n) :
      Script (x :: xs) (y :: ys) (n + cost same x y)

variable {same}

theorem Script.deletes (xs : List α) : Script same xs [] xs.length := by
  induction xs with
  | nil => exact .nil
  | cons x xs ih => exact .delete x ih

theorem Script.inserts (ys : List α) : Script same [] ys ys.length := by
  induction ys with
  | nil => exact .nil
  | cons y ys ih => exact .insert y ih

/-- There is a script of that price. -/
theorem Script.exists_distance (xs ys : List α) : Script same xs ys (distance same xs ys) := by
  induction xs, ys using distance.induct with
  | case1 ys =>
      rw [distance_nil_left]
      exact .inserts ys
  | case2 x xs =>
      rw [distance_nil_right]
      exact .deletes (x :: xs)
  | case3 x xs y ys hdelete hinsert hreplace =>
      rw [distance_cons_cons]
      rcases min_choice (distance same xs (y :: ys) + 1)
        (min (distance same (x :: xs) ys + 1) (distance same xs ys + cost same x y)) with h | h
      · rw [h]
        exact .delete x hdelete
      · rw [h]
        rcases min_choice (distance same (x :: xs) ys + 1)
          (distance same xs ys + cost same x y) with h | h
        · rw [h]
          exact .insert y hinsert
        · rw [h]
          exact .replace x y hreplace

theorem distance_delete_le (x : α) (xs ys : List α) :
    distance same (x :: xs) ys ≤ distance same xs ys + 1 := by
  cases ys with
  | nil => simp
  | cons y ys =>
      rw [distance_cons_cons]
      exact min_le_left _ _

theorem distance_insert_le (y : α) (xs ys : List α) :
    distance same xs (y :: ys) ≤ distance same xs ys + 1 := by
  cases xs with
  | nil => simp
  | cons x xs =>
      rw [distance_cons_cons]
      exact (min_le_right _ _).trans (min_le_left _ _)

/-- No script is cheaper. -/
theorem Script.distance_le {xs ys : List α} {n : Nat} (h : Script same xs ys n) :
    distance same xs ys ≤ n := by
  induction h with
  | nil => simp
  | delete x _ ih => exact (distance_delete_le x _ _).trans (Nat.add_le_add_right ih 1)
  | insert y _ ih => exact (distance_insert_le y _ _).trans (Nat.add_le_add_right ih 1)
  | replace x y _ ih =>
      rw [distance_cons_cons]
      exact (min_le_right _ _).trans ((min_le_right _ _).trans (Nat.add_le_add_right ih _))

theorem Script.append {xs ys us vs : List α} {n m : Nat} (h : Script same xs ys n)
    (h' : Script same us vs m) : Script same (xs ++ us) (ys ++ vs) (n + m) := by
  induction h with
  | nil =>
      rw [Nat.zero_add]
      exact h'
  | delete x _ ih =>
      rw [Nat.add_right_comm]
      exact .delete x ih
  | insert y _ ih =>
      rw [Nat.add_right_comm]
      exact .insert y ih
  | replace x y _ ih =>
      rw [Nat.add_right_comm]
      exact .replace x y ih

theorem Script.reverse {xs ys : List α} {n : Nat} (h : Script same xs ys n) :
    Script same xs.reverse ys.reverse n := by
  induction h with
  | nil => exact .nil
  | delete x _ ih =>
      rw [List.reverse_cons, ← List.append_nil (List.reverse _)]
      simpa using ih.append (.delete x .nil)
  | insert y _ ih => simpa using ih.append (.insert y .nil)
  | replace x y _ ih => simpa using ih.append (.replace x y .nil)

/-- A script for a list in two parts makes a first part of the other list of the first. -/
theorem Script.split {xs us ys : List α} {n : Nat} (h : Script same (xs ++ us) ys n) :
    ∃ ps qs m, ys = ps ++ qs ∧ Script same xs ps m ∧ m ≤ n := by
  generalize hlist : xs ++ us = zs at h
  induction h generalizing xs with
  | nil =>
      obtain ⟨rfl, -⟩ := List.append_eq_nil_iff.mp hlist
      exact ⟨[], [], 0, rfl, .nil, le_refl 0⟩
  | delete x _ ih =>
      cases xs with
      | nil => exact ⟨[], _, 0, rfl, .nil, Nat.zero_le _⟩
      | cons x' xs =>
          obtain ⟨rfl, hrest⟩ := List.cons.inj hlist
          obtain ⟨ps, qs, m, hys, hscript, hm⟩ := ih hrest
          exact ⟨ps, qs, m + 1, hys, .delete x' hscript, Nat.add_le_add_right hm 1⟩
  | insert y _ ih =>
      obtain ⟨ps, qs, m, rfl, hscript, hm⟩ := ih hlist
      exact ⟨y :: ps, qs, m + 1, rfl, .insert y hscript, Nat.add_le_add_right hm 1⟩
  | replace x y _ ih =>
      cases xs with
      | nil => exact ⟨[], _, 0, rfl, .nil, Nat.zero_le _⟩
      | cons x' xs =>
          obtain ⟨rfl, hrest⟩ := List.cons.inj hlist
          obtain ⟨ps, qs, m, rfl, hscript, hm⟩ := ih hrest
          exact ⟨y :: ps, qs, m + cost same x' y, rfl, .replace x' y hscript,
            Nat.add_le_add_right hm _⟩

/-- A script adds or drops no more elements than it costs. -/
theorem Script.length_le {xs ys : List α} {n : Nat} (h : Script same xs ys n) :
    xs.length ≤ ys.length + n ∧ ys.length ≤ xs.length + n := by
  induction h with
  | nil => exact ⟨le_refl _, le_refl _⟩
  | delete x _ ih | insert y _ ih | replace x y _ ih =>
      simp only [List.length_cons]
      omega

/-! ### The distance from the other end -/

theorem distance_reverse (xs ys : List α) :
    distance same xs.reverse ys.reverse = distance same xs ys := by
  refine le_antisymm (Script.exists_distance xs ys).reverse.distance_le ?_
  have h := (@Script.exists_distance _ same xs.reverse ys.reverse).reverse.distance_le
  rwa [List.reverse_reverse, List.reverse_reverse] at h

theorem distance_snoc_snoc (x y : α) (xs ys : List α) :
    distance same (xs ++ [x]) (ys ++ [y]) =
      min (distance same xs (ys ++ [y]) + 1)
        (min (distance same (xs ++ [x]) ys + 1) (distance same xs ys + cost same x y)) := by
  rw [← distance_reverse (xs ++ [x]), ← distance_reverse xs (ys ++ [y]),
    ← distance_reverse (xs ++ [x]) ys, ← distance_reverse xs ys]
  simp only [List.reverse_append, List.reverse_singleton, List.singleton_append]
  exact distance_cons_cons same x y _ _

/-- Some first part of the second list is as near to a first part of the first as the lists are. -/
theorem exists_cut (xs us ys : List α) :
    ∃ ps qs, ys = ps ++ qs ∧ distance same xs ps ≤ distance same (xs ++ us) ys := by
  obtain ⟨ps, qs, m, hys, hscript, hm⟩ :=
    (@Script.exists_distance _ same (xs ++ us) ys).split
  exact ⟨ps, qs, hys, hscript.distance_le.trans hm⟩

theorem length_le_distance (xs ys : List α) :
    xs.length ≤ ys.length + distance same xs ys ∧ ys.length ≤ xs.length + distance same xs ys :=
  (Script.exists_distance xs ys).length_le

/-- Replacing and then adding or dropping the rest is a script. -/
theorem distance_le_max (xs ys : List α) : distance same xs ys ≤ max xs.length ys.length := by
  induction xs, ys using distance.induct with
  | case1 ys => simp
  | case2 x xs => simp
  | case3 x xs y ys _ _ hreplace =>
      have hstep := (@Script.exists_distance _ same xs ys).replace x y |>.distance_le
      have hcost : cost same x y ≤ 1 := by
        unfold cost
        split <;> omega
      simp only [List.length_cons]
      omega

/-- The lists that are made of each other by no edit. -/
theorem distance_eq_zero_iff {xs ys : List α} :
    distance same xs ys = 0 ↔ List.Forall₂ (fun x y => same x y = true) xs ys := by
  induction xs, ys using distance.induct with
  | case1 ys => cases ys <;> simp
  | case2 x xs => simp
  | case3 x xs y ys _ _ hreplace =>
      rw [distance_cons_cons, List.forall₂_cons, ← hreplace]
      have hcost : cost same x y = 0 ↔ same x y = true := by
        unfold cost
        split <;> simp [*]
      rw [← hcost]
      omega

end EditDistance
