import Mathlib.Data.List.Basic
import Mathlib.Data.List.Infix

/-!
# Searching a list for another

The first place from a given one on where a list has another as a part, and the cutting of a list at the
leftmost places that do not overlap. What is cut can be put together again with the same or with another
list between the pieces.
-/

namespace EZLanguage

namespace Search

variable {α : Type*} [DecidableEq α]

/-- The first place where `part` stands in a list. -/
def first (part : List α) : List α → Option Nat
  | [] => if part = [] then some 0 else none
  | x :: s => if part <+: x :: s then some 0 else (first part s).map (· + 1)

/-- The first place from `pos` on. -/
def find (part s : List α) (pos : Nat) : Option Nat :=
  if pos ≤ s.length then (first part (s.drop pos)).map (pos + ·) else none

theorem first_eq_none_iff (part s : List α) :
    first part s = none ↔ ∀ i ≤ s.length, ¬ part <+: s.drop i := by
  induction s with
  | nil => simp [first]
  | cons x s ih =>
      rw [first]
      by_cases hhere : part <+: x :: s
      · rw [if_pos hhere]
        constructor
        · intro h
          cases h
        · intro h
          exact absurd hhere (h 0 (Nat.zero_le _))
      · rw [if_neg hhere, Option.map_eq_none_iff, ih]
        constructor
        · intro h i hi
          cases i with
          | zero => exact hhere
          | succ i => exact h i (Nat.le_of_succ_le_succ hi)
        · intro h i hi
          exact h (i + 1) (Nat.succ_le_succ hi)

theorem first_eq_some_iff (part s : List α) (i : Nat) :
    first part s = some i ↔
      i ≤ s.length ∧ part <+: s.drop i ∧ ∀ j < i, ¬ part <+: s.drop j := by
  induction s generalizing i with
  | nil =>
      rw [first]
      by_cases hempty : part = []
      · subst hempty
        cases i <;> simp
      · cases i <;> simp [hempty]
  | cons x s ih =>
      rw [first]
      by_cases hhere : part <+: x :: s
      · rw [if_pos hhere]
        constructor
        · intro h
          obtain rfl := Option.some.inj h
          exact ⟨Nat.zero_le _, hhere, fun j hj => absurd hj (Nat.not_lt_zero j)⟩
        · rintro ⟨-, -, hleast⟩
          cases i with
          | zero => rfl
          | succ i => exact absurd hhere (hleast 0 (Nat.succ_pos i))
      · rw [if_neg hhere]
        cases i with
        | zero => simp [hhere]
        | succ i =>
            rw [Option.map_eq_some_iff]
            constructor
            · rintro ⟨i', hi', heq⟩
              obtain rfl : i' = i := by omega
              obtain ⟨hle, hpart, hleast⟩ := (ih i').mp hi'
              refine ⟨Nat.succ_le_succ hle, hpart, ?_⟩
              intro j hj
              cases j with
              | zero => exact hhere
              | succ j => exact hleast j (Nat.lt_of_succ_lt_succ hj)
            · rintro ⟨hle, hpart, hleast⟩
              refine ⟨i, (ih i).mpr ⟨Nat.le_of_succ_le_succ hle, hpart, ?_⟩, rfl⟩
              intro j hj
              exact hleast (j + 1) (Nat.succ_lt_succ hj)

theorem find_eq_none_iff {part s : List α} {pos : Nat} (hpos : pos ≤ s.length) :
    find part s pos = none ↔ ∀ i, pos ≤ i → i ≤ s.length → ¬ part <+: s.drop i := by
  rw [find, if_pos hpos, Option.map_eq_none_iff, first_eq_none_iff]
  constructor
  · intro h i hle hi
    have hplace := h (i - pos) (by rw [List.length_drop]; omega)
    rwa [List.drop_drop, Nat.add_sub_cancel' hle] at hplace
  · intro h i hi
    rw [List.length_drop] at hi
    rw [List.drop_drop]
    exact h (pos + i) (by omega) (by omega)

theorem find_eq_some_iff {part s : List α} {pos : Nat} (hpos : pos ≤ s.length) (i : Nat) :
    find part s pos = some i ↔
      pos ≤ i ∧ i ≤ s.length ∧ part <+: s.drop i ∧
        ∀ j, pos ≤ j → j < i → ¬ part <+: s.drop j := by
  rw [find, if_pos hpos, Option.map_eq_some_iff]
  constructor
  · rintro ⟨k, hk, rfl⟩
    obtain ⟨hle, hpart, hleast⟩ := (first_eq_some_iff _ _ _).mp hk
    rw [List.length_drop] at hle
    rw [List.drop_drop] at hpart
    refine ⟨Nat.le_add_right _ _, by omega, hpart, ?_⟩
    intro j hle' hj
    have hplace := hleast (j - pos) (by omega)
    rwa [List.drop_drop, Nat.add_sub_cancel' hle'] at hplace
  · rintro ⟨hle, hi, hpart, hleast⟩
    refine ⟨i - pos, (first_eq_some_iff _ _ _).mpr ⟨?_, ?_, ?_⟩, Nat.add_sub_cancel' hle⟩
    · rw [List.length_drop]
      omega
    · rwa [List.drop_drop, Nat.add_sub_cancel' hle]
    · intro j hj
      rw [List.drop_drop]
      exact hleast (pos + j) (by omega) (by omega)

/-- Where a part is found there is room for it. -/
theorem find_bounds {part s : List α} {pos i : Nat} (h : find part s pos = some i) :
    pos ≤ i ∧ i + part.length ≤ s.length := by
  have hpos : pos ≤ s.length := by
    by_contra hgt
    rw [find, if_neg hgt] at h
    cases h
  obtain ⟨hle, hi, hpart, -⟩ := (find_eq_some_iff hpos i).mp h
  have hlength := hpart.length_le
  rw [List.length_drop] at hlength
  omega

/-! ### Cutting at the places that are found -/

/-- The list between the pieces. -/
def join (glue : List α) : List (List α) → List α
  | [] => []
  | piece :: pieces => piece ++ pieces.flatMap (glue ++ ·)

/-- The pieces between the leftmost places of a part that do not overlap. -/
def pieces (part : List α) (hpart : part ≠ []) (s : List α) : List (List α) :=
  match _h : first part s with
  | some i => s.take i :: pieces part hpart (s.drop (i + part.length))
  | none => [s]
termination_by s.length
decreasing_by
  have hpos := List.length_pos_iff.mpr hpart
  obtain ⟨hle, hprefix, -⟩ := (first_eq_some_iff part s i).mp _h
  have hlength := hprefix.length_le
  rw [List.length_drop] at hlength ⊢
  omega

variable {part : List α} (hpart : part ≠ [])

theorem pieces_of_none {s : List α} (h : first part s = none) : pieces part hpart s = [s] := by
  rw [pieces.eq_def]
  split
  · next i hi => rw [hi] at h; cases h
  · rfl

theorem pieces_of_some {s : List α} {i : Nat} (h : first part s = some i) :
    pieces part hpart s = s.take i :: pieces part hpart (s.drop (i + part.length)) := by
  rw [pieces.eq_def]
  split
  · next i' hi =>
      rw [hi] at h
      obtain rfl := Option.some.inj h
      rfl
  · next hnone => rw [hnone] at h; cases h

theorem pieces_ne_nil (s : List α) : pieces part hpart s ≠ [] := by
  rw [pieces.eq_def]
  split <;> exact List.cons_ne_nil _ _

omit [DecidableEq α] in
theorem join_cons (glue piece : List α) {pieces : List (List α)} (h : pieces ≠ []) :
    join glue (piece :: pieces) = piece ++ glue ++ join glue pieces := by
  cases pieces with
  | nil => exact absurd rfl h
  | cons piece' pieces => simp [join]

include hpart in
/-- Induction along the cutting. -/
theorem pieces_induction {motive : List α → Prop}
    (whole : ∀ s, first part s = none → motive s)
    (cut : ∀ s i, first part s = some i → motive (s.drop (i + part.length)) → motive s)
    (s : List α) : motive s := by
  induction s using (measure List.length).wf.induction with
  | _ s ih =>
      cases h : first part s with
      | none => exact whole s h
      | some i =>
          obtain ⟨hle, hprefix, -⟩ := (first_eq_some_iff part s i).mp h
          have hpos := List.length_pos_iff.mpr hpart
          have hlength := hprefix.length_le
          apply cut s i h
          apply ih
          change (s.drop (i + part.length)).length < s.length
          rw [List.length_drop] at hlength ⊢
          omega

/-- The pieces with the part between them are the list. -/
theorem join_pieces (s : List α) : join part (pieces part hpart s) = s := by
  induction s using pieces_induction hpart with
  | whole s h => rw [pieces_of_none hpart h, join, List.flatMap_nil, List.append_nil]
  | cut s i h ih =>
      obtain ⟨-, hprefix, -⟩ := (first_eq_some_iff part s i).mp h
      obtain ⟨rest, hrest⟩ := hprefix
      have hdrop : s.drop (i + part.length) = rest := by
        rw [← List.drop_drop, ← hrest, List.drop_left]
      rw [pieces_of_some hpart h, join_cons _ _ (pieces_ne_nil hpart _), ih, hdrop, List.append_assoc,
        hrest, List.take_append_drop]

/-- No piece has the part in it. -/
theorem not_infix_of_mem_pieces (s : List α) : ∀ piece ∈ pieces part hpart s, ¬ part <:+: piece := by
  induction s using pieces_induction hpart with
  | whole s h =>
      intro piece hmem hinfix
      rw [pieces_of_none hpart h, List.mem_singleton] at hmem
      subst hmem
      obtain ⟨front, back, rfl⟩ := hinfix
      apply (first_eq_none_iff _ _).mp h front.length (by simp)
      rw [List.append_assoc, List.drop_left]
      exact List.prefix_append _ _
  | cut s i h ih =>
      intro piece hmem hinfix
      rw [pieces_of_some hpart h] at hmem
      obtain rfl | hlater := List.mem_cons.mp hmem
      · obtain ⟨-, -, hleast⟩ := (first_eq_some_iff part s i).mp h
        obtain ⟨front, back, hsplit⟩ := hinfix
        have hpos := List.length_pos_iff.mpr hpart
        have hlength := congrArg List.length hsplit
        rw [List.length_append, List.length_append, List.length_take] at hlength
        apply hleast front.length (by omega)
        rw [← List.take_append_drop i s, ← hsplit, List.append_assoc, List.append_assoc, List.drop_left]
        exact List.prefix_append _ _
      · exact ih piece hlater hinfix

/-- The leftmost places of a part that do not overlap, from `pos` on. -/
inductive Leftmost (part s : List α) : Nat → List Nat → Prop
  | none {pos : Nat} : (∀ i, pos ≤ i → i ≤ s.length → ¬ part <+: s.drop i) → Leftmost part s pos []
  | some {pos i : Nat} {places : List Nat} : pos ≤ i → i ≤ s.length → part <+: s.drop i →
      (∀ j, pos ≤ j → j < i → ¬ part <+: s.drop j) → Leftmost part s (i + part.length) places →
      Leftmost part s pos (i :: places)

/-- There is one piece more than there are places. -/
theorem length_pieces {s : List α} {pos : Nat} {places : List Nat} (hpos : pos ≤ s.length)
    (h : Leftmost part s pos places) :
    (pieces part hpart (s.drop pos)).length = places.length + 1 := by
  induction h with
  | @none pos hnone =>
      have hfind := (find_eq_none_iff hpos).mpr hnone
      rw [find, if_pos hpos, Option.map_eq_none_iff] at hfind
      rw [pieces_of_none hpart hfind]
      rfl
  | @some pos i places hle hi hprefix hleast hrest ih =>
      have hfind := (find_eq_some_iff hpos i).mpr ⟨hle, hi, hprefix, hleast⟩
      have hroom := (find_bounds hfind).2
      rw [find, if_pos hpos, Option.map_eq_some_iff] at hfind
      obtain ⟨k, hk, rfl⟩ := hfind
      have hnext := ih hroom
      rw [pieces_of_some hpart hk, List.length_cons, List.length_cons, List.drop_drop,
        ← Nat.add_assoc, hnext]

include hpart in
/-- There always are such places. -/
theorem exists_leftmost (s : List α) (pos : Nat) (hpos : pos ≤ s.length) :
    ∃ places, Leftmost part s pos places := by
  cases hfind : find part s pos with
  | none => exact ⟨[], .none ((find_eq_none_iff hpos).mp hfind)⟩
  | some i =>
      obtain ⟨hle, hi, hprefix, hleast⟩ := (find_eq_some_iff hpos i).mp hfind
      have hroom := (find_bounds hfind).2
      have hlength := List.length_pos_iff.mpr hpart
      obtain ⟨places, hplaces⟩ := exists_leftmost s (i + part.length) hroom
      exact ⟨i :: places, .some hle hi hprefix hleast hplaces⟩
termination_by s.length - pos
decreasing_by omega

/-! ### Joined pieces -/

/-- A part is found first behind what does not have its first element. -/
theorem first_append {part : List α} (hpart : part ≠ []) {front : List α}
    (hfront : ∀ x ∈ front, part.head? ≠ some x) (after : List α) :
    first part (front ++ (part ++ after)) = some front.length := by
  apply (first_eq_some_iff _ _ _).mpr
  refine ⟨by simp, ?_, ?_⟩
  · rw [List.drop_left]
    exact List.prefix_append _ _
  · intro j hj hprefix
    obtain ⟨x, rest, rfl⟩ := List.exists_cons_of_ne_nil hpart
    rw [List.drop_append_of_le_length (Nat.le_of_lt hj), List.drop_eq_getElem_cons hj,
      List.cons_append] at hprefix
    apply hfront front[j] (List.getElem_mem hj)
    rw [List.head?_cons, (List.cons_prefix_cons.mp hprefix).1]

theorem first_eq_none_of_head {part : List α} (hpart : part ≠ []) {s : List α}
    (hs : ∀ x ∈ s, part.head? ≠ some x) : first part s = none := by
  apply (first_eq_none_iff _ _).mpr
  intro i hi hstarts
  obtain ⟨x, rest, rfl⟩ := List.exists_cons_of_ne_nil hpart
  have hmem : x ∈ s := List.mem_of_mem_drop (hstarts.subset List.mem_cons_self)
  exact hs x hmem rfl

/-- Joined pieces that do not have the first element of the part are cut apart again. -/
theorem pieces_join {part : List α} (hpart : part ≠ []) {parts : List (List α)} (hne : parts ≠ [])
    (hparts : ∀ piece ∈ parts, ∀ x ∈ piece, part.head? ≠ some x) :
    pieces part hpart (join part parts) = parts := by
  induction parts with
  | nil => exact absurd rfl hne
  | cons piece parts ih =>
      have hpiece := hparts piece List.mem_cons_self
      cases parts with
      | nil =>
          rw [join, List.flatMap_nil, List.append_nil]
          exact pieces_of_none hpart (first_eq_none_of_head hpart hpiece)
      | cons next parts =>
          have hrest := ih (List.cons_ne_nil _ _)
            fun p hmem => hparts p (List.mem_cons_of_mem _ hmem)
          rw [join_cons _ _ (List.cons_ne_nil _ _), List.append_assoc,
            pieces_of_some hpart (first_append hpart hpiece _), List.take_left,
            ← List.append_assoc, ← List.length_append, List.drop_left, hrest]

/-- Cutting at an element and joining without a glue takes the element out. -/
theorem join_nil_pieces (c : α) (s : List α) :
    join [] (pieces [c] (List.cons_ne_nil c []) s) = s.filter (· ≠ c) := by
  have hwithout : ∀ front : List α, c ∉ front → front.filter (· ≠ c) = front := by
    intro front hfront
    apply List.filter_eq_self.mpr
    intro x hx
    apply decide_eq_true
    rintro rfl
    exact hfront hx
  induction s using pieces_induction (List.cons_ne_nil c []) with
  | whole s h =>
      rw [pieces_of_none _ h, join, List.flatMap_nil, List.append_nil, hwithout]
      intro hmem
      obtain ⟨front, back, rfl⟩ := List.append_of_mem hmem
      apply (first_eq_none_iff _ _).mp h front.length (by simp)
      rw [List.drop_left]
      exact ⟨back, rfl⟩
  | cut s i h ih =>
      obtain ⟨hi, hprefix, hleast⟩ := (first_eq_some_iff _ s i).mp h
      obtain ⟨rest, hrest⟩ := hprefix
      have hfront : c ∉ s.take i := by
        intro hmem
        obtain ⟨j, hj, hget⟩ := List.getElem_of_mem hmem
        rw [List.length_take] at hj
        rw [List.getElem_take] at hget
        apply hleast j (by omega)
        rw [List.drop_eq_getElem_cons (by omega), hget]
        exact ⟨_, rfl⟩
      have hdrop : s.drop (i + [c].length) = rest := by
        rw [← List.drop_drop, ← hrest, List.drop_left]
      rw [pieces_of_some _ h, join_cons _ _ (pieces_ne_nil _ _), ih, hdrop, List.append_nil]
      have hsplit := List.take_append_drop i s
      rw [← hrest] at hsplit
      conv_rhs => rw [← hsplit, List.filter_append, List.filter_append, hwithout _ hfront]
      simp

end Search

end EZLanguage
