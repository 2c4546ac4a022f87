import EZLanguage.Support.Search
import Mathlib.Data.List.Infix
import Mathlib.Data.List.TakeWhile
import Mathlib.Tactic.Common

/-!
# References to environment variables

`expand` replaces the references to variables in a text. It does so in place, with an index into the text
that grows and shrinks under it; what it comes to is one pass over the text that never looks at a value
again.
-/

namespace EZLanguage

namespace OSEnv

abbrev Text := List Char

/-- `indexOf(s, c)` for one character. -/
def indexOf (c : Char) (s : Text) : Option Nat := s.findIdx? (· == c)

/-! ### References to variables -/

/-- `OSEnv.get`: nothing for a variable that is not set. -/
abbrev Variables := Text → Option Text

/-- The loop of `expand` without the system call. The index is the one at the head of the next turn: where
the source subtracts one from it, the end of the turn adds one again. -/
def expandLoop (get : Variables) : Nat → Text → Nat → Option Text
  | 0, _, _ => none
  | fuel + 1, res, i =>
      if i < res.length then
        if (res.drop i).take 2 = ['$', '{'] then
          match indexOf '}' (res.drop (i + 2)) with
          | some endIdx =>
              let varVal := (get ((res.drop (i + 2)).take endIdx)).getD []
              expandLoop get fuel (res.take i ++ varVal ++ res.drop (i + 2 + endIdx + 1))
                (i + varVal.length)
          | none => expandLoop get fuel res (i + 1)
        else if (res.drop i).take 1 = ['%'] then
          match indexOf '%' (res.drop (i + 1)) with
          | some endIdx =>
              match get ((res.drop (i + 1)).take endIdx) with
              | some varVal =>
                  expandLoop get fuel (res.take i ++ varVal ++ res.drop (i + 1 + endIdx + 1))
                    (i + varVal.length)
              | none => expandLoop get fuel res (i + 1)
          | none => expandLoop get fuel res (i + 1)
        else expandLoop get fuel res (i + 1)
      else some res

example (get : Variables) : expandLoop get 1 [] 0 = some [] := by simp [expandLoop]

def expand (get : Variables) (input : Text) : Option Text := expandLoop get (input.length + 1) input 0

/-- What a text begins with, for `expand`. -/
inductive Head where
  /-- A reference, with the text that stands for it and the number of its characters. -/
  | reference (value : Text) (size : Nat)
  | plain

/-- The reference at the front of a text. -/
def head (get : Variables) (s : Text) : Head :=
  if s.take 2 = ['$', '{'] then
    match indexOf '}' (s.drop 2) with
    | some endIdx => .reference ((get ((s.drop 2).take endIdx)).getD []) (endIdx + 3)
    | none => .plain
  else if s.take 1 = ['%'] then
    match indexOf '%' (s.drop 1) with
    | some endIdx =>
        match get ((s.drop 1).take endIdx) with
        | some value => .reference value (endIdx + 2)
        | none => .plain
    | none => .plain
  else .plain

/-- One pass: a reference goes for its value, and the pass goes on behind it. -/
def onePass (get : Variables) (s : Text) : Text :=
  match s with
  | [] => []
  | c :: rest =>
      match head get (c :: rest) with
      | .reference value size => value ++ onePass get (rest.drop (size - 1))
      | .plain => c :: onePass get rest
termination_by s.length

variable {get : Variables}

theorem head_size {s value : Text} {size : Nat} (h : head get s = .reference value size) :
    2 ≤ size ∧ size ≤ s.length := by
  have hindex {c : Char} {t : Text} {n : Nat} (hn : indexOf c t = some n) : n < t.length :=
    (List.findIdx?_eq_some_iff_findIdx_eq.mp hn).1
  unfold head at h
  split_ifs at h with hbrace hpercent
  · split at h
    · next endIdx hend =>
        have hlt := hindex hend
        rw [List.length_drop] at hlt
        cases h
        omega
    · cases h
  · split at h
    · next endIdx hend =>
        have hlt := hindex hend
        rw [List.length_drop] at hlt
        split at h
        · cases h
          omega
        · cases h
    · cases h

/-- A turn of the loop at a reference. -/
theorem expandLoop_reference {res value : Text} {i size fuel : Nat} (hi : i < res.length)
    (hhead : head get (res.drop i) = .reference value size) :
    expandLoop get (fuel + 1) res i =
      expandLoop get fuel (res.take i ++ value ++ res.drop (i + size)) (i + value.length) := by
  rw [expandLoop, if_pos hi]
  unfold head at hhead
  simp only [List.drop_drop] at hhead
  split_ifs at hhead ⊢ with hbrace hpercent
  · split at hhead
    · next endIdx hend =>
        cases hhead
        rw [show i + (endIdx + 3) = i + 2 + endIdx + 1 by omega]
    · cases hhead
  · split at hhead
    · next endIdx hend =>
        split at hhead
        · next found hfound =>
            cases hhead
            rw [show i + (endIdx + 2) = i + 1 + endIdx + 1 by omega]
        · cases hhead
    · cases hhead

/-- A turn of the loop at any other character. -/
theorem expandLoop_plain {res : Text} {i fuel : Nat} (hi : i < res.length)
    (hhead : head get (res.drop i) = .plain) :
    expandLoop get (fuel + 1) res i = expandLoop get fuel res (i + 1) := by
  rw [expandLoop, if_pos hi]
  unfold head at hhead
  simp only [List.drop_drop] at hhead
  split_ifs at hhead ⊢ with hbrace hpercent
  · split at hhead
    · cases hhead
    · next hend => simp only [hend]
  · split at hhead
    · next endIdx hend =>
        split at hhead
        · cases hhead
        · next hfound => simp only [hend, hfound]
    · next hend => simp only [hend]
  · rfl

theorem onePass_reference {c : Char} {rest value : Text} {size : Nat}
    (hhead : head get (c :: rest) = .reference value size) :
    onePass get (c :: rest) = value ++ onePass get ((c :: rest).drop size) := by
  obtain ⟨n, rfl⟩ : ∃ n, size = n + 1 := ⟨size - 1, by have := (head_size hhead).1; omega⟩
  rw [onePass, hhead]
  rfl

theorem onePass_plain {c : Char} {rest : Text} (hhead : head get (c :: rest) = .plain) :
    onePass get (c :: rest) = c :: onePass get rest := by
  rw [onePass, hhead]

/-- The loop with some text done and some left comes to what is done and one pass over the rest. -/
theorem expandLoop_done (fuel : Nat) :
    ∀ done rest : Text, rest.length < fuel →
      expandLoop get fuel (done ++ rest) done.length = some (done ++ onePass get rest) := by
  induction fuel with
  | zero => exact fun _ _ h => absurd h (Nat.not_lt_zero _)
  | succ fuel ih =>
      intro done rest hfuel
      cases rest with
      | nil =>
          rw [expandLoop, if_neg (by simp), onePass]
      | cons c rest =>
          have hi : done.length < (done ++ c :: rest).length := by simp
          have hdrop : (done ++ c :: rest).drop done.length = c :: rest := List.drop_left
          cases hhead : head get (c :: rest) with
          | reference value size =>
              have hsize := head_size hhead
              rw [expandLoop_reference hi (by rw [hdrop]; exact hhead), onePass_reference hhead, List.take_left,
                ← List.drop_drop, hdrop, ← List.length_append, ← List.append_assoc]
              apply ih
              rw [List.length_drop]
              omega
          | plain =>
              have hsnoc : done ++ c :: rest = (done ++ [c]) ++ rest := by
                rw [List.append_assoc]
                rfl
              rw [expandLoop_plain hi (by rw [hdrop]; exact hhead), onePass_plain hhead, hsnoc]
              have hrest := ih (done ++ [c]) rest (by simpa using hfuel)
              rw [List.length_append] at hrest
              rw [show done.length + 1 = done.length + [c].length from rfl, hrest, List.append_assoc]
              rfl

/-- `expand` ends on every text, and no value it puts in is looked at again. -/
theorem expand_eq_onePass (get : Variables) (input : Text) :
    expand get input = some (onePass get input) :=
  expandLoop_done (input.length + 1) [] input (Nat.lt_succ_self _)

end OSEnv

end EZLanguage
