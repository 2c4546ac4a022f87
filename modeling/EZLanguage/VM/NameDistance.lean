import Mathlib.Algebra.GroupWithZero.Nat
import Mathlib.Algebra.Group.Int.Defs
import EZLanguage.Runtime.SecurityPolicy
import EZLanguage.Support.EditDistance

/-!
# How near two names are

The distance by which the VM finds a name that was meant. The table is filled row by row, one row for each
byte of the first name, and given up when no cell of a row is within the limit. Sizes and the limit are
`size_t`: the sums of the length filter and the answer behind the limit wrap.
-/

namespace EZLanguage

open EditDistance

namespace NameDistance

/-- A `std::string`, which is never longer than `max_size`. -/
structure StdString where
  bytes : CString
  size_lt : bytes.length < 2 ^ 63

namespace StdString

def size (s : StdString) : Nat := s.bytes.length

end StdString

/-- A sum of `size_t`. -/
def addSize (n m : Nat) : Nat := (n + m) % 2 ^ 64

/-- Two bytes that `std::tolower` makes equal. -/
def sameLetter (x y : UInt8) : Bool := SecurityPolicy.toLower x == SecurityPolicy.toLower y

/-- The inner loop: the cells of `current` behind `left`, and the least cell. The list holds
`previous[j - 1]` and the cells behind it. -/
def fillRow (x : UInt8) : CString → List Nat → Nat → Nat → List Nat × Nat
  | y :: ys, diagonal :: above :: previous, left, best =>
      let cost := if SecurityPolicy.toLower x == SecurityPolicy.toLower y then 0 else 1
      let cell := min (above + 1) (min (left + 1) (diagonal + cost))
      let (cells, best) := fillRow x ys (above :: previous) cell (min best cell)
      (cell :: cells, best)
  | _, _, _, best => ([], best)

/-- The outer loop, from the row `i`. -/
def fillRows (b : CString) (limit : Nat) : CString → Nat → List Nat → Nat
  | [], _, previous => previous.getD b.length 0
  | x :: a, i, previous =>
      let (cells, best) := fillRow x b previous i i
      if best > limit then addSize limit 1 else fillRows b limit a (i + 1) (i :: cells)

end NameDistance

open NameDistance

def ezNameDistance (a b : StdString) (limit : UInt64) : Nat :=
  if a.bytes = b.bytes then 0
  else if a.size > addSize b.size limit.toNat ∨ b.size > addSize a.size limit.toNat then
    addSize limit.toNat 1
  else fillRows b.bytes limit.toNat a.bytes 1 (List.range (b.size + 1))

namespace NameDistance

/-! ### Rows -/

/-- The distances of a list to the first parts of another from a cut on. -/
def row (xs ps : CString) : CString → List Nat
  | [] => [distance sameLetter xs ps]
  | y :: ys => distance sameLetter xs ps :: row xs (ps ++ [y]) ys

theorem row_head (xs ps ys : CString) :
    ∃ rest, row xs ps ys = distance sameLetter xs ps :: rest := by
  cases ys with
  | nil => exact ⟨_, rfl⟩
  | cons y ys => exact ⟨_, rfl⟩

/-- The last cell of a row. -/
theorem row_getD (xs ps ys : CString) :
    (row xs ps ys).getD ys.length 0 = distance sameLetter xs (ps ++ ys) := by
  induction ys generalizing ps with
  | nil => simp [row]
  | cons y ys ih =>
      rw [row, List.length_cons, List.getD_cons_succ, ih, List.append_assoc, List.singleton_append]

/-- Every first part has its cell. -/
theorem distance_mem_row (xs ps qs rs : CString) :
    distance sameLetter xs (ps ++ qs) ∈ row xs ps (qs ++ rs) := by
  induction qs generalizing ps with
  | nil =>
      obtain ⟨rest, hrest⟩ := row_head xs ps rs
      rw [List.append_nil, List.nil_append, hrest]
      exact List.mem_cons_self
  | cons q qs ih =>
      have h := ih (ps ++ [q])
      rw [List.append_assoc, List.singleton_append] at h
      exact List.mem_cons_of_mem _ h

/-- The row of the empty name. -/
theorem row_nil (ps ys : CString) :
    row [] ps ys = List.range' ps.length (ys.length + 1) := by
  induction ys generalizing ps with
  | nil => simp [row]
  | cons y ys ih => simp [row, ih, List.range'_succ]

/-- The inner loop fills the next row, and keeps its least cell. -/
theorem fillRow_row (x : UInt8) (xs ps ys : CString) (best : Nat) :
    fillRow x ys (row xs ps ys) (distance sameLetter (xs ++ [x]) ps) best =
      ((row (xs ++ [x]) ps ys).tail, (row (xs ++ [x]) ps ys).tail.foldl min best) := by
  induction ys generalizing ps best with
  | nil => rfl
  | cons y ys ih =>
      obtain ⟨rest, hrest⟩ := row_head xs (ps ++ [y]) ys
      obtain ⟨rest', hrest'⟩ := row_head (xs ++ [x]) (ps ++ [y]) ys
      have hcell : min (distance sameLetter xs (ps ++ [y]) + 1)
          (min (distance sameLetter (xs ++ [x]) ps + 1)
            (distance sameLetter xs ps +
              if SecurityPolicy.toLower x == SecurityPolicy.toLower y then 0 else 1)) =
          distance sameLetter (xs ++ [x]) (ps ++ [y]) :=
        (distance_snoc_snoc x y xs ps).symm
      have hfill := ih (ps ++ [y]) (min best (distance sameLetter (xs ++ [x]) (ps ++ [y])))
      rw [hrest] at hfill
      rw [row, hrest, fillRow]
      simp only [hcell, hfill, row, List.tail_cons, hrest', List.foldl_cons]

theorem lt_foldl_min {limit best : Nat} {cells : List Nat} :
    limit < cells.foldl min best ↔ limit < best ∧ ∀ cell ∈ cells, limit < cell := by
  induction cells generalizing best with
  | nil => simp
  | cons cell cells ih =>
      rw [List.foldl_cons, ih, lt_min_iff, List.forall_mem_cons, and_assoc]

/-! ### The loops -/

/-- The outer loop finds the distance, or gives up at a limit the distance is above. -/
theorem fillRows_spec (b : CString) (limit : Nat) (us xs : CString)
    (hsize : (xs ++ us).length < 2 ^ 64) :
    fillRows b limit us (xs.length + 1) (row xs [] b) = distance sameLetter (xs ++ us) b ∨
      limit < distance sameLetter (xs ++ us) b ∧
        fillRows b limit us (xs.length + 1) (row xs [] b) = limit + 1 := by
  induction us generalizing xs with
  | nil =>
      refine .inl ?_
      rw [fillRows, row_getD, List.append_nil, List.nil_append]
  | cons x us ih =>
      have hleft : distance sameLetter (xs ++ [x]) [] = xs.length + 1 := by simp
      have hfill := fillRow_row x xs [] b (xs.length + 1)
      rw [hleft] at hfill
      obtain ⟨rest, hrest⟩ := row_head (xs ++ [x]) [] b
      rw [hleft] at hrest
      have hlist : xs ++ x :: us = xs ++ [x] ++ us := by simp
      rw [fillRows]
      simp only [hfill, gt_iff_lt]
      split
      case isTrue hbest =>
          obtain ⟨hi, hcells⟩ := lt_foldl_min.mp hbest
          have hall : ∀ cell ∈ row (xs ++ [x]) [] b, limit < cell := by
            intro cell hcell
            rw [hrest] at hcell hcells
            rcases List.mem_cons.mp hcell with rfl | hcell
            · exact hi
            · exact hcells cell hcell
          -- the cut a script for the whole names makes is a cell of this row
          obtain ⟨ps, qs, hb, hcut⟩ :=
            @exists_cut _ sameLetter (xs ++ [x]) us b
          have hcell := hall _ (hb ▸ distance_mem_row (xs ++ [x]) [] ps qs)
          rw [List.nil_append] at hcell
          refine .inr ⟨hlist ▸ lt_of_lt_of_le hcell hcut, ?_⟩
          unfold addSize
          rw [List.length_append, List.length_cons] at hsize
          exact Nat.mod_eq_of_lt (by omega)
      case isFalse =>
          have hnext := ih (xs ++ [x]) (hlist ▸ hsize)
          rw [← hlist, List.length_append, List.length_singleton, hrest] at hnext
          rw [hrest]
          exact hnext

/-- The whole table. -/
theorem fillRows_distance (a b : CString) (limit : Nat) (hsize : a.length < 2 ^ 64) :
    fillRows b limit a 1 (List.range (b.length + 1)) = distance sameLetter a b ∨
      limit < distance sameLetter a b ∧
        fillRows b limit a 1 (List.range (b.length + 1)) = limit + 1 := by
  have h := fillRows_spec b limit a [] hsize
  rw [row_nil] at h
  rwa [List.range_eq_range']

/-! ### The answer -/

/-- What the distance is asked for: the edit distance of the names without regard to case where it is
within the limit, and something above the limit otherwise. -/
def Measures (a b : StdString) (limit : UInt64) (answer : Nat) : Prop :=
  (distance sameLetter a.bytes b.bytes ≤ limit.toNat →
      answer = distance sameLetter a.bytes b.bytes) ∧
    (limit.toNat < distance sameLetter a.bytes b.bytes → limit.toNat < answer)

/-- A sum of the length filter wraps, and what is left of it is below the other length. -/
def FilterWraps (a b : StdString) (limit : UInt64) : Prop :=
  2 ^ 64 ≤ b.size + limit.toNat ∧ b.size + limit.toNat < a.size + 2 ^ 64 ∨
    2 ^ 64 ≤ a.size + limit.toNat ∧ a.size + limit.toNat < b.size + 2 ^ 64

theorem distance_eq_zero {a b : CString} :
    distance sameLetter a b = 0 ↔
      a.map SecurityPolicy.toLower = b.map SecurityPolicy.toLower := by
  rw [distance_eq_zero_iff, ← List.forall₂_eq_eq_eq, List.forall₂_map_left_iff,
    List.forall₂_map_right_iff]
  simp only [sameLetter, beq_iff_eq]

/-- Without a wrap the filter rejects only names that are too far apart. -/
theorem filter_sound {a b : StdString} {limit : UInt64} (hwraps : ¬FilterWraps a b limit)
    (hfilter : a.size > addSize b.size limit.toNat ∨ b.size > addSize a.size limit.toNat) :
    limit.toNat < distance sameLetter a.bytes b.bytes ∧ limit.toNat + 1 < 2 ^ 64 := by
  have hlength := @length_le_distance _ sameLetter a.bytes b.bytes
  have ha := a.size_lt
  have hb := b.size_lt
  have hlimit := limit.toNat_lt
  unfold FilterWraps StdString.size at hwraps
  unfold addSize StdString.size at hfilter
  omega

/-- A wrap makes the filter reject, at a limit no distance is above. -/
theorem filter_wraps {a b : StdString} {limit : UInt64} (hwraps : FilterWraps a b limit) :
    (a.size > addSize b.size limit.toNat ∨ b.size > addSize a.size limit.toNat) ∧
      distance sameLetter a.bytes b.bytes ≤ limit.toNat := by
  have hmax := @distance_le_max _ sameLetter a.bytes b.bytes
  have ha := a.size_lt
  have hb := b.size_lt
  have hlimit := limit.toNat_lt
  unfold FilterWraps StdString.size at hwraps
  unfold addSize StdString.size
  omega

def ofByte (c : UInt8) : StdString := ⟨[c], Nat.one_lt_two_pow (by decide)⟩

example : ezNameDistance ⟨[108, 101, 110, 104, 116], by decide⟩ ⟨[108, 101, 110, 71, 116, 104], by decide⟩ 2
    = 2 := by decide

end NameDistance

end EZLanguage
