import Mathlib.Order.Monotone.Basic
import Mathlib.Data.List.Basic

/-!
# Lists cut into segments

A list that is cut into segments has two measures of a place in it: how many elements and how many
segments stand before it. The translations between them form a Galois connection, from which their
monotonicity and their being inverse on the boundaries follow. A cut is the rule that says how long the
segment at the front of a list is.
-/

namespace EZLanguage

namespace Segments

variable {α : Type*}

/-- How many elements stand before a segment. -/
def offset (segs : List (List α)) (k : Nat) : Nat :=
  (segs.take k).flatten.length

/-- How many segments begin before a place. -/
def index : List (List α) → Nat → Nat
  | [], _ => 0
  | seg :: segs, place => if place = 0 then 0 else index segs (place - seg.length) + 1

example : index [[1, 2], [3]] 2 = 1 := by simp [index]

@[simp] theorem offset_zero (segs : List (List α)) : offset segs 0 = 0 := by
  simp [offset]

@[simp] theorem offset_nil (k : Nat) : offset ([] : List (List α)) k = 0 := by
  simp [offset]

@[simp] theorem offset_cons_succ (seg : List α) (segs : List (List α)) (k : Nat) :
    offset (seg :: segs) (k + 1) = seg.length + offset segs k := by
  simp [offset]

theorem offset_le (segs : List (List α)) (k : Nat) : offset segs k ≤ segs.flatten.length := by
  induction segs generalizing k with
  | nil => simp
  | cons seg segs ih =>
      cases k with
      | zero => simp
      | succ k =>
          have hrest := ih k
          rw [offset_cons_succ, List.flatten_cons, List.length_append]
          omega

theorem offset_of_length_le {segs : List (List α)} {k : Nat} (hk : segs.length ≤ k) :
    offset segs k = segs.flatten.length := by
  rw [offset, List.take_of_length_le hk]

theorem offset_succ {segs : List (List α)} {k : Nat} (hk : k < segs.length) :
    offset segs (k + 1) = offset segs k + segs[k].length := by
  induction segs generalizing k with
  | nil => simp at hk
  | cons seg segs ih =>
      cases k with
      | zero => simp
      | succ k =>
          have hrest := ih (Nat.lt_of_succ_lt_succ hk)
          rw [offset_cons_succ, offset_cons_succ, hrest, List.getElem_cons_succ]
          omega

theorem monotone_offset (segs : List (List α)) : Monotone (offset segs) := by
  apply monotone_nat_of_le_succ
  intro k
  by_cases hk : k < segs.length
  · rw [offset_succ hk]
    omega
  · rw [offset_of_length_le (by omega), offset_of_length_le (by omega)]

theorem monotone_index (segs : List (List α)) : Monotone (index segs) := by
  induction segs with
  | nil => exact fun _ _ _ => Nat.le_refl _
  | cons seg segs ih =>
      intro place place' hle
      rw [index, index]
      split_ifs with h h'
      · exact Nat.le_refl _
      · omega
      · omega
      · have hrest := ih (Nat.sub_le_sub_right hle seg.length)
        omega

/-- The two measures are a Galois connection inside the list. -/
theorem index_le_iff {segs : List (List α)} {place : Nat} (hplace : place ≤ segs.flatten.length)
    (k : Nat) : index segs place ≤ k ↔ place ≤ offset segs k := by
  induction segs generalizing place k with
  | nil =>
      rw [List.flatten_nil, List.length_nil] at hplace
      rw [index, offset_nil]
      omega
  | cons seg segs ih =>
      rw [List.flatten_cons, List.length_append] at hplace
      rw [index]
      cases k with
      | zero =>
          rw [offset_zero]
          split_ifs <;> omega
      | succ k =>
          have hfits : place - seg.length ≤ segs.flatten.length := by omega
          have hrest := ih hfits k
          rw [offset_cons_succ]
          split_ifs <;> omega

/-- A boundary is found again from the number of segments before it. -/
theorem offset_index (segs : List (List α)) (k : Nat) :
    offset segs (index segs (offset segs k)) = offset segs k := by
  have hplace := offset_le segs k
  apply Nat.le_antisymm
  · apply monotone_offset
    rw [index_le_iff hplace]
  · rw [← index_le_iff hplace]

/-- The number of segments before a boundary is found again where no segment is empty. -/
theorem index_offset {segs : List (List α)} (hne : ∀ seg ∈ segs, seg ≠ []) {k : Nat}
    (hk : k ≤ segs.length) : index segs (offset segs k) = k := by
  induction segs generalizing k with
  | nil =>
      rw [List.length_nil] at hk
      rw [index]
      omega
  | cons seg segs ih =>
      cases k with
      | zero => simp [index]
      | succ k =>
          have hpos := List.length_pos_iff.mpr (hne seg List.mem_cons_self)
          have hrest := ih (fun seg' hmem => hne seg' (List.mem_cons_of_mem _ hmem))
            (Nat.le_of_succ_le_succ hk)
          rw [offset_cons_succ, index, if_neg (by omega), Nat.add_sub_cancel_left, hrest]

theorem flatten_drop_offset (segs : List (List α)) (k : Nat) :
    segs.flatten.drop (offset segs k) = (segs.drop k).flatten := by
  have hsplit : segs.flatten = (segs.take k).flatten ++ (segs.drop k).flatten := by
    rw [← List.flatten_append, List.take_append_drop]
  rw [hsplit, offset, List.drop_left]

/-- What stands between two offsets is the segments between them. -/
theorem flatten_between (segs : List (List α)) {k k' : Nat} (hle : k ≤ k') :
    (segs.flatten.drop (offset segs k)).take (offset segs k' - offset segs k) =
      ((segs.drop k).take (k' - k)).flatten := by
  obtain ⟨n, rfl⟩ := Nat.exists_eq_add_of_le hle
  have hlength : offset segs (k + n) = offset segs k + ((segs.drop k).take n).flatten.length := by
    rw [offset, List.take_add, List.flatten_append, List.length_append, offset]
  have hsplit : (segs.drop k).flatten =
      ((segs.drop k).take n).flatten ++ ((segs.drop k).drop n).flatten := by
    rw [← List.flatten_append, List.take_append_drop]
  rw [flatten_drop_offset, hlength, Nat.add_sub_cancel_left, Nat.add_sub_cancel_left, hsplit,
    List.take_left]

/-- A place is a boundary or stands on an element behind the first of a segment. -/
theorem boundary_or_tail (segs : List (List α)) {place : Nat} (hplace : place ≤ segs.flatten.length) :
    (∃ k ≤ segs.length, place = offset segs k) ∨
      ∃ seg ∈ segs, ∃ a ∈ seg.tail, segs.flatten[place]? = some a := by
  induction segs generalizing place with
  | nil =>
      rw [List.flatten_nil, List.length_nil] at hplace
      exact Or.inl ⟨0, Nat.zero_le _, by rw [offset_nil]; omega⟩
  | cons seg segs ih =>
      rw [List.flatten_cons, List.length_append] at hplace
      by_cases hzero : place = 0
      · exact Or.inl ⟨0, Nat.zero_le _, by rw [offset_zero, hzero]⟩
      by_cases hinside : place < seg.length
      · right
        refine ⟨seg, List.mem_cons_self, seg[place], ?_, ?_⟩
        · apply List.mem_of_getElem? (i := place - 1)
          rw [List.getElem?_tail, Nat.sub_add_cancel (by omega), List.getElem?_eq_getElem hinside]
        · rw [List.flatten_cons, List.getElem?_append_left hinside, List.getElem?_eq_getElem hinside]
      · have hge : seg.length ≤ place := by omega
        have hrest : place - seg.length ≤ segs.flatten.length := by omega
        obtain ⟨k, hk, hboundary⟩ | ⟨seg', hmem, a, ha, hat⟩ := ih hrest
        · exact Or.inl ⟨k + 1, Nat.succ_le_succ hk, by rw [offset_cons_succ]; omega⟩
        · right
          refine ⟨seg', List.mem_cons_of_mem _ hmem, a, ha, ?_⟩
          rw [List.flatten_cons, List.getElem?_append_right hge, hat]

/-- The rule for the length of the segment at the front of a list. -/
structure Cut (α : Type*) where
  width : α → List α → Nat
  width_pos : ∀ a rest, 0 < width a rest

namespace Cut

variable (cut : Cut α)

/-- The segments of a list. -/
def segments : List α → List (List α)
  | [] => []
  | a :: rest =>
      (a :: rest.take (cut.width a rest - 1)) :: segments (rest.drop (cut.width a rest - 1))
termination_by s => s.length
decreasing_by simp only [List.length_drop, List.length_cons]; omega

theorem flatten_segments (s : List α) : (cut.segments s).flatten = s := by
  fun_induction segments cut s with
  | case1 => rfl
  | case2 a rest ih =>
      rw [List.flatten_cons, ih, List.cons_append, List.take_append_drop]

theorem ne_nil_of_mem {s seg : List α} (hmem : seg ∈ cut.segments s) : seg ≠ [] := by
  fun_induction segments cut s with
  | case1 => simp at hmem
  | case2 a rest ih =>
      cases hmem with
      | head => simp
      | tail _ hrest => exact ih hrest

/-- The segment at a place is cut off the rest of the list. -/
theorem segments_drop {s : List α} {i : Nat} (hi : i < s.length) :
    cut.segments (s.drop i) =
      (s.drop i).take (cut.width s[i] (s.drop (i + 1))) ::
        cut.segments (s.drop (i + cut.width s[i] (s.drop (i + 1)))) := by
  have hpos := cut.width_pos s[i] (s.drop (i + 1))
  obtain ⟨n, hn⟩ := Nat.exists_eq_add_of_lt hpos
  rw [Nat.zero_add] at hn
  rw [List.drop_eq_getElem_cons hi, segments, hn, List.take_succ_cons, Nat.add_sub_cancel,
    List.drop_drop]
  congr 3
  omega

/-- What is left at a boundary is cut into the segments that are left. -/
theorem segments_drop_offset (s : List α) (k : Nat) :
    cut.segments (s.drop (offset (cut.segments s) k)) = (cut.segments s).drop k := by
  fun_induction segments cut s generalizing k with
  | case1 => simp [segments]
  | case2 a rest ih =>
      cases k with
      | zero => simp [segments]
      | succ k =>
          have hrest := ih k
          rw [List.drop_drop] at hrest
          rw [offset_cons_succ, List.length_cons, List.length_take, List.drop_succ_cons, ← hrest,
            Nat.add_right_comm, List.drop_succ_cons]
          by_cases hshort : cut.width a rest - 1 ≤ rest.length
          · rw [Nat.min_eq_left hshort]
          · rw [List.drop_eq_nil_of_le (by omega), List.drop_eq_nil_of_le (by omega)]

/-- A segment stands at its offset. -/
theorem take_drop_offset {s : List α} {k : Nat} (hk : k < (cut.segments s).length) :
    (s.drop (offset (cut.segments s) k)).take (cut.segments s)[k].length = (cut.segments s)[k] := by
  have hdrop := cut.segments_drop_offset s k
  have hflatten := cut.flatten_segments (s.drop (offset (cut.segments s) k))
  rw [hdrop, List.drop_eq_getElem_cons hk, List.flatten_cons] at hflatten
  rw [← hflatten, List.take_left' rfl]

/-- A segment that is cut off whatever follows it. -/
def Whole (seg : List α) : Prop :=
  ∀ after, cut.segments (seg ++ after) = seg :: cut.segments after

theorem segments_flatten_append {segs : List (List α)} (hwhole : ∀ seg ∈ segs, cut.Whole seg)
    (after : List α) : cut.segments (segs.flatten ++ after) = segs ++ cut.segments after := by
  induction segs with
  | nil => rfl
  | cons seg segs ih =>
      have hrest := ih fun seg' hmem => hwhole seg' (List.mem_cons_of_mem _ hmem)
      rw [List.flatten_cons, List.append_assoc, hwhole seg List.mem_cons_self, hrest, List.cons_append]

theorem segments_flatten {segs : List (List α)} (hwhole : ∀ seg ∈ segs, cut.Whole seg) :
    cut.segments segs.flatten = segs := by
  have happend := cut.segments_flatten_append hwhole []
  rwa [List.append_nil, segments, List.append_nil] at happend

theorem whole_cons {a : α} {rest : List α}
    (hwidth : ∀ after, cut.width a (rest ++ after) = rest.length + 1) : cut.Whole (a :: rest) := by
  intro after
  rw [List.cons_append, segments, hwidth, Nat.add_sub_cancel, List.take_left', List.drop_left']
  · rfl
  · rfl

end Cut

end Segments

end EZLanguage
