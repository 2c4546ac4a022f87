import EZLanguage.Runtime.Utf8
import EZLanguage.Support.Segments
import Mathlib.Data.List.Forall2
import Mathlib.Tactic.IntervalCases

/-!
# The loops over the characters of a string

The operations of `Utf8.h` each walk a string by offsets and write the rule for the next offset out
themselves. All of them visit the boundaries of one cut of the string.
-/

namespace EZLanguage

namespace Utf8

open Segments

/-- The byte at an offset, which the loops read inside the string only. -/
def byteAt (s : CString) (i : Nat) : UInt8 := s.getD i 0

/-- `validAt`. -/
def validAt (s : CString) (i n : Nat) : Bool :=
  if n = 1 then decide (byteAt s i < 0x80) || decide (seqLen (byteAt s i) = 1)
  else if s.length < i + n then false
  else (List.range' 1 (n - 1)).all fun k => byteAt s (i + k) &&& 0xC0 == 0x80

/-- The bytes taken at an offset as `lengthChars` and the translations of offsets write it. -/
def takenAt (s : CString) (i : Nat) : Nat :=
  let n := seqLen (byteAt s i)
  if !validAt s i n then 1 else n

/-- The bytes taken at an offset as `reverseChars` writes it. -/
def spanAt (s : CString) (i : Nat) : Nat :=
  let n := seqLen (byteAt s i)
  if n == 1 || !validAt s i n then 1 else n

/-- `decode` at an offset, with the offset it moves on to. -/
def decodeAt (s : CString) (i : Nat) : UInt32 × Nat :=
  let c := byteAt s i
  let n := seqLen c
  if n == 1 || !validAt s i n then (c.toUInt32, i + 1)
  else
    let lead : UInt32 :=
      match n with
      | 2 => (c &&& 0x1F).toUInt32
      | 3 => (c &&& 0x0F).toUInt32
      | _ => (c &&& 0x07).toUInt32
    ((List.range' 1 (n - 1)).foldl
      (fun cp k => (cp <<< 6) ||| (byteAt s (i + k) &&& 0x3F).toUInt32) lead, i + n)

theorem takenAt_pos (s : CString) (i : Nat) : 0 < takenAt s i := by
  have hpos := seqLen_pos (byteAt s i)
  dsimp only [takenAt]
  split_ifs <;> omega

theorem spanAt_eq_takenAt (s : CString) (i : Nat) : spanAt s i = takenAt s i := by
  dsimp only [spanAt, takenAt]
  by_cases hone : seqLen (byteAt s i) = 1
  · simp [hone]
  · simp [hone]

/-- `decode` moves on by the bytes the other loops take. -/
theorem decodeAt_next (s : CString) (i : Nat) : (decodeAt s i).2 = i + takenAt s i := by
  rw [← spanAt_eq_takenAt]
  dsimp only [decodeAt, spanAt]
  split_ifs <;> rfl

/-- The loop of `lengthChars`. -/
def countChars (s : CString) (i count : Nat) : Nat :=
  if i < s.length then countChars s (i + takenAt s i) (count + 1) else count
termination_by s.length - i
decreasing_by have hpos := takenAt_pos s i; omega

/-- The loop of `charOffsetToByteOffset`. -/
def seekChar (s : CString) (charIndex i count : Nat) : Nat :=
  if i < s.length ∧ count < charIndex then
    seekChar s charIndex (i + takenAt s i) (count + 1)
  else i
termination_by s.length - i
decreasing_by have hpos := takenAt_pos s i; omega

/-- `charOffsetToByteOffset`. -/
def charOffsetToByteOffset (s : CString) (charIndex : Nat) : Nat :=
  seekChar s charIndex 0 0

/-- The loop of `byteOffsetToCharOffset`. -/
def seekByte (s : CString) (byteIndex i charCount : Nat) : Nat :=
  if i < s.length ∧ i < byteIndex then
    seekByte s byteIndex (i + takenAt s i) (charCount + 1)
  else charCount
termination_by s.length - i
decreasing_by have hpos := takenAt_pos s i; omega

/-- `byteOffsetToCharOffset`. -/
def byteOffsetToCharOffset (s : CString) (byteIndex : Nat) : Nat :=
  seekByte s byteIndex 0 0

/-- The spans `reverseChars` records, as offset and length. -/
def spansFrom (s : CString) (i : Nat) : List (Nat × Nat) :=
  if i < s.length then (i, spanAt s i) :: spansFrom s (i + spanAt s i) else []
termination_by s.length - i
decreasing_by
  have hpos := takenAt_pos s i
  rw [spanAt_eq_takenAt]
  omega

/-- `reverseChars`. -/
def reverseChars (s : CString) : CString :=
  ((spansFrom s 0).reverse.map fun span => (s.drop span.1).take span.2).flatten

/-- The values `decode` yields from an offset to the end of the string. -/
def decodeFrom (s : CString) (i : Nat) : List UInt32 :=
  if i < s.length then (decodeAt s i).1 :: decodeFrom s (decodeAt s i).2 else []
termination_by s.length - i
decreasing_by
  have hpos := takenAt_pos s i
  rw [decodeAt_next]
  omega

/-- `toUpperCP`. -/
def toUpperCP (cp : UInt32) : UInt32 :=
  if 0x61 ≤ cp ∧ cp ≤ 0x7A then cp - 32
  else if 0xE0 ≤ cp ∧ cp ≤ 0xF6 then cp - 32
  else if 0xF8 ≤ cp ∧ cp ≤ 0xFE then cp - 32
  else if cp = 0xFF then 0x178
  else if 0x430 ≤ cp ∧ cp ≤ 0x44F then cp - 32
  else cp

/-- `toLowerCP`. -/
def toLowerCP (cp : UInt32) : UInt32 :=
  if 0x41 ≤ cp ∧ cp ≤ 0x5A then cp + 32
  else if 0xC0 ≤ cp ∧ cp ≤ 0xD6 then cp + 32
  else if 0xD8 ≤ cp ∧ cp ≤ 0xDE then cp + 32
  else if cp = 0x178 then 0xFF
  else if 0x410 ≤ cp ∧ cp ≤ 0x42F then cp + 32
  else cp

/-- The loop of `upperChars` and `lowerChars`. What `encode` rejects is not appended. -/
def mapChars (toCase : UInt32 → UInt32) (s : CString) (i : Nat) (out : CString) : CString :=
  if i < s.length then
    mapChars toCase s (decodeAt s i).2 (out ++ (encode (toCase (decodeAt s i).1)).getD [])
  else out
termination_by s.length - i
decreasing_by
  have hpos := takenAt_pos s i
  rw [decodeAt_next]
  omega

/-- `upperChars`. -/
def upperChars (s : CString) : CString := mapChars toUpperCP s 0 []

/-- `lowerChars`. -/
def lowerChars (s : CString) : CString := mapChars toLowerCP s 0 []

/-- The characters as a cut of the string. -/
def characterCut : Cut UInt8 where
  width := charLen
  width_pos := charLen_pos

/-- The characters of a string. -/
abbrev characters (s : CString) : List CString := characterCut.segments s

theorem byteAt_eq {s : CString} {i : Nat} (hi : i < s.length) : byteAt s i = s[i] := by
  simp [byteAt, List.getD, hi]

/-- The bytes of a sequence after its first one. -/
theorem trailing_bytes {s : CString} {i n : Nat} (hn : i + n ≤ s.length) :
    ((s.drop i).take n).drop 1 = (List.range' 1 (n - 1)).map fun k => byteAt s (i + k) := by
  apply List.ext_getElem
  · simp only [List.length_drop, List.length_take, List.length_map, List.length_range']
    omega
  · intro k hk hk'
    simp only [List.length_map, List.length_range'] at hk'
    simp only [List.getElem_drop, List.getElem_take, List.getElem_map, List.getElem_range']
    rw [byteAt_eq (by omega)]
    congr 1
    omega

/-- Where a sequence has more than one byte, `validAt` asks what `continues` asks of the rest. -/
theorem continues_drop {s : CString} {i n : Nat} (hi : i < s.length) (hone : n ≠ 1) :
    continues (s.drop i) n = validAt s i n := by
  rw [continues, List.length_drop, validAt, if_neg hone]
  by_cases hn : i + n ≤ s.length
  · have hfits : n ≤ s.length - i := by omega
    rw [if_neg (by omega), trailing_bytes hn, List.all_map, decide_eq_true hfits, Bool.true_and]
    rfl
  · have hlong : ¬n ≤ s.length - i := by omega
    rw [if_pos (by omega), decide_eq_false hlong, Bool.false_and]

/-- The bytes a loop takes are those of the character at the front of what is left. -/
theorem takenAt_eq_charLen {s : CString} {i : Nat} (hi : i < s.length) :
    takenAt s i = charLen s[i] (s.drop (i + 1)) := by
  rw [takenAt, byteAt_eq hi, charLen, ← List.drop_eq_getElem_cons hi]
  by_cases hone : seqLen s[i] = 1
  · simp [hone]
  · rw [if_neg hone, continues_drop hi hone]
    by_cases hvalid : validAt s i (seqLen s[i]) = true
    · simp [hvalid]
    · simp [hvalid]

/-- What is left of a string at an offset is cut where the loops move on to. -/
theorem characters_drop {s : CString} {i : Nat} (hi : i < s.length) :
    characters (s.drop i) =
      (s.drop i).take (takenAt s i) :: characters (s.drop (i + takenAt s i)) := by
  rw [takenAt_eq_charLen hi]
  exact characterCut.segments_drop hi

theorem characters_drop_of_le {s : CString} {i : Nat} (hi : s.length ≤ i) :
    characters (s.drop i) = [] := by
  rw [List.drop_eq_nil_of_le hi, characters, Cut.segments]

theorem takenAt_le {s : CString} {i : Nat} (hi : i < s.length) : i + takenAt s i ≤ s.length := by
  dsimp only [takenAt]
  by_cases hone : seqLen (byteAt s i) = 1
  · rw [hone]
    split_ifs <;> omega
  · split_ifs with hvalid
    · omega
    · rw [Bool.not_eq_true, Bool.not_eq_false', validAt, if_neg hone] at hvalid
      split_ifs at hvalid
      omega

theorem length_taken {s : CString} {i : Nat} (hi : i < s.length) :
    ((s.drop i).take (takenAt s i)).length = takenAt s i := by
  have hle := takenAt_le hi
  rw [List.length_take, List.length_drop]
  omega

theorem countChars_eq (s : CString) (i count : Nat) :
    countChars s i count = count + (characters (s.drop i)).length := by
  fun_induction countChars s i count with
  | case1 i count hi ih =>
      rw [ih, characters_drop hi, List.length_cons]
      omega
  | case2 i count hi =>
      rw [characters_drop_of_le (by omega), List.length_nil, Nat.add_zero]

theorem seekChar_eq (s : CString) (charIndex i count : Nat) (hi : i ≤ s.length) :
    seekChar s charIndex i count = i + offset (characters (s.drop i)) (charIndex - count) := by
  fun_induction seekChar s charIndex i count with
  | case1 i count hnext ih =>
      rw [ih (takenAt_le hnext.1), characters_drop hnext.1]
      obtain ⟨left, hleft⟩ := Nat.exists_eq_add_of_lt hnext.2
      have h1 : charIndex - count = left + 1 := by omega
      have h2 : charIndex - (count + 1) = left := by omega
      rw [h1, h2, offset_cons_succ, length_taken hnext.1]
      omega
  | case2 i count hstop =>
      by_cases hend : i < s.length
      · have hzero : charIndex - count = 0 := by omega
        rw [hzero, offset_zero, Nat.add_zero]
      · rw [characters_drop_of_le (by omega), offset_nil, Nat.add_zero]

theorem seekByte_eq (s : CString) (byteIndex i charCount : Nat) :
    seekByte s byteIndex i charCount = charCount + index (characters (s.drop i)) (byteIndex - i) := by
  fun_induction seekByte s byteIndex i charCount with
  | case1 i charCount hnext ih =>
      have hleft : byteIndex - i ≠ 0 := by omega
      rw [ih, characters_drop hnext.1, index, if_neg hleft, length_taken hnext.1, Nat.sub_sub]
      omega
  | case2 i charCount hstop =>
      by_cases hend : i < s.length
      · have hzero : byteIndex - i = 0 := by omega
        rw [characters_drop hend, hzero, index, if_pos rfl, Nat.add_zero]
      · rw [characters_drop_of_le (by omega), index, Nat.add_zero]

/-- The recorded spans are the characters with their offsets. -/
theorem spansFrom_getElem? (s : CString) (i k : Nat) :
    (spansFrom s i)[k]? = (characters (s.drop i))[k]?.map fun part =>
      (i + offset (characters (s.drop i)) k, part.length) := by
  fun_induction spansFrom s i generalizing k with
  | case1 i hi ih =>
      rw [characters_drop hi, spanAt_eq_takenAt]
      cases k with
      | zero => simp [length_taken hi]
      | succ k =>
          rw [List.getElem?_cons_succ, List.getElem?_cons_succ, ← spanAt_eq_takenAt, ih,
            offset_cons_succ, spanAt_eq_takenAt, length_taken hi]
          simp [Nat.add_assoc]
  | case2 i hi =>
      rw [characters_drop_of_le (by omega)]
      simp

end Utf8

end EZLanguage
