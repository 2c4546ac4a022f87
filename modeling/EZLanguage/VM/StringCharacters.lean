import EZLanguage.Runtime.Utf8Laws

/-!
# Length, indexing and iteration of strings

`len` and indexing count characters. `ITER_NEXT` and `ARRAY_EXTEND` walk the bytes, and the compiler
folds the length of a literal to its number of bytes.
-/

namespace EZLanguage

namespace BytecodeVM

open Segments

/-- What `len` answers for a string. -/
def len (s : CString) : Int64 := Int64.ofNat (Utf8.lengthChars s)

/-- What the compiler folds `len` of a string literal to. -/
def foldedLen (s : CString) : Int64 := Int64.ofNat s.length

/-- `checkBounds`. -/
def checkBounds (i : Int64) (size : Nat) : Bool :=
  decide (0 ≤ i) && decide (i < Int64.ofNat size)

/-- `doIndexGet` on a string. -/
def indexGet (s : CString) (i : Int64) : Option CString :=
  if checkBounds i (Utf8.lengthChars s) then
    let byteOffset := Utf8.charOffsetToByteOffset s i.toNatClampNeg
    some ((s.drop byteOffset).take (Utf8.takenAt s byteOffset))
  else none

/-- `ITER_NEXT` on an iterator over a string: the next value and the iterator's new index. -/
def iterNext (s : CString) (idx : Nat) : Option (CString × Nat) :=
  if hidx : idx < s.length then some ([s[idx]], idx + 1) else none

/-- The values a `get` loop binds from an index of its iterator on. -/
def getLoop (s : CString) (idx : Nat) : List CString :=
  match _hnext : iterNext s idx with
  | some (value, idx') => value :: getLoop s idx'
  | none => []
termination_by s.length - idx
decreasing_by
  rw [iterNext] at _hnext
  split_ifs at _hnext
  cases _hnext
  omega

/-- `ARRAY_EXTEND` with a string. -/
def arrayExtend (dst : List CString) (s : CString) : List CString :=
  dst ++ s.map fun c => [c]

/-- The values of `s[0]` to `s[len - 1]`. -/
def indexed (s : CString) (length : Int64) : List (Option CString) :=
  (List.range length.toNatClampNeg).map fun k => indexGet s (Int64.ofNat k)

/-- Iterating, spreading and indexing a string yield the same characters, which make up the string, and
the length bounds the accepted indices. -/
structure StringsAgree (s : CString) (length : Int64) : Prop where
  spread_eq : arrayExtend [] s = getLoop s 0
  indexed_eq : indexed s length = (getLoop s 0).map some
  flatten_eq : (getLoop s 0).flatten = s
  accepted_iff : ∀ i, (indexGet s i).isSome = true ↔ 0 ≤ i ∧ i < length

/-- The loop goes through the bytes. -/
theorem getLoop_eq (s : CString) (idx : Nat) :
    getLoop s idx = (s.drop idx).map fun c => [c] := by
  fun_induction getLoop s idx with
  | case1 idx value idx' hnext ih =>
      rw [iterNext] at hnext
      split_ifs at hnext with hidx
      cases hnext
      rw [ih, List.drop_eq_getElem_cons hidx, List.map_cons]
  | case2 idx hnext =>
      rw [iterNext] at hnext
      split_ifs at hnext with hidx
      rw [List.drop_eq_nil_of_le (by omega), List.map_nil]

theorem accepted (s : CString) (i : Int64) :
    (indexGet s i).isSome = true ↔ 0 ≤ i ∧ i < len s := by
  rw [indexGet, checkBounds, len]
  split_ifs with hbounds
  · simpa using hbounds
  · simpa using hbounds

theorem indexGet_ofNat {s : CString} (hsize : s.length < 2 ^ 63) {k : Nat}
    (hk : k < (Utf8.characters s).length) :
    indexGet s (Int64.ofNat k) = some (Utf8.characters s)[k] := by
  have hle := Utf8.lengthChars_le s
  have hcount := Utf8.lengthChars_eq s
  have hbounds : checkBounds (Int64.ofNat k) (Utf8.lengthChars s) = true := by
    rw [checkBounds, Bool.and_eq_true, decide_eq_true_eq, decide_eq_true_eq, Int64.le_iff_toInt_le,
      Int64.lt_iff_toInt_lt, Int64.toInt_ofNat_of_lt (by omega), Int64.toInt_ofNat_of_lt (by omega)]
    constructor
    · exact Int.natCast_nonneg k
    · omega
  have hindex : (Int64.ofNat k).toNatClampNeg = k := by
    rw [Int64.toNatClampNeg, Int64.toInt_ofNat_of_lt (by omega)]
    exact Int.toNat_natCast k
  rw [indexGet, if_pos hbounds, hindex]
  dsimp only
  rw [Utf8.charOffsetToByteOffset_eq, Utf8.takenAt_offset hk]
  exact congrArg some (Utf8.characterCut.take_drop_offset hk)

/-- Indexing goes through the characters. -/
theorem indexed_len {s : CString} (hsize : s.length < 2 ^ 63) :
    indexed s (len s) = (Utf8.characters s).map some := by
  have hle := Utf8.lengthChars_le s
  have hcount := Utf8.lengthChars_eq s
  have hlength : (len s).toNatClampNeg = (Utf8.characters s).length := by
    rw [len, Int64.toNatClampNeg, Int64.toInt_ofNat_of_lt (by omega), ← hcount]
    exact Int.toNat_natCast _
  apply List.ext_getElem
  · rw [indexed, hlength, List.length_map, List.length_map, List.length_range]
  · intro k hk hk'
    rw [List.length_map] at hk'
    simp only [indexed, List.getElem_map, List.getElem_range]
    exact indexGet_ofNat hsize hk'

/-- Agreement needs as many characters as bytes. -/
theorem singleBytes_of_agree {s : CString} (hsize : s.length < 2 ^ 63)
    (hagree : StringsAgree s (len s)) : Utf8.SingleBytes s := by
  have hsame := congrArg List.length hagree.indexed_eq
  rw [indexed_len hsize, getLoop_eq, List.drop_zero, List.length_map, List.length_map,
    List.length_map, ← Utf8.lengthChars_eq] at hsame
  exact (Utf8.lengthChars_eq_length_iff s).mp hsame

theorem agree_of_singleBytes {s : CString} (hsize : s.length < 2 ^ 63)
    (hsingle : Utf8.SingleBytes s) : StringsAgree s (len s) where
  spread_eq := by rw [getLoop_eq, List.drop_zero, arrayExtend, List.nil_append]
  indexed_eq := by
    rw [indexed_len hsize, getLoop_eq, List.drop_zero, Utf8.characters_singleBytes hsingle]
  flatten_eq := by
    rw [getLoop_eq, List.drop_zero, ← Utf8.characters_singleBytes hsingle]
    exact Utf8.characterCut.flatten_segments s
  accepted_iff := accepted s

/-- Length, indexing, spreading and iteration agree exactly on strings whose characters are all one
byte, for the length `len` answers and for the length a literal is folded to. -/
theorem strings_agree_iff {s : CString} (hsize : s.length < 2 ^ 63) :
    (StringsAgree s (len s) ∧ StringsAgree s (foldedLen s)) ↔ Utf8.SingleBytes s := by
  constructor
  · rintro ⟨hagree, _⟩
    exact singleBytes_of_agree hsize hagree
  · intro hsingle
    have hagree := agree_of_singleBytes hsize hsingle
    have hfolded : foldedLen s = len s := by
      rw [foldedLen, len, (Utf8.lengthChars_eq_length_iff s).mpr hsingle]
    rw [hfolded]
    exact ⟨hagree, hagree⟩

theorem strings_agree_ascii : StringsAgree [0x68, 0x69] (foldedLen [0x68, 0x69]) := by
  have hsingle : Utf8.SingleBytes [0x68, 0x69] := ⟨rfl, rfl, trivial⟩
  exact ((strings_agree_iff (by decide)).mpr hsingle).2

/-- A letter of two bytes is one character to indexing and two to a loop. -/
theorem strings_disagree_accented :
    ¬∀ s : CString, s.length < 2 ^ 63 → StringsAgree s (len s) ∧ StringsAgree s (foldedLen s) := by
  intro hall
  have hsize : ([0xC3, 0xA9] : CString).length < 2 ^ 63 := by decide
  have hsingle := singleBytes_of_agree hsize (hall [0xC3, 0xA9] hsize).1
  have hone : Utf8.charLen 0xC3 [0xA9] = 1 := hsingle.1
  exact absurd hone (by decide)

end BytecodeVM

end EZLanguage
