import EZLanguage.Runtime.Utf8Scalars

/-!
# The laws of the character operations

All loops over a string share one partition of it, on whose boundaries the two translations of offsets
are inverse. On strings made of encoded scalar values the operations act on the scalar values.
-/

namespace EZLanguage

namespace Utf8

open Segments

/-- The loops over a string see the same parts of it. -/
structure SharedPartition (s : CString) (parts : List CString) : Prop where
  whole : parts.flatten = s
  nonempty : ∀ part ∈ parts, part ≠ []
  counted : countChars s 0 0 = parts.length
  toByte : ∀ k, charOffsetToByteOffset s k = offset parts k
  toChar : ∀ place, byteOffsetToCharOffset s place = index parts place
  decoded : ∀ k, k < parts.length → (decodeAt s (offset parts k)).2 = offset parts (k + 1)
  spanned : ∀ k, (spansFrom s 0)[k]? = parts[k]?.map fun part => (offset parts k, part.length)
  reversed : reverseChars s = parts.reverse.flatten

/-- The string consists of what `encode` writes for the scalar values. -/
def Encodes (cps : List UInt32) (s : CString) : Prop :=
  ∃ parts, List.Forall₂ (fun cp part => encode cp = some part) cps parts ∧ parts.flatten = s

theorem lengthChars_eq (s : CString) : lengthChars s = (characters s).length := by
  fun_induction lengthChars s with
  | case1 => simp [Cut.segments]
  | case2 c rest ih =>
      rw [ih, characters, characters, Cut.segments, List.length_cons]
      rfl

theorem characters_singleBytes {s : CString} (hsingle : SingleBytes s) :
    characters s = s.map fun c => [c] := by
  induction s with
  | nil => rw [characters, Cut.segments, List.map_nil]
  | cons c rest ih =>
      have hrest := ih hsingle.2
      have hone : characterCut.width c rest = 1 := hsingle.1
      rw [characters, Cut.segments, hone, Nat.sub_self, List.take_zero, List.drop_zero,
        List.map_cons]
      exact congrArg ([c] :: ·) hrest

/-- The loop of `lengthChars` counts what the recursion over the bytes counts. -/
theorem countChars_zero (s : CString) : countChars s 0 0 = lengthChars s := by
  rw [countChars_eq, lengthChars_eq, List.drop_zero, Nat.zero_add]

theorem charOffsetToByteOffset_eq (s : CString) (k : Nat) :
    charOffsetToByteOffset s k = offset (characters s) k := by
  rw [charOffsetToByteOffset, seekChar_eq s k 0 0 (Nat.zero_le _), List.drop_zero, Nat.zero_add,
    Nat.sub_zero]

theorem byteOffsetToCharOffset_eq (s : CString) (place : Nat) :
    byteOffsetToCharOffset s place = index (characters s) place := by
  rw [byteOffsetToCharOffset, seekByte_eq, List.drop_zero, Nat.zero_add, Nat.sub_zero]

/-- The loops take one character where one begins. -/
theorem takenAt_offset {s : CString} {k : Nat} (hk : k < (characters s).length) :
    takenAt s (offset (characters s) k) = (characters s)[k].length := by
  have hdrop := characterCut.segments_drop_offset s k
  have hinside : offset (characters s) k < s.length := by
    have hpos := List.length_pos_iff.mpr (characterCut.ne_nil_of_mem (List.getElem_mem hk))
    have hnext := offset_succ hk
    have hle := offset_le (characters s) (k + 1)
    rw [characterCut.flatten_segments] at hle
    omega
  have hcut := characters_drop hinside
  rw [characters, hdrop, List.drop_eq_getElem_cons hk, List.cons.injEq] at hcut
  rw [hcut.1, length_taken hinside]

theorem sharedPartition (s : CString) : SharedPartition s (characters s) where
  whole := characterCut.flatten_segments s
  nonempty := fun _ hmem => characterCut.ne_nil_of_mem hmem
  counted := by rw [countChars_zero, lengthChars_eq]
  toByte := charOffsetToByteOffset_eq s
  toChar := byteOffsetToCharOffset_eq s
  decoded := by
    intro k hk
    rw [decodeAt_next, takenAt_offset hk, offset_succ hk]
  spanned := by
    intro k
    simp only [spansFrom_getElem?, List.drop_zero, Nat.zero_add]
  reversed := reverseChars_eq s

theorem encode_isSome_iff (cp : UInt32) :
    (encode cp).isSome = true ↔ cp ≤ 0x10FFFF ∧ ¬(0xD800 ≤ cp ∧ cp ≤ 0xDFFF) := by
  rw [encode]
  split_ifs <;> grind

/-- The case mappings keep scalar values apart from what `encode` rejects. -/
theorem toUpperCP_scalar {cp : UInt32} (hcp : (encode cp).isSome = true) :
    (encode (toUpperCP cp)).isSome = true := by
  rw [encode_isSome_iff] at hcp ⊢
  rw [toUpperCP]
  split_ifs <;> grind

theorem toLowerCP_scalar {cp : UInt32} (hcp : (encode cp).isSome = true) :
    (encode (toLowerCP cp)).isSome = true := by
  rw [encode_isSome_iff] at hcp ⊢
  rw [toLowerCP]
  split_ifs <;> grind

/-- A string put together from encodings is cut into them. -/
theorem characters_flatten {parts : List CString}
    (hparts : ∀ part ∈ parts, ∃ cp, encode cp = some part) : characters parts.flatten = parts := by
  apply characterCut.segments_flatten
  intro part hmem
  obtain ⟨cp, hcp⟩ := hparts part hmem
  exact (encode_spec hcp).1

theorem encoded_parts {cps : List UInt32} {parts : List CString}
    (hall : List.Forall₂ (fun cp part => encode cp = some part) cps parts) :
    (∀ part ∈ parts, ∃ cp, encode cp = some part) ∧ parts.map decode = cps := by
  induction hall with
  | nil => simp
  | cons hcp hall ih =>
      constructor
      · intro part hmem
        cases hmem with
        | head => exact ⟨_, hcp⟩
        | tail _ hrest => exact ih.1 part hrest
      · rw [List.map_cons, ih.2, (encode_spec hcp).2]

/-- A case mapping that keeps scalar values keeps the number of characters. -/
theorem lengthChars_mapChars {toCase : UInt32 → UInt32}
    (htoCase : ∀ cp, (encode cp).isSome = true → (encode (toCase cp)).isSome = true)
    {parts : List CString} (hparts : ∀ part ∈ parts, ∃ cp, encode cp = some part) :
    lengthChars (mapChars toCase parts.flatten 0 []) = lengthChars parts.flatten := by
  have hmapped : ∀ part ∈ parts.map (mapped toCase), ∃ cp, encode cp = some part := by
    intro out hmem
    obtain ⟨part, hpart, rfl⟩ := List.mem_map.mp hmem
    obtain ⟨cp, hcp⟩ := hparts part hpart
    have hdecode := (encode_spec hcp).2
    have hsome := htoCase cp (by rw [hcp]; rfl)
    obtain ⟨out, hout⟩ := Option.isSome_iff_exists.mp hsome
    exact ⟨toCase cp, by rw [mapped, hdecode, hout]; rfl⟩
  rw [mapChars_eq, List.drop_zero, List.nil_append, characters_flatten hparts, lengthChars_eq,
    lengthChars_eq, characters_flatten hmapped, characters_flatten hparts, List.length_map]

/-- The character operations: one partition of every string, inverse translations of offsets on its
boundaries, and the laws on strings of encoded scalar values. -/
theorem utf8_operations (s : CString) :
    (∃ parts, SharedPartition s parts) ∧
    (∀ k ≤ lengthChars s, byteOffsetToCharOffset s (charOffsetToByteOffset s k) = k) ∧
    (∀ k, charOffsetToByteOffset s (byteOffsetToCharOffset s (charOffsetToByteOffset s k)) =
      charOffsetToByteOffset s k) ∧
    Monotone (charOffsetToByteOffset s) ∧ Monotone (byteOffsetToCharOffset s) ∧
    ∀ cps, Encodes cps s →
      decodeFrom s 0 = cps ∧
      reverseChars (reverseChars s) = s ∧
      decodeFrom (reverseChars s) 0 = cps.reverse ∧
      lengthChars (upperChars s) = lengthChars s ∧ lengthChars (lowerChars s) = lengthChars s := by
  have htoByte : charOffsetToByteOffset s = offset (characters s) :=
    funext (charOffsetToByteOffset_eq s)
  have htoChar : byteOffsetToCharOffset s = index (characters s) :=
    funext (byteOffsetToCharOffset_eq s)
  constructor
  · exact ⟨characters s, sharedPartition s⟩
  rw [htoByte, htoChar]
  constructor
  · intro k hk
    rw [lengthChars_eq] at hk
    exact index_offset (fun _ hmem => characterCut.ne_nil_of_mem hmem) hk
  constructor
  · exact offset_index (characters s)
  constructor
  · exact monotone_offset _
  constructor
  · exact monotone_index _
  · rintro cps ⟨parts, hall, rfl⟩
    obtain ⟨hparts, hdecode⟩ := encoded_parts hall
    have hcut := characters_flatten hparts
    have hcutReverse : characters parts.reverse.flatten = parts.reverse :=
      characters_flatten fun part hmem => hparts part (List.mem_reverse.mp hmem)
    have hreverse : reverseChars parts.flatten = parts.reverse.flatten := by
      rw [reverseChars_eq, hcut]
    constructor
    · rw [decodeFrom_eq, List.drop_zero, hcut, hdecode]
    constructor
    · rw [hreverse, reverseChars_eq, hcutReverse, List.reverse_reverse]
    constructor
    · rw [hreverse, decodeFrom_eq, List.drop_zero, hcutReverse, List.map_reverse, hdecode]
    constructor
    · exact lengthChars_mapChars (fun _ => toUpperCP_scalar) hparts
    · exact lengthChars_mapChars (fun _ => toLowerCP_scalar) hparts

theorem utf8_operations_accented :
    byteOffsetToCharOffset [0x63, 0xC3, 0xA9] (charOffsetToByteOffset [0x63, 0xC3, 0xA9] 2) = 2 ∧
    decodeFrom [0x63, 0xC3, 0xA9] 0 = [0x63, 0xE9] := by
  have hall : List.Forall₂ (fun cp part => encode cp = some part) [0x63, 0xE9]
      [[0x63], [0xC3, 0xA9]] := .cons rfl (.cons rfl .nil)
  have hlength : lengthChars [0x63, 0xC3, 0xA9] = 2 := by
    rw [lengthChars_eq]
    exact congrArg List.length (characters_flatten (encoded_parts hall).1)
  obtain ⟨_, hinverse, _, _, _, hscalars⟩ := utf8_operations [0x63, 0xC3, 0xA9]
  exact ⟨hinverse 2 (by omega), (hscalars _ ⟨_, hall, rfl⟩).1⟩

end Utf8

end EZLanguage
