import EZLanguage.Runtime.Utf8Loops
import Mathlib.Data.UInt

/-!
# Encoded scalar values

What `encode` writes is one character of every string it stands in, and `decode` reads the scalar value
back. The loops therefore see a string of encoded scalar values as exactly those.
-/

namespace EZLanguage

namespace Utf8

open Segments

/-- The first bytes decide how long the character at the front is. -/
theorem charLen_take (c : UInt8) (rest : CString) :
    charLen c (rest.take (charLen c rest - 1)) = charLen c rest := by
  by_cases hone : seqLen c = 1
  · rw [charLen, charLen, if_pos hone, if_pos hone]
  · have hpos := seqLen_pos c
    have hlong : charLen c rest = if continues (c :: rest) (seqLen c) then seqLen c else 1 := by
      rw [charLen, if_neg hone]
    have htaken : charLen c (rest.take (charLen c rest - 1)) =
        if continues (c :: rest.take (charLen c rest - 1)) (seqLen c) then seqLen c else 1 := by
      rw [charLen, if_neg hone]
    rw [htaken, hlong]
    by_cases hcont : continues (c :: rest) (seqLen c) = true
    · have hfits : seqLen c ≤ rest.length + 1 := by
        rw [continues, Bool.and_eq_true, decide_eq_true_eq] at hcont
        exact hcont.1
      obtain ⟨n, hn⟩ := Nat.exists_eq_add_of_lt hpos
      rw [Nat.zero_add] at hn
      rw [if_pos hcont, if_pos]
      rw [continues, Bool.and_eq_true, decide_eq_true_eq] at hcont ⊢
      rw [hn] at hcont ⊢
      rw [List.take_succ_cons, List.drop_succ_cons, List.drop_zero] at hcont ⊢
      rw [Nat.add_sub_cancel, List.take_take, Nat.min_self]
      constructor
      · rw [List.length_cons, List.length_take]
        omega
      · exact hcont.2
    · rw [if_neg hcont, Nat.sub_self, List.take_zero, if_neg]
      intro hshort
      rw [continues, Bool.and_eq_true, decide_eq_true_eq, List.length_singleton] at hshort
      omega

/-- `decode` at an offset reads the character that is taken there. -/
theorem decodeAt_value {s : CString} {i : Nat} (hi : i < s.length) :
    (decodeAt s i).1 = decode ((s.drop i).take (takenAt s i)) := by
  have htaken := takenAt_eq_charLen hi
  have hpos := takenAt_pos s i
  obtain ⟨n, hn⟩ := Nat.exists_eq_add_of_lt hpos
  rw [Nat.zero_add] at hn
  have hfront : (s.drop i).take (takenAt s i) =
      s[i] :: (s.drop (i + 1)).take (charLen s[i] (s.drop (i + 1)) - 1) := by
    rw [List.drop_eq_getElem_cons hi, ← htaken, hn, List.take_succ_cons, Nat.add_sub_cancel]
  rw [hfront, decode, charLen_take, ← htaken]
  have hspan := spanAt_eq_takenAt s i
  have hle := takenAt_le hi
  dsimp only [spanAt] at hspan
  dsimp only [decodeAt]
  by_cases hone : (seqLen (byteAt s i) == 1 || !validAt s i (seqLen (byteAt s i))) = true
  · rw [if_pos hone] at hspan ⊢
    rw [← hspan, byteAt_eq hi]
    simp
  · rw [if_neg hone] at hspan ⊢
    have hne : takenAt s i ≠ 1 := by
      intro h
      rw [hspan, h] at hone
      simp at hone
    have hbytes := trailing_bytes hle
    rw [hfront, List.drop_succ_cons, List.drop_zero, ← htaken] at hbytes
    rw [List.take_take, Nat.min_self, hbytes, List.foldl_map, hspan, byteAt_eq hi]
    dsimp only
    congr 1
    split
    · rename_i h
      simp [h]
    · rename_i h
      simp [h]
    · split
      · exact absurd ‹_› hne
      · exact absurd ‹_› ‹_›
      · exact absurd ‹_› ‹_›
      · rfl

theorem decodeFrom_eq (s : CString) (i : Nat) :
    decodeFrom s i = (characters (s.drop i)).map decode := by
  fun_induction decodeFrom s i with
  | case1 i hi ih =>
      rw [ih, characters_drop hi, List.map_cons, decodeAt_value hi, decodeAt_next]
  | case2 i hi =>
      rw [characters_drop_of_le (by omega), List.map_nil]

/-- What a case mapping makes of one character. -/
def mapped (toCase : UInt32 → UInt32) (part : CString) : CString :=
  (encode (toCase (decode part))).getD []

theorem mapChars_eq (toCase : UInt32 → UInt32) (s : CString) (i : Nat) (out : CString) :
    mapChars toCase s i out = out ++ ((characters (s.drop i)).map (mapped toCase)).flatten := by
  fun_induction mapChars toCase s i out with
  | case1 i out hi ih =>
      rw [ih, characters_drop hi, List.map_cons, List.flatten_cons, mapped, decodeAt_value hi,
        decodeAt_next, List.append_assoc]
  | case2 i out hi =>
      rw [characters_drop_of_le (by omega)]
      simp

/-- The spans `reverseChars` puts together are the characters. -/
theorem reverseChars_eq (s : CString) : reverseChars s = (characters s).reverse.flatten := by
  have hparts : ((spansFrom s 0).map fun span => (s.drop span.1).take span.2) = characters s := by
    apply List.ext_getElem?
    intro k
    rw [List.getElem?_map, spansFrom_getElem?, List.drop_zero, Option.map_map, Nat.zero_add]
    cases hpart : (characters s)[k]? with
    | none => rfl
    | some part =>
        obtain ⟨hk, hget⟩ := List.getElem?_eq_some_iff.mp hpart
        have hplace := characterCut.take_drop_offset hk
        rw [hget] at hplace
        rw [Option.map_some, Function.comp_apply, hplace]
  rw [reverseChars, List.map_reverse, hparts]

/-- Six bits split off a code point and put back. -/
theorem joinSix (x : UInt32) : ((x >>> 6) <<< 6) ||| (x &&& 0x3F) = x := by
  apply UInt32.toNat_inj.mp
  have hx := x.toNat_lt
  have hlow : x.toNat &&& 63 = x.toNat % 2 ^ 6 := Nat.and_two_pow_sub_one_eq_mod x.toNat 6
  simp only [UInt32.toNat_or, UInt32.toNat_and, UInt32.toNat_shiftLeft, UInt32.toNat_shiftRight]
  simp only [UInt32.reduceToNat, Nat.reduceMod]
  rw [hlow, Nat.shiftRight_eq_div_pow, Nat.shiftLeft_eq, Nat.mod_eq_of_lt (by omega),
    ← Nat.shiftLeft_eq, ← Nat.shiftLeft_add_eq_or_of_lt (Nat.mod_lt _ (by omega)), Nat.shiftLeft_eq]
  omega

theorem shiftRight_six (x : UInt32) (n : Nat) (hn : n + 6 < 32) :
    (x >>> UInt32.ofNat n) >>> 6 = x >>> UInt32.ofNat (n + 6) := by
  apply UInt32.toNat_inj.mp
  have hsmall : n % 32 = n := Nat.mod_eq_of_lt (by omega)
  simp [UInt32.toNat_shiftRight, Nat.mod_eq_of_lt hn, hsmall, ← Nat.shiftRight_add]

theorem toUInt8_toUInt32 {x : UInt32} (hx : x.toNat < 256) : x.toUInt8.toUInt32 = x := by
  apply UInt32.toNat_inj.mp
  simp only [UInt8.toNat_toUInt32, UInt32.toNat_toUInt8]
  omega

theorem toUInt8_eq_ofNat (x : UInt32) : x.toUInt8 = UInt8.ofNat x.toNat := by
  apply UInt8.toNat_inj.mp
  simp

theorem lead_two : ∀ n < 32, seqLen (0xC0 ||| UInt8.ofNat n) = 2 ∧
    (0xC0 ||| UInt8.ofNat n) &&& 0x1F = UInt8.ofNat n := by
  decide

theorem lead_three : ∀ n < 16, seqLen (0xE0 ||| UInt8.ofNat n) = 3 ∧
    (0xE0 ||| UInt8.ofNat n) &&& 0x0F = UInt8.ofNat n := by
  decide

theorem lead_four : ∀ n < 8, seqLen (0xF0 ||| UInt8.ofNat n) = 4 ∧
    (0xF0 ||| UInt8.ofNat n) &&& 0x07 = UInt8.ofNat n := by
  decide

theorem trail_byte : ∀ n < 64, (0x80 ||| UInt8.ofNat n) &&& 0xC0 = 0x80 ∧
    (0x80 ||| UInt8.ofNat n) &&& 0x3F = UInt8.ofNat n := by
  decide

theorem sixBits_lt (x : UInt32) : (x &&& 0x3F).toNat < 64 := by
  rw [UInt32.toNat_and]
  exact Nat.lt_of_le_of_lt Nat.and_le_right (by decide)

theorem trail_continues (x : UInt32) : trail x &&& 0xC0 = 0x80 := by
  rw [trail, toUInt8_eq_ofNat]
  exact (trail_byte _ (sixBits_lt x)).1

/-- A trailing byte gives its six bits back. -/
theorem join_trail (x : UInt32) : ((x >>> 6) <<< 6) ||| (trail x &&& 0x3F).toUInt32 = x := by
  have hbits : trail x &&& 0x3F = (x &&& 0x3F).toUInt8 := by
    rw [trail, toUInt8_eq_ofNat]
    exact (trail_byte _ (sixBits_lt x)).2
  have hlt := sixBits_lt x
  rw [hbits, toUInt8_toUInt32 (by omega), joinSix]

/-- A lead byte with the bytes it announces is one character. -/
theorem charLen_append {c : UInt8} {rest : CString} (hseq : seqLen c = rest.length + 1)
    (hrest : ∀ b ∈ rest, b &&& 0xC0 = 0x80) (after : CString) :
    charLen c (rest ++ after) = rest.length + 1 := by
  rw [charLen, hseq]
  split_ifs with hone hcont
  · exact hone.symm
  · rfl
  · exfalso
    apply hcont
    rw [continues, Bool.and_eq_true, decide_eq_true_eq, List.take_succ_cons, List.drop_succ_cons,
      List.drop_zero, List.take_left' rfl, List.all_eq_true]
    constructor
    · rw [List.length_cons, List.length_append]
      omega
    · intro b hmem
      rw [hrest b hmem]
      rfl

theorem whole_of_seqLen {c : UInt8} {rest : CString} (hseq : seqLen c = rest.length + 1)
    (hrest : ∀ b ∈ rest, b &&& 0xC0 = 0x80) : characterCut.Whole (c :: rest) :=
  characterCut.whole_cons fun after => charLen_append hseq hrest after

/-- The bits of a code point that a lead byte carries. -/
def leadBits (c : UInt8) : Nat → UInt32
  | 1 => c.toUInt32
  | 2 => (c &&& 0x1F).toUInt32
  | 3 => (c &&& 0x0F).toUInt32
  | _ => (c &&& 0x07).toUInt32

/-- `decode` on a lead byte with the bytes it announces. -/
theorem decode_of_seqLen {c : UInt8} {rest : CString} (hseq : seqLen c = rest.length + 1)
    (hrest : ∀ b ∈ rest, b &&& 0xC0 = 0x80) :
    decode (c :: rest) = rest.foldl (fun (cp : UInt32) b => (cp <<< 6) ||| (b &&& 0x3F).toUInt32)
      (leadBits c (rest.length + 1)) := by
  have hlen := charLen_append hseq hrest []
  rw [List.append_nil] at hlen
  rw [decode, hlen, Nat.add_sub_cancel, List.take_length]
  rfl

/-- What `encode` writes for a scalar value is one character, which `decode` reads back. -/
theorem encode_spec {cp : UInt32} {part : CString} (hencode : encode cp = some part) :
    characterCut.Whole part ∧ decode part = cp := by
  rw [encode] at hencode
  split_ifs at hencode with hmax hsurrogate h1 h2 h3
  · have hsmall := UInt32.lt_iff_toNat_lt.mp h1
    simp only [UInt32.reduceToNat] at hsmall
    have hbyte : cp.toUInt8 < 0x80 := by
      rw [UInt8.lt_iff_toNat_lt, UInt32.toNat_toUInt8]
      simp only [UInt8.reduceToNat]
      omega
    have hseq : seqLen cp.toUInt8 = ([] : CString).length + 1 := by
      rw [seqLen, if_pos hbyte, List.length_nil]
    cases hencode
    constructor
    · exact whole_of_seqLen hseq (by simp)
    · rw [decode_of_seqLen hseq (by simp)]
      exact toUInt8_toUInt32 (by omega)
  · have hsmall := UInt32.lt_iff_toNat_lt.mp h2
    simp only [UInt32.reduceToNat] at hsmall
    have hlead : (cp >>> 6).toNat < 32 := by
      simp only [UInt32.toNat_shiftRight, UInt32.reduceToNat, Nat.reduceMod, Nat.shiftRight_eq_div_pow]
      omega
    have hbyte := lead_two _ hlead
    rw [← toUInt8_eq_ofNat] at hbyte
    have htrail : ∀ b ∈ [trail cp], b &&& 0xC0 = 0x80 := by
      simp [trail_continues]
    cases hencode
    constructor
    · exact whole_of_seqLen hbyte.1 htrail
    · rw [decode_of_seqLen hbyte.1 htrail]
      simp only [List.length_singleton, List.foldl_cons, List.foldl_nil, leadBits]
      rw [hbyte.2, toUInt8_toUInt32 (by omega), join_trail]
  · have hsmall := UInt32.lt_iff_toNat_lt.mp h3
    simp only [UInt32.reduceToNat] at hsmall
    have hlead : (cp >>> 12).toNat < 16 := by
      simp only [UInt32.toNat_shiftRight, UInt32.reduceToNat, Nat.reduceMod, Nat.shiftRight_eq_div_pow]
      omega
    have hbyte := lead_three _ hlead
    rw [← toUInt8_eq_ofNat] at hbyte
    have htrail : ∀ b ∈ [trail (cp >>> 6), trail cp], b &&& 0xC0 = 0x80 := by
      simp [trail_continues]
    cases hencode
    constructor
    · exact whole_of_seqLen hbyte.1 htrail
    · rw [decode_of_seqLen hbyte.1 htrail]
      simp only [List.length_cons, List.length_nil, List.foldl_cons, List.foldl_nil, leadBits]
      have hshift : cp >>> 12 = (cp >>> 6) >>> 6 := (shiftRight_six cp 6 (by omega)).symm
      rw [hbyte.2, toUInt8_toUInt32 (by omega), hshift, join_trail, join_trail]
  · have hsmall := UInt32.le_iff_toNat_le.mp (UInt32.not_lt.mp hmax)
    simp only [UInt32.reduceToNat] at hsmall
    have hlead : (cp >>> 18).toNat < 8 := by
      simp only [UInt32.toNat_shiftRight, UInt32.reduceToNat, Nat.reduceMod, Nat.shiftRight_eq_div_pow]
      omega
    have hbyte := lead_four _ hlead
    rw [← toUInt8_eq_ofNat] at hbyte
    have htrail : ∀ b ∈ [trail (cp >>> 12), trail (cp >>> 6), trail cp], b &&& 0xC0 = 0x80 := by
      simp [trail_continues]
    cases hencode
    constructor
    · exact whole_of_seqLen hbyte.1 htrail
    · rw [decode_of_seqLen hbyte.1 htrail]
      simp only [List.length_cons, List.length_nil, List.foldl_cons, List.foldl_nil, leadBits]
      have hshift : cp >>> 18 = (cp >>> 12) >>> 6 := (shiftRight_six cp 12 (by omega)).symm
      have hshift' : cp >>> 12 = (cp >>> 6) >>> 6 := (shiftRight_six cp 6 (by omega)).symm
      rw [hbyte.2, toUInt8_toUInt32 (by omega), hshift, join_trail, hshift', join_trail, join_trail]

end Utf8

end EZLanguage
