import EZLanguage.Runtime.StringSearch

/-!
# Cutting a text at a delimiter

A byte below 0x80 is a character of its own, whatever bytes surround it. So the position that `indexOf`
gives for such a delimiter cuts a text at that byte, also where the text is not well formed.
-/

namespace EZLanguage

namespace Utf8

open Segments

theorem continuation_of_ascii {c : UInt8} (hc : c < 0x80) : (c &&& 0xC0 == 0x80) = false := by
  have h := StringSearch.lead_small c.toNat (by exact UInt8.lt_iff_toNat_lt.mp hc)
  rw [UInt8.ofNat_toNat] at h
  exact beq_false_of_ne h

theorem charLen_ascii {c : UInt8} (hc : c < 0x80) (rest : CString) : charLen c rest = 1 := by
  rw [charLen, if_pos]
  rw [seqLen, if_pos hc]

/-- A character does not go beyond a byte that continues nothing. -/
theorem charLen_append_ascii (d : UInt8) (front : CString) {c : UInt8} (hc : c < 0x80) (after : CString) :
    charLen d (front ++ c :: after) = charLen d front := by
  have hpos := seqLen_pos d
  have hcontinues : continues (d :: (front ++ c :: after)) (seqLen d) =
      continues (d :: front) (seqLen d) := by
    obtain ⟨n, hn⟩ := Nat.exists_eq_add_of_lt hpos
    rw [Nat.zero_add] at hn
    rw [hn, continues, continues, List.take_succ_cons, List.take_succ_cons, List.drop_succ_cons,
      List.drop_succ_cons, List.drop_zero, List.drop_zero]
    by_cases hroom : n ≤ front.length
    · rw [List.take_append_of_le_length hroom]
      simp only [List.length_cons, List.length_append]
      rw [decide_eq_true (by omega), decide_eq_true (by omega)]
    · have hmem : c ∈ (front ++ c :: after).take n := by
        obtain ⟨k, hk⟩ := Nat.exists_eq_add_of_lt (Nat.not_le.mp hroom)
        rw [hk, Nat.add_assoc, List.take_length_add_append, List.take_succ_cons]
        simp
      have hall : ((front ++ c :: after).take n).all (fun b => b &&& 0xC0 == 0x80) = false := by
        apply List.all_eq_false.mpr
        refine ⟨c, hmem, ?_⟩
        rw [continuation_of_ascii hc]
        exact Bool.false_ne_true
      rw [hall, Bool.and_false, List.length_cons, decide_eq_false (by omega), Bool.false_and]
  rw [charLen, charLen, hcontinues]

/-- The characters before and after a byte below 0x80 are those of the two halves. -/
theorem characters_append_ascii (front : CString) {c : UInt8} (hc : c < 0x80) (after : CString) :
    characters (front ++ c :: after) = characters front ++ [c] :: characters after := by
  induction hn : front.length using Nat.strong_induction_on generalizing front with
  | _ n ih =>
      cases front with
      | nil =>
          have hlen : characterCut.width c after = 1 := charLen_ascii hc after
          have hnil : characters [] = [] := by rw [characters, Cut.segments]
          rw [List.nil_append, hnil, characters, Cut.segments, hlen]
          rfl
      | cons d front =>
          have hlen : characterCut.width d (front ++ c :: after) = characterCut.width d front :=
            charLen_append_ascii d front hc after
          have hle : characterCut.width d front - 1 ≤ front.length := by
            show charLen d front - 1 ≤ front.length
            rw [charLen]
            split_ifs with hone hcontinues
            · omega
            · rw [continues, Bool.and_eq_true, decide_eq_true_eq, List.length_cons] at hcontinues
              omega
            · omega
          have hrest := ih (front.drop (characterCut.width d front - 1)).length
            (by rw [← hn, List.length_drop, List.length_cons]; omega)
            (front.drop (characterCut.width d front - 1)) rfl
          rw [List.cons_append, characters, characters, Cut.segments, Cut.segments, hlen,
            List.take_append_of_le_length hle, List.drop_append_of_le_length hle]
          rw [characters] at hrest
          rw [hrest, List.cons_append]

end Utf8

namespace StringSearch

open Utf8 Segments Search IndexArguments

variable (o : Machine) {front after : CString} {c : UInt8} (hc : c < 0x80) (hfront : c ∉ front)

include hc hfront

/-- `indexOf` with two arguments gives the number of characters before the delimiter. -/
theorem indexOfBytes_byte :
    (indexOfBytes o.toArithmetic (front ++ c :: after) [c] none).run = lengthChars front := by
  have hfirst : first [c] (front ++ c :: after) = some front.length := by
    apply @first_append _ _ [c] (List.cons_ne_nil _ _)
    intro x hx heq
    rw [List.head?_cons] at heq
    exact hfront (Option.some.inj heq ▸ hx)
  have hfind : find [c] (front ++ c :: after) 0 = some front.length := by
    rw [find, if_pos (Nat.zero_le _), List.drop_zero, hfirst, Option.map_some, Nat.zero_add]
  have hoffset : front.length = offset (characters front ++ [c] :: characters after)
      (characters front).length := by
    rw [offset, List.take_left, flatten_characters]
  rw [indexOfBytes]
  dsimp only
  rw [pure_bind, hfind]
  show (byteOffsetToCharOffset (front ++ c :: after) front.length : Int) = _
  rw [byteOffsetToCharOffset_eq, characters_append_ascii front hc after, hoffset, index_offset,
    lengthChars_eq]
  · intro part hmem
    rw [← characters_append_ascii front hc after] at hmem
    exact characterCut.ne_nil_of_mem hmem
  · rw [List.length_append]
    omega

omit hfront in
theorem lengthChars_byte :
    lengthChars (front ++ c :: after) = lengthChars front + 1 + lengthChars after := by
  rw [lengthChars_eq, lengthChars_eq, lengthChars_eq, characters_append_ascii front hc after,
    List.length_append, List.length_cons]
  omega

omit hfront in
theorem substr_before (hshort : lengthChars (front ++ c :: after) < 2147483648) :
    o.substr (front ++ c :: after) 0 (lengthChars front) = front := by
  have hlength := @lengthChars_byte front after c hc
  have hpart := substr_eq o hshort (i := 0) (n := lengthChars front) (by omega)
  rw [List.drop_zero, characters_append_ascii front hc after, lengthChars_eq, List.take_left,
    flatten_characters] at hpart
  rw [lengthChars_eq]
  exact hpart

omit hfront in
theorem substr_after (hshort : lengthChars (front ++ c :: after) < 2147483648) :
    o.substr (front ++ c :: after) (lengthChars front + 1)
      (lengthChars (front ++ c :: after) - lengthChars front - 1) = after := by
  have hlength := @lengthChars_byte front after c hc
  have hpart := substr_eq o hshort (i := lengthChars front + 1) (n := lengthChars after) (by omega)
  have hdrop : (characters (front ++ c :: after)).drop (lengthChars front + 1) = characters after := by
    rw [characters_append_ascii front hc after, lengthChars_eq, List.drop_length_add_append]
    rfl
  rw [hdrop, lengthChars_eq after, List.take_length, flatten_characters, ← lengthChars_eq] at hpart
  have hrest : (lengthChars (front ++ c :: after) : Int) - lengthChars front - 1 =
      (lengthChars after : Nat) := by
    omega
  rw [hrest]
  exact hpart

end StringSearch

end EZLanguage
