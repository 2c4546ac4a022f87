import EZLanguage.Runtime.Utf8Laws

/-!
# What the case mappings lose

`upperChars` and `lowerChars` write the mapped value of every character back with `encode`, and ignore
when `encode` rejects it. A character is kept only where it is what `encode` writes for its value.
-/

namespace EZLanguage

namespace Utf8

open Segments

/-- The tables of the case mappings change the character's value. -/
def Cased (part : CString) : Prop :=
  toUpperCP (decode part) ≠ decode part ∨ toLowerCP (decode part) ≠ decode part

/-- The character is what `encode` writes for its value. -/
def WellFormed (part : CString) : Prop := encode (decode part) = some part

/-- One output character for every character, and those that are not cased as they were. -/
def KeepsText (cased : CString → Prop) (s out : CString) : Prop :=
  lengthChars out = lengthChars s ∧
  ∀ (k : Nat) (part : CString), (characters s)[k]? = some part → ¬cased part →
    (characters out)[k]? = some part

/-- What `encode` writes for the mapped value of a character. -/
def recoded (toCase : UInt32 → UInt32) (part : CString) : Option CString :=
  encode (toCase (decode part))

/-- The mapped characters that `encode` accepts. -/
def written (toCase : UInt32 → UInt32) (s : CString) : List CString :=
  (characters s).filterMap (recoded toCase)

theorem characters_mapChars (toCase : UInt32 → UInt32) (s : CString) :
    characters (mapChars toCase s 0 []) = written toCase s := by
  have hwritten : mapChars toCase s 0 [] = (written toCase s).flatten := by
    rw [mapChars_eq, List.drop_zero, List.nil_append, written]
    generalize characters s = parts
    induction parts with
    | nil => rfl
    | cons part parts ih =>
        rw [List.map_cons, List.flatten_cons, ih, mapped, ← recoded]
        cases hout : recoded toCase part with
        | none => rw [List.filterMap_cons_none hout, Option.getD_none, List.nil_append]
        | some out => rw [List.filterMap_cons_some hout, List.flatten_cons, Option.getD_some]
  rw [hwritten, characters_flatten]
  intro out hmem
  obtain ⟨part, _, hout⟩ := List.mem_filterMap.mp hmem
  exact ⟨_, hout⟩

/-- The number of characters is kept exactly where `encode` rejects none of them. -/
theorem lengthChars_mapChars_iff (toCase : UInt32 → UInt32) (s : CString) :
    lengthChars (mapChars toCase s 0 []) = lengthChars s ↔
      ∀ part ∈ characters s, (recoded toCase part).isSome = true := by
  rw [lengthChars_eq, lengthChars_eq, characters_mapChars, written, List.length_filterMap_eq_countP,
    List.countP_eq_length]

/-- Where none is rejected, every character has its own output. -/
theorem written_getElem? {toCase : UInt32 → UInt32} {s : CString}
    (hall : ∀ part ∈ characters s, (recoded toCase part).isSome = true) (k : Nat) :
    (written toCase s)[k]? = (characters s)[k]?.bind (recoded toCase) := by
  rw [written]
  revert hall k
  generalize characters s = parts
  intro hall
  induction parts with
  | nil => simp
  | cons part parts ih =>
      intro k
      obtain ⟨out, hout⟩ := Option.isSome_iff_exists.mp (hall part List.mem_cons_self)
      rw [List.filterMap_cons_some hout]
      cases k with
      | zero => simp [hout]
      | succ k =>
          rw [List.getElem?_cons_succ, List.getElem?_cons_succ]
          exact ih (fun part' hmem => hall part' (List.mem_cons_of_mem _ hmem)) k

/-- A case mapping keeps the text exactly where it accepts every character and leaves the uncased ones. -/
theorem keepsText_iff (toCase : UInt32 → UInt32) (cased : CString → Prop) (s : CString) :
    KeepsText cased s (mapChars toCase s 0 []) ↔
      ∀ part ∈ characters s, (recoded toCase part).isSome = true ∧
        (¬cased part → recoded toCase part = some part) := by
  rw [KeepsText, lengthChars_mapChars_iff, characters_mapChars]
  constructor
  · rintro ⟨hall, hkept⟩ part hmem
    constructor
    · exact hall part hmem
    · intro huncased
      obtain ⟨k, hk⟩ := List.mem_iff_getElem?.mp hmem
      have hout := hkept k part hk huncased
      rw [written_getElem? hall, hk, Option.bind_some] at hout
      exact hout
  · intro hall
    constructor
    · exact fun part hmem => (hall part hmem).1
    · intro k part hk huncased
      rw [written_getElem? fun part hmem => (hall part hmem).1, hk, Option.bind_some]
      exact (hall part (List.mem_iff_getElem?.mpr ⟨k, hk⟩)).2 huncased

/-- Every value the tables change is one `encode` accepts. -/
theorem cased_scalar {part : CString} (hcased : Cased part) :
    (encode (decode part)).isSome = true := by
  rw [encode_isSome_iff]
  rw [Cased, toUpperCP, toLowerCP] at hcased
  split_ifs at hcased <;> grind

/-- A case mapping keeps a character that is cased or what `encode` writes for its value. -/
theorem recoded_of_kept {toCase : UInt32 → UInt32} {part : CString}
    (hscalar : ∀ cp, (encode cp).isSome = true → (encode (toCase cp)).isSome = true)
    (huncased : ¬Cased part → toCase (decode part) = decode part)
    (hkept : Cased part ∨ WellFormed part) :
    (recoded toCase part).isSome = true ∧ (¬Cased part → recoded toCase part = some part) := by
  have hsome : (encode (decode part)).isSome = true := by
    cases hkept with
    | inl hcased => exact cased_scalar hcased
    | inr hwell => rw [hwell, Option.isSome_some]
  constructor
  · exact hscalar _ hsome
  · intro hnot
    have hwell := hkept.resolve_left hnot
    rw [recoded, huncased hnot, hwell]

theorem toUpperCP_uncased {part : CString} (hnot : ¬Cased part) :
    toUpperCP (decode part) = decode part := by
  by_contra hne
  exact hnot (.inl hne)

theorem toLowerCP_uncased {part : CString} (hnot : ¬Cased part) :
    toLowerCP (decode part) = decode part := by
  by_contra hne
  exact hnot (.inr hne)

/-- The case mappings keep the text exactly where every character is cased or well formed; where only
well-formed characters count as cased, exactly on well-formed strings. -/
theorem case_mapping_iff (s : CString) :
    ((KeepsText Cased s (upperChars s) ∧ KeepsText Cased s (lowerChars s)) ↔
      ∀ part ∈ characters s, Cased part ∨ WellFormed part) ∧
    ((KeepsText (fun part => Cased part ∧ WellFormed part) s (upperChars s) ∧
        KeepsText (fun part => Cased part ∧ WellFormed part) s (lowerChars s)) ↔
      ∀ part ∈ characters s, WellFormed part) := by
  rw [upperChars, lowerChars]
  simp only [keepsText_iff]
  constructor
  · constructor
    · rintro ⟨hupper, _⟩ part hmem
      by_cases hcased : Cased part
      · exact .inl hcased
      · have hrecoded := (hupper part hmem).2 hcased
        rw [recoded, toUpperCP_uncased hcased] at hrecoded
        exact .inr hrecoded
    · intro hkept
      constructor
      · intro part hmem
        exact recoded_of_kept (fun _ => toUpperCP_scalar) toUpperCP_uncased (hkept part hmem)
      · intro part hmem
        exact recoded_of_kept (fun _ => toLowerCP_scalar) toLowerCP_uncased (hkept part hmem)
  · constructor
    · rintro ⟨hupper, _⟩ part hmem
      by_contra hill
      -- an ill-formed character would have to be its own output, which is well formed
      have hrecoded := (hupper part hmem).2 fun hboth => hill hboth.2
      have hvalue := (encode_spec hrecoded).2
      rw [recoded, ← hvalue] at hrecoded
      exact hill hrecoded
    · intro hwell
      constructor
      · intro part hmem
        have hkept := recoded_of_kept (fun _ => toUpperCP_scalar) toUpperCP_uncased
          (.inr (hwell part hmem))
        exact ⟨hkept.1, fun hnot => hkept.2 fun hcased => hnot ⟨hcased, hwell part hmem⟩⟩
      · intro part hmem
        have hkept := recoded_of_kept (fun _ => toLowerCP_scalar) toLowerCP_uncased
          (.inr (hwell part hmem))
        exact ⟨hkept.1, fun hnot => hkept.2 fun hcased => hnot ⟨hcased, hwell part hmem⟩⟩

/-- An encoded surrogate disappears. -/
theorem case_mapping_counterexample :
    ¬∀ s, KeepsText Cased s (upperChars s) ∧ KeepsText Cased s (lowerChars s) := by
  intro hall
  have hcut : characters [0xED, 0xA0, 0x80] = [[0xED, 0xA0, 0x80]] := by
    have hwhole : characterCut.Whole [0xED, 0xA0, 0x80] := whole_of_seqLen rfl (by decide +kernel)
    have hwholes : ∀ seg ∈ ([[0xED, 0xA0, 0x80]] : List CString), characterCut.Whole seg := by
      simpa using hwhole
    exact characterCut.segments_flatten hwholes
  have hkept := (hall [0xED, 0xA0, 0x80]).1
  rw [upperChars, keepsText_iff, hcut] at hkept
  have hsome := (hkept _ (List.mem_singleton_self _)).1
  have hdecode : decode [0xED, 0xA0, 0x80] = 0xD800 := decode_of_seqLen rfl (by decide +kernel)
  rw [recoded, hdecode] at hsome
  exact absurd hsome (by decide)

end Utf8

end EZLanguage
