import EZLanguage.Runtime.StringSearch

/-!
# Positions of regex matches

The loops of `re_find`, `re_find_all` and `re_split` over a text. What the regex engine finds from an
offset on is given; all that is known of it is that a match lies inside the text. Offsets count bytes,
while the positions that `slice` takes count characters.
-/

namespace EZLanguage

namespace Regex

open Utf8 Segments StringSearch

/-- What the engine reports: a match relative to the offset the search began at. -/
structure Match where
  position : Nat
  length : Nat
  groups : List (Option CString)

/-- The engine on a text, for a pattern and flags that compile. -/
structure Engine (text : CString) where
  regex_search : Nat → Option Match
  within : ∀ offset m, regex_search offset = some m →
    offset + m.position + m.length ≤ text.length

/-- The dictionary of a match, with its keys `text`, `start`, `end` and `groups`. -/
structure MatchValue where
  text : CString
  start : Nat
  stop : Nat
  groups : List (Option CString)

def makeMatchValue (text : CString) (m : Match) (base : Nat) : MatchValue where
  text := (text.drop (base + m.position)).take m.length
  start := base + m.position
  stop := base + m.position + m.length
  groups := m.groups

variable {text : CString} (engine : Engine text)

def re_find (start : Int) : Option MatchValue :=
  let start := if start < 0 then 0 else start
  if text.length < start then none
  else (engine.regex_search start.toNat).map fun m => makeMatchValue text m start.toNat

/-- The offset behind a match, one further behind an empty one. -/
def nextOffset (offset : Nat) (m : Match) : Nat :=
  if m.length = 0 then offset + m.position + 1 else offset + m.position + m.length

theorem lt_nextOffset (offset : Nat) (m : Match) : offset < nextOffset offset m := by
  unfold nextOffset
  split_ifs <;> omega

/-- The loop of `re_find_all`, with the number of matches so far. -/
def findAllFrom (limit : Int) (offset count : Nat) : List MatchValue :=
  if offset ≤ text.length then
    match engine.regex_search offset with
    | none => []
    | some m =>
        makeMatchValue text m offset ::
          if 0 < limit ∧ limit ≤ count + 1 then []
          else findAllFrom limit (nextOffset offset m) (count + 1)
  else []
termination_by text.length + 1 - offset
decreasing_by
  have hlt := lt_nextOffset offset m
  omega

def re_find_all (limit : Int) : List MatchValue := findAllFrom engine limit 0 0

/-- The loop of `re_split`, with the number of pieces so far. -/
def splitFrom (limit : Int) (offset pieceStart count : Nat) : List CString :=
  if offset ≤ text.length then
    if 0 < limit ∧ limit ≤ count + 1 then [text.drop pieceStart]
    else
      match engine.regex_search offset with
      | none => [text.drop pieceStart]
      | some m =>
          if m.length = 0 then splitFrom limit (offset + m.position + 1) pieceStart count
          else
            (text.drop pieceStart).take (offset + m.position - pieceStart) ::
              splitFrom limit (offset + m.position + m.length) (offset + m.position + m.length)
                (count + 1)
  else [text.drop pieceStart]
termination_by text.length + 1 - offset

def re_split (limit : Int) : List CString := splitFrom engine limit 0 0 0

/-! ### The matches in order -/

/-- A match as the engine reports it from some offset on. -/
def Reported (value : MatchValue) : Prop :=
  ∃ offset m, engine.regex_search offset = some m ∧ value = makeMatchValue text m offset

/-- The matches of the loop are reported, lie behind its offset, and follow each other. -/
theorem findAllFrom_spec (limit : Int) (offset count : Nat) :
    (∀ value ∈ findAllFrom engine limit offset count,
      Reported engine value ∧ offset ≤ value.start) ∧
    (findAllFrom engine limit offset count).Pairwise fun a b =>
      a.stop ≤ b.start ∧ a.start < b.start := by
  fun_induction findAllFrom engine limit offset count with
  | case1 offset count hinside hnone => simp
  | case2 offset count hinside m hsome ih =>
      have hhere : Reported engine (makeMatchValue text m offset) := ⟨offset, m, hsome, rfl⟩
      have hrest : ∀ value ∈ (if 0 < limit ∧ limit ≤ count + 1 then []
          else findAllFrom engine limit (nextOffset offset m) (count + 1)),
          Reported engine value ∧ nextOffset offset m ≤ value.start := by
        intro value hmem
        split_ifs at hmem with hlimit
        · simp at hmem
        · exact ih.1 value hmem
      have hnext : offset + m.position + m.length ≤ nextOffset offset m ∧
          offset + m.position < nextOffset offset m := by
        unfold nextOffset
        split_ifs <;> omega
      constructor
      · intro value hmem
        rcases List.mem_cons.mp hmem with heq | hlater
        · rw [heq]
          exact ⟨hhere, Nat.le_add_right _ _⟩
        · have h := hrest value hlater
          exact ⟨h.1, by omega⟩
      · apply List.pairwise_cons.mpr
        constructor
        · intro value hmem
          have h := hrest value hmem
          show offset + m.position + m.length ≤ value.start ∧ offset + m.position < value.start
          omega
        · split_ifs
          · exact List.Pairwise.nil
          · exact ih.2
  | case3 offset count houtside => simp

/-- The pieces with separators between them. -/
def interleave : List CString → List CString → CString
  | piece :: pieces, sep :: seps => piece ++ sep ++ interleave pieces seps
  | pieces, _ => pieces.flatten

/-- The bytes of a match that is not empty. -/
def Separator (sep : CString) : Prop := ∃ value, Reported engine value ∧ value.text = sep ∧ sep ≠ []

/-- The pieces of the loop and separators between them are what is left of the text. -/
theorem splitFrom_spec (limit : Int) (offset pieceStart count : Nat) (hpiece : pieceStart ≤ offset) :
    ∃ seps, (splitFrom engine limit offset pieceStart count).length = seps.length + 1 ∧
      (∀ sep ∈ seps, Separator engine sep) ∧
      interleave (splitFrom engine limit offset pieceStart count) seps = text.drop pieceStart := by
  have hlast : ∃ seps : List CString, [text.drop pieceStart].length = seps.length + 1 ∧
      (∀ sep ∈ seps, Separator engine sep) ∧
      interleave [text.drop pieceStart] seps = text.drop pieceStart :=
    ⟨[], rfl, by simp, by simp [interleave]⟩
  fun_induction splitFrom engine limit offset pieceStart count with
  | case1 => exact hlast
  | case2 => exact hlast
  | case3 offset pieceStart count hinside hlimit m hsome hempty ih =>
      exact ih (by omega) hlast
  | case4 offset pieceStart count hinside hlimit m hsome hempty ih =>
      obtain ⟨seps, hlength, hseps, hwhole⟩ := ih (Nat.le_refl _)
        ⟨[], rfl, by simp, by simp [interleave]⟩
      have hwithin := engine.within offset m hsome
      refine ⟨(text.drop (offset + m.position)).take m.length :: seps, ?_, ?_, ?_⟩
      · rw [List.length_cons, List.length_cons, hlength]
      · intro sep hmem
        rcases List.mem_cons.mp hmem with heq | hlater
        · refine ⟨makeMatchValue text m offset, ⟨offset, m, hsome, rfl⟩, heq.symm, ?_⟩
          rw [heq]
          apply List.ne_nil_of_length_pos
          rw [List.length_take, List.length_drop]
          omega
        · exact hseps sep hlater
      · have hfirst : text.drop (offset + m.position) =
            (text.drop pieceStart).drop (offset + m.position - pieceStart) := by
          rw [List.drop_drop]
          congr 1
          omega
        have hrest : (text.drop (offset + m.position)).take m.length ++
            text.drop (offset + m.position + m.length) = text.drop (offset + m.position) := by
          rw [← List.drop_drop (i := m.length), List.take_append_drop]
        rw [interleave, hwhole, List.append_assoc, hrest, hfirst, List.take_append_drop]
  | case5 => exact hlast

/-! ### Positions that slice the text -/

/-- The match is what `slice` cuts out at its positions. -/
def Sliced (o : Machine) (text : CString) (value : MatchValue) : Prop :=
  o.slice text value.start value.stop = value.text

/-- What a script relies on in the results of the three builtins. -/
structure Usable (o : Machine) : Prop where
  found : ∀ start value, re_find engine start = some value → Sliced o text value
  all : ∀ limit, ∀ value ∈ re_find_all engine limit, Sliced o text value
  resumes : ∀ start value, re_find engine start = some value →
    re_find engine value.stop =
      (engine.regex_search value.stop).map (fun m => makeMatchValue text m value.stop) ∧
    ∀ next, re_find engine value.stop = some next → value.stop ≤ next.start
  ordered : ∀ limit, (re_find_all engine limit).Pairwise fun a b =>
    a.stop ≤ b.start ∧ a.start < b.start
  pieces : ∀ limit, ∃ seps, (re_split engine limit).length = seps.length + 1 ∧
    (∀ sep ∈ seps, Separator engine sep) ∧ interleave (re_split engine limit) seps = text

theorem re_find_reported {start : Int} {value : MatchValue} (h : re_find engine start = some value) :
    Reported engine value := by
  rw [re_find] at h
  split_ifs at h with hstart hend hend
  · obtain ⟨m, hm, rfl⟩ := Option.map_eq_some_iff.mp h
    exact ⟨_, m, hm, rfl⟩
  · obtain ⟨m, hm, rfl⟩ := Option.map_eq_some_iff.mp h
    exact ⟨_, m, hm, rfl⟩

theorem Reported.stop_le {value : MatchValue} (h : Reported engine value) :
    value.stop ≤ text.length := by
  obtain ⟨offset, m, hm, rfl⟩ := h
  exact engine.within offset m hm

theorem re_find_resumes {value : MatchValue} (h : Reported engine value) :
    re_find engine value.stop =
      (engine.regex_search value.stop).map fun m => makeMatchValue text m value.stop := by
  have hstop := h.stop_le
  rw [re_find, if_neg (by omega), if_neg (by omega), Int.toNat_natCast]

theorem sliced_of_single (o : Machine) (hsingle : SingleBytes text)
    (hshort : lengthChars text < 2147483648) {value : MatchValue} (h : Reported engine value) :
    Sliced o text value := by
  have hstop := h.stop_le
  have hlength := (lengthChars_eq_length_iff text).mpr hsingle
  obtain ⟨offset, m, hm, rfl⟩ := h
  have hslice := slice_eq o hshort (i := offset + m.position) (j := offset + m.position + m.length)
    (by
      have hle : offset + m.position + m.length ≤ text.length := hstop
      omega) (Nat.le_add_right _ _)
  have hparts : characters text = text.map fun c => [c] := characters_singleBytes hsingle
  rw [hparts, Nat.add_sub_cancel_left, ← List.map_drop, ← List.map_take, ← List.flatMap_def, List.flatMap_singleton']
    at hslice
  exact hslice

/-- An engine that matches the beginning of a text, up to some byte. -/
def beginning (text : CString) (stop : Nat) (hstop : stop ≤ text.length) : Engine text where
  regex_search offset := if offset = 0 then some ⟨0, stop, []⟩ else none
  within := by
    intro offset m h
    split_ifs at h with hzero
    obtain rfl := Option.some.inj h
    dsimp only
    omega

theorem slice_of_usable {o : Machine} {stop : Nat} {hstop : stop ≤ text.length}
    (h : Usable (beginning text stop hstop) o) : o.slice text 0 stop = text.take stop := by
  have hfind : re_find (beginning text stop hstop) 0 = some ⟨text.take stop, 0, stop, []⟩ := by
    have hstart : ¬ (text.length : Int) < if (0 : Int) < 0 then 0 else 0 := by
      rw [if_neg (by decide)]
      omega
    rw [re_find, if_neg hstart]
    simp [beginning, makeMatchValue]
  have hfound := h.found 0 _ hfind
  rw [Sliced] at hfound
  dsimp only at hfound
  rwa [Nat.cast_zero] at hfound

/-- A text whose beginnings are all sliced at their byte lengths has characters of one byte only. -/
theorem single_of_slices {o : Machine} (hshort : lengthChars text < 2147483648)
    (hslices : ∀ stop ≤ text.length, o.slice text 0 stop = text.take stop) : SingleBytes text := by
  apply (lengthChars_eq_length_iff text).mp
  apply Nat.le_antisymm (lengthChars_le text)
  -- the beginning with as many bytes as there are characters is the whole text
  have hslice := slice_eq o hshort (i := 0) (j := lengthChars text) hshort (Nat.zero_le _)
  have htake := hslices (lengthChars text) (lengthChars_le text)
  rw [List.drop_zero, Nat.sub_zero, lengthChars_eq, List.take_length, flatten_characters] at hslice
  rw [lengthChars_eq, Nat.cast_zero] at *
  rw [hslice] at htake
  have hlength := congrArg List.length htake
  rw [List.length_take] at hlength
  omega

/-- The positions of matches are usable, whatever the engine reports, exactly on the texts that `slice`
can index and in which every character is a single byte. -/
theorem regex_positions (o : Machine) (text : CString) :
    (∀ engine : Engine text, Usable engine o) ↔
      SingleBytes text ∧ lengthChars text < 2147483648 := by
  constructor
  · intro h
    have hslices : ∀ stop ≤ text.length, o.slice text 0 stop = text.take stop :=
      fun stop hstop => slice_of_usable (h (beginning text stop hstop))
    have hshort : lengthChars text < 2147483648 := by
      by_contra hlong
      apply slice_ne_of_long o (Nat.not_lt.mp hlong) (text.length : Nat)
      rw [hslices _ (Nat.le_refl _), List.take_length]
    exact ⟨single_of_slices hshort hslices, hshort⟩
  · intro h engine
    have hsliced : ∀ value, Reported engine value → Sliced o text value :=
      fun value => sliced_of_single engine o h.1 h.2
    constructor
    · intro start value hfind
      exact hsliced value (re_find_reported engine hfind)
    · intro limit value hmem
      exact hsliced value ((findAllFrom_spec engine limit 0 0).1 value hmem).1
    · intro start value hfind
      have hresume := re_find_resumes engine (re_find_reported engine hfind)
      refine ⟨hresume, ?_⟩
      intro next hnext
      rw [hresume] at hnext
      obtain ⟨m, hm, rfl⟩ := Option.map_eq_some_iff.mp hnext
      exact Nat.le_add_right _ _
    · intro limit
      exact (findAllFrom_spec engine limit 0 0).2
    · intro limit
      exact splitFrom_spec engine limit 0 0 0 (Nat.le_refl _)

/-- In `é` the first byte is no character, and a match of it is not what `slice` gives. -/
theorem regex_positions_accent :
    ¬ ∀ (o : Machine) (text : CString) (engine : Engine text), Usable engine o := by
  intro h
  have hsingle := ((regex_positions twosComplement [0xC3, 0xA9]).mp (h twosComplement _)).1
  have hfirst : charLen 0xC3 [0xA9] = 1 := hsingle.1
  exact absurd hfirst (by decide)

end Regex

end EZLanguage
