import EZLanguage.Runtime.IndexArguments
import EZLanguage.Support.Search

/-!
# Searching and slicing strings

`indexOf` searches bytes and translates its start and what it finds between characters and bytes. In
well-formed text a byte match begins on a character, since the first byte of a character never continues
one, so the search and `slice` and `substr` count the same positions. They do so as long as the number of
characters is an `int`.
-/

namespace EZLanguage

namespace StringSearch

open Utf8 Segments Search IndexArguments

/-- The arithmetic of a machine: an operation always has some result, and a converted size is an `int`. -/
structure Machine extends Arithmetic Id where
  sizeAsInt : Nat → Int
  ofSize_eq : ∀ n, ofSize n = pure (sizeAsInt n)
  sizeAsInt_lt : ∀ n, sizeAsInt n < 2147483648

/-- `indexOf` on strings, whose last argument may be missing. -/
def indexOfBytes {m : Type → Type} [Monad m] (o : Arithmetic m) (s t : CString) (start : Option Int) :
    m Int := do
  let byteStart ← match start with
    | none => pure 0
    | some val => do
        let len ← o.ofSize (lengthChars s)
        let start ← o.ofNumber val
        let start ← placeFromEnd o len start
        pure (charOffsetToByteOffset s (toSize start))
  match find t s byteStart with
  | none => pure (-1)
  | some pos => pure (byteOffsetToCharOffset s pos)

namespace Machine

variable (o : Machine)

def indexOf (s t : CString) (start : Int) : Int :=
  (indexOfBytes o.toArithmetic s t (some start)).run

def slice (s : CString) (start stop : Int) : CString :=
  (sliceString o.toArithmetic s start stop).run

def substr (s : CString) (start length : Int) : CString :=
  (IndexArguments.substr o.toArithmetic s start length).run

end Machine

/-- A text that consists of encoded code points. -/
def WellFormed (s : CString) : Prop := ∃ cps, Encodes cps s

/-- The characters of `t` are the characters of `s` from a position on. -/
def OccursAt (s t : CString) (i : Nat) : Prop := characters t <+: (characters s).drop i

/-! ### A byte match begins on a character -/

theorem lead_or : ∀ n < 256, ((0xC0 : UInt8) ||| UInt8.ofNat n) &&& 0xC0 ≠ 0x80 ∧
    ((0xE0 : UInt8) ||| UInt8.ofNat n) &&& 0xC0 ≠ 0x80 ∧
    ((0xF0 : UInt8) ||| UInt8.ofNat n) &&& 0xC0 ≠ 0x80 := by
  decide +kernel

theorem lead_small : ∀ n < 128, UInt8.ofNat n &&& 0xC0 ≠ 0x80 := by decide

/-- The first byte of an encoding continues nothing, the others do. -/
theorem encode_lead {cp : UInt32} {part : CString} (h : encode cp = some part) :
    ∃ c rest, part = c :: rest ∧ c &&& 0xC0 ≠ 0x80 ∧ ∀ b ∈ rest, b &&& 0xC0 = 0x80 := by
  have hlead : ∀ x : UInt32, ((0xC0 : UInt8) ||| x.toUInt8) &&& 0xC0 ≠ 0x80 ∧
      ((0xE0 : UInt8) ||| x.toUInt8) &&& 0xC0 ≠ 0x80 ∧
      ((0xF0 : UInt8) ||| x.toUInt8) &&& 0xC0 ≠ 0x80 := by
    intro x
    have hbyte := lead_or x.toUInt8.toNat x.toUInt8.toNat_lt
    rwa [UInt8.ofNat_toNat] at hbyte
  rw [encode] at h
  split_ifs at h with hmax hsurrogate h1 h2 h3
  · have hsmall := UInt32.lt_iff_toNat_lt.mp h1
    simp only [UInt32.reduceToNat] at hsmall
    cases h
    refine ⟨_, [], rfl, ?_, by simp⟩
    rw [toUInt8_eq_ofNat]
    exact lead_small _ hsmall
  · cases h
    exact ⟨_, _, rfl, (hlead _).1, by simp [trail_continues]⟩
  · cases h
    exact ⟨_, _, rfl, (hlead _).2.1, by simp [trail_continues]⟩
  · cases h
    exact ⟨_, _, rfl, (hlead _).2.2, by simp [trail_continues]⟩

theorem WellFormed.parts {s : CString} (hs : WellFormed s) :
    ∀ part ∈ characters s, ∃ cp, encode cp = some part := by
  obtain ⟨cps, parts, hall, rfl⟩ := hs
  have hparts := (encoded_parts hall).1
  rw [characters_flatten hparts]
  exact hparts

theorem characters_append {t : CString} (ht : WellFormed t) (after : CString) :
    characters (t ++ after) = characters t ++ characters after := by
  obtain ⟨cps, parts, hall, rfl⟩ := ht
  have hparts := (encoded_parts hall).1
  rw [characters_flatten hparts]
  apply characterCut.segments_flatten_append
  intro part hmem
  obtain ⟨cp, hcp⟩ := hparts part hmem
  exact (encode_spec hcp).1

theorem flatten_characters (s : CString) : (characters s).flatten = s :=
  characterCut.flatten_segments s

/-- Text that is not empty begins with a byte that continues nothing. -/
theorem WellFormed.head {t : CString} (ht : WellFormed t) (hne : t ≠ []) :
    ∃ c rest, t = c :: rest ∧ c &&& 0xC0 ≠ 0x80 := by
  have hflatten := flatten_characters t
  cases hparts : characters t with
  | nil =>
      rw [hparts] at hflatten
      exact absurd hflatten.symm hne
  | cons part parts =>
      obtain ⟨cp, hcp⟩ := ht.parts part (by rw [hparts]; exact List.mem_cons_self)
      obtain ⟨c, rest, rfl, hc, -⟩ := encode_lead hcp
      rw [hparts] at hflatten
      exact ⟨c, rest ++ parts.flatten, hflatten.symm, hc⟩

/-- A byte match in well-formed text is an occurrence at a character position. -/
theorem prefix_drop_iff {s t : CString} (hs : WellFormed s) (ht : WellFormed t) (hne : t ≠ [])
    {place : Nat} (hplace : place ≤ s.length) :
    t <+: s.drop place ↔
      ∃ i ≤ (characters s).length, place = offset (characters s) i ∧ OccursAt s t i := by
  constructor
  · intro hprefix
    obtain ⟨c, rest, rfl, hc⟩ := ht.head hne
    have hbyte : s[place]? = some c := by
      obtain ⟨after, hafter⟩ := hprefix
      have hfirst : (s.drop place)[0]? = s[place + 0]? := List.getElem?_drop
      rw [← hafter] at hfirst
      exact hfirst.symm
    have hflat := flatten_characters s
    have hplace' : place ≤ (characters s).flatten.length := by rwa [hflat]
    obtain ⟨i, hi, rfl⟩ | ⟨part, hpart, a, ha, hat⟩ := boundary_or_tail (characters s) hplace'
    · refine ⟨i, hi, rfl, ?_⟩
      obtain ⟨after, hafter⟩ := hprefix
      have hdrop : characters (s.drop (offset (characters s) i)) = (characters s).drop i :=
        characterCut.segments_drop_offset s i
      rw [OccursAt, ← hdrop, ← hafter, characters_append ht]
      exact List.prefix_append _ _
    · rw [hflat, hbyte] at hat
      obtain rfl := Option.some.inj hat
      obtain ⟨cp, hcp⟩ := hs.parts part hpart
      obtain ⟨c', rest', rfl, -, htail⟩ := encode_lead hcp
      exact absurd (htail _ ha) hc
  · rintro ⟨i, -, rfl, after, hafter⟩
    have hdrop := flatten_drop_offset (characters s) i
    rw [flatten_characters, ← hafter, List.flatten_append, flatten_characters] at hdrop
    rw [hdrop]
    exact List.prefix_append _ _

theorem characters_ne_nil {t : CString} (hne : t ≠ []) : characters t ≠ [] := by
  intro hnil
  have hflat := flatten_characters t
  rw [hnil] at hflat
  exact hne hflat.symm

theorem OccursAt.le {s t : CString} {i : Nat} (h : OccursAt s t i) (hne : t ≠ []) :
    i + lengthChars t ≤ lengthChars s := by
  have hlength := List.IsPrefix.length_le h
  have hpos := List.length_pos_iff.mpr (characters_ne_nil hne)
  rw [List.length_drop] at hlength
  rw [lengthChars_eq, lengthChars_eq]
  omega

/-! ### Short texts -/

section short

variable (o : Machine) {s : CString} (hshort : lengthChars s < 2147483648)

include hshort

theorem slice_eq {i j : Nat} (hj : j < 2147483648) (hle : i ≤ j) :
    o.slice s i j = (((characters s).drop i).take (j - i)).flatten := by
  have hspec : sliceString o.toArithmetic s i j =
      pure (sliceSpec (characters s) i j).flatten :=
    sliceString_exact o.toArithmetic s (by unfold InInt; omega) (by unfold InInt; omega)
      (by unfold InInt; omega)
  have hi : fromEnd (characters s).length i = i := if_neg (by omega)
  have hj' : fromEnd (characters s).length j = j := if_neg (by omega)
  rw [sliceSpec, hi, hj', between, Int.toNat_natCast, Int.toNat_natCast] at hspec
  rw [Machine.slice, hspec]
  rfl

theorem substr_eq {i n : Nat} (hin : i + n < 2147483648) :
    o.substr s i n = (((characters s).drop i).take n).flatten := by
  have hi : max 0 (i : Int) = i := by omega
  have hn : max 0 (n : Int) = n := by omega
  have hspec : IndexArguments.substr o.toArithmetic s i n =
      pure (partSpec (characters s) i n).flatten :=
    substr_exact o.toArithmetic s (by unfold InInt; omega) (by unfold InInt; omega)
      (by unfold InInt; omega) (by intro _; unfold InInt; omega)
  have hsum : ((i : Int) + n).toNat - (i : Int).toNat = n := by omega
  rw [partSpec, hi, hn, between, hsum, Int.toNat_natCast] at hspec
  rw [Machine.substr, hspec]
  rfl

theorem indexOf_eq (t : CString) {k : Nat} (hk : k ≤ lengthChars s) :
    o.indexOf s t k =
      match find t s (offset (characters s) k) with
      | none => -1
      | some pos => (index (characters s) pos : Int) := by
  have hplace : InInt k := by
    unfold InInt
    omega
  have hsize : InInt (lengthChars s) := by
    unfold InInt
    omega
  have hfromEnd : fromEnd (lengthChars s) k = k := if_neg (by omega)
  have hstart : toSize (k : Int) = k := by
    rw [toSize_of_nonneg (by omega), Int.toNat_natCast]
  rw [Machine.indexOf, indexOfBytes]
  dsimp only
  rw [o.ofSize_exact _ hsize, pure_bind, o.ofNumber_exact _ hplace, pure_bind,
    placeFromEnd_exact o.toArithmetic hplace hsize, pure_bind, pure_bind, hfromEnd, hstart,
    charOffsetToByteOffset_eq]
  cases find t s (offset (characters s) k) with
  | none => rfl
  | some pos =>
      dsimp only
      rw [byteOffsetToCharOffset_eq]
      rfl

end short

/-! ### The laws -/

/-- The result of a search from `k` on. -/
structure Searched (o : Machine) (s t : CString) (k : Nat) : Prop where
  absent : o.indexOf s t k = -1 ↔ ∀ j, k ≤ j → ¬ OccursAt s t j
  found : o.indexOf s t k ≠ -1 → ∃ i : Nat, o.indexOf s t k = i ∧ k ≤ i ∧
    o.slice s i (i + lengthChars t) = t ∧ o.substr s i (lengthChars t) = t ∧
    ∀ j : Nat, k ≤ j → j < i → o.slice s j (j + lengthChars t) ≠ t

/-- One index space: a search finds what slicing gives back, and a text is its two slices. -/
structure OneIndexSpace (o : Machine) (s : CString) : Prop where
  search : ∀ t, WellFormed t → t ≠ [] → ∀ k ≤ lengthChars s, Searched o s t k
  halves : ∀ i : Nat, i ≤ lengthChars s → o.slice s 0 i ++ o.slice s i (lengthChars s) = s

theorem halves_of_short (o : Machine) {s : CString} (hshort : lengthChars s < 2147483648) (i : Nat)
    (hi : i ≤ lengthChars s) : o.slice s 0 i ++ o.slice s i (lengthChars s) = s := by
  have hfirst := slice_eq o hshort (i := 0) (j := i) (by omega) (Nat.zero_le _)
  have hsecond := slice_eq o hshort (i := i) (j := lengthChars s) hshort hi
  rw [List.drop_zero, Nat.sub_zero] at hfirst
  rw [List.take_of_length_le (by rw [List.length_drop, lengthChars_eq])] at hsecond
  rw [Nat.cast_zero] at hfirst
  rw [hfirst, hsecond, ← List.flatten_append, List.take_append_drop, flatten_characters]

theorem searched_of_short (o : Machine) {s t : CString} (hshort : lengthChars s < 2147483648)
    (hs : WellFormed s) (ht : WellFormed t) (hne : t ≠ []) {k : Nat} (hk : k ≤ lengthChars s) :
    Searched o s t k := by
  have hplaces : ∀ i ≤ lengthChars s, index (characters s) (offset (characters s) i) = i := by
    intro i hi
    rw [lengthChars_eq] at hi
    exact index_offset (fun part hmem => characterCut.ne_nil_of_mem hmem) hi
  have hoffset : ∀ i, offset (characters s) i ≤ s.length := by
    intro i
    have hle := offset_le (characters s) i
    rwa [flatten_characters] at hle
  have hvalue := indexOf_eq o hshort t hk
  cases hfind : find t s (offset (characters s) k) with
  | none =>
      rw [hfind] at hvalue
      have hnone : ∀ j, k ≤ j → ¬ OccursAt s t j := by
        intro j hkj hoccurs
        have hj := hoccurs.le hne
        apply (find_eq_none_iff (hoffset k)).mp hfind (offset (characters s) j)
          (monotone_offset _ hkj) (hoffset j)
        rw [prefix_drop_iff hs ht hne (hoffset j)]
        exact ⟨j, by rw [← lengthChars_eq]; omega, rfl, hoccurs⟩
      exact ⟨⟨fun _ => hnone, fun _ => hvalue⟩, fun h => absurd hvalue h⟩
  | some pos =>
      rw [hfind] at hvalue
      obtain ⟨hle, hpos, hprefix, hleast⟩ := (find_eq_some_iff (hoffset k) pos).mp hfind
      obtain ⟨i, hi, rfl, hoccurs⟩ := (prefix_drop_iff hs ht hne hpos).mp hprefix
      rw [← lengthChars_eq] at hi
      dsimp only at hvalue
      rw [hplaces i hi] at hvalue
      have hki : k ≤ i := by
        have hmono := monotone_index (characters s) hle
        rwa [hplaces k hk, hplaces i hi] at hmono
      have hroom := hoccurs.le hne
      have hslice : ∀ j : Nat, j + lengthChars t < 2147483648 → o.slice s j (j + lengthChars t) =
          (((characters s).drop j).take (lengthChars t)).flatten := by
        intro j hj
        have h := slice_eq o hshort (i := j) (j := j + lengthChars t) hj (Nat.le_add_right _ _)
        rwa [Nat.add_sub_cancel_left, Nat.cast_add] at h
      have htake : (((characters s).drop i).take (lengthChars t)).flatten = t := by
        rw [lengthChars_eq, ← List.prefix_iff_eq_take.mp hoccurs, flatten_characters]
      constructor
      · constructor
        · intro hminus
          rw [hvalue] at hminus
          omega
        · intro hnever
          exact absurd hoccurs (hnever i hki)
      · intro _
        refine ⟨i, hvalue, hki, ?_, ?_, ?_⟩
        · rw [hslice i (by omega), htake]
        · rw [substr_eq o hshort (by omega), htake]
        · intro j hkj hji heq
          rw [hslice j (by omega)] at heq
          have hlt : offset (characters s) j < offset (characters s) i := by
            by_contra hge
            have hmono := monotone_index (characters s) (Nat.not_lt.mp hge)
            rw [hplaces i hi, hplaces j (by omega)] at hmono
            omega
          apply hleast (offset (characters s) j) (monotone_offset _ hkj) hlt
          have hdrop := flatten_drop_offset (characters s) j
          rw [flatten_characters] at hdrop
          rw [hdrop, ← List.take_append_drop (lengthChars t) ((characters s).drop j),
            List.flatten_append, heq]
          exact List.prefix_append _ _

/-- The bounds of a slice from the start: whatever was converted, its end is an `int`. -/
theorem sliceBounds_zero (o : Machine) (size : Nat) (stop : Int) :
    (sliceBounds o.toArithmetic size 0 stop).run = none ∨
      ∃ b : Int, (sliceBounds o.toArithmetic size 0 stop).run = some (0, b) ∧ 0 ≤ b ∧
        b < 2147483648 := by
  have hsize := o.sizeAsInt_lt size
  have hzero : ∀ len : Int, placeFromEnd o.toArithmetic len 0 = pure 0 := by
    intro len
    rw [placeFromEnd, if_neg (by decide)]
  unfold sliceBounds
  rw [o.ofNumber_exact 0 (by decide), pure_bind]
  simp only [hzero, o.ofSize_eq, pure_bind, Id.run_bind]
  generalize o.sizeAsInt size = len at hsize ⊢
  generalize (placeFromEnd o.toArithmetic len (o.ofNumber stop).run).run = last
  by_cases hempty : len ≤ 0
  · left
    rw [if_pos hempty]
    rfl
  · rw [if_neg hempty]
    by_cases hnone : (if len < last then len else last) ≤ 0
    · left
      rw [if_pos hnone]
      rfl
    · right
      rw [if_neg hnone]
      refine ⟨_, rfl, by omega, ?_⟩
      split <;> omega

/-- A slice is cut at the bytes of its bounds. -/
theorem slice_run (o : Machine) (s : CString) (start stop : Int) :
    o.slice s start stop =
      (match (sliceBounds o.toArithmetic (lengthChars s) start stop).run with
        | none => (pure [] : Id CString)
        | some (start, stop) =>
            pure (substrBytes s (charOffsetToByteOffset s (toSize start))
              (charOffsetToByteOffset s (toSize stop)))).run := rfl

/-- From the start a slice of a longer text never reaches its end. -/
theorem slice_ne_of_long (o : Machine) {s : CString} (hlong : 2147483648 ≤ lengthChars s)
    (stop : Int) : o.slice s 0 stop ≠ s := by
  have hne : s ≠ [] := by
    rintro rfl
    rw [lengthChars] at hlong
    omega
  rw [slice_run]
  obtain hnone | ⟨b, hb, hpos, hlt⟩ := sliceBounds_zero o (lengthChars s) stop
  · rw [hnone]
    exact hne.symm
  · rw [hb]
    intro heq
    have hbytes : (between (characters s) 0 b).flatten = s := by
      rw [← substrBytes_offsets s (by decide) hpos]
      exact heq
    -- a proper beginning of the characters is a proper beginning of the bytes
    rw [between, Int.toNat_zero, List.drop_zero, Nat.sub_zero] at hbytes
    have hlength := congrArg List.length hbytes
    have hplaces : b.toNat < (characters s).length := by
      rw [← lengthChars_eq]
      omega
    have hnext := offset_succ hplaces
    have hle := offset_le (characters s) (b.toNat + 1)
    have hsome := List.length_pos_iff.mpr
      (characterCut.ne_nil_of_mem (List.getElem_mem hplaces))
    rw [flatten_characters] at hle
    rw [offset, offset] at hnext
    rw [offset] at hle
    omega

theorem slice_zero_zero (o : Machine) (s : CString) : o.slice s 0 0 = [] := by
  have hzero : ∀ len : Int, placeFromEnd o.toArithmetic len 0 = pure 0 := by
    intro len
    rw [placeFromEnd, if_neg (by decide)]
  have hbounds : (sliceBounds o.toArithmetic (lengthChars s) 0 0).run = none := by
    unfold sliceBounds
    rw [o.ofNumber_exact 0 (by decide), pure_bind, pure_bind]
    simp only [hzero, o.ofSize_eq, pure_bind]
    generalize o.sizeAsInt (lengthChars s) = len
    by_cases hempty : len ≤ 0
    · rw [if_pos hempty]
      rfl
    · have hnone : (if len < 0 then len else 0) ≤ 0 := by
        split <;> omega
      rw [if_neg hempty, if_pos hnone]
      rfl
  rw [slice_run, hbounds]
  rfl

/-- The two halves at the start of a longer text do not make it up. -/
theorem halves_of_long (o : Machine) {s : CString} (hlong : 2147483648 ≤ lengthChars s) :
    o.slice s 0 (0 : Nat) ++ o.slice s (0 : Nat) (lengthChars s) ≠ s := by
  rw [Nat.cast_zero, slice_zero_zero, List.nil_append]
  exact slice_ne_of_long o hlong _

/-- The positions of searching and slicing agree on a text exactly when the number of its characters is
an `int`, whatever a machine makes of the other conversions. -/
theorem one_index_space (o : Machine) (s : CString) (hs : WellFormed s) :
    OneIndexSpace o s ↔ lengthChars s < 2147483648 := by
  constructor
  · intro h
    by_contra hlong
    exact halves_of_long o (Nat.not_lt.mp hlong) (h.halves 0 (Nat.zero_le _))
  · intro hshort
    constructor
    · intro t ht hne k hk
      exact searched_of_short o hshort hs ht hne hk
    · intro i hi
      exact halves_of_short o hshort i hi

/-- A number in two's complement. -/
def narrow (x : Int) : Int := x.bmod 4294967296

theorem narrow_exact {x : Int} (h : InInt x) : narrow x = x := by
  unfold InInt at h
  rw [narrow, Int.bmod_def]
  split <;> omega

theorem narrow_lt (x : Int) : narrow x < 2147483648 := by
  rw [narrow, Int.bmod_def]
  split <;> omega

/-- Sizes and sums in two's complement, and the least `int` for a number that is none. -/
def twosComplement : Machine where
  ofNumber x := if InInt x then x else (-2147483648 : Int)
  ofSize n := narrow n
  add x y := narrow (x + y)
  inside _ := ⟨⟩
  ofNumber_exact _ h := if_pos h
  ofSize_exact _ h := narrow_exact h
  add_exact _ _ h := narrow_exact h
  inside_exact := rfl
  sizeAsInt n := narrow n
  ofSize_eq _ := rfl
  sizeAsInt_lt n := narrow_lt n

/-- A text of `n` letters `a`. -/
def letters (n : Nat) : CString := List.replicate n 97

theorem wellFormed_letters (n : Nat) : WellFormed (letters n) := by
  refine ⟨List.replicate n 97, List.replicate n [97], ?_, ?_⟩
  · induction n with
    | zero => exact .nil
    | succ n ih => exact .cons rfl ih
  · rw [List.flatten_replicate_singleton]
    rfl

theorem lengthChars_letters (n : Nat) : lengthChars (letters n) = n := by
  have hsingle : SingleBytes (letters n) := by
    induction n with
    | zero => trivial
    | succ n ih => exact ⟨rfl, ih⟩
  rw [(lengthChars_eq_length_iff _).mpr hsingle, letters, List.length_replicate]

theorem one_index_space_letters : OneIndexSpace twosComplement (letters 3) :=
  (one_index_space twosComplement (letters 3) (wellFormed_letters 3)).mpr (by
    rw [lengthChars_letters]
    decide)

/-- With 2147483648 letters the search and the slices no longer fit together. -/
theorem two_index_spaces :
    ¬ ∀ (o : Machine) (s : CString), WellFormed s → OneIndexSpace o s := by
  intro h
  have hlong : 2147483648 ≤ lengthChars (letters 2147483648) :=
    Nat.le_of_eq (lengthChars_letters 2147483648).symm
  have hspace := h twosComplement (letters 2147483648) (wellFormed_letters _)
  exact halves_of_long twosComplement hlong (hspace.halves 0 (Nat.zero_le _))

end StringSearch

end EZLanguage
