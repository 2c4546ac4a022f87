import EZLanguage.Datetime.Iso

/-!
# The laws of ISO 8601

What is printed is read back, an offset moves an instant, and what is read are numbers in the calendar, each
under the condition that the searches of `parseIso` need.
-/

namespace EZLanguage

namespace Datetime

open Utf8 Segments Search StringPieces StringSearch Httpx

/-! ### The round trip -/

theorem portText_digits (n : Nat) : DigitText (portText n) := by
  refine ⟨?_, fun c hc => portText_digit hc⟩
  intro h
  have hlength := congrArg List.length h
  rw [portText, List.length_map, List.length_nil] at hlength
  exact Nat.toDigits_ne_nil (List.length_eq_zero_iff.mp hlength)

theorem decimal_zeros (k : Nat) (s : CString) :
    Httpx.decimal (List.replicate k 48 ++ s) = Httpx.decimal s := by
  induction k with
  | zero => rfl
  | succ k ih =>
      rw [List.replicate_succ, List.cons_append, ← ih]
      rfl

theorem DigitText.padLeft {s : CString} (hs : DigitText s) (width : Nat) :
    DigitText (padLeft s width) := by
  refine ⟨List.append_ne_nil_of_right_ne_nil _ hs.1, ?_⟩
  intro c hc
  rcases List.mem_append.mp hc with hc | hc
  · rw [List.eq_of_mem_replicate hc]
    decide
  · exact hs.2 c hc

theorem pad_nonneg {n : Int} (hn : 0 ≤ n) (width : Nat) :
    pad n width = padLeft (portText n.natAbs) width := by
  have hbody : intText n = portText n.natAbs := if_neg (by omega)
  rw [pad, hbody]
  rw [startsWith_unsigned ((portText_digits _).not_mem (by decide)), if_neg Bool.false_ne_true]

/-- A number below 0 is padded behind its sign. -/
theorem pad_negative {n : Int} (hn : n < 0) (width : Nat) :
    pad n width = 45 :: padLeft (portText n.natAbs) width := by
  have hbody : intText n = 45 :: portText n.natAbs := if_pos hn
  rw [pad, hbody]
  rfl

theorem pad_digits {n : Int} (hn : 0 ≤ n) (width : Nat) : DigitText (pad n width) := by
  rw [pad_nonneg hn]
  exact (portText_digits _).padLeft width

/-- A padded number is read as the number. -/
theorem wholeNumber_pad {n : Int} (hn : 0 ≤ n) (width : Nat) : wholeNumber (pad n width) = .ok n := by
  rw [wholeNumber_digits (pad_digits hn width), pad_nonneg hn, padLeft, decimal_zeros, decimal_portText]
  exact congrArg _ (Int.natAbs_of_nonneg hn)

theorem decimal_pad {n : Int} (hn : 0 ≤ n) (width : Nat) : (Httpx.decimal (pad n width) : Int) = n := by
  rw [pad_nonneg hn, padLeft, decimal_zeros, decimal_portText]
  exact Int.natAbs_of_nonneg hn

theorem portText_length {n k : Nat} (hk : 0 < k) (hn : n < 10 ^ k) : (portText n).length ≤ k := by
  rw [portText, List.length_map, Nat.length_toDigits_le_iff (by decide) hk]
  exact hn

theorem pad_length {n : Int} (hn : 0 ≤ n) {width : Nat} (hpos : 0 < width)
    (hwidth : n.natAbs < 10 ^ width) : (pad n width).length = width := by
  have hle := portText_length hpos hwidth
  rw [pad_nonneg hn, padLeft, List.length_append, List.length_replicate]
  omega

/-- The text of a date and a time, without offset. -/
def isoText (c : Components) : CString :=
  pad c.year 4 ++ 45 :: (pad c.month 2 ++ 45 :: (pad c.day 2 ++ 84 :: (pad c.hour 2 ++
    58 :: (pad c.minute 2 ++ 58 :: (pad c.second 2 ++ 46 :: pad c.millisecond 3)))))

set_option maxRecDepth 4000

theorem scan_iso : scan (lengthChars isoPattern) (characters isoPattern) =
    [.token .YYYY, .char [45], .token .MM, .char [45], .token .DD, .char [84], .token .HH, .char [58],
      .token .mm, .char [58], .token .ss, .char [46], .token .SSS, .token .ZZ] := by
  have hplain : characters isoPattern = isoPattern.map fun c => [c] :=
    characters_singleBytes (singleBytes_of_ascii (by decide))
  have hlength : lengthChars isoPattern = 25 := by
    rw [lengthChars_eq, hplain, List.length_map]
    rfl
  rw [hlength, hplain]
  decide

theorem formatParts_iso (c : Components) (offset : Int) :
    formatParts c isoPattern (some offset) = isoText c ++ offsetText (some offset) true := by
  rw [formatParts, scan_iso]
  simp only [List.flatMap_cons, List.flatMap_nil, expand, isoText, List.append_assoc, List.cons_append,
    List.nil_append, List.append_nil]

def dateText (c : Components) : CString := pad c.year 4 ++ 45 :: (pad c.month 2 ++ 45 :: pad c.day 2)

def timeText (c : Components) : CString := pad c.hour 2 ++ 58 :: (pad c.minute 2 ++ 58 :: pad c.second 2)

theorem isoText_eq (c : Components) :
    isoText c = dateText c ++ 84 :: (timeText c ++ 46 :: pad c.millisecond 3) := by
  rw [isoText, dateText, timeText]
  simp only [List.append_assoc, List.cons_append]

/-- A text joined from parts without the byte between them is split into these parts. -/
theorem split_joined {c : UInt8} {parts : List CString} (hne : parts ≠ [])
    (hparts : ∀ part ∈ parts, c ∉ part) : split (Search.join [c] parts) [c] = parts := by
  rw [split_of_ne_nil (List.cons_ne_nil _ _), pieces_join (List.cons_ne_nil _ _) hne]
  intro piece hpiece x hx hhead
  obtain rfl := Option.some.inj hhead
  exact hparts piece hpiece hx

section Instant

variable {c : Components} (hc : c.InRange)
include hc

theorem month_day_nonneg : 0 ≤ c.month ∧ 0 ≤ c.day := by
  obtain ⟨hm, _, hd, _⟩ := hc.date
  exact ⟨by omega, by omega⟩

theorem readDate_dateText (hyear : 0 ≤ c.year) : readDate (dateText c) = .ok c.toDate := by
  obtain ⟨hmonth, hday⟩ := month_day_nonneg hc
  obtain ⟨hm1, hm12, hd1, hd⟩ := hc.date
  have hsplit : split (dateText c) [45] = [pad c.year 4, pad c.month 2, pad c.day 2] := by
    have hjoin : dateText c = Search.join [45] [pad c.year 4, pad c.month 2, pad c.day 2] := by
      rw [dateText, Search.join, List.flatMap_cons, List.flatMap_cons, List.flatMap_nil, List.append_nil]
      rfl
    rw [hjoin, split_joined (List.cons_ne_nil _ _)]
    intro part hpart
    simp only [List.mem_cons, List.not_mem_nil, or_false] at hpart
    rcases hpart with rfl | rfl | rfl
    · exact (pad_digits hyear 4).not_mem (by decide)
    · exact (pad_digits hmonth 2).not_mem (by decide)
    · exact (pad_digits hday 2).not_mem (by decide)
  rw [readDate, hsplit]
  dsimp only
  rw [wholeNumber_pad hyear, wholeNumber_pad hmonth, wholeNumber_pad hday]
  dsimp only
  rw [if_neg (by omega), if_neg (by omega)]

/-- A year before 0 is printed with a sign, which no date begins with. -/
theorem readDate_negative (hyear : c.year < 0) : readDate (dateText c) = .error .notDate := by
  obtain ⟨hmonth, hday⟩ := month_day_nonneg hc
  have hdigits := (portText_digits c.year.natAbs).padLeft 4
  have hpad := pad_negative hyear 4
  have hsplit : split (dateText c) [45] =
      [[], padLeft (portText c.year.natAbs) 4, pad c.month 2, pad c.day 2] := by
    have hjoin : dateText c =
        Search.join [45] [[], padLeft (portText c.year.natAbs) 4, pad c.month 2, pad c.day 2] := by
      rw [dateText, hpad, Search.join, List.flatMap_cons, List.flatMap_cons, List.flatMap_cons,
        List.flatMap_nil, List.append_nil]
      rfl
    rw [hjoin, split_joined (List.cons_ne_nil _ _)]
    intro part hpart
    simp only [List.mem_cons, List.not_mem_nil, or_false] at hpart
    rcases hpart with rfl | rfl | rfl | rfl
    · exact List.not_mem_nil
    · exact hdigits.not_mem (by decide)
    · exact (pad_digits hmonth 2).not_mem (by decide)
    · exact (pad_digits hday 2).not_mem (by decide)
  rw [readDate, hsplit]

theorem readTime_timeText (o : Machine)
    (hshort : (timeText c ++ 46 :: pad c.millisecond 3).length < 2147483648) :
    readTime o (timeText c ++ 46 :: pad c.millisecond 3) =
      .ok (some ⟨c.hour, c.minute, c.second, c.millisecond⟩) := by
  obtain ⟨hh0, hh⟩ := hc.hour
  obtain ⟨hm0, hm⟩ := hc.minute
  obtain ⟨hs0, hs⟩ := hc.second
  obtain ⟨hf0, hf⟩ := hc.millisecond
  have hhour := pad_digits hh0 2
  have hminute := pad_digits hm0 2
  have hsecond := pad_digits hs0 2
  have hfraction := pad_digits hf0 3
  have hdot : 46 ∉ timeText c := by
    rw [timeText, List.mem_append, List.mem_cons, List.mem_append, List.mem_cons]
    simp only [not_or]
    exact ⟨hhour.not_mem (by decide), by decide, hminute.not_mem (by decide), by decide,
      hsecond.not_mem (by decide)⟩
  have hsplit : split (timeText c) [58] = [pad c.hour 2, pad c.minute 2, pad c.second 2] := by
    have hjoin : timeText c = Search.join [58] [pad c.hour 2, pad c.minute 2, pad c.second 2] := by
      rw [timeText, Search.join, List.flatMap_cons, List.flatMap_cons, List.flatMap_nil, List.append_nil]
      rfl
    rw [hjoin, split_joined (List.cons_ne_nil _ _)]
    intro part hpart
    simp only [List.mem_cons, List.not_mem_nil, or_false] at hpart
    rcases hpart with rfl | rfl | rfl
    · exact hhour.not_mem (by decide)
    · exact hminute.not_mem (by decide)
    · exact hsecond.not_mem (by decide)
  have hthree : (pad c.millisecond 3).length = 3 := pad_length hf0 (by decide) (by omega)
  have hchars : lengthChars (pad c.millisecond 3) = 3 := by
    rw [lengthChars_eq, hfraction.characters, List.length_map, hthree]
  have hmilli : milliDigits o (pad c.millisecond 3) = pad c.millisecond 3 := by
    have hpart := @substr_eq o (pad c.millisecond 3) (by omega) 0 3 (by omega)
    rw [List.drop_zero, List.take_of_length_le (by rw [← lengthChars_eq, hchars]),
      flatten_characters] at hpart
    rw [milliDigits, hchars, Nat.sub_self, List.replicate_zero, List.append_nil]
    exact hpart
  have hcut : splitFraction o (timeText c ++ 46 :: pad c.millisecond 3) =
      (timeText c, pad c.millisecond 3) := by
    rw [splitFraction, cutAt_append o (by decide) hdot hshort]
  have hne : timeText c ++ 46 :: pad c.millisecond 3 ≠ [] :=
    List.append_ne_nil_of_right_ne_nil _ (List.cons_ne_nil _ _)
  rw [readTime, if_neg hne, hcut]
  dsimp only
  rw [hsplit, hmilli, if_pos (by simp), if_pos (by simp), if_pos hfraction.1, List.getD_cons_zero,
    List.getD_cons_succ, List.getD_cons_zero, List.getD_cons_succ, List.getD_cons_succ,
    List.getD_cons_zero, wholeNumber_pad hh0, wholeNumber_pad hm0, wholeNumber_pad hs0,
    wholeNumber_pad hf0]
  dsimp only
  rw [checkClock, if_neg (by omega), if_neg (by omega), if_neg (by omega), if_neg (by omega),
    if_neg (by omega)]

theorem timeText_no_T : 84 ∉ timeText c ++ 46 :: pad c.millisecond 3 := by
  rw [timeText]
  simp only [List.mem_append, List.mem_cons, not_or]
  exact ⟨⟨(pad_digits hc.hour.1 2).not_mem (by decide), by decide,
    (pad_digits hc.minute.1 2).not_mem (by decide), by decide,
    (pad_digits hc.second.1 2).not_mem (by decide)⟩, by decide,
    (pad_digits hc.millisecond.1 3).not_mem (by decide)⟩

omit hc in
/-- The bytes of a printed year. -/
theorem pad_year (x : UInt8) (hx : x ≠ 45) (hdigit : x.toNat < 48 ∨ 57 < x.toNat) :
    x ∉ pad c.year 4 := by
  by_cases hyear : 0 ≤ c.year
  · exact (pad_digits hyear 4).not_mem hdigit
  · rw [pad_negative (by omega), List.mem_cons, not_or]
    exact ⟨hx, ((portText_digits _).padLeft 4).not_mem hdigit⟩

theorem dateText_not_mem (x : UInt8) (hx : x ≠ 45) (hdigit : x.toNat < 48 ∨ 57 < x.toNat) :
    x ∉ dateText c := by
  obtain ⟨hmonth, hday⟩ := month_day_nonneg hc
  rw [dateText]
  simp only [List.mem_append, List.mem_cons, not_or]
  exact ⟨pad_year x hx hdigit, hx, (pad_digits hmonth 2).not_mem hdigit, hx,
    (pad_digits hday 2).not_mem hdigit⟩

theorem timeText_ends : (timeText c ++ 46 :: pad c.millisecond 3).head?.any isBlank = false ∧
    (timeText c ++ 46 :: pad c.millisecond 3).getLast?.any isBlank = false := by
  have hhour := pad_digits hc.hour.1 2
  have hfraction := pad_digits hc.millisecond.1 3
  constructor
  · obtain ⟨x, rest, hx⟩ := List.exists_cons_of_ne_nil hhour.1
    have hhead := hhour.head
    rw [timeText, hx]
    rw [hx] at hhead
    exact hhead
  · rw [List.getLast?_append_of_ne_nil _ (List.cons_ne_nil _ _), List.getLast?_cons_of_ne_nil hfraction.1]
    exact hfraction.last

theorem dateText_head : (dateText c).head?.any isBlank = false ∧ dateText c ≠ [] := by
  have hne : pad c.year 4 ≠ [] := by
    by_cases hyear : 0 ≤ c.year
    · exact (pad_digits hyear 4).1
    · rw [pad_negative (by omega)]
      exact List.cons_ne_nil _ _
  refine ⟨?_, List.append_ne_nil_of_left_ne_nil hne _⟩
  cases hhead : (dateText c).head? with
  | none => rfl
  | some x =>
      have hmem := List.mem_of_head? hhead
      have hnot : ∀ b : UInt8, b ≠ 45 → (b.toNat < 48 ∨ 57 < b.toNat) → x ≠ b :=
        fun b hb hdigit heq => dateText_not_mem hc b hb hdigit (heq ▸ hmem)
      rw [Option.any_some, isBlank, beq_eq_false_iff_ne.mpr (hnot 32 (by decide) (by decide)),
        beq_eq_false_iff_ne.mpr (hnot 9 (by decide) (by decide)),
        beq_eq_false_iff_ne.mpr (hnot 10 (by decide) (by decide)),
        beq_eq_false_iff_ne.mpr (hnot 13 (by decide) (by decide))]
      rfl

theorem workingOf_isoText :
    workingOf (isoText c) = dateText c ++ 32 :: (timeText c ++ 46 :: pad c.millisecond 3) := by
  obtain ⟨hhead, hne⟩ := dateText_head hc
  have hstart : (isoText c).head?.any isBlank = false := by
    obtain ⟨x, rest, hx⟩ := List.exists_cons_of_ne_nil hne
    rw [isoText_eq, hx]
    rw [hx] at hhead
    exact hhead
  rw [workingOf, dropWhile_blank hstart, isoText_eq, blankT_append,
    blankT_self (dateText_not_mem hc 84 (by decide) (by decide))]
  have hrest := blankT_self (timeText_no_T hc)
  show _ ++ 32 :: blankT _ = _
  rw [hrest]

/-- The date and the time of a printed instant. -/
theorem readFields_isoText (o : Machine) (hshort : (isoText c).length < 2147483648) :
    readFields o (trim (workingOf (isoText c))) =
      match readDate (dateText c) with
      | .error e => .error e
      | .ok date => .ok (date, some ⟨c.hour, c.minute, c.second, c.millisecond⟩) := by
  obtain ⟨hhead, hne⟩ := dateText_head hc
  obtain ⟨htimeHead, htimeLast⟩ := timeText_ends hc
  have hlength : (dateText c ++ 32 :: (timeText c ++ 46 :: pad c.millisecond 3)).length < 2147483648 := by
    rw [isoText_eq] at hshort
    rw [List.length_append, List.length_cons] at hshort ⊢
    exact hshort
  have htime : (timeText c ++ 46 :: pad c.millisecond 3).length < 2147483648 := by
    rw [List.length_append, List.length_cons] at hlength
    omega
  have hblank : 32 ∉ dateText c := dateText_not_mem hc 32 (by decide) (by decide)
  have hself : trim (dateText c ++ 32 :: (timeText c ++ 46 :: pad c.millisecond 3)) =
      dateText c ++ 32 :: (timeText c ++ 46 :: pad c.millisecond 3) := by
    apply trim_self
    · obtain ⟨x, rest, hx⟩ := List.exists_cons_of_ne_nil hne
      rw [hx] at hhead ⊢
      exact hhead
    · rw [List.getLast?_append_of_ne_nil _ (List.cons_ne_nil _ _), List.getLast?_cons_of_ne_nil
        (List.append_ne_nil_of_right_ne_nil _ (List.cons_ne_nil _ _))]
      exact htimeLast
  rw [workingOf_isoText hc, hself, readFields, cutAt_append o (by decide) hblank hlength]
  dsimp only
  rw [trim_self htimeHead htimeLast, readTime_timeText hc o htime]
  cases readDate (dateText c) with
  | error e => rfl
  | ok date => rfl

end Instant

theorem offsetText_zero : offsetText (some 0) true = [90] := rfl

/-- A printed offset of less than a day is one that is read. -/
theorem offsetText_spec {offset : Int} (hne : offset ≠ 0) (hlow : -1440 < offset) (hhigh : offset < 1440) :
    OffsetText (offsetText (some offset) true) offset := by
  have hsplit : ∀ total : Int, 0 ≤ total → total < 1440 →
      TwoDigits (pad (floorDivide total 60) 2) ∧ TwoDigits (pad (Int.tmod total 60) 2) ∧
        (Httpx.decimal (pad (floorDivide total 60) 2) : Int) * 60 +
          Httpx.decimal (pad (Int.tmod total 60) 2) = total := by
    intro total h0 h1
    have hmod : Int.tmod total 60 = total % 60 := Int.tmod_eq_emod_of_nonneg h0
    rw [floorDivide_eq _ (by decide), hmod]
    refine ⟨⟨pad_digits (by omega) 2, pad_length (by omega) (by decide) (by omega)⟩,
      ⟨pad_digits (by omega) 2, pad_length (by omega) (by decide) (by omega)⟩, ?_⟩
    rw [decimal_pad (by omega), decimal_pad (by omega)]
    omega
  rw [offsetText]
  dsimp only
  rw [if_neg hne, if_pos rfl]
  by_cases hneg : offset < 0
  · rw [if_pos hneg, if_pos hneg]
    obtain ⟨hh, hm, hsum⟩ := hsplit (0 - offset) (by omega) (by omega)
    have htext := OffsetText.colon (Or.inr ⟨rfl, rfl⟩ : SignOf 45 (-1)) hh hm
    rw [hsum] at htext
    have hvalue : -1 * (0 - offset) = offset := by omega
    rw [hvalue] at htext
    exact htext
  · rw [if_neg hneg, if_neg hneg]
    obtain ⟨hh, hm, hsum⟩ := hsplit offset (by omega) (by omega)
    have htext := OffsetText.colon (Or.inl ⟨rfl, rfl⟩ : SignOf 43 1) hh hm
    rw [hsum, Int.one_mul] at htext
    exact htext

/-- A printed instant is read back exactly when the year on the clock is not negative. -/
theorem isoIn_iff (o : Machine) {ts offset : Int} (hlow : -1440 < offset) (hhigh : offset < 1440)
    (hshort : (isoIn ts offset).length < 2147483648) :
    parseIso o (some (isoIn ts offset)) = .ok ts ↔
      0 ≤ (componentsUtc (ts + offset * MS_PER_MINUTE)).year := by
  obtain ⟨wall, hwall⟩ : ∃ wall, wall = ts + offset * MS_PER_MINUTE := ⟨_, rfl⟩
  have hrange := componentsUtc_inRange wall
  rw [isoIn, ← hwall, formatParts_iso] at hshort ⊢
  have hlength : (isoText (componentsUtc wall)).length < 2147483648 := by
    rw [List.length_append] at hshort
    omega
  have hblank : 32 ∈ workingOf (isoText (componentsUtc wall)) := by
    rw [workingOf_isoText hrange]
    exact List.mem_append_right _ List.mem_cons_self
  have hread := readFields_isoText hrange o hlength
  have hparse : parseIso o (some (isoText (componentsUtc wall) ++ offsetText (some offset) true)) =
      (readFields o (trim (workingOf (isoText (componentsUtc wall))))).map
        fun fields => instant fields offset := by
    by_cases hzero : offset = 0
    · rw [hzero] at hshort ⊢
      exact parseIso_utc o (dropWhile_ne_nil hblank) hshort
    · exact parseIso_offsetText o (offsetText_spec hzero hlow hhigh) hblank hshort
  rw [hparse, hread]
  by_cases hyear : 0 ≤ (componentsUtc wall).year
  · rw [readDate_dateText hrange hyear]
    apply iff_of_true _ hyear
    have hback := timestampUtc_componentsUtc wall
    show (Except.ok (instant _ offset) : Except IsoError Int) = .ok ts
    rw [instant]
    dsimp only
    rw [hback, hwall]
    apply congrArg
    omega
  · rw [readDate_negative hrange (by omega)]
    apply iff_of_false _ hyear
    intro h
    cases h

theorem toIso_eq (ts : Int) : toIso ts = isoIn ts 0 := by
  rw [toIso, isoIn, Int.zero_mul, Int.add_zero]

/-! ### What is accepted -/

def IsNumber (s : CString) (n : Int) : Prop := DigitText s ∧ (Httpx.decimal s : Int) = n

def Tight (s : CString) : Prop := ∀ c ∈ s, isBlank c = false

theorem Tight.trim {s : CString} (hs : Tight s) : Httpx.trim s = s := by
  apply trim_self
  · cases hhead : s.head? with
    | none => rfl
    | some c => exact hs c (List.mem_of_head? hhead)
  · cases hlast : s.getLast? with
    | none => rfl
    | some c => exact hs c (List.mem_of_getLast? hlast)

theorem mem_of_contains {s t : CString} (h : contains s t = true) {c : UInt8} (hc : c ∈ t) : c ∈ s := by
  rw [contains] at h
  obtain ⟨i, hi⟩ := Option.isSome_iff_exists.mp h
  obtain ⟨_, _, hstart, _⟩ := (find_eq_some_iff (Nat.zero_le _) i).mp hi
  exact List.mem_of_mem_drop (hstart.subset hc)

/-- A text without blanks and signs that is read as a number has digits only. -/
theorem wholeNumber_ok {s : CString} {n : Int} (hs : Tight s) (hsign : 45 ∉ s)
    (h : wholeNumber s = .ok n) : IsNumber s n := by
  have hstart := startsWith_unsigned hsign
  rw [wholeNumber, hs.trim] at h
  dsimp only at h
  by_cases hempty : s = []
  · rw [if_pos hempty] at h
    cases h
  · rw [if_neg hempty, hstart, if_neg Bool.false_ne_true] at h
    cases hfind : (split s []).find? fun ch => contains (lit "0123456789") ch = false with
    | some ch =>
        rw [hfind] at h
        cases h
    | none =>
        rw [hfind] at h
        dsimp only at h
        rw [if_neg hempty, if_neg Bool.false_ne_true] at h
        refine ⟨⟨hempty, ?_⟩, Except.ok.inj h⟩
        intro c hc
        rw [List.find?_eq_none, split_nil] at hfind
        rw [← flatten_characters s] at hc
        obtain ⟨part, hpart, hmem⟩ := List.mem_flatten.mp hc
        have hfound : contains (lit "0123456789") part = true := by
          have hnot := hfind part hpart
          simpa using hnot
        have hdigits : ∀ c ∈ lit "0123456789", 48 ≤ c.toNat ∧ c.toNat ≤ 57 := by decide
        exact hdigits c (mem_of_contains hfound hmem)

/-- The parts of a split text make up the text, and have no delimiter. -/
theorem split_spec (c : UInt8) (s : CString) :
    Search.join [c] (split s [c]) = s ∧ ∀ part ∈ split s [c], c ∉ part := by
  have hne : [c] ≠ [] := List.cons_ne_nil _ _
  rw [split_of_ne_nil hne]
  refine ⟨join_pieces hne s, ?_⟩
  intro part hpart hmem
  apply not_infix_of_mem_pieces hne s part hpart
  obtain ⟨front, back, rfl⟩ := List.append_of_mem hmem
  exact ⟨front, back, by simp⟩

theorem mem_of_mem_part {c x : UInt8} {s part : CString} (hpart : part ∈ split s [c]) (hx : x ∈ part) :
    x ∈ s := by
  have hjoin := (split_spec c s).1
  obtain ⟨front, back, hsplit⟩ := List.append_of_mem hpart
  rw [hsplit] at hjoin
  rw [← hjoin]
  cases front with
  | nil => exact List.mem_append_left _ hx
  | cons first front =>
      rw [List.cons_append, Search.join]
      apply List.mem_append_right
      rw [List.flatMap_append, List.flatMap_cons]
      exact List.mem_append_right _ (List.mem_append_left _ (List.mem_append_right _ hx))

/-- The text of a date in the calendar. -/
def DateRead (s : CString) (date : Date) : Prop :=
  ∃ y m d, s = Search.join [45] [y, m, d] ∧ IsNumber y date.year ∧ IsNumber m date.month ∧
    IsNumber d date.day ∧ date.Valid

theorem readDate_ok {s : CString} {date : Date} (hs : Tight s) (h : readDate s = .ok date) :
    DateRead s date := by
  obtain ⟨hjoin, hparts⟩ := split_spec 45 s
  have hnumber : ∀ part ∈ split s [45], ∀ n, wholeNumber part = .ok n → IsNumber part n := by
    intro part hpart n hn
    exact wholeNumber_ok (fun c hc => hs c (mem_of_mem_part hpart hc)) (hparts part hpart) hn
  rw [readDate] at h
  rcases hsplit : split s [45] with _ | ⟨y, _ | ⟨m, _ | ⟨d, _ | ⟨e, rest⟩⟩⟩⟩
  · rw [hsplit] at h
    cases h
  · rw [hsplit] at h
    cases h
  · rw [hsplit] at h
    cases h
  · rw [hsplit] at h hjoin hnumber
    dsimp only at h
    cases hy : wholeNumber y with
    | error e =>
        rw [hy] at h
        cases h
    | ok year =>
        cases hm : wholeNumber m with
        | error e =>
            rw [hy, hm] at h
            cases h
        | ok month =>
            cases hd : wholeNumber d with
            | error e =>
                rw [hy, hm, hd] at h
                cases h
            | ok day =>
                rw [hy, hm, hd] at h
                dsimp only at h
                split_ifs at h with hmonth hday
                rw [← Except.ok.inj h]
                refine ⟨y, m, d, hjoin.symm, hnumber y (by simp) year hy, hnumber m (by simp) month hm,
                  hnumber d (by simp) day hd, ?_⟩
                show 1 ≤ month ∧ month ≤ 12 ∧ 1 ≤ day ∧ day ≤ daysInMonthOf year month
                omega
  · rw [hsplit] at h
    cases h

/-- A time part that the searches look through to its end: no blanks and signs, three fields at most, and
digits only in the fraction. -/
structure Plain (o : Machine) (time : CString) : Prop where
  tight : Tight time
  sign : 45 ∉ time
  fields : (split (splitFraction o time).1 [58]).length ≤ 3
  fraction : ∀ c ∈ (splitFraction o time).2, 48 ≤ c.toNat ∧ c.toNat ≤ 57

/-- The text of a time on a clock, second 60 and the end of the day included. -/
structure TimeRead (time : CString) (fields : List CString) (fraction : CString)
    (hour minute second : Int) : Prop where
  text : time = Search.join [58] fields ∧ fraction = [] ∨
    ∃ mark, (mark = 46 ∨ mark = 44) ∧ time = Search.join [58] fields ++ mark :: fraction
  count : fields.length ≤ 3
  hours : IsNumber (fields.getD 0 []) hour
  minutes : if fields.length > 1 then IsNumber (fields.getD 1 []) minute else minute = 0
  seconds : if fields.length > 2 then IsNumber (fields.getD 2 []) second else second = 0
  fraction : ∀ c ∈ fraction, 48 ≤ c.toNat ∧ c.toNat ≤ 57
  range : hour = 24 ∧ minute = 0 ∧ second = 0 ∨ hour ≤ 23 ∧ minute ≤ 59 ∧ second ≤ 60

theorem splitFraction_spec (o : Machine) {time : CString} (hshort : time.length < 2147483648) :
    (time = (splitFraction o time).1 ∧ (splitFraction o time).2 = []) ∨
      ∃ mark, (mark = 46 ∨ mark = 44) ∧
        time = (splitFraction o time).1 ++ mark :: (splitFraction o time).2 := by
  rcases cutAt_cases o time (by decide : (46 : UInt8) < 0x80) hshort with
    ⟨_, hcut⟩ | ⟨front, after, rfl, _, hcut⟩
  · rcases cutAt_cases o time (by decide : (44 : UInt8) < 0x80) hshort with
      ⟨_, hcut'⟩ | ⟨front, after, rfl, _, hcut'⟩
    · rw [splitFraction, hcut, hcut']
      exact Or.inl ⟨rfl, rfl⟩
    · rw [splitFraction, hcut, hcut']
      exact Or.inr ⟨44, Or.inr rfl, rfl⟩
  · rw [splitFraction, hcut]
    exact Or.inr ⟨46, Or.inl rfl, rfl⟩

theorem checkClock_ok {hour minute second milli : Int} {clock : Option Clock}
    (h : checkClock hour minute second milli = .ok clock) :
    hour = 24 ∧ minute = 0 ∧ second = 0 ∨ hour ≤ 23 ∧ minute ≤ 59 ∧ second ≤ 60 := by
  rw [checkClock] at h
  split_ifs at h with hend hhour hminute hsecond
  · exact Or.inl hend
  · right
    omega
  · right
    omega

theorem readTime_ok (o : Machine) {time : CString} {clock : Option Clock}
    (hshort : time.length < 2147483648) (hplain : Plain o time) (h : readTime o time = .ok clock) :
    time = [] ∨ ∃ fields fraction hour minute second,
      TimeRead time fields fraction hour minute second := by
  by_cases hempty : time = []
  · exact Or.inl hempty
  right
  obtain ⟨hjoin, hparts⟩ := split_spec 58 (splitFraction o time).1
  have hspec := splitFraction_spec o hshort
  have hinside : ∀ c ∈ (splitFraction o time).1, c ∈ time := by
    intro c hc
    rcases hspec with ⟨heq, _⟩ | ⟨mark, _, heq⟩
    · rw [heq]
      exact hc
    · rw [heq]
      exact List.mem_append_left _ hc
  have hnumber : ∀ part ∈ split (splitFraction o time).1 [58], ∀ n, wholeNumber part = .ok n →
      IsNumber part n := by
    intro part hpart n hn
    apply wholeNumber_ok _ _ hn
    · exact fun c hc => hplain.tight c (hinside c (mem_of_mem_part hpart hc))
    · exact fun hc => hplain.sign (hinside 45 (mem_of_mem_part hpart hc))
  have hfield : ∀ k, k < (split (splitFraction o time).1 [58]).length → ∀ n,
      wholeNumber ((split (splitFraction o time).1 [58]).getD k []) = .ok n →
        IsNumber ((split (splitFraction o time).1 [58]).getD k []) n := by
    intro k hk n hn
    apply hnumber _ _ n hn
    rw [List.getD_eq_getElem?_getD, List.getElem?_eq_getElem hk, Option.getD_some]
    exact List.getElem_mem hk
  have hone : 0 < (split (splitFraction o time).1 [58]).length := by
    rw [split_of_ne_nil (List.cons_ne_nil _ _)]
    exact List.length_pos_iff.mpr (pieces_ne_nil _ _)
  rw [readTime, if_neg hempty] at h
  dsimp only at h
  split at h
  · next hour minute second milli hh hm hs hf =>
      refine ⟨split (splitFraction o time).1 [58], (splitFraction o time).2, hour, minute, second, ?_⟩
      constructor
      · rw [hjoin]
        exact hspec
      · exact hplain.fields
      · exact hfield 0 hone hour hh
      · split_ifs at hm ⊢ with hlong
        · exact hfield 1 hlong minute hm
        · exact (Except.ok.inj hm).symm
      · split_ifs at hs ⊢ with hlong
        · exact hfield 2 hlong second hs
        · exact (Except.ok.inj hs).symm
      · exact hplain.fraction
      · exact checkClock_ok h
  · cases h
  · cases h
  · cases h
  · cases h

/-- The date and the time of a text without offset. -/
def partsOf (o : Machine) (working : CString) : CString × CString :=
  match cutAt o working 32 with
  | some cut => (cut.1, trim cut.2)
  | none => (working, [])

theorem trim_sublist (s : CString) : List.Sublist (trim s) s := by
  have hend := List.dropWhile_sublist (p := isBlank) (l := (s.dropWhile isBlank).reverse)
  have hreverse := hend.reverse
  rw [List.reverse_reverse] at hreverse
  exact hreverse.trans (List.dropWhile_sublist isBlank)

theorem partsOf_length_le (o : Machine) {working : CString} (hshort : working.length < 2147483648) :
    (partsOf o working).2.length ≤ working.length := by
  rcases cutAt_cases o working (by decide : (32 : UInt8) < 0x80) hshort with
    ⟨_, hcut⟩ | ⟨front, after, rfl, _, hcut⟩
  · rw [partsOf, hcut]
    exact Nat.zero_le _
  · rw [partsOf, hcut]
    have hle := (trim_sublist after).length_le
    rw [List.length_append, List.length_cons]
    show (trim after).length ≤ _
    omega

/-- The fields of an accepted text are numbers in the calendar and on the clock. -/
theorem readFields_ok (o : Machine) {working : CString} {fields : Date × Option Clock}
    (hshort : working.length < 2147483648) (hdate : Tight (partsOf o working).1)
    (htime : Plain o (partsOf o working).2) (h : readFields o working = .ok fields) :
    DateRead (partsOf o working).1 fields.1 ∧ ((partsOf o working).2 = [] ∨
      ∃ texts fraction hour minute second,
        TimeRead (partsOf o working).2 texts fraction hour minute second) := by
  have hparts : readFields o working =
      match readDate (partsOf o working).1 with
      | .error e => .error e
      | .ok date => (readTime o (partsOf o working).2).map fun clock => (date, clock) := rfl
  rw [hparts] at h
  cases hread : readDate (partsOf o working).1 with
  | error e =>
      rw [hread] at h
      cases h
  | ok date =>
      rw [hread] at h
      obtain ⟨clock, hclock, rfl⟩ := map_ok h
      have hlength := partsOf_length_le o hshort
      exact ⟨readDate_ok hdate hread, readTime_ok o (by omega) htime hclock⟩

theorem trim_length_lt {s : CString} (hshort : s.length < 2147483648) :
    (trim s).length < 2147483648 :=
  Nat.lt_of_le_of_lt (trim_sublist s).length_le hshort

/-- The end of a day, as a text. -/
def endOfDayText : CString := lit "2026-08-12T24:00:00"

theorem reads_endOfDayText : Reads twosComplement endOfDayText (⟨2026, 8, 12⟩, none) := by
  have hworking : workingOf endOfDayText = lit "2026-08-12 24:00:00" := by decide
  have htrim : trim (lit "2026-08-12 24:00:00") = lit "2026-08-12" ++ 32 :: lit "24:00:00" := by
    decide
  have htime : trim (lit "24:00:00") = lit "24:00:00" := by decide
  have hdigits : ∀ s ∈ [lit "2026", lit "08", lit "12", lit "24", lit "00"], DigitText s := by
    intro s hs
    refine ⟨?_, ?_⟩
    · rintro rfl
      exact absurd hs (by decide)
    · have hall : ∀ s ∈ [lit "2026", lit "08", lit "12", lit "24", lit "00"], ∀ c ∈ s,
          48 ≤ c.toNat ∧ c.toNat ≤ 57 := by decide
      exact hall s hs
  have hdate : split (lit "2026-08-12") [45] = [lit "2026", lit "08", lit "12"] :=
    @split_joined 45 [lit "2026", lit "08", lit "12"] (List.cons_ne_nil _ _) (by decide)
  have hclock : split (lit "24:00:00") [58] = [lit "24", lit "00", lit "00"] :=
    @split_joined 58 [lit "24", lit "00", lit "00"] (List.cons_ne_nil _ _) (by decide)
  have hyear := wholeNumber_digits (hdigits (lit "2026") (by decide))
  have hmonth := wholeNumber_digits (hdigits (lit "08") (by decide))
  have hday := wholeNumber_digits (hdigits (lit "12") (by decide))
  have hhour := wholeNumber_digits (hdigits (lit "24") (by decide))
  have hzero := wholeNumber_digits (hdigits (lit "00") (by decide))
  have hreadDate : readDate (lit "2026-08-12") = .ok ⟨2026, 8, 12⟩ := by
    rw [readDate, hdate]
    dsimp only
    rw [hyear, hmonth, hday]
    decide
  have hcut : splitFraction twosComplement (lit "24:00:00") = (lit "24:00:00", []) := by
    rw [splitFraction, cutAt_none _ (by decide), cutAt_none _ (by decide)]
  have hreadTime : readTime twosComplement (lit "24:00:00") = .ok none := by
    rw [readTime, if_neg (by decide), hcut]
    dsimp only
    rw [hclock, if_pos (by decide), if_pos (by decide), if_neg (by decide)]
    rw [show [lit "24", lit "00", lit "00"].getD 0 [] = lit "24" from rfl,
      show [lit "24", lit "00", lit "00"].getD 1 [] = lit "00" from rfl,
      show [lit "24", lit "00", lit "00"].getD 2 [] = lit "00" from rfl, hhour, hzero]
    decide
  constructor
  · rw [hworking]
    decide
  · rw [hworking, htrim, readFields,
      cutAt_append _ (by decide) (by decide) (by decide)]
    dsimp only
    rw [hreadDate, htime, hreadTime]
    rfl

end Datetime

end EZLanguage
