import EZLanguage.Datetime.Civil
import EZLanguage.Httpx.Url

/-!
# ISO 8601

`formatParts` prints the parts of an instant along a pattern, `parseIso` takes a text apart by searches,
one after the other. An offset is cut off first, then the date and the time are read field by field.
-/

namespace EZLanguage

namespace Datetime

open Utf8 Segments Search StringPieces StringSearch Httpx

/-! ### Printing -/

inductive Token
  | YYYY | MMMM | dddd | SSS | MMM | ddd | YY | MM | DD | HH | hh | mm | ss | ZZ | M | D | d | H | h | m
  | s | A | a | Z
  deriving DecidableEq

def Token.text : Token → CString
  | YYYY => lit "YYYY" | MMMM => lit "MMMM" | dddd => lit "dddd" | SSS => lit "SSS" | MMM => lit "MMM"
  | ddd => lit "ddd" | YY => lit "YY" | MM => lit "MM" | DD => lit "DD" | HH => lit "HH"
  | hh => lit "hh" | mm => lit "mm" | ss => lit "ss" | ZZ => lit "ZZ" | M => lit "M" | D => lit "D"
  | d => lit "d" | H => lit "H" | h => lit "h" | m => lit "m" | s => lit "s" | A => lit "A"
  | a => lit "a" | Z => lit "Z"

/-- Longest first. -/
def TOKEN_ORDER : List Token :=
  [.YYYY, .MMMM, .dddd, .SSS, .MMM, .ddd, .YY, .MM, .DD, .HH, .hh, .mm, .ss, .ZZ, .M, .D, .d, .H, .h, .m,
    .s, .A, .a, .Z]

def MONTH_NAMES : List CString :=
  [lit "January", lit "February", lit "March", lit "April", lit "May", lit "June", lit "July",
    lit "August", lit "September", lit "October", lit "November", lit "December"]

def DAY_NAMES : List CString :=
  [lit "Sunday", lit "Monday", lit "Tuesday", lit "Wednesday", lit "Thursday", lit "Friday",
    lit "Saturday"]

/-- `str` of a whole number. -/
def intText (n : Int) : CString := if n < 0 then 45 :: portText n.natAbs else portText n.natAbs

def padLeft (body : CString) (width : Nat) : CString :=
  List.replicate (width - body.length) 48 ++ body

def pad (value : Int) (width : Nat) : CString :=
  let body := intText value
  if startsWith body [45] = true then 45 :: padLeft (body.drop 1) width else padLeft body width

/-- Midnight is 12, not 0, on a twelve-hour clock. -/
def twelveHour (hour : Int) : Int := if hour = 0 then 12 else if hour > 12 then hour - 12 else hour

def offsetText (minutes : Option Int) (withColon : Bool) : CString :=
  match minutes with
  | none => [90]
  | some minutes =>
      if minutes = 0 then [90]
      else
        let sign : UInt8 := if minutes < 0 then 45 else 43
        let total := if minutes < 0 then 0 - minutes else minutes
        sign :: (pad (floorDivide total 60) 2 ++
          ((if withColon = true then [58] else []) ++ pad (Int.tmod total 60) 2))

def expand (parts : Components) (offsetMinutes : Option Int) : Token → CString
  | .YYYY => pad parts.year 4
  | .YY => pad (positiveMod parts.year 100) 2
  | .MMMM => MONTH_NAMES.getD (parts.month - 1).toNat []
  | .MMM => (MONTH_NAMES.getD (parts.month - 1).toNat []).take 3
  | .MM => pad parts.month 2
  | .M => intText parts.month
  | .DD => pad parts.day 2
  | .D => intText parts.day
  | .dddd => DAY_NAMES.getD parts.weekday.toNat []
  | .ddd => (DAY_NAMES.getD parts.weekday.toNat []).take 3
  | .d => intText parts.weekday
  | .HH => pad parts.hour 2
  | .H => intText parts.hour
  | .hh => pad (twelveHour parts.hour) 2
  | .h => intText (twelveHour parts.hour)
  | .mm => pad parts.minute 2
  | .m => intText parts.minute
  | .ss => pad parts.second 2
  | .s => intText parts.second
  | .SSS => pad parts.millisecond 3
  | .A => if parts.hour < 12 then lit "AM" else lit "PM"
  | .a => if parts.hour < 12 then lit "am" else lit "pm"
  | .ZZ => offsetText offsetMinutes true
  | .Z => offsetText offsetMinutes false

/-- A piece of a pattern: a token, or a character that stands for itself. -/
inductive Piece
  | token (token : Token)
  | char (text : CString)
  deriving DecidableEq

/-- The loop over the characters of a pattern. Every step takes one of them at least. -/
def scan : Nat → List CString → List Piece
  | 0, _ => []
  | _ + 1, [] => []
  | fuel + 1, ch :: rest =>
      match TOKEN_ORDER.find? fun token =>
          token.text.length ≤ (ch :: rest).length ∧
            ((ch :: rest).take token.text.length).flatten = token.text with
      | some token => .token token :: scan fuel ((ch :: rest).drop token.text.length)
      | none =>
          -- a backslash escapes the next character
          match ch == [92], rest with
          | true, next :: rest => .char next :: scan fuel rest
          | _, rest => .char ch :: scan fuel rest

def formatParts (parts : Components) (pattern : CString) (offsetMinutes : Option Int) : CString :=
  (scan (lengthChars pattern) (characters pattern)).flatMap fun piece =>
    match piece with
    | .token token => expand parts offsetMinutes token
    | .char text => text

def isoPattern : CString := lit "YYYY-MM-DDTHH:mm:ss.SSSZZ"

def toIso (ts : Int) : CString := formatParts (componentsUtc ts) isoPattern (some 0)

/-- `isoIn` for a zone with an offset from UTC in minutes. -/
def isoIn (ts offset : Int) : CString :=
  formatParts (componentsUtc (ts + offset * MS_PER_MINUTE)) isoPattern (some offset)

/-! ### Parsing -/

inductive IsoError
  | noText
  | empty
  | notDate
  | month (value : Int)
  | day (value : Int)
  | hour (value : Int)
  | minute (value : Int)
  | second (value : Int)
  | offset (text : CString)
  | incomplete
  | notNumber (ch : CString)
  | notNum
  deriving DecidableEq

/-- The text of an error about a timestamp. -/
def IsoError.text (body : CString) : IsoError → CString
  | noText => lit "datetime: nothing to parse"
  | empty => lit "datetime: the timestamp is empty"
  | notDate => lit "datetime: '" ++ body ++
      lit "' is not a date this understands -- try '2026-08-12' or '2026-08-12T14:30:00Z'"
  | month value => lit "datetime: month " ++ intText value ++ lit " in '" ++ body ++ lit "' is out of range"
  | day value => lit "datetime: '" ++ body ++ lit "' has no day " ++ intText value ++ lit " in that month"
  | hour value => lit "datetime: hour " ++ intText value ++ lit " in '" ++ body ++ lit "' is out of range"
  | minute value => lit "datetime: minute " ++ intText value ++ lit " in '" ++ body ++
      lit "' is out of range"
  | second value => lit "datetime: second " ++ intText value ++ lit " in '" ++ body ++
      lit "' is out of range"
  | offset text => lit "datetime: '" ++ text ++ lit "' in '" ++ body ++ lit "' is not a valid offset"
  | incomplete => lit "datetime: '" ++ body ++ lit "' is incomplete"
  | notNumber ch => lit "datetime: '" ++ body ++ lit "' contains '" ++ ch ++
      lit "' where a number was expected"
  | notNum => []

/-- A number of digits. `num` of no digits is an error of its own. -/
def wholeNumber (text : CString) : Except IsoError Int :=
  let body := trim text
  if body = [] then .error .incomplete
  else
    let negative := startsWith body [45]
    let digits := if negative = true then body.drop 1 else body
    match (split digits []).find? fun ch => contains (lit "0123456789") ch = false with
    | some ch => .error (.notNumber ch)
    | none =>
        if digits = [] then .error .notNum
        else .ok (if negative = true then 0 - (Httpx.decimal digits : Int) else (Httpx.decimal digits : Int))

/-- The last sign behind the first blank. -/
def lastSignPosition (o : Machine) (working : CString) : Int :=
  if contains working [32] = true then
    let timeStart := (indexOfBytes o.toArithmetic working [32] none).run
    (List.range (lengthChars working)).foldl
      (fun (found : Int) (i : Nat) =>
        if timeStart ≤ i ∧ (o.substr working i (1 : Nat) = [43] ∨ o.substr working i (1 : Nat) = [45])
        then (i : Int) else found) (-1)
  else -1

def offsetOf (sign : Int) (hours minutes : Except IsoError Int) : Except IsoError Int :=
  match hours with
  | .error e => .error e
  | .ok hours =>
      match minutes with
      | .error e => .error e
      | .ok minutes => .ok (sign * (hours * 60 + minutes))

def parseOffset (o : Machine) (text : CString) : Except IsoError Int :=
  let sign : Int := if startsWith text [45] = true then -1 else 1
  let body := o.substr text (1 : Nat) (lengthChars text - 1)
  if contains body [58] = true then
    let halves := split body [58]
    offsetOf sign (wholeNumber (halves.getD 0 [])) (wholeNumber (halves.getD 1 []))
  else if lengthChars body = 4 then
    offsetOf sign (wholeNumber (o.substr body (0 : Nat) (2 : Nat)))
      (wholeNumber (o.substr body (2 : Nat) (2 : Nat)))
  else if lengthChars body = 2 then offsetOf sign (wholeNumber body) (.ok 0)
  else .error (.offset text)

def endsWith (s tail : CString) : Bool := tail.isSuffixOf s

/-- The text without its offset, and the offset in minutes. -/
def splitOffset (o : Machine) (working : CString) : Except IsoError (CString × Int) :=
  if endsWith working [90] = true then .ok (o.substr working 0 (lengthChars working - 1), 0)
  else
    let marker := lastSignPosition o working
    if marker > 0 then
      (parseOffset o (o.substr working marker (lengthChars working - marker))).map fun minutes =>
        (o.substr working 0 marker, minutes)
    else .ok (working, 0)

def readDate (datePart : CString) : Except IsoError Date :=
  match split datePart [45] with
  | [y, m, d] =>
      match wholeNumber y, wholeNumber m, wholeNumber d with
      | .ok year, .ok month, .ok day =>
          if month < 1 ∨ month > 12 then .error (.month month)
          else if day < 1 ∨ day > daysInMonthOf year month then .error (.day day)
          else .ok ⟨year, month, day⟩
      | .error e, _, _ => .error e
      | _, .error e, _ => .error e
      | _, _, .error e => .error e
  | _ => .error .notDate

structure Clock where
  hour : Int
  minute : Int
  second : Int
  milli : Int
  deriving DecidableEq

def splitFraction (o : Machine) (timePart : CString) : CString × CString :=
  match cutAt o timePart 46 with
  | some cut => cut
  | none =>
      match cutAt o timePart 44 with
      | some cut => cut
      | none => (timePart, [])

/-- The first three digits of a fraction, filled up with zeros. -/
def milliDigits (o : Machine) (fraction : CString) : CString :=
  o.substr (fraction ++ List.replicate (3 - lengthChars fraction) 48) (0 : Nat) (3 : Nat)

/-- The time of a clock that the ranges allow; none is the end of the day. -/
def checkClock (hour minute second milli : Int) : Except IsoError (Option Clock) :=
  if hour = 24 ∧ minute = 0 ∧ second = 0 then .ok none
  else if hour > 23 then .error (.hour hour)
  else if minute > 59 then .error (.minute minute)
  else if second > 60 then .error (.second second)
  else .ok (some ⟨hour, minute, if second = 60 then 59 else second, milli⟩)

def readTime (o : Machine) (timePart : CString) : Except IsoError (Option Clock) :=
  if timePart = [] then .ok (some ⟨0, 0, 0, 0⟩)
  else
    let cut := splitFraction o timePart
    let fields := split cut.1 [58]
    match wholeNumber (fields.getD 0 []),
        (if fields.length > 1 then wholeNumber (fields.getD 1 []) else .ok 0),
        (if fields.length > 2 then wholeNumber (fields.getD 2 []) else .ok 0),
        (if cut.2 ≠ [] then wholeNumber (milliDigits o cut.2) else .ok 0) with
    | .ok hour, .ok minute, .ok second, .ok milli => checkClock hour minute second milli
    | .error e, _, _, _ => .error e
    | _, .error e, _, _ => .error e
    | _, _, .error e, _ => .error e
    | _, _, _, .error e => .error e

/-- The date and the time of a text without offset. -/
def readFields (o : Machine) (working : CString) : Except IsoError (Date × Option Clock) :=
  let cut := match cutAt o working 32 with
    | some cut => (cut.1, trim cut.2)
    | none => (working, [])
  match readDate cut.1 with
  | .error e => .error e
  | .ok date => (readTime o cut.2).map fun clock => (date, clock)

/-- The instant. The end of a day is given before the offset is looked at. -/
def instant (fields : Date × Option Clock) (offsetMinutes : Int) : Int :=
  match fields.2 with
  | none => timestampUtc fields.1.year fields.1.month fields.1.day 0 0 0 0 + MS_PER_DAY
  | some clock =>
      timestampUtc fields.1.year fields.1.month fields.1.day clock.hour clock.minute clock.second
        clock.milli - offsetMinutes * MS_PER_MINUTE

def parseIso (o : Machine) (text : Option CString) : Except IsoError Int :=
  match text with
  | none => .error .noText
  | some text =>
      let body := trim text
      if body = [] then .error .empty
      else
        match splitOffset o (replace body [84] [32]) with
        | .error e => .error e
        | .ok cut => (readFields o (trim cut.1)).map fun fields => instant fields cut.2

/-! ### The offset -/

theorem replace_map (c d : UInt8) (s : CString) :
    replace s [c] [d] = s.map fun x => if x = c then d else x := by
  have hne : [c] ≠ [] := List.cons_ne_nil _ _
  have hplain : ∀ t : CString, c ∉ t → (t.map fun x => if x = c then d else x) = t := by
    intro t ht
    rw [List.map_congr_left fun x hx => if_neg fun (heq : x = c) => ht (heq ▸ hx), List.map_id']
  rw [replace_of_ne_nil [d] hne]
  induction s using pieces_induction hne with
  | whole s h =>
      rw [pieces_of_none hne h, Search.join, List.flatMap_nil, List.append_nil, hplain]
      intro hmem
      obtain ⟨front, back, rfl⟩ := List.append_of_mem hmem
      apply (first_eq_none_iff _ _).mp h front.length (by simp)
      rw [List.drop_left]
      exact ⟨back, rfl⟩
  | cut s i h ih =>
      obtain ⟨hle, hstarts, hleast⟩ := (first_eq_some_iff _ _ _).mp h
      have hmem : c ∈ s := List.mem_of_mem_drop (hstarts.subset List.mem_cons_self)
      obtain ⟨front, back, rfl, hfront⟩ := List.eq_append_cons_of_mem hmem
      have hplace := @first_append _ _ [c] hne front (fun x hx hhead => by
        obtain rfl := Option.some.inj hhead
        exact hfront hx) back
      have hwhole : first [c] (front ++ c :: back) = some front.length := hplace
      rw [hwhole] at h
      obtain rfl := Option.some.inj h
      rw [List.length_singleton, List.drop_length_add_append, List.drop_one, List.tail_cons] at ih
      rw [pieces_of_some hne hwhole, List.length_singleton, List.drop_length_add_append, List.drop_one,
        List.tail_cons, List.take_left, join_cons _ _ (pieces_ne_nil hne _), ih, List.map_append,
        List.map_cons, if_pos rfl, hplain front hfront, List.append_assoc]
      rfl

/-- The text as `parseIso` reads it: a `T` is a blank. -/
def blankT (s : CString) : CString := s.map fun x => if x = 84 then 32 else x

theorem replace_T (s : CString) : replace s [84] [32] = blankT s := replace_map 84 32 s

theorem blankT_append (s t : CString) : blankT (s ++ t) = blankT s ++ blankT t := List.map_append

theorem blankT_self {s : CString} (hs : 84 ∉ s) : blankT s = s := by
  rw [blankT, List.map_congr_left fun x hx => if_neg fun (heq : x = 84) => hs (heq ▸ hx), List.map_id']

theorem substr_one (o : Machine) {s : CString} (hshort : lengthChars s < 2147483648) {i : Nat}
    (hi : i < lengthChars s) : o.substr s i (1 : Nat) = ((characters s)[i]?).getD [] := by
  have hpart := @substr_eq o s hshort i 1 (by omega)
  rw [lengthChars_eq] at hi
  rw [List.drop_eq_getElem_cons hi, List.take_succ_cons, List.take_zero, List.flatten_cons,
    List.flatten_nil, List.append_nil] at hpart
  rw [List.getElem?_eq_getElem hi]
  exact hpart

/-- The last sign is found where nothing behind it is one. -/
theorem lastSignPosition_append (o : Machine) {front rest : CString} {sign : UInt8}
    (hsign : sign = 43 ∨ sign = 45) (hblank : 32 ∈ front) (hrest : 43 ∉ rest ∧ 45 ∉ rest)
    (hshort : (front ++ sign :: rest).length < 2147483648) :
    lastSignPosition o (front ++ sign :: rest) = lengthChars front := by
  have hascii : sign < 0x80 := by
    rcases hsign with rfl | rfl
    · decide
    · decide
  have hspace : (32 : UInt8) < 0x80 := by decide
  have hchars := Nat.lt_of_le_of_lt (lengthChars_le _) hshort
  have hlength := @lengthChars_byte front rest sign hascii
  have hparts := characters_append_ascii front hascii rest
  have hfound := (contains_byte_iff (front ++ sign :: rest) 32).mpr (List.mem_append_left _ hblank)
  obtain ⟨start, time, hsplit, hstart⟩ := List.eq_append_cons_of_mem hblank
  have hplace : (indexOfBytes o.toArithmetic (front ++ sign :: rest) [32] none).run =
      lengthChars start := by
    rw [hsplit, List.append_assoc, List.cons_append]
    exact indexOfBytes_byte o hspace hstart
  have hbefore : lengthChars start ≤ lengthChars front := by
    rw [hsplit, @lengthChars_byte start time 32 hspace]
    omega
  rw [lastSignPosition, if_pos hfound]
  dsimp only
  rw [hplace]
  apply foldl_last
  · omega
  · refine ⟨by omega, ?_⟩
    rw [substr_one o hchars (by omega), hparts, lengthChars_eq,
      List.getElem?_append_right (Nat.le_refl _), Nat.sub_self]
    rcases hsign with rfl | rfl
    · exact Or.inl rfl
    · exact Or.inr rfl
  · intro i hfront hi hmatch
    obtain ⟨_, hmatch⟩ := hmatch
    rw [substr_one o hchars hi, hparts] at hmatch
    rw [lengthChars_eq] at hfront
    rw [List.getElem?_append_right (by omega)] at hmatch
    obtain ⟨j, hj⟩ := Nat.exists_eq_add_of_lt hfront
    have hindex : i - (characters front).length = j + 1 := by omega
    rw [hindex, List.getElem?_cons_succ] at hmatch
    have hnone : ∀ c : UInt8, c ∉ rest → ((characters rest)[j]?).getD [] ≠ [c] := by
      intro c hc heq
      apply hc
      rw [← flatten_characters rest]
      cases hget : (characters rest)[j]? with
      | none =>
          rw [hget] at heq
          cases heq
      | some part =>
          rw [hget] at heq
          obtain rfl : part = [c] := heq
          exact List.mem_flatten.mpr ⟨[c], List.mem_of_getElem? hget, List.mem_singleton.mpr rfl⟩
    rcases hmatch with hmatch | hmatch
    · exact hnone 43 hrest.1 hmatch
    · exact hnone 45 hrest.2 hmatch

theorem endsWith_append (front : CString) (c d : UInt8) : endsWith (front ++ [c]) [d] = decide (c = d) := by
  rw [endsWith, List.isSuffixOf, List.reverse_append]
  show (d == c && true) = decide (c = d)
  rw [Bool.and_true]
  by_cases h : c = d
  · rw [h, beq_self_eq_true, decide_eq_true rfl]
  · rw [decide_eq_false h, beq_eq_false_iff_ne]
    exact Ne.symm h

/-- A `Z` is cut off. -/
theorem splitOffset_utc (o : Machine) {front : CString} (hshort : (front ++ [90]).length < 2147483648) :
    splitOffset o (front ++ [90]) = .ok (front, 0) := by
  have hascii : (90 : UInt8) < 0x80 := by decide
  have hchars := Nat.lt_of_le_of_lt (lengthChars_le _) hshort
  have hlength := @lengthChars_byte front [] 90 hascii
  have hnil : lengthChars [] = 0 := by rw [lengthChars]
  have hcount : (lengthChars (front ++ [90]) : Int) - 1 = lengthChars front := by omega
  rw [splitOffset, if_pos (by rw [endsWith_append]; rfl), hcount, substr_before o hascii hchars]

/-- An offset behind a blank is cut off and read. -/
theorem splitOffset_sign (o : Machine) {front rest : CString} {sign last : UInt8}
    (hsign : sign = 43 ∨ sign = 45) (hblank : 32 ∈ front)
    (hrest : 43 ∉ rest ++ [last] ∧ 45 ∉ rest ++ [last]) (hlast : last ≠ 90)
    (hshort : (front ++ sign :: (rest ++ [last])).length < 2147483648) :
    splitOffset o (front ++ sign :: (rest ++ [last])) =
      (parseOffset o (sign :: (rest ++ [last]))).map fun minutes => (front, minutes) := by
  have hascii : sign < 0x80 := by
    rcases hsign with rfl | rfl
    · decide
    · decide
  have hspace : (32 : UInt8) < 0x80 := by decide
  have hchars := Nat.lt_of_le_of_lt (lengthChars_le _) hshort
  have hwhole : front ++ sign :: (rest ++ [last]) = (front ++ sign :: rest) ++ [last] := by simp
  have hnot : endsWith (front ++ sign :: (rest ++ [last])) [90] = false := by
    rw [hwhole, endsWith_append]
    exact decide_eq_false hlast
  have hpos : 0 < lengthChars front := by
    obtain ⟨start, time, rfl, _⟩ := List.eq_append_cons_of_mem hblank
    rw [@lengthChars_byte start time 32 hspace]
    omega
  rw [splitOffset, hnot, if_neg Bool.false_ne_true]
  dsimp only
  rw [lastSignPosition_append o hsign hblank hrest hshort, if_pos (by omega),
    substr_from o hascii hchars, substr_before o hascii hchars]

/-! ### Numbers -/

def DigitText (s : CString) : Prop := s ≠ [] ∧ ∀ c ∈ s, 48 ≤ c.toNat ∧ c.toNat ≤ 57

theorem DigitText.not_mem {s : CString} (hs : DigitText s) {c : UInt8}
    (hc : c.toNat < 48 ∨ 57 < c.toNat) : c ∉ s := by
  intro hmem
  have hdigit := hs.2 c hmem
  omega

theorem DigitText.head {s : CString} (hs : DigitText s) : s.head?.any isBlank = false := by
  cases hhead : s.head? with
  | none => rfl
  | some c => exact (digit_facts (hs.2 c (List.mem_of_head? hhead))).1

theorem DigitText.last {s : CString} (hs : DigitText s) : s.getLast?.any isBlank = false := by
  cases hlast : s.getLast? with
  | none => rfl
  | some c => exact (digit_facts (hs.2 c (List.mem_of_getLast? hlast))).1

theorem DigitText.characters {s : CString} (hs : DigitText s) : characters s = s.map fun c => [c] :=
  characters_singleBytes (singleBytes_of_ascii fun c hc => (digit_facts (hs.2 c hc)).2.1)

/-- A text without signs does not start with one. -/
theorem startsWith_unsigned {s : CString} (hs : 45 ∉ s) : startsWith s [45] = false := by
  cases s with
  | nil => rfl
  | cons c rest =>
      have hc : 45 ≠ c := by
        rintro rfl
        exact hs List.mem_cons_self
      show (45 == c && true) = false
      rw [beq_eq_false_iff_ne.mpr hc, Bool.false_and]

theorem wholeNumber_digits {s : CString} (hs : DigitText s) :
    wholeNumber s = .ok (Httpx.decimal s : Int) := by
  have htrim := trim_self hs.head hs.last
  have hsign := startsWith_unsigned (hs.not_mem (by decide))
  have hnone : ((split s []).find? fun ch => contains (lit "0123456789") ch = false) = none := by
    rw [List.find?_eq_none, split_nil, hs.characters]
    intro part hpart
    obtain ⟨c, hc, rfl⟩ := List.mem_map.mp hpart
    rw [(contains_byte_iff _ c).mpr (digit_facts (hs.2 c hc)).2.2]
    decide
  rw [wholeNumber, htrim]
  dsimp only
  rw [if_neg hs.1, hsign, if_neg Bool.false_ne_true, hnone]
  dsimp only
  rw [if_neg hs.1, if_neg Bool.false_ne_true]

def TwoDigits (s : CString) : Prop := DigitText s ∧ s.length = 2

def SignOf (sign : UInt8) (k : Int) : Prop := sign = 43 ∧ k = 1 ∨ sign = 45 ∧ k = -1

/-- The forms of an offset and the minutes that it names. -/
inductive OffsetText : CString → Int → Prop
  | colon {sign : UInt8} {k : Int} {h m : CString} : SignOf sign k → TwoDigits h → TwoDigits m →
      OffsetText (sign :: (h ++ 58 :: m)) (k * (Httpx.decimal h * 60 + Httpx.decimal m))
  | four {sign : UInt8} {k : Int} {h m : CString} : SignOf sign k → TwoDigits h → TwoDigits m →
      OffsetText (sign :: (h ++ m)) (k * (Httpx.decimal h * 60 + Httpx.decimal m))
  | two {sign : UInt8} {k : Int} {h : CString} : SignOf sign k → TwoDigits h →
      OffsetText (sign :: h) (k * (Httpx.decimal h * 60 + 0))

/-- Behind its sign an offset has digits and a colon. -/
theorem OffsetText.shape {text : CString} {minutes : Int} (h : OffsetText text minutes) :
    ∃ sign tail, text = sign :: tail ∧ (sign = 43 ∨ sign = 45) ∧ tail ≠ [] ∧
      ∀ c ∈ tail, c = 58 ∨ 48 ≤ c.toNat ∧ c.toNat ≤ 57 := by
  have hsigns : ∀ {sign : UInt8} {k : Int}, SignOf sign k → sign = 43 ∨ sign = 45 := by
    intro sign k hsign
    rcases hsign with h | h
    · exact Or.inl h.1
    · exact Or.inr h.1
  cases h with
  | @colon sign k h m hsign hh hm =>
      refine ⟨_, _, rfl, hsigns hsign, List.append_ne_nil_of_left_ne_nil hh.1.1 _, ?_⟩
      intro c hc
      rcases List.mem_append.mp hc with hc | hc
      · exact Or.inr (hh.1.2 c hc)
      · rcases List.mem_cons.mp hc with hc | hc
        · exact Or.inl hc
        · exact Or.inr (hm.1.2 c hc)
  | @four sign k h m hsign hh hm =>
      refine ⟨_, _, rfl, hsigns hsign, List.append_ne_nil_of_left_ne_nil hh.1.1 _, ?_⟩
      intro c hc
      rcases List.mem_append.mp hc with hc | hc
      · exact Or.inr (hh.1.2 c hc)
      · exact Or.inr (hm.1.2 c hc)
  | @two sign k h hsign hh =>
      exact ⟨_, _, rfl, hsigns hsign, hh.1.1, fun c hc => Or.inr (hh.1.2 c hc)⟩

theorem substr_tail (o : Machine) {c : UInt8} (hc : c < 0x80) {rest : CString}
    (hshort : (c :: rest).length < 2147483648) :
    o.substr (c :: rest) (1 : Nat) (lengthChars (c :: rest) - 1) = rest := by
  have hnil : characters [] = [] := by rw [Utf8.characters, Cut.segments]
  have hparts := characters_append_ascii [] hc rest
  rw [hnil, List.nil_append, List.nil_append] at hparts
  have hchars := Nat.lt_of_le_of_lt (lengthChars_le _) hshort
  have hlength : lengthChars (c :: rest) = lengthChars rest + 1 := by
    rw [lengthChars_eq, hparts, lengthChars_eq]
    rfl
  have hpart := @substr_eq o _ hchars 1 (lengthChars rest) (by omega)
  rw [hparts, List.drop_succ_cons, List.drop_zero, lengthChars_eq rest, List.take_length,
    flatten_characters] at hpart
  have hcount : (lengthChars (c :: rest) : Int) - 1 = (lengthChars rest : Nat) := by omega
  rw [hcount, lengthChars_eq rest]
  exact hpart

/-- The two halves of four digits. -/
theorem substr_four (o : Machine) {h m : CString} (hh : TwoDigits h) (hm : TwoDigits m) :
    lengthChars (h ++ m) = 4 ∧ o.substr (h ++ m) (0 : Nat) (2 : Nat) = h ∧
      o.substr (h ++ m) (2 : Nat) (2 : Nat) = m := by
  have hdigits : DigitText (h ++ m) := by
    refine ⟨List.append_ne_nil_of_left_ne_nil hh.1.1 _, ?_⟩
    intro c hc
    rcases List.mem_append.mp hc with hc | hc
    · exact hh.1.2 c hc
    · exact hm.1.2 c hc
  have hlength : lengthChars (h ++ m) = 4 := by
    rw [lengthChars_eq, hdigits.characters, List.length_map, List.length_append, hh.2, hm.2]
  have hsingle : ∀ s : CString, (s.map fun c => [c]).flatten = s := by
    intro s
    induction s with
    | nil => rfl
    | cons c s ih => rw [List.map_cons, List.flatten_cons, ih, List.singleton_append]
  have hpart := fun i (hi : i ≤ 2) => @substr_eq o (h ++ m) (by omega) i 2 (by omega)
  have htwo : (h.map fun c => [c]).length = 2 := by rw [List.length_map, hh.2]
  refine ⟨hlength, ?_, ?_⟩
  · rw [hpart 0 (by omega), hdigits.characters, List.drop_zero, List.map_append, ← htwo, List.take_left,
      hsingle]
  · have hmtwo : (m.map fun c => [c]).length = 2 := by rw [List.length_map, hm.2]
    rw [hpart 2 (by omega), hdigits.characters, List.map_append]
    have hdrop : ((h.map fun c => [c]) ++ m.map fun c => [c]).drop 2 = m.map fun c => [c] := by
      rw [← htwo, List.drop_left]
    rw [hdrop, List.take_of_length_le (by omega), hsingle]

/-- An offset is read as the minutes that it names. -/
theorem parseOffset_offsetText (o : Machine) {text : CString} {minutes : Int}
    (h : OffsetText text minutes) (hshort : text.length < 2147483648) :
    parseOffset o text = .ok minutes := by
  have hsigns : ∀ {sign : UInt8} {k : Int} (rest : CString), SignOf sign k →
      sign < 0x80 ∧ (if startsWith (sign :: rest) [45] = true then (-1 : Int) else 1) = k := by
    intro sign k rest hsign
    rcases hsign with ⟨rfl, rfl⟩ | ⟨rfl, rfl⟩
    · exact ⟨by decide, rfl⟩
    · exact ⟨by decide, rfl⟩
  cases h with
  | @colon sign k h m hsign hh hm =>
      obtain ⟨hascii, hk⟩ := hsigns (h ++ 58 :: m) hsign
      have hfound := (contains_byte_iff (h ++ 58 :: m) 58).mpr
        (List.mem_append_right _ List.mem_cons_self)
      have hsplit : split (h ++ 58 :: m) [58] = [h, m] := by
        have hjoin : h ++ 58 :: m = Search.join [58] [h, m] := by
          rw [Search.join, List.flatMap_cons, List.flatMap_nil, List.append_nil]
          rfl
        rw [split_of_ne_nil (List.cons_ne_nil _ _), hjoin, pieces_join (List.cons_ne_nil _ _)
          (List.cons_ne_nil _ _)]
        intro piece hpiece x hx hhead
        obtain rfl : 58 = x := Option.some.inj hhead
        rcases List.mem_cons.mp hpiece with rfl | hpiece
        · exact hh.1.not_mem (by decide) hx
        · rw [List.mem_singleton.mp hpiece] at hx
          exact hm.1.not_mem (by decide) hx
      rw [parseOffset, substr_tail o hascii hshort, hk]
      dsimp only
      rw [if_pos hfound, hsplit, List.getD_cons_zero, List.getD_cons_succ, List.getD_cons_zero,
        wholeNumber_digits hh.1, wholeNumber_digits hm.1]
      rfl
  | @four sign k h m hsign hh hm =>
      obtain ⟨hascii, hk⟩ := hsigns (h ++ m) hsign
      obtain ⟨hlength, hfirst, hsecond⟩ := substr_four o hh hm
      have hnone : ¬ contains (h ++ m) [58] = true := by
        rw [contains_byte_iff, List.mem_append, not_or]
        exact ⟨hh.1.not_mem (by decide), hm.1.not_mem (by decide)⟩
      rw [parseOffset, substr_tail o hascii hshort, hk]
      dsimp only
      rw [if_neg hnone, if_pos hlength, hfirst, hsecond, wholeNumber_digits hh.1,
        wholeNumber_digits hm.1]
      rfl
  | @two sign k h hsign hh =>
      obtain ⟨hascii, hk⟩ := hsigns h hsign
      have hlength : lengthChars h = 2 := by
        rw [lengthChars_eq, hh.1.characters, List.length_map, hh.2]
      have hnone : ¬ contains h [58] = true := by
        rw [contains_byte_iff]
        exact hh.1.not_mem (by decide)
      rw [parseOffset, substr_tail o hascii hshort, hk]
      dsimp only
      rw [if_neg hnone, hlength, if_neg (by decide), if_pos rfl, wholeNumber_digits hh.1]
      rfl

/-! ### A text and an offset behind it -/

theorem trim_behind {t zone : CString} (ht : t.dropWhile isBlank ≠ []) (hzone : zone ≠ [])
    (hlast : zone.getLast?.any isBlank = false) : trim (t ++ zone) = t.dropWhile isBlank ++ zone := by
  have hlong : (t ++ zone).dropWhile isBlank = t.dropWhile isBlank ++ zone := by
    rw [List.dropWhile_append, if_neg (by rw [List.isEmpty_iff]; exact ht)]
  have hend := (trimEnd_eq_iff (t.dropWhile isBlank ++ zone)).mpr (by
    rw [List.getLast?_append_of_ne_nil _ hzone]
    exact hlast)
  rw [trim, hlong, ← trimEnd]
  exact hend

/-- What `parseIso` looks through in a text that an offset is put behind. -/
def workingOf (t : CString) : CString := blankT (t.dropWhile isBlank)

theorem workingOf_length_le (t : CString) : (workingOf t).length ≤ t.length := by
  rw [workingOf, blankT, List.length_map]
  exact (List.dropWhile_sublist isBlank).length_le

theorem dropWhile_ne_nil {t : CString} (hblank : 32 ∈ workingOf t) : t.dropWhile isBlank ≠ [] := by
  intro h
  rw [workingOf, h] at hblank
  cases hblank

theorem parseIso_utc (o : Machine) {t : CString} (ht : t.dropWhile isBlank ≠ [])
    (hshort : (t ++ [90]).length < 2147483648) :
    parseIso o (some (t ++ [90])) =
      (readFields o (trim (workingOf t))).map fun fields => instant fields 0 := by
  have hle := workingOf_length_le t
  have hlength : (workingOf t ++ [90]).length < 2147483648 := by
    rw [List.length_append] at hshort ⊢
    omega
  have htrim := @trim_behind t [90] ht (List.cons_ne_nil _ _) rfl
  have hempty : t.dropWhile isBlank ++ [90] ≠ [] := List.append_ne_nil_of_left_ne_nil ht _
  have hworking : replace (t.dropWhile isBlank ++ [90]) [84] [32] = workingOf t ++ [90] := by
    rw [replace_T, blankT_append]
    rfl
  rw [parseIso]
  rw [htrim, if_neg hempty, hworking, splitOffset_utc o hlength]

theorem parseIso_offsetText (o : Machine) {t zone : CString} {minutes : Int}
    (hzone : OffsetText zone minutes) (hblank : 32 ∈ workingOf t)
    (hshort : (t ++ zone).length < 2147483648) :
    parseIso o (some (t ++ zone)) =
      (readFields o (trim (workingOf t))).map fun fields => instant fields minutes := by
  have hread := @parseOffset_offsetText o zone minutes hzone (by
    rw [List.length_append] at hshort
    omega)
  obtain ⟨sign, tail, rfl, hsign, hne, htail⟩ := hzone.shape
  have hle := workingOf_length_le t
  have hlength : (workingOf t ++ sign :: tail).length < 2147483648 := by
    rw [List.length_append] at hshort ⊢
    omega
  have hother : ∀ c : UInt8, c ≠ 58 → (c.toNat < 48 ∨ 57 < c.toNat) → c ∉ tail := by
    intro c hcolon hc hmem
    rcases htail c hmem with h | h
    · exact hcolon h
    · omega
  have hlast : (sign :: tail).getLast?.any isBlank = false := by
    rw [List.getLast?_cons_of_ne_nil hne, List.getLast?_eq_some_getLast hne]
    rcases htail _ (List.getLast_mem hne) with h | h
    · rw [Option.any_some, h]
      rfl
    · exact (digit_facts h).1
  have htrim := trim_behind (dropWhile_ne_nil hblank) (List.cons_ne_nil sign tail) hlast
  have hempty : t.dropWhile isBlank ++ sign :: tail ≠ [] :=
    List.append_ne_nil_of_left_ne_nil (dropWhile_ne_nil hblank) _
  have hworking : replace (t.dropWhile isBlank ++ sign :: tail) [84] [32] =
      workingOf t ++ sign :: tail := by
    rw [replace_T, blankT_append, blankT_self (s := sign :: tail)]
    · rfl
    · rw [List.mem_cons, not_or]
      refine ⟨?_, hother 84 (by decide) (by decide)⟩
      rcases hsign with rfl | rfl
      · decide
      · decide
  have hparts := List.dropLast_append_getLast hne
  have hcut := @splitOffset_sign o (workingOf t) tail.dropLast sign (tail.getLast hne) hsign hblank
  rw [hparts] at hcut
  have hsplit := hcut ⟨hother 43 (by decide) (by decide), hother 45 (by decide) (by decide)⟩
    (fun heq => hother 90 (by decide) (by decide) (heq ▸ List.getLast_mem hne)) hlength
  rw [parseIso]
  rw [htrim, if_neg hempty, hworking, hsplit, hread]
  rfl

/-- A text in front of an offset that is read, and the fields that it names. -/
def Reads (o : Machine) (t : CString) (fields : Date × Option Clock) : Prop :=
  32 ∈ workingOf t ∧ readFields o (trim (workingOf t)) = .ok fields

/-- An offset is taken off the instant exactly when it is none or the text does not name the end of a
day. -/
theorem offset_law_iff (o : Machine) {t zone : CString} {minutes : Int} {fields : Date × Option Clock}
    (hzone : OffsetText zone minutes) (hreads : Reads o t fields)
    (hshort : (t ++ zone).length < 2147483648) :
    parseIso o (some (t ++ zone)) =
        (parseIso o (some (t ++ [90]))).map (fun ts => ts - minutes * MS_PER_MINUTE) ↔
      minutes = 0 ∨ fields.2 ≠ none := by
  obtain ⟨hblank, hread⟩ := hreads
  have hzshort : (t ++ [90]).length < 2147483648 := by
    obtain ⟨sign, tail, rfl, _, hne, _⟩ := hzone.shape
    have hpos := List.length_pos_iff.mpr hne
    rw [List.length_append, List.length_cons] at hshort
    rw [List.length_append, List.length_singleton]
    omega
  rw [parseIso_offsetText o hzone hblank hshort, parseIso_utc o (dropWhile_ne_nil hblank) hzshort, hread]
  obtain ⟨date, clock⟩ := fields
  have hsame : ∀ a b : Int, (Except.ok a : Except IsoError Int) = .ok b ↔ a = b :=
    fun a b => ⟨Except.ok.inj, congrArg _⟩
  cases clock with
  | none =>
      show (Except.ok (instant (date, none) minutes) : Except IsoError Int) =
        .ok (instant (date, none) 0 - minutes * MS_PER_MINUTE) ↔ _
      rw [hsame, instant, instant]
      dsimp only
      unfold MS_PER_MINUTE
      constructor
      · intro h
        left
        omega
      · intro h
        rcases h with h | h
        · omega
        · exact absurd rfl h
  | some clock =>
      show (Except.ok (instant (date, some clock) minutes) : Except IsoError Int) =
        .ok (instant (date, some clock) 0 - minutes * MS_PER_MINUTE) ↔ _
      rw [hsame, instant, instant]
      dsimp only
      apply iff_of_true
      · omega
      · exact Or.inr (Option.some_ne_none clock)

end Datetime

end EZLanguage
