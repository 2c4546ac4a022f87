import EZLanguage.Lexer.SourceLines
import Mathlib.Data.List.Induction

/-!
# String literals

A byte string can be written between quotes with escapes, as a raw string, or as a template string, and is
lexed to one token with that value. A literal that is not closed is reported. A numeric escape is reported
only where `std::stoi` finds no number at the front of its characters.
-/

namespace EZLanguage

namespace Lexer

/-! ### Ways to write a byte string -/

/-- The characters that follow a backslash in a quoted string, with what they stand for. -/
def namedEscapes : List (UInt8 × UInt8) :=
  [(byte 'n', 10), (byte 't', 9), (byte 'r', 13), (byte '0', 0), (byte '\x5c', byte '\x5c'),
    (byte '\x22', byte '\x22'), (byte '\x27', byte '\x27')]

/-- The UTF-8 bytes of a code point of four hexadecimal digits. -/
def utf8Bytes (cp : Nat) : CString :=
  if cp < 0x80 then [UInt8.ofNat cp]
  else if cp < 0x800 then [UInt8.ofNat (0xC0 + cp / 64), UInt8.ofNat (0x80 + cp % 64)]
  else [UInt8.ofNat (0xE0 + cp / 4096), UInt8.ofNat (0x80 + cp / 64 % 64), UInt8.ofNat (0x80 + cp % 64)]

/-- A byte string as it may be written between quotes, or between triple quotes. -/
inductive Quoted (quote : UInt8) (isMultiline : Bool) : CString → CString → Prop
  | nil : Quoted quote isMultiline [] []
  | plain {c : UInt8} {value text : CString} (hquote : c ≠ quote) (hescape : c ≠ byte '\x5c')
      (hnewline : isMultiline = false → c ≠ 10) (hrest : Quoted quote isMultiline value text) :
      Quoted quote isMultiline (c :: value) (c :: text)
  | named {escaped c : UInt8} {value text : CString} (hnamed : (escaped, c) ∈ namedEscapes)
      (hrest : Quoted quote isMultiline value text) :
      Quoted quote isMultiline (c :: value) (byte '\x5c' :: escaped :: text)
  | hex {digits value text : CString} (hlength : digits.length = 2)
      (hdigits : ∀ c ∈ digits, isxdigit c = true) (hrest : Quoted quote isMultiline value text) :
      Quoted quote isMultiline (UInt8.ofNat (numeralValue 16 digits) :: value)
        (byte '\x5c' :: byte 'x' :: (digits ++ text))
  | unicode {digits value text : CString} (hlength : digits.length = 4)
      (hdigits : ∀ c ∈ digits, isxdigit c = true) (hrest : Quoted quote isMultiline value text) :
      Quoted quote isMultiline (utf8Bytes (numeralValue 16 digits) ++ value)
        (byte '\x5c' :: byte 'u' :: (digits ++ text))

/-- A byte string as it may be written in a template string. -/
inductive Templated : CString → CString → Prop
  | nil : Templated [] []
  | plain {c : UInt8} {value text : CString} (hquote : c ≠ byte '\x60') (hescape : c ≠ byte '\x5c')
      (hopen : c ≠ byte '\x7b') (hrest : Templated value text) : Templated (c :: value) (c :: text)
  | escape {escaped : UInt8} {value text : CString} (hrest : Templated value text) :
      Templated (templateEscape escaped :: value) (byte '\x5c' :: escaped :: text)

/-- The escape of a byte between quotes, where it has one. -/
def quotedByte (quote c : UInt8) : CString :=
  if c = 10 then [byte '\x5c', byte 'n']
  else if c = 9 then [byte '\x5c', byte 't']
  else if c = 13 then [byte '\x5c', byte 'r']
  else if c = 0 then [byte '\x5c', byte '0']
  else if c = byte '\x5c' ∨ c = quote then [byte '\x5c', c]
  else [c]

def quotedText (quote : UInt8) (value : CString) : CString := (value.map (quotedByte quote)).flatten

/-- The escape of a byte in a template string, where it has one. -/
def templatedByte (c : UInt8) : CString :=
  if c = byte '\x5c' ∨ c = byte '\x60' ∨ c = byte '\x7b' ∨ c = byte '\x7d' then [byte '\x5c', c]
  else [c]

def templatedText (value : CString) : CString := (value.map templatedByte).flatten

/-! ### What a quoted literal is -/

/-- The numeric escapes of a string, each with the digits it should have and the characters it has, and
whether the string is closed. -/
def readBody (quote : UInt8) (isMultiline : Bool) : Nat → CString → List (Nat × CString) × Bool
  | 0, _ => ([], false)
  | fuel + 1, source =>
      match source with
      | [] => ([], false)
      | c :: rest =>
          if isMultiline && tripleQuote.isPrefixOf (c :: rest) then ([], true)
          else if !isMultiline && c == quote then ([], true)
          else if !isMultiline && c == 10 then ([], false)
          else if c = byte '\x5c' then
            match rest with
            | [] => ([], false)
            | escaped :: rest =>
                let digits := escapeDigits escaped
                let others := readBody quote isMultiline fuel
                  (rest.drop (if rest.length < digits then 0 else digits))
                (if digits = 0 then others.1 else (digits, rest.take digits) :: others.1, others.2)
          else readBody quote isMultiline fuel rest

/-- The same of the string whose quote is consumed. -/
def readString (quote : UInt8) (source : CString) : List (Nat × CString) × Bool :=
  let opened := source.drop (openingQuotes quote source).length
  readBody quote (isMultilineAt quote source) (opened.length + 1) opened

/-- An escape has all its hexadecimal digits. -/
def Complete (escape : Nat × CString) : Prop :=
  escape.2.length = escape.1 ∧ ∀ c ∈ escape.2, isxdigit c = true

/-- An escape has its characters, and a number is at the front of them. -/
def Accepted (escape : Nat × CString) : Prop :=
  escape.2.length = escape.1 ∧ leadingHex escape.2 ≠ none

/-- A quoted literal is not closed, or an escape of it lacks digits. -/
def Malformed (quote : UInt8) (source : CString) : Prop :=
  (readString quote source).2 = false ∨ ∃ escape ∈ (readString quote source).1, ¬Complete escape

/-- Where a literal is closed and a number is at the front of each of its escapes, these have all their
digits. -/
def Caught (quote : UInt8) (source : CString) : Prop :=
  (readString quote source).2 = true → (∀ escape ∈ (readString quote source).1, Accepted escape) →
    ∀ escape ∈ (readString quote source).1, Complete escape

/-! ### Digits -/

theorem isxdigit_ne {c : UInt8} (hc : isxdigit c = true) : isSpace c = false ∧ c ≠ byte '-' ∧
    c ≠ byte '+' ∧ c ≠ byte 'x' ∧ c ≠ byte 'X' := by
  simp only [isxdigit, isDigit, isSpace, byte, Bool.or_eq_true, Bool.and_eq_true, decide_eq_true_eq,
    Bool.or_eq_false_iff, Bool.and_eq_false_iff, beq_eq_false_iff_ne, decide_eq_false_iff_not,
    UInt8.le_iff_toNat_le, ne_eq, ← UInt8.toNat_inj] at hc ⊢
  simp at hc ⊢
  omega

theorem leadingHex_digits {digits : CString} (hne : digits ≠ [])
    (hdigits : ∀ c ∈ digits, isxdigit c = true) :
    leadingHex digits = some (numeralValue 16 digits : Int) := by
  have hall : digits.takeWhile isxdigit = digits := List.takeWhile_eq_self_iff.mpr hdigits
  obtain ⟨c, rest, rfl⟩ := List.exists_cons_of_ne_nil hne
  obtain ⟨hspace, hminus, hplus, _, _⟩ := isxdigit_ne (hdigits c List.mem_cons_self)
  have hprefixed : ∀ x, x ∈ rest → ¬(x = byte 'x' ∨ x = byte 'X') := by
    intro x hx hmark
    obtain ⟨_, _, _, hlower, hupper⟩ := isxdigit_ne (hdigits x (List.mem_cons_of_mem c hx))
    tauto
  rw [leadingHex, List.dropWhile_cons_of_neg (by simp [hspace])]
  dsimp only
  rw [if_neg hminus, if_neg hplus]
  dsimp only
  match rest with
  | [] =>
      dsimp only
      rw [hall]
      rfl
  | [x] =>
      dsimp only
      rw [hall]
      rfl
  | x :: d :: rest =>
      dsimp only
      have hmark : ¬(c = byte '0' ∧ (x = byte 'x' ∨ x = byte 'X') ∧ isxdigit d = true) :=
        fun h => hprefixed x List.mem_cons_self h.2.1
      simp only [if_neg hmark, hall]
      rfl

/-! ### Strings that are written -/

theorem scanEscape_named {escaped c : UInt8} (hnamed : (escaped, c) ∈ namedEscapes) (value : CString)
    (s : LexerState) : scanEscape escaped value s = (value ++ [c], s) := by
  rw [namedEscapes] at hnamed
  simp only [List.mem_cons, Prod.mk.injEq, List.not_mem_nil, or_false] at hnamed
  obtain ⟨rfl, rfl⟩ | ⟨rfl, rfl⟩ | ⟨rfl, rfl⟩ | ⟨rfl, rfl⟩ | ⟨rfl, rfl⟩ | ⟨rfl, rfl⟩ | ⟨rfl, rfl⟩ := hnamed <;>
    rfl

theorem scanNumericEscape_digits {n : Nat} (hn : n ≠ 0) (decode : Int → CString)
    (incomplete invalid : String) (value : CString) (s : LexerState) {digits rest : CString}
    (hlength : digits.length = n) (hdigits : ∀ c ∈ digits, isxdigit c = true)
    (hsource : s.source = digits ++ rest) :
    scanNumericEscape n decode incomplete invalid value s =
      (value ++ decode (numeralValue 16 digits), { s with source := rest }) := by
  have hne : digits ≠ [] := by
    rintro rfl
    exact hn hlength.symm
  rw [scanNumericEscape, hsource, if_neg (by rw [List.length_append]; omega), ← hlength, List.take_left,
    List.drop_left, leadingHex_digits hne hdigits]

theorem digitValue_lt {c : UInt8} (hc : isxdigit c = true) : digitValue c < 16 := by
  rw [digitValue]
  simp only [isxdigit, isDigit, byte, Bool.or_eq_true, Bool.and_eq_true, decide_eq_true_eq,
    UInt8.le_iff_toNat_le] at hc ⊢
  simp at hc ⊢
  split_ifs <;> omega

theorem numeralValue_lt {digits : CString} (hdigits : ∀ c ∈ digits, isxdigit c = true) :
    numeralValue 16 digits < 16 ^ digits.length := by
  induction digits using List.reverseRecOn with
  | nil => decide
  | append_singleton digits c ih =>
      have hlast := digitValue_lt (hdigits c (by simp))
      have hfirst := ih fun d hd => hdigits d (List.mem_append_left _ hd)
      have hvalue : numeralValue 16 (digits ++ [c]) = numeralValue 16 digits * 16 + digitValue c := by
        rw [numeralValue, numeralValue, List.foldl_append]
        rfl
      rw [hvalue, List.length_append, List.length_singleton, Nat.pow_succ]
      omega

theorem ofNat_or {k low : Nat} (high : Nat) (hlow : low < 2 ^ k) :
    UInt8.ofNat (2 ^ k * high) ||| UInt8.ofNat low = UInt8.ofNat (2 ^ k * high + low) := by
  rw [← UInt8.ofNat_or, ← Nat.two_pow_add_eq_or_of_lt hlow]

/-- The bytes of a code point are its UTF-8 bytes. -/
theorem encodeEscape_eq {cp : Nat} (hcp : cp < 2 ^ 16) : encodeEscape cp = utf8Bytes cp := by
  have hlast : (0x80 : UInt8) ||| UInt8.ofNat (cp % 64) = UInt8.ofNat (0x80 + cp % 64) := by
    exact ofNat_or (k := 6) 2 (Nat.mod_lt _ (by decide))
  have hmiddle : (0x80 : UInt8) ||| UInt8.ofNat (cp / 64 % 64) = UInt8.ofNat (0x80 + cp / 64 % 64) := by
    exact ofNat_or (k := 6) 2 (Nat.mod_lt _ (by decide))
  have hmask : ∀ n : Nat, n &&& 0x3F = n % 64 := fun n => Nat.and_two_pow_sub_one_eq_mod n 6
  have hshift : cp >>> 6 = cp / 64 := Nat.shiftRight_eq_div_pow cp 6
  have hshift' : cp >>> 12 = cp / 4096 := Nat.shiftRight_eq_div_pow cp 12
  rw [encodeEscape, utf8Bytes, hmask, hmask, hshift, hshift', hlast, hmiddle]
  by_cases hone : cp < 0x80
  · rw [if_pos (by omega), if_pos hone]
  · rw [if_neg (by omega), if_neg hone]
    by_cases htwo : cp < 0x800
    · have hfirst : (0xC0 : UInt8) ||| UInt8.ofNat (cp / 64) = UInt8.ofNat (0xC0 + cp / 64) := by
        exact ofNat_or (k := 5) 6 (by omega)
      rw [if_pos (by omega), if_pos htwo, hfirst]
    · have hfirst : (0xE0 : UInt8) ||| UInt8.ofNat (cp / 4096) = UInt8.ofNat (0xE0 + cp / 4096) := by
        exact ofNat_or (k := 4) 14 (by omega)
      rw [if_neg (by omega), if_neg htwo, hfirst]

theorem scanEscape_hex {digits rest : CString} (hlength : digits.length = 2)
    (hdigits : ∀ c ∈ digits, isxdigit c = true) (value : CString) (s : LexerState) :
    scanEscape (byte 'x') value { s with source := digits ++ rest } =
      (value ++ [UInt8.ofNat (numeralValue 16 digits)], { s with source := rest }) := by
  have hscan : scanEscape (byte 'x') value { s with source := digits ++ rest } =
      scanNumericEscape 2 (fun cp => [UInt8.ofInt cp]) "Incomplete hex escape"
        "Invalid hex escape: \\x" value { s with source := digits ++ rest } := rfl
  have hbyte : UInt8.ofInt (numeralValue 16 digits : Int) = UInt8.ofNat (numeralValue 16 digits) := by
    apply UInt8.toNat_inj.mp
    simp only [UInt8.ofInt, UInt8.toNat_ofNat']
    omega
  rw [hscan, scanNumericEscape_digits (by decide) _ _ _ _ _ hlength hdigits rfl]
  dsimp only
  rw [hbyte]

theorem scanEscape_unicode {digits rest : CString} (hlength : digits.length = 4)
    (hdigits : ∀ c ∈ digits, isxdigit c = true) (value : CString) (s : LexerState) :
    scanEscape (byte 'u') value { s with source := digits ++ rest } =
      (value ++ utf8Bytes (numeralValue 16 digits), { s with source := rest }) := by
  have hscan : scanEscape (byte 'u') value { s with source := digits ++ rest } =
      scanNumericEscape 4 (fun cp => encodeEscape (cp % 2 ^ 64).toNat)
        "Incomplete unicode escape (expected 4 hex digits)" "Invalid unicode escape: \\u" value
        { s with source := digits ++ rest } := rfl
  have hvalue := numeralValue_lt hdigits
  rw [hlength] at hvalue
  have hsmall : ((numeralValue 16 digits : Int) % 2 ^ 64).toNat = numeralValue 16 digits := by
    omega
  rw [hscan, scanNumericEscape_digits (by decide) _ _ _ _ _ hlength hdigits rfl]
  dsimp only
  rw [hsmall, encodeEscape_eq hvalue]

/-- The body of a string at a backslash. -/
theorem scanStringBody_escape {quote : UInt8} (hquote : isQuote quote = true) (isMultiline : Bool)
    (fuel : Nat) (value : CString) {s : LexerState} {escaped : UInt8} {rest : CString}
    (hsource : s.source = byte '\x5c' :: escaped :: rest) :
    scanStringBody quote isMultiline (fuel + 1) value s =
      scanStringBody quote isMultiline fuel (scanEscape escaped value { s with source := rest }).1
        (scanEscape escaped value { s with source := rest }).2 := by
  have hclosed : (isMultiline && tripleQuote.isPrefixOf (byte '\x5c' :: escaped :: rest)) = false := by
    cases isMultiline <;> rfl
  have hc : (!isMultiline && byte '\x5c' == quote) = false := by
    obtain rfl | rfl := eq_of_isQuote hquote <;> cases isMultiline <;> rfl
  have hc' : (!isMultiline && byte '\x5c' == 10) = false := by
    cases isMultiline <;> rfl
  rw [scanStringBody, hsource]
  simp only [hclosed, Bool.false_eq_true, if_false, hc, hc', if_true]

/-- What closes a string. -/
def closingQuotes (quote : UInt8) (isMultiline : Bool) : CString :=
  if isMultiline then tripleQuote else [quote]

/-- The body of a string is read as it is written, up to what closes it. -/
theorem scanStringBody_quoted {quote : UInt8} {isMultiline : Bool} (hquote : isQuote quote = true)
    (hdouble : isMultiline = true → quote = byte '\x22') {value text : CString}
    (hquoted : Quoted quote isMultiline value text) (fuel : Nat) (hfuel : text.length < fuel)
    (start : CString) (s : LexerState) (rest : CString) :
    scanStringBody quote isMultiline fuel start
        { s with source := text ++ (closingQuotes quote isMultiline ++ rest) } =
      (some (start ++ value), { s with source := closingQuotes quote isMultiline ++ rest }) := by
  induction hquoted generalizing fuel start with
  | nil =>
      cases fuel with
      | zero => cases hfuel
      | succ fuel =>
          rw [scanStringBody, List.append_nil]
          cases isMultiline with
          | false => simp [closingQuotes]
          | true => rfl
  | @plain c value text hplain hescape hnewline _ ih =>
      cases fuel with
      | zero => cases hfuel
      | succ fuel =>
          have hclosed : ∀ more, (isMultiline && tripleQuote.isPrefixOf (c :: more)) = false := by
            intro more
            cases isMultiline with
            | false => rfl
            | true =>
                have hfirst : (byte '\x22' == c) = false := by
                  rw [← hdouble rfl]
                  exact beq_eq_false_iff_ne.mpr fun h => hplain h.symm
                change (byte '\x22' == c && _) = false
                rw [hfirst, Bool.false_and]
          have hc : (!isMultiline && c == quote) = false := by simp [hplain]
          have hc' : (!isMultiline && c == 10) = false := by
            cases isMultiline with
            | false => simp [hnewline rfl]
            | true => rfl
          rw [List.length_cons] at hfuel
          rw [scanStringBody, List.cons_append]
          simp only [hclosed, Bool.false_eq_true, if_false, hc, hc', if_neg hescape]
          rw [ih fuel (by omega) (start ++ [c]), List.append_assoc]
          rfl
  | @named escaped c value text hnamed _ ih =>
      cases fuel with
      | zero => cases hfuel
      | succ fuel =>
          rw [List.length_cons, List.length_cons] at hfuel
          rw [List.cons_append, List.cons_append, scanStringBody_escape hquote isMultiline fuel start rfl,
            scanEscape_named hnamed]
          dsimp only
          rw [ih fuel (by omega) (start ++ [c]), List.append_assoc]
          rfl
  | @hex digits value text hlength hdigits _ ih =>
      cases fuel with
      | zero => cases hfuel
      | succ fuel =>
          rw [List.length_cons, List.length_cons, List.length_append] at hfuel
          rw [List.cons_append, List.cons_append, List.append_assoc,
            scanStringBody_escape hquote isMultiline fuel start rfl, scanEscape_hex hlength hdigits]
          dsimp only
          rw [ih fuel (by omega), List.append_assoc]
          rfl
  | @unicode digits value text hlength hdigits _ ih =>
      cases fuel with
      | zero => cases hfuel
      | succ fuel =>
          rw [List.length_cons, List.length_cons, List.length_append] at hfuel
          rw [List.cons_append, List.cons_append, List.append_assoc,
            scanStringBody_escape hquote isMultiline fuel start rfl, scanEscape_unicode hlength hdigits]
          dsimp only
          rw [ih fuel (by omega), List.append_assoc]

theorem Quoted.head_ne {quote : UInt8} {value text : CString} (hquote : isQuote quote = true)
    (hquoted : Quoted quote false value text) : ∀ c rest, text = c :: rest → c ≠ quote := by
  have hescape : byte '\x5c' ≠ quote := by
    obtain rfl | rfl := eq_of_isQuote hquote <;> decide
  intro c rest htext
  cases hquoted with
  | nil => cases htext
  | plain hplain =>
      cases htext
      exact hplain
  | named =>
      cases htext
      exact hescape
  | hex =>
      cases htext
      exact hescape
  | unicode =>
      cases htext
      exact hescape

theorem Quoted.not_multiline {quote : UInt8} {value text : CString} (hquote : isQuote quote = true)
    (hquoted : Quoted quote false value text) : isMultilineAt quote (text ++ [quote]) = false := by
  obtain ⟨_, hdouble, _, more, hmore⟩ | ⟨hmultiline, _⟩ := openingQuotes_cases quote (text ++ [quote])
  · cases text with
    | nil =>
        rw [List.nil_append] at hmore
        have hlength := congrArg List.length hmore
        simp at hlength
    | cons c rest =>
        rw [List.cons_append] at hmore
        obtain ⟨hc, _⟩ := List.cons.inj hmore
        exact absurd (hc.trans hdouble.symm) (hquoted.head_ne hquote c rest rfl)
  · exact hmultiline

variable (stod : CString → Option UInt64)

/-- A source that one call consumes. -/
theorem tokenizeAll_single {source : CString} {s' : LexerState} (hne : source ≠ [])
    (hscan : scanTokenWith stod (tokenizeAll stod) { source } = .ok s') (hend : s'.source = []) :
    tokenizeAll stod source = .ok (s'.tokens ++ [endOfFile], s'.errors) := by
  obtain ⟨c, rest, rfl⟩ := List.exists_cons_of_ne_nil hne
  have hlast : ∀ fuel, scanTokensWith stod (tokenizeAll stod) fuel s' = .ok s' := by
    intro fuel
    cases fuel with
    | zero => rfl
    | succ fuel =>
        rw [scanTokensWith, hend]
        rfl
  rw [tokenizeAll_eq, tokenizeWith, List.length_cons, scanTokensWith]
  dsimp only
  rw [hscan]
  simp [hlast]

theorem stringBody_quoted {quote : UInt8} (hquote : isQuote quote = true) {value text : CString}
    (hquoted : Quoted quote false value text) (s : LexerState) :
    stringBody quote { s with source := text ++ [quote] } = (some value, { s with source := [quote] }) := by
  have hmultiline := hquoted.not_multiline hquote
  have hopening : openingQuotes quote (text ++ [quote]) = [] := by
    rw [openingQuotes, hmultiline]
    rfl
  rw [stringBody]
  dsimp only
  rw [hmultiline, hopening]
  have hfuel : text.length < (text ++ [quote]).length + 1 := by
    rw [List.length_append]
    omega
  have hsingle : false = true → quote = byte '\x22' := fun h => absurd h Bool.false_ne_true
  exact scanStringBody_quoted hquote hsingle hquoted _ hfuel [] s []

/-- The same between triple quotes, of which one is consumed. -/
theorem stringBody_multiline {value text : CString} (hquoted : Quoted (byte '\x22') true value text)
    (s : LexerState) :
    stringBody (byte '\x22') { s with source := byte '\x22' :: byte '\x22' :: (text ++ tripleQuote) } =
      (some value, { s with source := tripleQuote }) := by
  have hfuel : text.length < (text ++ tripleQuote).length + 1 := by
    rw [List.length_append]
    omega
  exact scanStringBody_quoted rfl (fun _ => rfl) hquoted _ hfuel [] s []

theorem scanTokenWith_plain (sub : CString → Lexed) {s : LexerState} {c : UInt8} {rest : CString}
    (hsource : s.source = c :: rest) (hc : c ≠ byte '\x60') :
    scanTokenWith stod sub s = scanToken (plainHost stod) s := by
  have hhead : ¬s.source.head? = some (byte '\x60') := by
    rw [hsource]
    simpa using hc
  rw [scanTokenWith, if_neg hhead]

theorem tokenizeAll_multiline {value text : CString} (hquoted : Quoted (byte '\x22') true value text) :
    tokenizeAll stod (tripleQuote ++ text ++ tripleQuote) =
      .ok ([⟨.STRING, tripleQuote ++ text ++ tripleQuote, .string value⟩, endOfFile], []) := by
  have hwhole : tripleQuote ++ text ++ tripleQuote =
      byte '\x22' :: (byte '\x22' :: byte '\x22' :: (text ++ tripleQuote)) := rfl
  have hstring := scanString_eq (byte '\x22')
    { source := byte '\x22' :: byte '\x22' :: (text ++ tripleQuote) }
  rw [stringBody_multiline hquoted { source := [] }] at hstring
  have hmultiline : isMultilineAt (byte '\x22') (byte '\x22' :: byte '\x22' :: (text ++ tripleQuote)) =
      true := rfl
  dsimp only at hstring
  rw [hmultiline] at hstring
  have hscan : scanTokenWith stod (tokenizeAll stod) { source := tripleQuote ++ text ++ tripleQuote } =
      .ok (scanString (byte '\x22')
        { source := byte '\x22' :: byte '\x22' :: (text ++ tripleQuote) }) := by
    rw [scanTokenWith_plain stod _ hwhole (by decide)]
    exact scanToken_quote rfl hwhole
  have hne : tripleQuote ++ text ++ tripleQuote ≠ [] := by
    rw [hwhole]
    exact List.cons_ne_nil _ _
  rw [tokenizeAll_single stod hne hscan, hstring]
  · have hend : (tripleQuote.drop (if true = true then 3 else 1)).length = 0 := rfl
    rw [LexerState.addToken, hend, Nat.sub_zero, List.take_length]
    rfl
  · rw [hstring]
    rfl

theorem tokenizeAll_quoted {quote : UInt8} (hquote : isQuote quote = true) {value text : CString}
    (hquoted : Quoted quote false value text) :
    tokenizeAll stod (quote :: text ++ [quote]) =
      .ok ([⟨.STRING, quote :: text ++ [quote], .string value⟩, endOfFile], []) := by
  have hmultiline := hquoted.not_multiline hquote
  have hc : quote ≠ byte '\x60' := by
    obtain rfl | rfl := eq_of_isQuote hquote <;> decide
  have hstring := scanString_eq quote { source := text ++ [quote] }
  rw [stringBody_quoted hquote hquoted { source := [] }] at hstring
  dsimp only at hstring
  rw [hmultiline] at hstring
  have hscan : scanTokenWith stod (tokenizeAll stod) { source := quote :: text ++ [quote] } =
      .ok (scanString quote { source := text ++ [quote] }) := by
    rw [scanTokenWith_plain stod _ rfl hc]
    exact scanToken_quote hquote rfl
  have hne : quote :: text ++ [quote] ≠ [] := by simp
  rw [tokenizeAll_single stod hne hscan, hstring]
  · have hwhole : (text ++ [quote]).take (text.length + 1) = text ++ [quote] :=
      List.take_of_length_le (by simp)
    simp [LexerState.addToken, hwhole]
  · rw [hstring]
    rfl

theorem tokenizeAll_raw {quote : UInt8} (hquote : isQuote quote = true) {value : CString}
    (hvalue : quote ∉ value) :
    tokenizeAll stod (byte 'r' :: quote :: value ++ [quote]) =
      .ok ([⟨.STRING, quote :: value ++ [quote], .string value⟩, endOfFile], []) := by
  have hfront : (value ++ [quote]).takeWhile (· != quote) = value := by
    rw [List.takeWhile_append_of_pos]
    · simp
    · intro c hc
      simp only [bne_iff_ne, ne_eq]
      rintro rfl
      exact hvalue hc
  have hraw : scanRawString { source := quote :: (value ++ [quote]) } =
      { source := [], tokens := [⟨.STRING, quote :: value ++ [quote], .string value⟩] } := by
    rw [scanRawString]
    dsimp only
    rw [hfront, List.drop_left]
    rfl
  have hscan : scanTokenWith stod (tokenizeAll stod) { source := byte 'r' :: quote :: value ++ [quote] } =
      .ok (scanRawString { source := quote :: (value ++ [quote]) }) := by
    rw [scanTokenWith_plain stod _ rfl (by decide)]
    exact scanToken_raw hquote rfl
  have hne : byte 'r' :: quote :: value ++ [quote] ≠ [] := by simp
  rw [tokenizeAll_single stod hne hscan, hraw]
  · rfl
  · rw [hraw]

/-! ### Template strings -/

theorem templateParts_templated {value text : CString} (htemplated : Templated value text)
    (parts : List Part) (start rest : CString) :
    templateParts parts start (text ++ byte '\x60' :: rest) =
      .ok (parts ++ [⟨false, start ++ value⟩], rest) := by
  induction htemplated generalizing start with
  | nil =>
      rw [List.nil_append, templateParts.eq_def]
      simp only [if_true, List.append_nil]
  | @plain c value text hquote hescape hopen _ ih =>
      rw [List.cons_append, templateParts.eq_def]
      simp only [if_neg hquote, if_neg hescape, if_neg hopen]
      rw [ih, List.append_assoc]
      rfl
  | @escape escaped value text _ ih =>
      rw [List.cons_append, List.cons_append, templateParts, if_neg (by decide), if_pos rfl, ih,
        List.append_assoc]
      rfl

theorem scanTokenWith_templated (sub : CString → Lexed) {value text : CString}
    (htemplated : Templated value text) (s : LexerState) :
    scanTokenWith stod sub { s with source := byte '\x60' :: (text ++ [byte '\x60']) } =
      .ok { s with source := [],
                   tokens := s.tokens ++
                     [⟨.STRING, byte '\x60' :: value ++ [byte '\x60'], .string value⟩] } := by
  rw [scanTokenWith]
  dsimp only
  rw [List.head?_cons, if_pos rfl, scanInterpolatedString]
  dsimp only
  rw [List.drop_succ_cons, List.drop_zero, templateParts_templated htemplated [] [] []]
  simp [templateTokens]

theorem tokenizeAll_templated {value text : CString} (htemplated : Templated value text) :
    tokenizeAll stod (byte '\x60' :: text ++ [byte '\x60']) =
      .ok ([⟨.STRING, byte '\x60' :: value ++ [byte '\x60'], .string value⟩, endOfFile], []) := by
  have hscan := scanTokenWith_templated stod (tokenizeAll stod) htemplated { source := [] }
  have hne : byte '\x60' :: text ++ [byte '\x60'] ≠ [] := by simp
  rw [tokenizeAll_single stod hne hscan rfl]
  rfl

/-! ### Every byte string can be written -/

theorem quoted_quotedText {quote : UInt8} (hquote : isQuote quote = true) (isMultiline : Bool)
    (value : CString) : Quoted quote isMultiline value (quotedText quote value) := by
  have hnamed : (quote, quote) ∈ namedEscapes := by
    obtain rfl | rfl := eq_of_isQuote hquote <;> decide
  induction value with
  | nil => exact .nil
  | cons c value ih =>
      have hcons : quotedText quote (c :: value) = quotedByte quote c ++ quotedText quote value := rfl
      rw [hcons, quotedByte]
      split_ifs with hnewline htab hreturn hzero hescaped
      · exact .named (by rw [hnewline]; decide) ih
      · exact .named (by rw [htab]; decide) ih
      · exact .named (by rw [hreturn]; decide) ih
      · exact .named (by rw [hzero]; decide) ih
      · obtain rfl | rfl := hescaped
        · exact .named (by decide) ih
        · exact .named hnamed ih
      · exact .plain (fun h => hescaped (.inr h)) (fun h => hescaped (.inl h)) (fun _ => hnewline) ih

theorem templated_templatedText (value : CString) : Templated value (templatedText value) := by
  induction value with
  | nil => exact .nil
  | cons c value ih =>
      have hcons : templatedText (c :: value) = templatedByte c ++ templatedText value := rfl
      rw [hcons, templatedByte]
      split_ifs with hescaped
      · have hsame : templateEscape c = c := by
          obtain rfl | rfl | rfl | rfl := hescaped <;> rfl
        have hescape : Templated (templateEscape c :: value)
            ([byte '\x5c', c] ++ templatedText value) := .escape ih
        rw [hsame] at hescape
        exact hescape
      · exact .plain (fun h => hescaped (.inr (.inl h))) (fun h => hescaped (.inl h))
          (fun h => hescaped (.inr (.inr (.inl h)))) ih

/-! ### What is reported -/

/-- An escape is reported unless it is accepted. -/
theorem scanEscape_errors (escaped : UInt8) (value : CString) (s : LexerState) :
    ∃ errors, (scanEscape escaped value s).2.errors = s.errors ++ errors ∧
      (errors = [] ↔ escapeDigits escaped = 0 ∨
        Accepted (escapeDigits escaped, s.source.take (escapeDigits escaped))) := by
  have hnumeric : ∀ (n : Nat) (decode : Int → CString) (incomplete invalid : String), n ≠ 0 →
      ∃ errors, (scanNumericEscape n decode incomplete invalid value s).2.errors = s.errors ++ errors ∧
        (errors = [] ↔ n = 0 ∨ Accepted (n, s.source.take n)) := by
    intro n decode incomplete invalid hn
    rw [scanNumericEscape]
    split_ifs with hshort
    · refine ⟨[incomplete], rfl, ?_⟩
      have hlength : ¬(s.source.take n).length = n := by
        rw [List.length_take]
        omega
      constructor
      · intro h
        cases h
      · rintro (hzero | ⟨hall, _⟩)
        · exact absurd hzero hn
        · exact absurd hall hlength
    · have hlength : (s.source.take n).length = n := by
        rw [List.length_take]
        omega
      dsimp only
      cases hnumber : leadingHex (s.source.take n) with
      | none =>
          refine ⟨[invalid ++ Lexer.text (s.source.take n)], rfl, ?_⟩
          simp [Accepted, hn, hnumber]
      | some cp =>
          refine ⟨[], (List.append_nil _).symm, ?_⟩
          simp [Accepted, hlength, hnumber]
  by_cases hx : escaped = byte 'x'
  · subst hx
    exact hnumeric 2 _ _ _ (by decide)
  · by_cases hu : escaped = byte 'u'
    · subst hu
      exact hnumeric 4 _ _ _ (by decide)
    · have hdigits : escapeDigits escaped = 0 := by
        rw [escapeDigits, if_neg hx, if_neg hu]
      refine ⟨[], ?_, by simp [hdigits]⟩
      rw [List.append_nil, scanEscape, if_neg hx, if_neg hu]
      split_ifs <;> rfl

/-- Nothing is reported of a body exactly where it is closed and its escapes are accepted. -/
theorem scanStringBody_errors (quote : UInt8) (isMultiline : Bool) (fuel : Nat) (value : CString)
    (s : LexerState) (hfuel : s.source.length < fuel) :
    ∃ errors, (scanStringBody quote isMultiline fuel value s).2.errors = s.errors ++ errors ∧
      (errors = [] ↔ (readBody quote isMultiline fuel s.source).2 = true ∧
        ∀ escape ∈ (readBody quote isMultiline fuel s.source).1, Accepted escape) := by
  induction fuel generalizing value s with
  | zero => cases hfuel
  | succ fuel ih =>
      rw [scanStringBody, readBody.eq_def]
      cases hsource : s.source with
      | nil => exact ⟨[_], rfl, by simp⟩
      | cons c rest =>
          rw [hsource, List.length_cons] at hfuel
          dsimp only
          by_cases hclosed : (isMultiline && tripleQuote.isPrefixOf (c :: rest)) = true
          · simp only [if_pos hclosed]
            exact ⟨[], (List.append_nil _).symm, by simp⟩
          by_cases hquote : (!isMultiline && c == quote) = true
          · simp only [if_neg hclosed, if_pos hquote]
            exact ⟨[], (List.append_nil _).symm, by simp⟩
          by_cases hline : (!isMultiline && c == 10) = true
          · simp only [if_neg hclosed, if_neg hquote, if_pos hline]
            exact ⟨[_], rfl, by simp⟩
          simp only [if_neg hclosed, if_neg hquote, if_neg hline]
          by_cases hescaped : c = byte '\x5c'
          · simp only [if_pos hescaped]
            cases rest with
            | nil => exact ⟨[_], rfl, by simp⟩
            | cons escaped rest =>
                obtain ⟨errors, herrors, hescape⟩ := scanEscape_errors escaped value { s with source := rest }
                have hafter := scanEscape_source escaped value { s with source := rest }
                obtain ⟨errors', herrors', hrest⟩ := ih (scanEscape escaped value { s with source := rest }).1
                  (scanEscape escaped value { s with source := rest }).2 (by
                    rw [hafter, List.length_drop]
                    rw [List.length_cons] at hfuel
                    dsimp only
                    omega)
                rw [hafter] at hrest
                refine ⟨errors ++ errors', ?_, ?_⟩
                · dsimp only
                  rw [herrors', herrors, List.append_assoc]
                · rw [List.append_eq_nil_iff, hescape, hrest]
                  dsimp only
                  by_cases hdigits : escapeDigits escaped = 0
                  · simp [hdigits]
                  · simp only [hdigits, if_false, false_or, List.forall_mem_cons]
                    exact and_left_comm
          · simp only [if_neg hescaped]
            exact ih (value ++ [c]) { s with source := rest } (by simp at hfuel ⊢; omega)

theorem scanString_errors (quote : UInt8) (s : LexerState) :
    (scanString quote s).errors = s.errors ↔ (readString quote s.source).2 = true ∧
      ∀ escape ∈ (readString quote s.source).1, Accepted escape := by
  obtain ⟨errors, herrors, hnone⟩ := scanStringBody_errors quote (isMultilineAt quote s.source)
    ((s.source.drop (openingQuotes quote s.source).length).length + 1) []
    { s with source := s.source.drop (openingQuotes quote s.source).length } (Nat.lt_succ_self _)
  have hbody : (scanString quote s).errors = (stringBody quote s).2.errors := by
    rw [scanString_eq]
    cases (stringBody quote s).1 <;> rfl
  rw [hbody, stringBody]
  dsimp only at herrors hnone ⊢
  rw [herrors, List.append_right_eq_self, hnone]
  rfl

/-- A malformed literal is reported exactly where it is caught. -/
theorem malformed_reported_iff (quote : UInt8) (s : LexerState) :
    (Malformed quote s.source → (scanString quote s).errors ≠ s.errors) ↔ Caught quote s.source := by
  rw [ne_eq, scanString_errors, Malformed, Caught]
  constructor
  · intro hreported hclosed haccepted escape hmem
    by_contra hcomplete
    exact hreported (.inr ⟨escape, hmem, hcomplete⟩) ⟨hclosed, haccepted⟩
  · rintro hcaught (hopen | ⟨escape, hmem, hcomplete⟩) ⟨hclosed, haccepted⟩
    · rw [hopen] at hclosed
      cases hclosed
    · exact hcomplete (hcaught hclosed haccepted escape hmem)

/-- A raw string without a closing quote is reported. -/
theorem scanRawString_open {quote : UInt8} {rest : CString} (hopen : quote ∉ rest) (s : LexerState) :
    (scanRawString { s with source := quote :: rest }).errors ≠ s.errors := by
  have hall : rest.takeWhile (· != quote) = rest := by
    apply List.takeWhile_eq_self_iff.mpr
    intro c hc
    simp only [bne_iff_ne, ne_eq]
    rintro rfl
    exact hopen hc
  rw [scanRawString]
  dsimp only
  rw [hall, List.drop_length]
  simp [LexerState.error]

theorem templateParts_closed {parts out : List Part} {start source rest : CString}
    (hparts : templateParts parts start source = .ok (out, rest)) :
    ∃ text, source = text ++ byte '\x60' :: rest := by
  fun_induction templateParts parts start source with
  | case1 => cases hparts
  | case2 =>
      cases hparts
      exact ⟨[], rfl⟩
  | case3 => cases hparts
  | case4 =>
      rename_i ih
      obtain ⟨text, rfl⟩ := ih hparts
      exact ⟨_ :: _ :: text, rfl⟩
  | case5 => cases hparts
  | case6 =>
      rename_i exprText after hscan _ _ ih
      obtain ⟨text, rfl⟩ := ih hparts
      obtain ⟨rfl, _⟩ := scanExprText_some hscan
      exact ⟨byte '\x7b' :: (exprText ++ byte '\x7d' :: text), by simp⟩
  | case7 =>
      rename_i ih
      obtain ⟨text, rfl⟩ := ih hparts
      exact ⟨_ :: text, rfl⟩

/-- A template string of which nothing is reported is closed. -/
theorem scanInterpolatedString_closed {sub : CString → Lexed} {s s' : LexerState}
    (hscan : scanInterpolatedString sub s = .ok s') (herrors : s'.errors = s.errors) :
    ∃ text, s.source = text ++ byte '\x60' :: s'.source := by
  obtain ⟨message, _, rfl⟩ | ⟨parts, rest, tokens, hparts, _, rfl⟩ := scanInterpolatedString_cases hscan
  · simp [LexerState.error] at herrors
  · exact templateParts_closed hparts

/-- Every way to write a byte string between quotes, as a raw string or as a template string gives one
token with that value, each byte string can be written, and literals that are not closed are reported; a
malformed quoted literal is reported exactly where it is caught. -/
theorem string_literals (stod : CString → Option UInt64) :
    (∀ quote, isQuote quote = true →
      (∀ value text, Quoted quote false value text → tokenizeAll stod (quote :: text ++ [quote]) =
        .ok ([⟨.STRING, quote :: text ++ [quote], .string value⟩, endOfFile], [])) ∧
      (∀ isMultiline value, Quoted quote isMultiline value (quotedText quote value)) ∧
      (∀ value, quote ∉ value → tokenizeAll stod (byte 'r' :: quote :: value ++ [quote]) =
        .ok ([⟨.STRING, quote :: value ++ [quote], .string value⟩, endOfFile], [])) ∧
      (∀ (s : LexerState) (rest : CString), quote ∉ rest → ∃ s',
        scanTokenWith stod (tokenizeAll stod) { s with source := byte 'r' :: quote :: rest } = .ok s' ∧
        s'.errors ≠ s.errors) ∧
      ∀ (s : LexerState) (rest : CString), ∃ s',
        scanTokenWith stod (tokenizeAll stod) { s with source := quote :: rest } = .ok s' ∧
        ((Malformed quote rest → s'.errors ≠ s.errors) ↔ Caught quote rest)) ∧
    (∀ value text, Quoted (byte '\x22') true value text →
      tokenizeAll stod (tripleQuote ++ text ++ tripleQuote) =
        .ok ([⟨.STRING, tripleQuote ++ text ++ tripleQuote, .string value⟩, endOfFile], [])) ∧
    (∀ value text, Templated value text →
      tokenizeAll stod (byte '\x60' :: text ++ [byte '\x60']) =
        .ok ([⟨.STRING, byte '\x60' :: value ++ [byte '\x60'], .string value⟩, endOfFile], [])) ∧
    (∀ value, Templated value (templatedText value)) ∧
    ∀ (s : LexerState) (rest : CString) (s' : LexerState),
      scanTokenWith stod (tokenizeAll stod) { s with source := byte '\x60' :: rest } = .ok s' →
      s'.errors = s.errors → ∃ text, rest = text ++ byte '\x60' :: s'.source := by
  refine ⟨fun quote hquote => ⟨fun value text hquoted => tokenizeAll_quoted stod hquote hquoted,
    quoted_quotedText hquote, fun value hvalue => tokenizeAll_raw stod hquote hvalue, ?_, ?_⟩,
    fun value text hquoted => tokenizeAll_multiline stod hquoted,
    fun value text htemplated => tokenizeAll_templated stod htemplated, templated_templatedText, ?_⟩
  · intro s rest hopen
    refine ⟨scanRawString { s with source := quote :: rest }, ?_, scanRawString_open hopen s⟩
    rw [scanTokenWith_plain stod _ rfl (by decide)]
    exact scanToken_raw hquote rfl
  · intro s rest
    have hc : quote ≠ byte '\x60' := by
      obtain rfl | rfl := eq_of_isQuote hquote <;> decide
    refine ⟨scanString quote { s with source := rest }, ?_,
      malformed_reported_iff quote { s with source := rest }⟩
    rw [scanTokenWith_plain stod _ rfl hc]
    exact scanToken_quote hquote rfl
  · intro s rest s' hscan herrors
    rw [scanTokenWith] at hscan
    dsimp only at hscan
    rw [List.head?_cons, if_pos rfl] at hscan
    exact scanInterpolatedString_closed hscan herrors

/-- A newline and a backslash are written in each way. -/
theorem string_literals_newline :
    tokenizeAll (fun _ => none) (lit "\"\\n\\\\\"") =
      .ok ([⟨.STRING, lit "\"\\n\\\\\"", .string [10, byte '\x5c']⟩, endOfFile], []) ∧
    tokenizeAll (fun _ => none) (lit "r'\n\\'") =
      .ok ([⟨.STRING, lit "'\n\\'", .string [10, byte '\x5c']⟩, endOfFile], []) ∧
    tokenizeAll (fun _ => none) (lit "\"\"\"\\n\\\\\"\"\"") =
      .ok ([⟨.STRING, lit "\"\"\"\\n\\\\\"\"\"", .string [10, byte '\x5c']⟩, endOfFile], []) ∧
    (∃ s', scanTokenWith (fun _ => none) (tokenizeAll fun _ => none) { source := lit "r'\n\\" } = .ok s' ∧
      s'.errors ≠ []) ∧
    tokenizeAll (fun _ => none) (byte '\x60' :: lit "\n\\\\" ++ [byte '\x60']) =
      .ok ([⟨.STRING, byte '\x60' :: lit "\n\\" ++ [byte '\x60'], .string [10, byte '\x5c']⟩,
        endOfFile], []) ∧
    ∃ text, [10, byte '\x60'] = text ++ byte '\x60' :: ([] : CString) := by
  have hliterals := string_literals fun _ => none
  refine ⟨?_, ?_, ?_, ?_, ?_, ?_⟩
  · exact (hliterals.1 (byte '\x22') rfl).1 [10, byte '\x5c'] (lit "\\n\\\\")
      ((hliterals.1 (byte '\x22') rfl).2.1 false [10, byte '\x5c'])
  · exact (hliterals.1 (byte '\x27') rfl).2.2.1 [10, byte '\x5c'] (by decide)
  · exact hliterals.2.1 [10, byte '\x5c'] (lit "\\n\\\\")
      ((hliterals.1 (byte '\x22') rfl).2.1 true [10, byte '\x5c'])
  · exact (hliterals.1 (byte '\x27') rfl).2.2.2.1 { source := [] } [10, byte '\x5c'] (by decide)
  · exact hliterals.2.2.1 [10, byte '\x5c'] (lit "\n\\\\") (hliterals.2.2.2.1 [10, byte '\x5c'])
  · refine hliterals.2.2.2.2 { source := [] } [10, byte '\x60']
      { source := [], tokens := [⟨.STRING, [byte '\x60', 10, byte '\x60'], .string [10]⟩] } ?_ rfl
    exact scanTokenWith_templated _ _ (templated_templatedText [10]) { source := [] }

/-- `"\x4g"` with one digit in its escape. -/
def partialEscape : CString := [byte '\x5c', byte 'x', byte '4', byte 'g', byte '\x22']

/-- The literal is malformed, and it is lexed to the byte 4 without a report. -/
theorem partialEscape_not_reported :
    Malformed (byte '\x22') partialEscape ∧
    tokenizeAll (fun _ => none) (byte '\x22' :: partialEscape) =
      .ok ([⟨.STRING, byte '\x22' :: partialEscape, .string [4]⟩, endOfFile], []) := by
  constructor
  · right
    refine ⟨(2, [byte '4', byte 'g']), by decide, ?_⟩
    rintro ⟨_, hdigits⟩
    have hg := hdigits (byte 'g') (by decide)
    revert hg
    decide
  · rfl

end Lexer

end EZLanguage
