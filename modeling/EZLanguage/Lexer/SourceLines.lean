import Mathlib.Algebra.GroupWithZero.Nat
import Mathlib.Algebra.Group.Int.Defs
import EZLanguage.Lexer.Totality
import Mathlib.Tactic.Ring

/-!
# Lines of tokens

The line counter of the lexer. `advance` counts a newline as it consumes it. The loops of raw strings and
of strings in triple quotes count it before that as well, and the digits of a numeric escape are skipped
without `advance`. A call of `scanToken` is then off by the newlines it counts twice, less those it skips.
-/

namespace EZLanguage

namespace Lexer

/-! ### The counter -/

/-- The line after `advance` has consumed a character. -/
def advanceLine (line : Nat) (c : UInt8) : Nat := if c = 10 then line + 1 else line

def advanceLines (line : Nat) (text : CString) : Nat := text.foldl advanceLine line

/-- A loop that counts a newline before `advance` does. -/
def countAndAdvance (line : Nat) (c : UInt8) : Nat :=
  advanceLine (if c = 10 then line + 1 else line) c

/-- The line after `scanStringBody`, whose numeric escapes move `current` by hand. -/
def stringBodyLine (quote : UInt8) (isMultiline : Bool) : Nat → CString → LexerState → Nat → Nat
  | 0, _, _, line => line
  | fuel + 1, value, s, line =>
      match s.source with
      | [] => line
      | c :: rest =>
          if isMultiline && tripleQuote.isPrefixOf s.source then line
          else if !isMultiline && c == quote then line
          else if !isMultiline && c == 10 then line
          else if c = byte '\x5c' then
            match rest with
            | [] => advanceLine line c
            | escaped :: rest =>
                stringBodyLine quote isMultiline fuel
                  (scanEscape escaped value { s with source := rest }).1
                  (scanEscape escaped value { s with source := rest }).2
                  (advanceLine (advanceLine line c) escaped)
          else
            stringBodyLine quote isMultiline fuel (value ++ [c]) { s with source := rest }
              (if isMultiline then countAndAdvance line c else advanceLine line c)

def isMultilineAt (quote : UInt8) (source : CString) : Bool :=
  quote == byte '\x22' && tripleQuote.isPrefixOf (quote :: source)

/-- The second and third quote of a string in triple quotes. -/
def openingQuotes (quote : UInt8) (source : CString) : CString :=
  if isMultilineAt quote source then source.take 2 else []

/-- The body of a string whose quote is consumed. -/
def stringBody (quote : UInt8) (s : LexerState) : Option CString × LexerState :=
  let opened := { s with source := s.source.drop (openingQuotes quote s.source).length }
  scanStringBody quote (isMultilineAt quote s.source) (opened.source.length + 1) [] opened

/-- The line after `scanString`. -/
def stringLine (quote : UInt8) (s : LexerState) (line : Nat) : Nat :=
  let isMultiline := isMultilineAt quote s.source
  let opened := { s with source := s.source.drop (openingQuotes quote s.source).length }
  let line := stringBodyLine quote isMultiline (opened.source.length + 1) [] opened
    (advanceLines line (openingQuotes quote s.source))
  match (stringBody quote s).1 with
  | none => line
  | some _ => advanceLines line ((stringBody quote s).2.source.take (if isMultiline then 3 else 1))

/-- The line after `scanRawString`. -/
def rawStringLine (source : CString) (line : Nat) : Nat :=
  match source with
  | [] => line
  | quote :: rest =>
      let value := rest.takeWhile (· != quote)
      advanceLines (value.foldl countAndAdvance (advanceLine line quote))
        ((rest.drop value.length).take 1)

def isQuote (c : UInt8) : Bool := c == byte '\x22' || c == byte '\x27'

/-- Whether a raw string begins here. -/
def startsRaw (source : CString) : Bool :=
  match source with
  | c :: quote :: _ => c == byte 'r' && isQuote quote
  | _ => false

/-- What a call consumes. -/
def consumed (s s' : LexerState) : CString := s.source.take (s.source.length - s'.source.length)

/-- The line after a call of `scanToken` that leads from one state to another. All scanners but those of
strings and raw strings move by `advance` alone. -/
def scanTokenLine (s s' : LexerState) (line : Nat) : Nat :=
  match s.source with
  | [] => line
  | c :: rest =>
      if isQuote c then stringLine c { s with source := rest } (advanceLine line c)
      else if startsRaw s.source then rawStringLine rest (advanceLine line c)
      else advanceLines line (consumed s s')

/-- What one call of `scanToken` consumes, the tokens it adds, and the line they carry. -/
structure Call where
  text : CString
  tokens : List Token
  line : Nat

def isTemplate (text : CString) : Bool := text.head? == some (byte '\x60')

/-- Where the text parts of a template string end: at an interpolation, or at the closing quote. `front`
is what was read before. -/
def partEnds (front : CString) (source : CString) : List CString :=
  match source with
  | [] => []
  | c :: rest =>
      if c = byte '\x60' then [front]
      else if c = byte '\x5c' then
        match rest with
        | [] => []
        | escaped :: rest => partEnds (front ++ [c, escaped]) rest
      else if c = byte '\x7b' then
        match _hscan : scanExprText 1 none rest with
        | none => []
        | some (exprText, after) => front :: partEnds (front ++ c :: exprText ++ [byte '\x7d']) after
      else partEnds (front ++ [c]) rest
termination_by source.length
decreasing_by
  · simp only [List.length_cons]
    omega
  · have hlength := congrArg List.length (scanExprText_some _hscan).1
    simp only [List.length_append, List.length_cons] at hlength ⊢
    omega
  · exact Nat.lt_succ_self _

/-- The ends of the texts of a call's tokens. A template string with interpolations becomes a sum, whose
text parts have their texts in the source. -/
def Call.stops (call : Call) : List CString :=
  if isTemplate call.text && call.tokens.length != 1 then partEnds [byte '\x60'] (call.text.drop 1)
  else [call.text]

variable (stod : CString → Option UInt64)

/-- The calls in the loop of `tokenize`, and END_OF_FILE after them. The tokens of a template string
carry the line it begins at, all others the one they end at. -/
def callsWith (sub : CString → Lexed) : Nat → LexerState → Nat → Except String (List Call)
  | 0, _, line => .ok [⟨[], [endOfFile], line⟩]
  | fuel + 1, s, line =>
      if s.source.isEmpty then .ok [⟨[], [endOfFile], line⟩]
      else
        match scanTokenWith stod sub s with
        | .error exception => .error exception
        | .ok s' =>
            match callsWith sub fuel s' (scanTokenLine s s' line) with
            | .error exception => .error exception
            | .ok calls =>
                .ok (⟨consumed s s', s'.tokens.drop s.tokens.length,
                  if isTemplate s.source then line else scanTokenLine s s' line⟩ :: calls)

/-- The calls of `tokenize` of a new lexer, which begins at line 1. -/
def tokenizeCalls (source : CString) : Except String (List Call) :=
  callsWith stod (tokenizeAll stod) source.length { source } 1

/-! ### What the counter is off by -/

def newlines (text : CString) : Nat := text.count 10

/-- The digits of a numeric escape. -/
def escapeDigits (escaped : UInt8) : Nat :=
  if escaped = byte 'x' then 2 else if escaped = byte 'u' then 4 else 0

/-- The newlines in a string that count twice, less those among the digits of numeric escapes, of which
`skip` are still to come. -/
def bodyMiscount (isMultiline : Bool) : Nat → CString → Int
  | _, [] => 0
  | skip + 1, c :: rest => bodyMiscount isMultiline skip rest - (if c = 10 then 1 else 0)
  | 0, c :: rest =>
      if c = byte '\x5c' then
        match rest with
        | [] => 0
        | escaped :: rest =>
            bodyMiscount isMultiline
              (if rest.length < escapeDigits escaped then 0 else escapeDigits escaped) rest
      else (if isMultiline && c == 10 then 1 else 0) + bodyMiscount isMultiline 0 rest

/-- The newlines that count twice in what a call consumes, less those that are skipped: in a raw string
all count twice. -/
def miscount (text : CString) : Int :=
  match text with
  | [] => 0
  | c :: rest =>
      if isQuote c then
        if c == byte '\x22' && tripleQuote.isPrefixOf text then bodyMiscount true 0 (rest.drop 2)
        else bodyMiscount false 0 rest
      else if startsRaw text then newlines rest
      else 0

def texts (calls : List Call) : CString := (calls.map Call.text).flatten

def miscounts (calls : List Call) : Int := (calls.map fun call => miscount call.text).sum

/-- Every token outside interpolations carries one plus the newlines before the end of its text. -/
def LinesRight (calls : List Call) : Prop :=
  ∀ before call after, calls = before ++ call :: after → call.tokens ≠ [] → ∀ stop ∈ call.stops,
    call.line = 1 + newlines (texts before ++ stop)

/-- At every such token the newlines counted twice and those skipped are equally many, and what a
template string follows is ahead by the newlines up to the token's end. -/
def Balanced (calls : List Call) : Prop :=
  ∀ before call after, calls = before ++ call :: after → call.tokens ≠ [] → ∀ stop ∈ call.stops,
    if isTemplate call.text then miscounts before = newlines stop
    else miscounts before + miscount call.text = 0

/-! ### Counting -/

@[simp] theorem newlines_nil : newlines [] = 0 := rfl

theorem newlines_cons (c : UInt8) (text : CString) :
    newlines (c :: text) = newlines text + if c = 10 then 1 else 0 := by
  rw [newlines, newlines, List.count_cons]
  simp only [beq_iff_eq]

theorem newlines_append (text text' : CString) :
    newlines (text ++ text') = newlines text + newlines text' := by
  exact List.count_append

theorem advanceLine_eq (line : Nat) (c : UInt8) : advanceLine line c = line + if c = 10 then 1 else 0 := by
  rw [advanceLine]
  split_ifs <;> rfl

theorem advanceLines_eq (line : Nat) (text : CString) :
    advanceLines line text = line + newlines text := by
  induction text generalizing line with
  | nil => rfl
  | cons c text ih =>
      have hstep := ih (advanceLine line c)
      rw [advanceLine_eq] at hstep
      rw [newlines_cons]
      rw [advanceLines] at hstep ⊢
      rw [List.foldl_cons, advanceLine_eq, hstep]
      omega

theorem countAndAdvance_eq (line : Nat) (c : UInt8) :
    countAndAdvance line c = line + 2 * if c = 10 then 1 else 0 := by
  rw [countAndAdvance, advanceLine_eq]
  split_ifs <;> omega

theorem foldl_countAndAdvance (line : Nat) (text : CString) :
    text.foldl countAndAdvance line = line + 2 * newlines text := by
  induction text generalizing line with
  | nil => rfl
  | cons c text ih =>
      rw [List.foldl_cons, ih, countAndAdvance_eq, newlines_cons]
      omega

/-! ### Strings -/

theorem bodyMiscount_cons (isMultiline : Bool) {c : UInt8} (hc : c ≠ byte '\x5c') (rest : CString) :
    bodyMiscount isMultiline 0 (c :: rest) =
      (if isMultiline && c == 10 then 1 else 0) + bodyMiscount isMultiline 0 rest := by
  rw [bodyMiscount.eq_def]
  simp only [if_neg hc]

theorem bodyMiscount_escape (isMultiline : Bool) (escaped : UInt8) (rest : CString) :
    bodyMiscount isMultiline 0 (byte '\x5c' :: escaped :: rest) =
      bodyMiscount isMultiline
        (if rest.length < escapeDigits escaped then 0 else escapeDigits escaped) rest := by
  rw [bodyMiscount.eq_def]
  simp only [if_true]

theorem bodyMiscount_plain (isMultiline : Bool) {text : CString} (hnewline : 10 ∉ text)
    (hescape : byte '\x5c' ∉ text) : bodyMiscount isMultiline 0 text = 0 := by
  induction text with
  | nil => rfl
  | cons c text ih =>
      simp only [List.mem_cons, not_or] at hnewline hescape
      have hc : c ≠ byte '\x5c' := fun h => hescape.1 h.symm
      have hc' : ¬c = 10 := fun h => hnewline.1 h.symm
      rw [bodyMiscount_cons isMultiline hc, ih hnewline.2 hescape.2]
      simp [hc']

/-- The digits of an escape are skipped. -/
theorem bodyMiscount_skip (isMultiline : Bool) (digits rest : CString) :
    bodyMiscount isMultiline digits.length (digits ++ rest) =
      bodyMiscount isMultiline 0 rest - newlines digits := by
  induction digits with
  | nil => simp
  | cons c digits ih =>
      rw [List.length_cons, List.cons_append, bodyMiscount, ih, newlines_cons]
      split_ifs <;> omega

theorem scanNumericEscape_source (n : Nat) (decode : Int → CString) (incomplete invalid : String)
    (value : CString) (s : LexerState) :
    (scanNumericEscape n decode incomplete invalid value s).2.source =
      s.source.drop (if s.source.length < n then 0 else n) := by
  rw [scanNumericEscape]
  split_ifs
  · rfl
  · dsimp only
    split
    · rfl
    · rfl

theorem scanEscape_source (escaped : UInt8) (value : CString) (s : LexerState) :
    (scanEscape escaped value s).2.source =
      s.source.drop (if s.source.length < escapeDigits escaped then 0 else escapeDigits escaped) := by
  by_cases hx : escaped = byte 'x'
  · subst hx
    exact scanNumericEscape_source 2 _ _ _ value s
  · by_cases hu : escaped = byte 'u'
    · subst hu
      exact scanNumericEscape_source 4 _ _ _ value s
    · have hdigits : escapeDigits escaped = 0 := by
        rw [escapeDigits, if_neg hx, if_neg hu]
      rw [hdigits, ite_self, List.drop_zero, scanEscape, if_neg hx, if_neg hu]
      split_ifs <;> rfl

/-- The digits after an escape, which are skipped where there are enough of them. -/
theorem bodyMiscount_digits (isMultiline : Bool) (escaped : UInt8) {rest body after closing : CString}
    (hbody : rest.drop (if rest.length < escapeDigits escaped then 0 else escapeDigits escaped) =
      body ++ after) (hclosing : closing <+: after) :
    ∀ text, text = rest.take (if rest.length < escapeDigits escaped then 0 else escapeDigits escaped) ++
        (body ++ closing) →
      bodyMiscount isMultiline
        (if text.length < escapeDigits escaped then 0 else escapeDigits escaped) text =
      bodyMiscount isMultiline 0 (body ++ closing) -
        newlines (rest.take (if rest.length < escapeDigits escaped then 0 else escapeDigits escaped)) := by
  rintro text rfl
  by_cases hshort : rest.length < escapeDigits escaped
  · rw [if_pos hshort, List.drop_zero] at hbody
    have hlength := congrArg List.length hbody
    have hle := hclosing.length_le
    rw [List.length_append] at hlength
    rw [if_pos hshort, List.take_zero, List.nil_append, if_pos]
    · simp
    · rw [List.length_append]
      omega
  · have hdigits : (rest.take (escapeDigits escaped)).length = escapeDigits escaped := by
      rw [List.length_take]
      omega
    have hskip := bodyMiscount_skip isMultiline (rest.take (escapeDigits escaped)) (body ++ closing)
    rw [hdigits] at hskip
    rw [if_neg hshort, if_neg, hskip]
    rw [List.length_append, hdigits]
    omega

/-- The body of a string is off by its miscount, also with the closing quote behind it. -/
theorem stringBodyLine_eq (quote : UInt8) (isMultiline : Bool) (fuel : Nat) (value : CString)
    (s : LexerState) (line : Nat) :
    ∃ body, s.source = body ++ (scanStringBody quote isMultiline fuel value s).2.source ∧
      ∀ closing, closing <+: (scanStringBody quote isMultiline fuel value s).2.source →
        10 ∉ closing → byte '\x5c' ∉ closing →
        (stringBodyLine quote isMultiline fuel value s line : Int) =
          line + newlines body + bodyMiscount isMultiline 0 (body ++ closing) := by
  have hstop : ∀ (closing : CString) {line : Nat}, 10 ∉ closing → byte '\x5c' ∉ closing →
      (line : Int) = line + newlines [] + bodyMiscount isMultiline 0 ([] ++ closing) := by
    intro closing line hnewline hescape
    rw [List.nil_append, bodyMiscount_plain isMultiline hnewline hescape]
    simp
  induction fuel generalizing value s line with
  | zero => exact ⟨[], rfl, fun closing _ => hstop closing⟩
  | succ fuel ih =>
      rw [scanStringBody, stringBodyLine]
      cases hsource : s.source with
      | nil => exact ⟨[], hsource.symm, fun closing _ => hstop closing⟩
      | cons c rest =>
          have hnext : (if isMultiline then countAndAdvance line c else advanceLine line c) =
              line + (if c = 10 then 1 else 0) + if isMultiline && c == 10 then 1 else 0 := by
            rw [countAndAdvance_eq, advanceLine_eq]
            cases isMultiline <;> by_cases hc : c = 10 <;> simp [hc]
          dsimp only
          rw [hnext]
          by_cases hclosed : (isMultiline && tripleQuote.isPrefixOf (c :: rest)) = true
          · simp only [if_pos hclosed]
            exact ⟨[], hsource.symm, fun closing _ => hstop closing⟩
          by_cases hquote : (!isMultiline && c == quote) = true
          · simp only [if_neg hclosed, if_pos hquote]
            exact ⟨[], hsource.symm, fun closing _ => hstop closing⟩
          by_cases hline : (!isMultiline && c == 10) = true
          · simp only [if_neg hclosed, if_neg hquote, if_pos hline]
            exact ⟨[], hsource.symm, fun closing _ => hstop closing⟩
          simp only [if_neg hclosed, if_neg hquote, if_neg hline]
          by_cases hescaped : c = byte '\x5c'
          · simp only [if_pos hescaped]
            subst hescaped
            cases rest with
            | nil =>
                refine ⟨[byte '\x5c'], rfl, fun closing hclosing _ _ => ?_⟩
                rw [List.eq_nil_of_prefix_nil hclosing]
                rfl
            | cons escaped rest =>
                obtain ⟨body, hbody, hline'⟩ := ih (scanEscape escaped value { s with source := rest }).1
                  (scanEscape escaped value { s with source := rest }).2
                  (advanceLine (advanceLine line (byte '\x5c')) escaped)
                rw [scanEscape_source] at hbody
                dsimp only at hbody
                generalize hafter : (scanStringBody quote isMultiline fuel
                  (scanEscape escaped value { s with source := rest }).1
                  (scanEscape escaped value { s with source := rest }).2).2.source = after
                  at hbody hline' ⊢
                refine ⟨byte '\x5c' :: escaped :: (rest.take (if rest.length < escapeDigits escaped then 0
                  else escapeDigits escaped) ++ body), ?_, fun closing hclosing hnewline hplain => ?_⟩
                · rw [List.cons_append, List.cons_append, List.append_assoc, ← hbody,
                    List.take_append_drop]
                · have hskip := bodyMiscount_digits isMultiline escaped hbody hclosing _ rfl
                  rw [hline' closing hclosing hnewline hplain, List.cons_append, List.cons_append,
                    List.append_assoc, bodyMiscount_escape, hskip, newlines_cons, newlines_cons,
                    newlines_append, advanceLine_eq, advanceLine_eq, if_neg (by decide)]
                  split_ifs <;> push_cast <;> omega
          · simp only [if_neg hescaped]
            obtain ⟨body, hbody, hline'⟩ := ih (value ++ [c]) { s with source := rest }
              (line + (if c = 10 then 1 else 0) + if isMultiline && c == 10 then 1 else 0)
            refine ⟨c :: body, ?_, fun closing hclosing hnewline hplain => ?_⟩
            · rw [List.cons_append, ← hbody]
            · rw [hline' closing hclosing hnewline hplain, List.cons_append,
                bodyMiscount_cons isMultiline hescaped, newlines_cons]
              split_ifs <;> push_cast <;> omega

/-- A string that ends does so at its closing quote. -/
theorem scanStringBody_closed {quote : UInt8} {isMultiline : Bool} {fuel : Nat} {value out : CString}
    {s : LexerState} (hsome : (scanStringBody quote isMultiline fuel value s).1 = some out) :
    (scanStringBody quote isMultiline fuel value s).2.source.take (if isMultiline then 3 else 1) =
      if isMultiline then tripleQuote else [quote] := by
  induction fuel generalizing value s with
  | zero => cases hsome
  | succ fuel ih =>
      rw [scanStringBody] at hsome ⊢
      cases hsource : s.source with
      | nil =>
          rw [hsource] at hsome
          cases hsome
      | cons c rest =>
          rw [hsource] at hsome
          dsimp only at hsome ⊢
          by_cases hclosed : (isMultiline && tripleQuote.isPrefixOf (c :: rest)) = true
          · simp only [if_pos hclosed]
            rw [Bool.and_eq_true] at hclosed
            obtain ⟨hmultiline, hquotes⟩ := hclosed
            obtain ⟨more, hmore⟩ := List.isPrefixOf_iff_prefix.mp hquotes
            rw [if_pos hmultiline, if_pos hmultiline, hsource, ← hmore]
            rfl
          by_cases hquote : (!isMultiline && c == quote) = true
          · simp only [if_neg hclosed, if_pos hquote]
            rw [Bool.and_eq_true, beq_iff_eq, Bool.not_eq_true'] at hquote
            rw [hsource, hquote.1, hquote.2]
            rfl
          by_cases hline : (!isMultiline && c == 10) = true
          · simp only [if_neg hclosed, if_neg hquote, if_pos hline] at hsome
            cases hsome
          simp only [if_neg hclosed, if_neg hquote, if_neg hline] at hsome ⊢
          by_cases hescaped : c = byte '\x5c'
          · simp only [if_pos hescaped] at hsome ⊢
            cases rest with
            | nil => cases hsome
            | cons escaped rest => exact ih hsome
          · simp only [if_neg hescaped] at hsome ⊢
            exact ih hsome

theorem eq_of_isQuote {c : UInt8} (hquote : isQuote c = true) : c = byte '\x22' ∨ c = byte '\x27' := by
  rw [isQuote, Bool.or_eq_true, beq_iff_eq, beq_iff_eq] at hquote
  exact hquote

/-- The body of a string with what closes it. -/
theorem stringBody_counted {quote : UInt8} (hquote : isQuote quote = true) (isMultiline : Bool)
    (fuel : Nat) (s : LexerState) (line : Nat) :
    ∃ text, s.source = text ++
        (match (scanStringBody quote isMultiline fuel [] s).1 with
        | none => (scanStringBody quote isMultiline fuel [] s).2.source
        | some _ => (scanStringBody quote isMultiline fuel [] s).2.source.drop
            (if isMultiline then 3 else 1)) ∧
      ((match (scanStringBody quote isMultiline fuel [] s).1 with
        | none => stringBodyLine quote isMultiline fuel [] s line
        | some _ => advanceLines (stringBodyLine quote isMultiline fuel [] s line)
            ((scanStringBody quote isMultiline fuel [] s).2.source.take
              (if isMultiline then 3 else 1)) : Nat) : Int) =
        line + newlines text + bodyMiscount isMultiline 0 text := by
  obtain ⟨body, hbody, hline⟩ := stringBodyLine_eq quote isMultiline fuel [] s line
  cases hvalue : (scanStringBody quote isMultiline fuel [] s).1 with
  | none =>
      have hopen := hline [] List.nil_prefix List.not_mem_nil List.not_mem_nil
      rw [List.append_nil] at hopen
      exact ⟨body, hbody, hopen⟩
  | some value =>
      have hclosed := scanStringBody_closed hvalue
      have hplain : 10 ∉ (if isMultiline then tripleQuote else [quote]) ∧
          byte '\x5c' ∉ (if isMultiline then tripleQuote else [quote]) := by
        obtain rfl | rfl := eq_of_isQuote hquote <;> cases isMultiline <;> decide
      have hwhole := hline _ (List.take_prefix (if isMultiline then 3 else 1) _)
        (by rw [hclosed]; exact hplain.1) (by rw [hclosed]; exact hplain.2)
      refine ⟨body ++ (scanStringBody quote isMultiline fuel [] s).2.source.take
        (if isMultiline then 3 else 1), ?_, ?_⟩
      · rw [List.append_assoc, List.take_append_drop]
        exact hbody
      · dsimp only
        rw [advanceLines_eq, newlines_append]
        push_cast
        omega

/-- A call consumes text and moves the counter by its newlines and its miscount. -/
def Counted (s s' : LexerState) (line line' : Nat) : Prop :=
  ∃ text, text ≠ [] ∧ s.source = text ++ s'.source ∧ (line' : Int) = line + newlines text + miscount text

theorem openingQuotes_cases (quote : UInt8) (source : CString) :
    (isMultilineAt quote source = true ∧ quote = byte '\x22' ∧
      openingQuotes quote source = [byte '\x22', byte '\x22'] ∧
      ∃ more, source = byte '\x22' :: byte '\x22' :: more) ∨
    (isMultilineAt quote source = false ∧ openingQuotes quote source = []) := by
  rw [openingQuotes]
  by_cases hmultiline : isMultilineAt quote source = true
  · left
    rw [if_pos hmultiline]
    obtain ⟨hdouble, hquotes⟩ := Bool.and_eq_true_iff.mp hmultiline
    obtain ⟨more, hmore⟩ := List.isPrefixOf_iff_prefix.mp hquotes
    have hsource : source = byte '\x22' :: byte '\x22' :: more := (List.cons.inj hmore).2.symm
    exact ⟨hmultiline, beq_iff_eq.mp hdouble, by rw [hsource]; rfl, more, hsource⟩
  · right
    rw [if_neg hmultiline]
    exact ⟨Bool.eq_false_iff.mpr hmultiline, rfl⟩

theorem openString_eq (quote : UInt8) (s : LexerState) :
    (if isMultilineAt quote s.source then { s with source := s.source.drop 2 } else s) =
      { s with source := s.source.drop (openingQuotes quote s.source).length } := by
  obtain ⟨hmultiline, _, hopening, _⟩ | ⟨hmultiline, hopening⟩ := openingQuotes_cases quote s.source
  · rw [hopening, hmultiline]
    rfl
  · rw [hopening, hmultiline]
    rfl

/-- `scanString`, by the body it reads. -/
theorem scanString_eq (quote : UInt8) (s : LexerState) :
    scanString quote s =
      match (stringBody quote s).1 with
      | none => (stringBody quote s).2
      | some value =>
          let s' := { (stringBody quote s).2 with
            source := (stringBody quote s).2.source.drop (if isMultilineAt quote s.source then 3 else 1) }
          s'.addToken .STRING ((quote :: s.source).take ((quote :: s.source).length - s'.source.length))
            (.string value) := by
  have hopened := openString_eq quote s
  rw [isMultilineAt] at hopened
  rw [scanString, stringBody, isMultilineAt]
  dsimp only
  rw [hopened]
  all_goals
    dsimp only
    cases (scanStringBody quote _ _ [] _).1 <;> rfl

theorem scanString_source (quote : UInt8) (s : LexerState) :
    (scanString quote s).source = match (stringBody quote s).1 with
      | none => (stringBody quote s).2.source
      | some _ => (stringBody quote s).2.source.drop
          (if isMultilineAt quote s.source then 3 else 1) := by
  rw [scanString_eq]
  cases (stringBody quote s).1 <;> rfl

theorem miscount_string {quote : UInt8} (hquote : isQuote quote = true) {source text rest : CString}
    (hsource : source = openingQuotes quote source ++ text ++ rest) :
    miscount (quote :: (openingQuotes quote source ++ text)) =
      bodyMiscount (isMultilineAt quote source) 0 text := by
  rw [miscount, if_pos hquote]
  obtain ⟨hmultiline, hdouble, hopening, _⟩ | ⟨hmultiline, hopening⟩ := openingQuotes_cases quote source
  · rw [hopening, hmultiline, hdouble]
    rfl
  · rw [hopening, List.nil_append] at hsource ⊢
    rw [hmultiline, if_neg]
    intro hchunk
    obtain ⟨hdouble, hquotes⟩ := Bool.and_eq_true_iff.mp hchunk
    have hwhole : isMultilineAt quote source = true := by
      rw [isMultilineAt, Bool.and_eq_true]
      refine ⟨hdouble, List.isPrefixOf_iff_prefix.mpr ?_⟩
      rw [hsource]
      exact (List.isPrefixOf_iff_prefix.mp hquotes).trans (List.prefix_append (quote :: text) rest)
    rw [hmultiline] at hwhole
    cases hwhole

theorem scanString_counted {s : LexerState} {quote : UInt8} {rest : CString}
    (hquote : isQuote quote = true) (hsource : s.source = quote :: rest) (line : Nat) :
    Counted s (scanString quote { s with source := rest }) line
      (stringLine quote { s with source := rest } (advanceLine line quote)) := by
  have hopening : newlines (quote :: openingQuotes quote rest) = 0 := by
    obtain ⟨_, hdouble, hopening, _⟩ | ⟨_, hopening⟩ := openingQuotes_cases quote rest
    · rw [hopening, hdouble]
      rfl
    · rw [hopening]
      obtain rfl | rfl := eq_of_isQuote hquote <;> rfl
  have hfront : openingQuotes quote rest ++ rest.drop (openingQuotes quote rest).length = rest := by
    obtain ⟨_, _, hopening, more, hmore⟩ | ⟨_, hopening⟩ := openingQuotes_cases quote rest
    · rw [hopening, hmore]
      rfl
    · rw [hopening]
      rfl
  obtain ⟨text, htext, hline⟩ := stringBody_counted hquote (isMultilineAt quote rest)
    ((rest.drop (openingQuotes quote rest).length).length + 1)
    { s with source := rest.drop (openingQuotes quote rest).length }
    (advanceLines (advanceLine line quote) (openingQuotes quote rest))
  have hafter := scanString_source quote { s with source := rest }
  dsimp only at htext hafter
  have hwhole : rest = openingQuotes quote rest ++ text ++
      (scanString quote { s with source := rest }).source := by
    rw [hafter, List.append_assoc]
    exact hfront.symm.trans (congrArg (openingQuotes quote rest ++ ·) htext)
  refine ⟨quote :: (openingQuotes quote rest ++ text), List.cons_ne_nil _ _, ?_, ?_⟩
  · rw [hsource, List.cons_append, ← hwhole]
  · rw [miscount_string hquote hwhole, ← List.cons_append, newlines_append, hopening, Nat.zero_add]
    have hsame : advanceLines (advanceLine line quote) (openingQuotes quote rest) = line := by
      rw [newlines_cons] at hopening
      rw [advanceLines_eq, advanceLine_eq]
      omega
    rw [stringLine]
    exact hline.trans (by rw [hsame])

/-! ### Calls -/

theorem eq_of_drop_takeWhile {quote close : UInt8} {rest after : CString}
    (hdrop : rest.drop (rest.takeWhile (· != quote)).length = close :: after) : close = quote := by
  induction rest with
  | nil => cases hdrop
  | cons c rest ih =>
      by_cases hc : c = quote
      · rw [List.takeWhile_cons_of_neg (by simp [hc])] at hdrop
        rw [← hc]
        exact (List.cons.inj hdrop).1.symm
      · rw [List.takeWhile_cons_of_pos (by simp [hc])] at hdrop
        exact ih hdrop

theorem scanRawString_source (quote : UInt8) (rest : CString) (s : LexerState) :
    (scanRawString { s with source := quote :: rest }).source =
      (rest.drop (rest.takeWhile (· != quote)).length).drop 1 := by
  rw [scanRawString]
  dsimp only
  cases hdrop : rest.drop (rest.takeWhile (· != quote)).length with
  | nil => rfl
  | cons close after => rfl

theorem scanRawString_counted {s : LexerState} {quote : UInt8} {rest : CString}
    (hquote : isQuote quote = true) (hsource : s.source = byte 'r' :: quote :: rest) (line : Nat) :
    Counted s (scanRawString { s with source := quote :: rest }) line
      (rawStringLine (quote :: rest) (advanceLine line (byte 'r'))) := by
  have hvalue := List.prefix_iff_eq_append.mp (List.takeWhile_prefix (l := rest) (· != quote))
  have hopen : ¬quote = 10 := by
    obtain rfl | rfl := eq_of_isQuote hquote <;> decide
  have hclose : newlines ((rest.drop (rest.takeWhile (· != quote)).length).take 1) = 0 := by
    cases hdrop : rest.drop (rest.takeWhile (· != quote)).length with
    | nil => rfl
    | cons close after =>
        rw [eq_of_drop_takeWhile hdrop]
        exact (newlines_cons quote []).trans (by rw [if_neg hopen]; rfl)
  have hcount : newlines (quote :: (rest.takeWhile (· != quote) ++
      (rest.drop (rest.takeWhile (· != quote)).length).take 1)) =
      newlines (rest.takeWhile (· != quote)) := by
    rw [newlines_cons, if_neg hopen, newlines_append, hclose]
    rfl
  refine ⟨byte 'r' :: quote :: (rest.takeWhile (· != quote) ++
    (rest.drop (rest.takeWhile (· != quote)).length).take 1), List.cons_ne_nil _ _, ?_, ?_⟩
  · rw [hsource, scanRawString_source, List.cons_append, List.cons_append, List.append_assoc,
      List.take_append_drop, hvalue]
  · have hraw : miscount (byte 'r' :: quote :: (rest.takeWhile (· != quote) ++
        (rest.drop (rest.takeWhile (· != quote)).length).take 1)) =
        newlines (rest.takeWhile (· != quote)) := by
      rw [← hcount, miscount, if_neg (by decide), startsRaw, hquote]
      rfl
    rw [hraw, newlines_cons, hcount, rawStringLine, advanceLines_eq, foldl_countAndAdvance, hclose,
      advanceLine_eq, advanceLine_eq, if_neg hopen, if_neg (by decide)]
    push_cast
    omega

/-! ### Calls -/

theorem eq_of_startsRaw {source : CString} (hraw : startsRaw source = true) :
    ∃ quote rest, source = byte 'r' :: quote :: rest ∧ isQuote quote = true := by
  cases source with
  | nil => cases hraw
  | cons c source =>
      cases source with
      | nil => cases hraw
      | cons quote rest =>
          rw [startsRaw, Bool.and_eq_true, beq_iff_eq] at hraw
          exact ⟨quote, rest, by rw [hraw.1], hraw.2⟩

theorem scanToken_quote {host : LexerHost} {s : LexerState} {c : UInt8} {rest : CString}
    (hquote : isQuote c = true) (hsource : s.source = c :: rest) :
    scanToken host s = .ok (scanString c { s with source := rest }) := by
  rw [scanToken, hsource]
  obtain rfl | rfl := eq_of_isQuote hquote <;> rfl

theorem scanToken_raw {host : LexerHost} {s : LexerState} {quote : UInt8} {rest : CString}
    (hquote : isQuote quote = true) (hsource : s.source = byte 'r' :: quote :: rest) :
    scanToken host s = .ok (scanRawString { s with source := quote :: rest }) := by
  rw [scanToken, hsource]
  obtain rfl | rfl := eq_of_isQuote hquote <;> rfl

theorem consumed_append {s s' : LexerState} (hsuffix : s'.source <:+ s.source) :
    consumed s s' ++ s'.source = s.source := by
  rw [consumed]
  exact List.suffix_iff_eq_append.mp hsuffix

variable {stod} {sub : CString → Lexed} {s s' : LexerState}

theorem scanInterpolatedString_consumes (hhead : s.source.head? = some (byte '\x60'))
    (hscan : scanInterpolatedString sub { s with source := s.source.drop 1 } = .ok s') :
    s'.source <:+ s.source ∧ ∃ tokens, s'.tokens = s.tokens ++ tokens := by
  obtain ⟨message, _, rfl⟩ | ⟨parts, rest, tokens, hparts, _, rfl⟩ := scanInterpolatedString_cases hscan
  · exact ⟨List.nil_suffix, [], (List.append_nil _).symm⟩
  · obtain ⟨text, htext, -⟩ := templateParts_ok hparts
    refine ⟨?_, tokens, rfl⟩
    dsimp only at htext
    rw [eq_cons_of_head hhead, htext]
    exact (List.suffix_append text rest).trans (List.suffix_cons _ _)

/-- A call that moves by `advance` alone. -/
theorem counted_of_advance (hne : s.source ≠ []) (hsuffix : s'.source <:+ s.source)
    (hlength : s'.source.length < s.source.length) (hquote : ∀ c ∈ s.source.head?, isQuote c = false)
    (hraw : startsRaw s.source = false) (line : Nat) : Counted s s' line (scanTokenLine s s' line) := by
  have hsource := consumed_append hsuffix
  obtain ⟨c, rest, hcons⟩ := List.exists_cons_of_ne_nil hne
  rw [hcons] at hquote
  have hc := hquote c rfl
  have hconsumed : consumed s s' ≠ [] := by
    intro hnil
    rw [hnil, List.nil_append] at hsource
    rw [hsource] at hlength
    omega
  obtain ⟨d, text, htext⟩ := List.exists_cons_of_ne_nil hconsumed
  rw [htext, hcons, List.cons_append] at hsource
  obtain ⟨rfl, hrest⟩ := List.cons.inj hsource
  refine ⟨consumed s s', hconsumed, (consumed_append hsuffix).symm, ?_⟩
  have hmiscount : miscount (consumed s s') = 0 := by
    have hplain : startsRaw (d :: text) = false := by
      cases text with
      | nil => rfl
      | cons e text =>
          rw [hcons, ← hrest, List.cons_append] at hraw
          exact hraw
    rw [htext, miscount, if_neg (by simp [hc]), if_neg (by simp [hplain])]
  rw [hmiscount, scanTokenLine, hcons]
  dsimp only
  rw [if_neg (by simp [hc]), ← hcons, if_neg (by simp [hraw]), advanceLines_eq]
  push_cast
  omega

/-- Every call moves the counter by the newlines of what it consumes and its miscount. -/
theorem scanTokenWith_counted (hne : s.source ≠ []) (hscan : scanTokenWith stod sub s = .ok s')
    (line : Nat) :
    Counted s s' line (scanTokenLine s s' line) ∧ ∃ tokens, s'.tokens = s.tokens ++ tokens := by
  have hlength := scanTokenWith_length hne hscan
  obtain ⟨c, rest, hsource⟩ := List.exists_cons_of_ne_nil hne
  rw [scanTokenWith] at hscan
  split at hscan
  · rename_i hhead
    obtain ⟨hsuffix, htokens⟩ := scanInterpolatedString_consumes hhead hscan
    refine ⟨counted_of_advance hne hsuffix hlength ?_ ?_ line, htokens⟩
    · intro d hd
      rw [hhead] at hd
      cases hd
      rfl
    · rw [eq_cons_of_head hhead]
      cases s.source.drop 1 <;> rfl
  · rename_i hhead
    have hc : c ≠ byte '\x60' := by
      rintro rfl
      exact hhead (by rw [hsource]; rfl)
    obtain ⟨-, e, herror⟩ | ⟨-, s'', hok, hadvanced⟩ := @scanToken_cases stod s c rest hc hsource
    · rw [herror] at hscan
      cases hscan
    · obtain ⟨chunk, tokens, errors, _, hchunk, htokens, _, _⟩ := hadvanced fun _ => True
      have hsame : s'' = s' := by
        rw [hok] at hscan
        exact Except.ok.inj hscan
      subst hsame
      refine ⟨?_, tokens, htokens⟩
      by_cases hquote : isQuote c = true
      · rw [scanToken_quote hquote hsource] at hok
        cases hok
        rw [scanTokenLine, hsource]
        dsimp only
        rw [if_pos hquote]
        exact scanString_counted hquote hsource line
      · by_cases hraw : startsRaw s.source = true
        · obtain ⟨quote, after, hstart, hquote'⟩ := eq_of_startsRaw hraw
          obtain ⟨rfl, rfl⟩ := List.cons.inj (hsource.symm.trans hstart)
          rw [scanToken_raw hquote' hstart] at hok
          cases hok
          rw [scanTokenLine, hsource]
          dsimp only
          rw [if_neg hquote, ← hsource, if_pos hraw]
          exact scanRawString_counted hquote' hstart line
        · refine counted_of_advance hne ⟨chunk, hchunk.symm⟩ hlength ?_ (Bool.eq_false_iff.mpr hraw) line
          intro d hd
          rw [hsource] at hd
          cases hd
          exact Bool.eq_false_iff.mpr hquote

/-! ### Runs -/

theorem consumed_eq {text : CString} (hsource : s.source = text ++ s'.source) : consumed s s' = text := by
  rw [consumed, hsource, List.length_append, Nat.add_sub_cancel, List.take_left]

theorem isTemplate_append {text : CString} (htext : text ≠ []) (rest : CString) :
    isTemplate (text ++ rest) = isTemplate text := by
  obtain ⟨c, more, rfl⟩ := List.exists_cons_of_ne_nil htext
  rfl

/-- One round of the loop. -/
theorem callsWith_succ {fuel line : Nat} {calls : List Call} (hne : s.source ≠ [])
    (hcalls : callsWith stod sub (fuel + 1) s line = .ok calls) :
    ∃ s' others, scanTokenWith stod sub s = .ok s' ∧
      callsWith stod sub fuel s' (scanTokenLine s s' line) = .ok others ∧
      calls = ⟨consumed s s', s'.tokens.drop s.tokens.length,
        if isTemplate s.source then line else scanTokenLine s s' line⟩ :: others := by
  have hempty : ¬s.source.isEmpty = true := fun h => hne (List.isEmpty_iff.mp h)
  rw [callsWith, if_neg hempty] at hcalls
  cases hscan : scanTokenWith stod sub s with
  | error e =>
      simp only [hscan] at hcalls
      cases hcalls
  | ok s' =>
      simp only [hscan] at hcalls
      cases hrest : callsWith stod sub fuel s' (scanTokenLine s s' line) with
      | error e =>
          simp only [hrest] at hcalls
          cases hcalls
      | ok others =>
          simp only [hrest] at hcalls
          cases hcalls
          exact ⟨s', others, rfl, hrest, rfl⟩

/-- The line of a call's tokens is off by the miscounts of the calls before it, and by its own where it
is no template string. -/
def Offset (line : Nat) (calls : List Call) : Prop :=
  ∀ before call after, calls = before ++ call :: after →
    (call.line : Int) = line + newlines (texts before) + miscounts before +
      if isTemplate call.text then 0 else (newlines call.text + miscount call.text : Int)

theorem offset_last (line : Nat) : Offset line [⟨[], [endOfFile], line⟩] := by
  intro before call after hsplit
  cases before with
  | nil =>
      obtain ⟨rfl, _⟩ := List.cons.inj hsplit
      simp [texts, miscounts, isTemplate, miscount]
  | cons first before =>
      have hlength := congrArg List.length hsplit
      simp at hlength

theorem Offset.cons {line line' : Nat} {call : Call} {others : List Call}
    (hcounted : (line' : Int) = line + newlines call.text + miscount call.text)
    (hline : call.line = if isTemplate call.text then line else line')
    (hothers : Offset line' others) : Offset line (call :: others) := by
  intro before call' after hsplit
  cases before with
  | nil =>
      obtain ⟨rfl, _⟩ := List.cons.inj hsplit
      rw [hline]
      split_ifs
      · simp [texts, miscounts]
      · rw [hcounted]
        simp [texts, miscounts, add_assoc]
  | cons first before =>
      obtain ⟨rfl, hsplit'⟩ := List.cons.inj hsplit
      rw [hothers before call' after hsplit', hcounted]
      have htexts : newlines (texts (call :: before)) = newlines call.text + newlines (texts before) := by
        rw [texts, List.map_cons, List.flatten_cons, newlines_append]
        rfl
      have hmiscounts : miscounts (call :: before) = miscount call.text + miscounts before := by
        rw [miscounts, List.map_cons, List.sum_cons]
        rfl
      rw [htexts, hmiscounts]
      push_cast
      ring

theorem callsWith_offset (fuel : Nat) (s : LexerState) (line : Nat) {calls : List Call}
    (hcalls : callsWith stod sub fuel s line = .ok calls) : Offset line calls := by
  induction fuel generalizing s line calls with
  | zero =>
      cases hcalls
      exact offset_last line
  | succ fuel ih =>
      by_cases hne : s.source = []
      · rw [callsWith, hne] at hcalls
        cases hcalls
        exact offset_last line
      · obtain ⟨s', others, hscan, hrest, rfl⟩ := callsWith_succ hne hcalls
        obtain ⟨⟨text, htext, hsource, hcounted⟩, _⟩ := scanTokenWith_counted hne hscan line
        have htemplate : isTemplate s.source = isTemplate text := by
          rw [hsource, isTemplate_append htext]
        rw [htemplate, consumed_eq hsource]
        exact Offset.cons hcounted rfl (ih s' _ hrest)

/-- The calls consume the source. -/
theorem texts_callsWith (fuel : Nat) (s : LexerState) (line : Nat) {calls : List Call}
    (hfuel : s.source.length ≤ fuel) (hcalls : callsWith stod sub fuel s line = .ok calls) :
    texts calls = s.source := by
  induction fuel generalizing s line calls with
  | zero =>
      cases hcalls
      exact (List.eq_nil_of_length_eq_zero (Nat.le_zero.mp hfuel)).symm
  | succ fuel ih =>
      by_cases hne : s.source = []
      · rw [callsWith, hne] at hcalls
        cases hcalls
        exact hne.symm
      · obtain ⟨s', others, hscan, hrest, rfl⟩ := callsWith_succ hne hcalls
        obtain ⟨⟨text, htext, hsource, _⟩, _⟩ := scanTokenWith_counted hne hscan line
        have hlength := scanTokenWith_length hne hscan
        have hothers := ih s' _ (by omega) hrest
        rw [texts] at hothers
        rw [texts, List.map_cons, List.flatten_cons, hothers, consumed_eq hsource, hsource]

/-- The calls add the tokens of the loop. -/
theorem tokens_callsWith (fuel : Nat) (s : LexerState) (line : Nat) {calls : List Call}
    (hcalls : callsWith stod sub fuel s line = .ok calls) :
    ∃ final, scanTokensWith stod sub fuel s = .ok final ∧
      s.tokens ++ (calls.map Call.tokens).flatten = final.tokens ++ [endOfFile] := by
  induction fuel generalizing s line calls with
  | zero =>
      cases hcalls
      exact ⟨s, rfl, by simp⟩
  | succ fuel ih =>
      by_cases hne : s.source = []
      · rw [callsWith, hne] at hcalls
        cases hcalls
        exact ⟨s, by rw [scanTokensWith, hne]; rfl, by simp⟩
      · obtain ⟨s', others, hscan, hrest, rfl⟩ := callsWith_succ hne hcalls
        obtain ⟨_, tokens, htokens⟩ := scanTokenWith_counted hne hscan line
        obtain ⟨final, hfinal, hsame⟩ := ih s' _ hrest
        have hempty : ¬s.source.isEmpty = true := fun h => hne (List.isEmpty_iff.mp h)
        refine ⟨final, ?_, ?_⟩
        · rw [scanTokensWith, if_neg hempty, hscan]
          exact hfinal
        · rw [← hsame, List.map_cons, List.flatten_cons, htokens, List.drop_left, List.append_assoc]

/-- The calls of `tokenize` consume the source and add its tokens. -/
theorem tokenizeCalls_spec (source : CString) {calls : List Call}
    (hcalls : tokenizeCalls stod source = .ok calls) :
    texts calls = source ∧
    ∃ errors, tokenizeAll stod source = .ok ((calls.map Call.tokens).flatten, errors) := by
  rw [tokenizeCalls] at hcalls
  refine ⟨texts_callsWith source.length { source } 1 le_rfl hcalls, ?_⟩
  obtain ⟨final, hfinal, htokens⟩ := tokens_callsWith _ _ _ hcalls
  rw [List.nil_append] at htokens
  rw [tokenizeAll_eq, tokenizeWith, hfinal, htokens]
  exact ⟨final.errors, rfl⟩

/-! ### The condition -/

/-- Every text part of a template string has an end. -/
theorem length_partEnds {parts out : List Part} {currentText source rest : CString}
    (hparts : templateParts parts currentText source = .ok (out, rest)) (front : CString) :
    (out.filter fun part => !part.isExpr).length =
      (parts.filter fun part => !part.isExpr).length + (partEnds front source).length := by
  fun_induction templateParts parts currentText source generalizing front with
  | case1 => cases hparts
  | case2 =>
      cases hparts
      rw [partEnds.eq_def]
      simp
  | case3 => cases hparts
  | case4 =>
      rename_i hquote ih
      rw [ih hparts, partEnds, if_neg hquote, if_pos rfl]
  | case5 => cases hparts
  | case6 =>
      rename_i exprText after hscan hquote hescape ih
      rw [ih hparts (front ++ byte '\x7b' :: exprText ++ [byte '\x7d']), partEnds.eq_def front]
      simp only [if_neg hquote, if_neg hescape, if_true]
      split
      · rename_i hnone
        rw [hscan] at hnone
        cases hnone
      · rename_i hsome
        rw [hscan] at hsome
        cases hsome
        rw [pushExpr]
        split_ifs <;> simp <;> omega
  | case7 =>
      rename_i hquote hescape hopen ih
      rw [partEnds.eq_def front]
      simp only [if_neg hquote, if_neg hescape, if_neg hopen]
      exact ih hparts _

theorem linesRight_iff_balanced {source : CString} {calls : List Call}
    (hcalls : tokenizeCalls stod source = .ok calls) : LinesRight calls ↔ Balanced calls := by
  have hoffset := callsWith_offset _ _ _ hcalls
  have hsame : ∀ call : Call, ¬isTemplate call.text = true → call.stops = [call.text] := by
    intro call hplain
    rw [Call.stops, if_neg (by simp [hplain])]
  rw [LinesRight, Balanced]
  constructor
  · intro hright before call after hsplit htokens stop hstop
    have hline := hright before call after hsplit htokens stop hstop
    have hcount := hoffset before call after hsplit
    rw [newlines_append] at hline
    split_ifs at hcount ⊢ with htemplate
    · omega
    · rw [hsame call htemplate, List.mem_singleton] at hstop
      rw [hstop] at hline
      omega
  · intro hbalanced before call after hsplit htokens stop hstop
    have hline := hbalanced before call after hsplit htokens stop hstop
    have hcount := hoffset before call after hsplit
    rw [newlines_append]
    split_ifs at hcount hline with htemplate
    · omega
    · rw [hsame call htemplate, List.mem_singleton] at hstop
      rw [hstop]
      omega

/-- The calls of `tokenize` consume the source and add its tokens, and these carry their lines exactly
where the newlines counted twice and those skipped are balanced at each of them. -/
theorem lines_right_iff (stod : CString → Option UInt64) (source : CString) :
    (∀ calls, tokenizeCalls stod source = .ok calls → texts calls = source ∧
      ∃ errors, tokenizeAll stod source = .ok ((calls.map Call.tokens).flatten, errors)) ∧
    ((∀ calls, tokenizeCalls stod source = .ok calls → LinesRight calls) ↔
      ∀ calls, tokenizeCalls stod source = .ok calls → Balanced calls) := by
  refine ⟨fun calls hcalls => tokenizeCalls_spec source hcalls, ?_⟩
  constructor
  · intro hright calls hcalls
    exact (linesRight_iff_balanced hcalls).mp (hright calls hcalls)
  · intro hbalanced calls hcalls
    exact (linesRight_iff_balanced hcalls).mpr (hbalanced calls hcalls)

/-- A raw string with a newline. -/
def rawNewline : CString := [byte 'r', byte '\x22', 10, byte '\x22']

/-- The token of the raw string and END_OF_FILE carry line 3 instead of 2. -/
theorem lines_not_right : ¬∀ calls, tokenizeCalls (fun _ => none) rawNewline = .ok calls →
    LinesRight calls := by
  intro hright
  have hcalls : tokenizeCalls (fun _ => none) rawNewline = .ok
      [⟨rawNewline, [⟨.STRING, [byte '\x22', 10, byte '\x22'], .string [10]⟩], 3⟩,
        ⟨[], [endOfFile], 3⟩] := by
    rfl
  have hline := hright _ hcalls [] _ _ rfl (List.cons_ne_nil _ _) rawNewline List.mem_cons_self
  revert hline
  decide

end Lexer

end EZLanguage
