import Mathlib.Algebra.GroupWithZero.Nat
import Mathlib.Algebra.Group.Int.Defs
import EZLanguage.Lexer.Lexer
import Mathlib.Data.List.TakeWhile
import Mathlib.Logic.Relation

/-!
# Every source is read to its end

The lexer with its template strings, which are cut into parts and whose interpolations go through
lexers of their own. Every token takes a character, and every character goes into a token or is
reported, as long as `std::stod` takes every numeral and no interpolation has an error: the lexer of an
interpolation reports to itself.
-/

namespace EZLanguage

namespace Lexer

/-! ### Template strings -/

/-- A part of a template string. -/
structure Part where
  isExpr : Bool
  text : CString

def prependExpr (text : CString) (out : Option (CString × CString)) : Option (CString × CString) :=
  out.map fun out => (text ++ out.1, out.2)

/-- The text of an interpolation up to the brace that closes it, and the source after that, none where
it is not closed. `quote` is that of the string the text is in. -/
def scanExprText : Nat → Option UInt8 → CString → Option (CString × CString)
  | _, _, [] => none
  | braceDepth, some quote, inStr :: rest =>
      if inStr = byte '\x5c' then
        match rest with
        | [] => none
        | escaped :: rest =>
            prependExpr [inStr, escaped] (scanExprText braceDepth (some quote) rest)
      else
        prependExpr [inStr] (scanExprText braceDepth (if inStr = quote then none else some quote) rest)
  | braceDepth, none, p :: rest =>
      if p = byte '\x22' ∨ p = byte '\x27' then
        prependExpr [p] (scanExprText braceDepth (some p) rest)
      else if p = byte '\x7b' then prependExpr [p] (scanExprText (braceDepth + 1) none rest)
      else if p = byte '\x7d' then
        if braceDepth = 1 then some ([], rest)
        else prependExpr [p] (scanExprText (braceDepth - 1) none rest)
      else prependExpr [p] (scanExprText braceDepth none rest)

theorem prependExpr_some {text exprText rest : CString} {out : Option (CString × CString)}
    (hout : prependExpr text out = some (exprText, rest)) :
    ∃ inner, out = some (inner, rest) ∧ exprText = text ++ inner := by
  rw [prependExpr, Option.map_eq_some_iff] at hout
  obtain ⟨⟨inner, after⟩, hinner, hpair⟩ := hout
  obtain ⟨rfl, rfl⟩ := Prod.mk.inj hpair
  exact ⟨inner, hinner, rfl⟩

/-- The text is followed by its brace, and what comes after does not matter. -/
def ReadsText (scan : CString → Option (CString × CString)) (source exprText rest : CString) : Prop :=
  source = exprText ++ byte '\x7d' :: rest ∧
    ∀ rest', scan (exprText ++ byte '\x7d' :: rest') = some (exprText, rest')

theorem ReadsText.prepend {scan scan' : CString → Option (CString × CString)}
    {text source whole inner rest : CString} (hreads : ReadsText scan source inner rest)
    (hwhole : text ++ source = whole)
    (hscan : ∀ more, scan' (text ++ more) = prependExpr text (scan more)) :
    ReadsText scan' whole (text ++ inner) rest := by
  obtain ⟨hsource, hagain⟩ := hreads
  constructor
  · rw [← hwhole, hsource, List.append_assoc]
  · intro rest'
    rw [List.append_assoc, hscan, hagain]
    rfl

theorem scanExprText_some {braceDepth : Nat} {quote : Option UInt8} {source exprText rest : CString}
    (hscan : scanExprText braceDepth quote source = some (exprText, rest)) :
    ReadsText (scanExprText braceDepth quote) source exprText rest := by
  fun_induction scanExprText braceDepth quote source generalizing exprText rest with
  | case1 => cases hscan
  | case2 => cases hscan
  | case3 =>
      rename_i ih
      obtain ⟨inner, hinner, rfl⟩ := prependExpr_some hscan
      refine (ih hinner).prepend rfl fun more => ?_
      simp only [List.cons_append, List.nil_append, scanExprText, if_true]
  | case4 =>
      rename_i hescape ih
      obtain ⟨inner, hinner, rfl⟩ := prependExpr_some hscan
      refine (ih hinner).prepend rfl fun more => ?_
      rw [List.singleton_append, scanExprText.eq_def]
      simp only [if_neg hescape]
  | case5 =>
      rename_i hquote ih
      obtain ⟨inner, hinner, rfl⟩ := prependExpr_some hscan
      refine (ih hinner).prepend rfl fun more => ?_
      simp only [List.cons_append, List.nil_append, scanExprText, if_pos hquote]
  | case6 =>
      rename_i hquote ih
      obtain ⟨inner, hinner, rfl⟩ := prependExpr_some hscan
      refine (ih hinner).prepend rfl fun more => ?_
      simp only [List.cons_append, List.nil_append, scanExprText, if_neg hquote, if_true]
  | case7 =>
      rename_i hquote hopen
      cases hscan
      refine ⟨rfl, fun rest' => ?_⟩
      simp only [List.nil_append, scanExprText, if_neg hquote, if_neg hopen, if_true]
  | case8 =>
      rename_i hdepth hquote hopen ih
      obtain ⟨inner, hinner, rfl⟩ := prependExpr_some hscan
      refine (ih hinner).prepend rfl fun more => ?_
      simp only [List.cons_append, List.nil_append, scanExprText, if_neg hquote, if_neg hopen,
        if_neg hdepth, if_true]
  | case9 =>
      rename_i hquote hopen hclose ih
      obtain ⟨inner, hinner, rfl⟩ := prependExpr_some hscan
      refine (ih hinner).prepend rfl fun more => ?_
      simp only [List.cons_append, List.nil_append, scanExprText, if_neg hquote, if_neg hopen,
        if_neg hclose]

/-- The character after a backslash of a template string. -/
def templateEscape (escaped : UInt8) : UInt8 :=
  if escaped = byte 'n' then 10
  else if escaped = byte 't' then 9
  else if escaped = byte 'r' then 13
  else escaped

def unterminatedTemplate : String :=
  "Unterminated template string -- no closing '\x60' found before end of file"

def unterminatedInterpolation : String :=
  "Unterminated interpolation in template string -- no closing '\x7d' found before end of file"

/-- An interpolation without text is no part. -/
def pushExpr (parts : List Part) (exprText : CString) : List Part :=
  if exprText = [] then parts else parts ++ [⟨true, exprText⟩]

/-- The parts of a template string and the source after it, or the message where it is not closed. -/
def templateParts (parts : List Part) (currentText : CString) (source : CString) :
    Except String (List Part × CString) :=
  match source with
  | [] => .error unterminatedTemplate
  | c :: rest =>
      if c = byte '\x60' then .ok (parts ++ [⟨false, currentText⟩], rest)
      else if c = byte '\x5c' then
        match rest with
        | [] => .error unterminatedTemplate
        | escaped :: rest => templateParts parts (currentText ++ [templateEscape escaped]) rest
      else if c = byte '\x7b' then
        match hscan : scanExprText 1 none rest with
        | none => .error unterminatedInterpolation
        | some (exprText, after) =>
            templateParts (pushExpr (parts ++ [⟨false, currentText⟩]) exprText) [] after
      else templateParts parts (currentText ++ [c]) rest
termination_by source.length
decreasing_by
  · simp only [List.length_cons]
    omega
  · have hlength := congrArg List.length (scanExprText_some hscan).1
    simp only [List.length_append, List.length_cons] at hlength ⊢
    omega
  · exact Nat.lt_succ_self _

/-- What a lexer makes of a text. -/
abbrev Lexed := Except String (List Token × List String)

variable (stod : CString → Option UInt64)

def symbol (type : TokenType) (text : String) : Token := { type, lexeme := lit text }

/-- The tokens of the text of an interpolation that are taken over. -/
def isTaken (t : Token) : Bool := t.type != .END_OF_FILE && t.type != .NEWLINE

def partTokens (sub : CString → Lexed) (part : Part) : Except String (List Token) :=
  if part.isExpr then
    match sub part.text with
    | .ok (subTokens, _) =>
        .ok (symbol .IDENTIFIER "str" :: symbol .LPAREN "(" :: subTokens.filter isTaken ++
          [symbol .RPAREN ")"])
    | .error exception => .error exception
  else
    .ok [{ type := .STRING, lexeme := byte '\x22' :: part.text ++ [byte '\x22'],
           literal := .string part.text }]

/-- The tokens of the parts, with a plus between two of them. -/
def joinParts (sub : CString → Lexed) (first : Bool) : List Part → Except String (List Token)
  | [] => .ok []
  | part :: parts =>
      match partTokens sub part with
      | .error exception => .error exception
      | .ok tokens =>
          match joinParts sub false parts with
          | .error exception => .error exception
          | .ok others => .ok ((if first then [] else [symbol .PLUS "+"]) ++ tokens ++ others)

def templateTokens (sub : CString → Lexed) (parts : List Part) : Except String (List Token) :=
  if parts.any Part.isExpr then
    match joinParts sub true parts with
    | .error exception => .error exception
    | .ok tokens => .ok (symbol .LPAREN "(" :: tokens ++ [symbol .RPAREN ")"])
  else
    let fullText := (parts.map Part.text).flatten
    .ok [{ type := .STRING, lexeme := byte '\x60' :: fullText ++ [byte '\x60'],
           literal := .string fullText }]

def scanInterpolatedString (sub : CString → Lexed) (s : LexerState) : Except String LexerState :=
  match templateParts [] [] s.source with
  | .error message => .ok ({ s with source := [] }.error message)
  | .ok (parts, rest) =>
      match templateTokens sub parts with
      | .error exception => .error exception
      | .ok tokens => .ok { s with source := rest, tokens := s.tokens ++ tokens }

/-- A host that never sees a template string. -/
def plainHost : LexerHost := { stod, scanInterpolatedString := id }

/-- `scanToken`, with `sub` for the lexers of interpolations. -/
def scanTokenWith (sub : CString → Lexed) (s : LexerState) : Except String LexerState :=
  if s.source.head? = some (byte '\x60') then
    scanInterpolatedString sub { s with source := s.source.drop 1 }
  else scanToken (plainHost stod) s

/-- The loop of `tokenize`. Every token takes a character, so that the length of the source is fuel
enough. -/
def scanTokensWith (sub : CString → Lexed) : Nat → LexerState → Except String LexerState
  | 0, s => .ok s
  | fuel + 1, s =>
      if s.source.isEmpty then .ok s
      else
        match scanTokenWith stod sub s with
        | .ok s => scanTokensWith sub fuel s
        | .error exception => .error exception

def tokenizeWith (sub : CString → Lexed) (source : CString) : Lexed :=
  match scanTokensWith stod sub source.length { source } with
  | .ok s => .ok (s.tokens ++ [endOfFile], s.errors)
  | .error exception => .error exception

/-- Lexers inside lexers, to a depth. -/
def tokenizeNested : Nat → CString → Lexed
  | 0, _ => .ok ([endOfFile], [])
  | depth + 1, source => tokenizeWith stod (tokenizeNested depth) source

/-- `tokenize` of a new lexer. The text of an interpolation is shorter than the source, so that its
length is depth enough. -/
def tokenizeAll (source : CString) : Lexed := tokenizeNested stod (source.length + 1) source

/-! ### What a source should come to -/

/-- A call of `scanToken` in the loop. -/
def Step (s s' : LexerState) : Prop :=
  s.source ≠ [] ∧ scanTokenWith stod (tokenizeAll stod) s = .ok s'

def Reached (source : CString) : LexerState → Prop :=
  Relation.ReflTransGen (Step stod) { source }

/-- Whitespace, a newline that is suppressed, or a comment. -/
inductive Blank : CString → Prop
  | space {c : UInt8} (hc : c ∈ [byte ' ', byte '\r', byte '\t']) : Blank [c]
  | newline : Blank [10]
  | hash {text : CString} (htext : 10 ∉ text) : Blank (byte '#' :: text)
  | line {text : CString} (htext : 10 ∉ text) : Blank (byte '/' :: byte '/' :: text)
  | block {text : CString} (htext : afterBlockComment 1 text = some []) :
      Blank (byte '/' :: byte '*' :: text)

/-- What becomes of the characters that a call consumes: they are reported, they are one token, a raw
string after its `r`, blank, or a template string whose interpolations are settled. -/
inductive Accounted (settled : CString → Prop) : CString → List Token → List String → Prop
  | reported {chunk : CString} {tokens : List Token} {errors : List String} (herrors : errors ≠ []) :
      Accounted settled chunk tokens errors
  | token {t : Token} (ht : t.lexeme.head? ≠ some (byte '\x60')) : Accounted settled t.lexeme [t] []
  | rawString {t : Token} (ht : t.type = .STRING) : Accounted settled (byte 'r' :: t.lexeme) [t] []
  | blank {chunk : CString} (hchunk : Blank chunk) : Accounted settled chunk [] []
  | template {text : CString} {parts : List Part} {tokens : List Token}
      (hparts : templateParts [] [] text = .ok (parts, []))
      (htokens : templateTokens (tokenizeAll stod) parts = .ok tokens)
      (hsettled : ∀ part ∈ parts, part.isExpr = true → settled part.text) :
      Accounted settled (byte '\x60' :: text) tokens []

/-- A call consumes characters and accounts for them. -/
def Advanced (settled : CString → Prop) (s s' : LexerState) : Prop :=
  ∃ chunk tokens errors, chunk ≠ [] ∧ s.source = chunk ++ s'.source ∧
    s'.tokens = s.tokens ++ tokens ∧ s'.errors = s.errors ++ errors ∧
    Accounted stod settled chunk tokens errors

/-- The loop comes to the end of the source, and `tokenize` returns with END_OF_FILE last. -/
def Ended (source : CString) : Prop :=
  ∃ final, Reached stod source final ∧ final.source = [] ∧
    tokenizeAll stod source = .ok (final.tokens ++ [endOfFile], final.errors)

/-- No error is reported in a text. -/
def Unreported (source : CString) : Prop := ∀ s, Reached stod source s → s.hadError = false

/-- `tokenize` ends without an exception, and every call of `scanToken` accounts for what it consumes.
An interpolation is settled where the same holds of its text and its lexer reports nothing, as what
that lexer reports is not an error of this one. -/
def Total (source : CString) : Prop :=
  Ended stod source ∧ ∀ s s', Reached stod source s → Step stod s s' →
    Advanced stod (fun text => ∃ _ : text.length < source.length, Total text ∧ Unreported stod text) s s'
termination_by source.length

/-! ### The condition -/

/-- Whether a digit and what follows begin a hexadecimal or a binary number. -/
def isBased (c : UInt8) (rest : CString) : Bool :=
  c == byte '0' && [lit "x", lit "X", lit "b", lit "B"].contains (rest.take 1)

/-- What `std::stoll` and `std::stod` make of the decimal number that begins with a digit. -/
def numberLiteral (c : UInt8) (rest : CString) : Option Literal :=
  let whole := rest.takeWhile isDigit
  let fraction := scanFraction (rest.drop whole.length)
  let exponent := (scanExponent (rest.drop (whole.length + fraction.length))).1
  let text := c :: whole ++ fraction ++ exponent
  if fraction.isEmpty && exponent.isEmpty then decimalLiteral (plainHost stod) text
  else (stod text).map .double

/-- A decimal number at the front is not out of range. -/
def InRange : CString → Prop
  | [] => True
  | c :: rest => isDigit c = true → isBased c rest = false → numberLiteral stod c rest ≠ none

/-- Wherever a token begins, a decimal number is in range, and the texts of the interpolations of a
template string are readable and have no error. -/
def Readable (source : CString) : Prop :=
  ∀ s, Reached stod source s → InRange stod s.source ∧
    ∀ text parts rest, s.source = byte '\x60' :: text → templateParts [] [] text = .ok (parts, rest) →
      ∀ part ∈ parts, part.isExpr = true →
        ∃ _ : part.text.length < source.length, Readable part.text ∧ Unreported stod part.text
termination_by source.length

/-! ### Template strings take characters from the front -/

theorem templateParts_ok {parts out : List Part} {currentText source rest : CString}
    (hparts : templateParts parts currentText source = .ok (out, rest)) :
    ∃ text, source = text ++ rest ∧
      ∀ rest', templateParts parts currentText (text ++ rest') = .ok (out, rest') := by
  fun_induction templateParts parts currentText source with
  | case1 => cases hparts
  | case2 =>
      cases hparts
      refine ⟨[byte '\x60'], rfl, fun rest' => ?_⟩
      rw [List.singleton_append, templateParts.eq_def]
      simp only [if_true]
  | case3 => cases hparts
  | case4 =>
      rename_i hquote ih
      obtain ⟨text, rfl, hagain⟩ := ih hparts
      refine ⟨_ :: _ :: text, rfl, fun rest' => ?_⟩
      rw [List.cons_append, List.cons_append, templateParts, if_neg hquote, if_pos rfl]
      exact hagain rest'
  | case5 => cases hparts
  | case6 =>
      rename_i exprText after hscan hquote hescape ih
      obtain ⟨text, rfl, hagain⟩ := ih hparts
      obtain ⟨rfl, hscan'⟩ := scanExprText_some hscan
      refine ⟨byte '\x7b' :: (exprText ++ byte '\x7d' :: text), by simp, fun rest' => ?_⟩
      have hinner := hscan' (text ++ rest')
      rw [List.cons_append, List.append_assoc, List.cons_append, templateParts.eq_def]
      simp only [if_neg hquote, if_neg hescape, if_true]
      split
      · rename_i hnone
        rw [hinner] at hnone
        cases hnone
      · rename_i hsome
        rw [hinner] at hsome
        cases hsome
        exact hagain rest'
  | case7 =>
      rename_i hquote hescape hopen ih
      obtain ⟨text, rfl, hagain⟩ := ih hparts
      refine ⟨_ :: text, rfl, fun rest' => ?_⟩
      rw [List.cons_append, templateParts.eq_def]
      simp only [if_neg hquote, if_neg hescape, if_neg hopen]
      exact hagain rest'

theorem length_of_templateParts {parts out : List Part} {currentText source rest : CString}
    (hparts : templateParts parts currentText source = .ok (out, rest)) :
    ∀ part ∈ out, part.isExpr = true → part ∈ parts ∨ part.text.length < source.length := by
  fun_induction templateParts parts currentText source with
  | case1 => cases hparts
  | case2 =>
      cases hparts
      intro part hpart hexpr
      obtain hpart | hpart := List.mem_append.mp hpart
      · exact .inl hpart
      · rw [List.mem_singleton.mp hpart] at hexpr
        cases hexpr
  | case3 => cases hparts
  | case4 =>
      rename_i ih
      intro part hpart hexpr
      obtain hold | hlength := ih hparts part hpart hexpr
      · exact .inl hold
      · simp only [List.length_cons]
        omega
  | case5 => cases hparts
  | case6 =>
      rename_i exprText after hscan _ _ ih
      have hlength := congrArg List.length (scanExprText_some hscan).1
      simp only [List.length_append, List.length_cons] at hlength ⊢
      intro part hpart hexpr
      obtain hold | hnew := ih hparts part hpart hexpr
      · rw [pushExpr] at hold
        split at hold
        · obtain hold | hold := List.mem_append.mp hold
          · exact .inl hold
          · rw [List.mem_singleton.mp hold] at hexpr
            cases hexpr
        · obtain hold | hold := List.mem_append.mp hold
          · obtain hold | hold := List.mem_append.mp hold
            · exact .inl hold
            · rw [List.mem_singleton.mp hold] at hexpr
              cases hexpr
          · rw [List.mem_singleton.mp hold]
            right
            show exprText.length < _
            omega
      · omega
  | case7 =>
      rename_i ih
      intro part hpart hexpr
      obtain hold | hlength := ih hparts part hpart hexpr
      · exact .inl hold
      · simp only [List.length_cons]
        omega

/-! ### What one call consumes -/

variable {stod} {settled : CString → Prop} {s s' : LexerState}

theorem advanced_of_error (tokens : List Token) (errors : List String)
    (hsource : s'.source <:+ s.source) (hlength : s'.source.length < s.source.length)
    (htokens : s'.tokens = s.tokens ++ tokens) (herrors : s'.errors = s.errors ++ errors)
    (hne : errors ≠ []) : Advanced stod settled s s' := by
  obtain ⟨chunk, hchunk⟩ := hsource
  refine ⟨chunk, tokens, errors, ?_, hchunk.symm, htokens, herrors, .reported hne⟩
  rintro rfl
  rw [← hchunk, List.nil_append] at hlength
  omega

/-- A call that adds a token with the text it consumed, and reports something or nothing. -/
theorem advanced_of_token (t : Token) (errors : List String) (hsource : s.source = t.lexeme ++ s'.source)
    (hne : t.lexeme ≠ []) (hhead : t.lexeme.head? ≠ some (byte '\x60'))
    (htokens : s'.tokens = s.tokens ++ [t]) (herrors : s'.errors = s.errors ++ errors) :
    Advanced stod settled s s' := by
  refine ⟨t.lexeme, [t], errors, hne, hsource, htokens, herrors, ?_⟩
  by_cases hnone : errors = []
  · rw [hnone]
    exact .token hhead
  · exact .reported hnone

theorem advanced_of_blank (chunk : CString) (hsource : s.source = chunk ++ s'.source)
    (hchunk : Blank chunk) (htokens : s'.tokens = s.tokens) (herrors : s'.errors = s.errors) :
    Advanced stod settled s s' := by
  refine ⟨chunk, [], [], ?_, hsource, ?_, ?_, .blank hchunk⟩
  · cases hchunk <;> simp
  · rw [htokens, List.append_nil]
  · rw [herrors, List.append_nil]

theorem scanBased_advanced {c mark : UInt8} {rest : CString} {base : Nat} {isBaseDigit : UInt8 → Bool}
    {missing tooLarge : String} (hc : c ≠ byte '\x60') (hsource : s.source = c :: mark :: rest) :
    Advanced stod settled s
      (scanBased [c, mark] base isBaseDigit missing tooLarge { s with source := rest }) := by
  have hdrop : rest.takeWhile isBaseDigit ++ rest.drop (rest.takeWhile isBaseDigit).length = rest :=
    List.prefix_iff_eq_append.mp (List.takeWhile_prefix isBaseDigit)
  have hsuffix : rest.drop (rest.takeWhile isBaseDigit).length <:+ s.source := by
    rw [hsource]
    exact (List.drop_suffix _ _).trans (List.suffix_append [c, mark] rest)
  have hlength : (rest.drop (rest.takeWhile isBaseDigit).length).length < s.source.length := by
    rw [hsource, List.length_drop, List.length_cons, List.length_cons]
    omega
  rw [scanBased]
  dsimp only
  split
  · exact advanced_of_error [] [missing] hsuffix hlength
      (List.append_nil _).symm rfl (by simp)
  · split
    · refine advanced_of_token ⟨.NUMBER, [c, mark] ++ rest.takeWhile isBaseDigit,
        .int (Int64.ofNat (numeralValue base (rest.takeWhile isBaseDigit)))⟩ [] ?_ ?_ ?_ rfl
        (List.append_nil _).symm
      · rw [hsource, List.append_assoc]
        exact congrArg ([c, mark] ++ ·) hdrop.symm
      · simp
      · simpa using hc
    · exact advanced_of_error [] [tooLarge] hsuffix hlength
        (List.append_nil _).symm rfl (by simp)

/-! ### Numbers -/

theorem prefix_append_of_drop {front next source : CString} (hfront : front <+: source)
    (hnext : next <+: source.drop front.length) : front ++ next <+: source := by
  rw [← List.prefix_iff_eq_append.mp hfront]
  exact (List.prefix_append_right_inj front).mpr hnext

theorem scanFraction_front (source : CString) : scanFraction source <+: source := by
  unfold scanFraction
  split
  · split
    · exact (List.prefix_cons_inj _).mpr (List.takeWhile_prefix isDigit)
    · exact List.nil_prefix
  · exact List.nil_prefix

theorem scanExponent_front (source : CString) : (scanExponent source).1 <+: source := by
  unfold scanExponent
  split
  · exact List.nil_prefix
  · split
    · simp only [List.cons_append, List.prefix_cons_inj]
      exact prefix_append_of_drop ((List.takeWhile_prefix _).trans (List.take_prefix 1 _))
        (List.takeWhile_prefix isDigit)
    · exact List.nil_prefix

theorem scanNumber_cases {c : UInt8} {rest : CString} (hc : c ≠ byte '\x60')
    (hsource : s.source = c :: rest) :
    (numberLiteral stod c rest = none ∧
        ∃ e, scanNumber (plainHost stod) c { s with source := rest } = .error e) ∨
      numberLiteral stod c rest ≠ none ∧
        ∃ s', scanNumber (plainHost stod) c { s with source := rest } = .ok s' ∧
          ∀ settled, Advanced stod settled s s' := by
  have hwhole : rest.takeWhile isDigit <+: rest := List.takeWhile_prefix isDigit
  generalize hw : rest.takeWhile isDigit = whole at hwhole
  have hfraction := prefix_append_of_drop hwhole (scanFraction_front (rest.drop whole.length))
  generalize hf : scanFraction (rest.drop whole.length) = fraction at hfraction
  have hexponent := scanExponent_front (rest.drop (whole.length + fraction.length))
  rw [← List.length_append] at hexponent
  have htext := prefix_append_of_drop hfraction hexponent
  rw [List.length_append] at htext
  generalize he : scanExponent (rest.drop (whole.length + fraction.length)) = scanned at htext
  obtain ⟨exponent, missing⟩ := scanned
  have hnumber : numberLiteral stod c rest =
      if fraction.isEmpty && exponent.isEmpty then
        decimalLiteral (plainHost stod) (c :: whole ++ fraction ++ exponent)
      else (stod (c :: whole ++ fraction ++ exponent)).map .double := by
    simp only [numberLiteral, hw, hf, he]
  have hrest := List.prefix_iff_eq_append.mp htext
  rw [hnumber]
  simp only [scanNumber, hw, hf, he]
  have hstod : (plainHost stod).stod = stod := rfl
  rw [hstod]
  generalize (if (fraction.isEmpty && exponent.isEmpty) = true then
    decimalLiteral (plainHost stod) (c :: whole ++ fraction ++ exponent)
    else (stod (c :: whole ++ fraction ++ exponent)).map Literal.double) = literal
  cases literal with
  | none => exact .inl ⟨rfl, _, rfl⟩
  | some literal =>
      right
      refine ⟨by simp, _, rfl, fun settled => ?_⟩
      refine advanced_of_token ⟨.NUMBER, c :: whole ++ fraction ++ exponent, literal⟩
        (if missing then ["Expected digits after exponent"] else []) ?_ ?_ ?_ ?_ ?_
      · rw [hsource, List.cons_append, List.cons_append]
        have hafter : (c :: (whole ++ fraction ++ exponent)) ++
            rest.drop (whole ++ fraction ++ exponent).length = c :: rest := by
          rw [List.cons_append, hrest]
        rw [List.length_append, List.length_append] at hafter
        cases missing <;> exact hafter.symm
      · simp
      · simpa using hc
      · cases missing <;> rfl
      · cases missing <;> simp [LexerState.error, LexerState.addToken]

/-! ### Strings -/

/-- Characters are consumed and errors reported, and there is no new token. -/
structure Consumed (s s' : LexerState) (errors : List String) : Prop where
  source : s'.source <:+ s.source
  tokens : s'.tokens = s.tokens
  errors : s'.errors = s.errors ++ errors

theorem Consumed.of_drop (s : LexerState) (n : Nat) :
    Consumed s { s with source := s.source.drop n } [] :=
  ⟨List.drop_suffix n s.source, rfl, (List.append_nil _).symm⟩

theorem Consumed.error {errors : List String} (hconsumed : Consumed s s' errors) (message : String) :
    Consumed s (s'.error message) (errors ++ [message]) := by
  refine ⟨hconsumed.source, hconsumed.tokens, ?_⟩
  rw [← List.append_assoc, ← hconsumed.errors]
  rfl

theorem Consumed.trans {s'' : LexerState} {errors errors' : List String}
    (hfirst : Consumed s s' errors) (hnext : Consumed s' s'' errors') :
    Consumed s s'' (errors ++ errors') := by
  refine ⟨hnext.source.trans hfirst.source, hnext.tokens.trans hfirst.tokens, ?_⟩
  rw [hnext.errors, hfirst.errors, List.append_assoc]

theorem scanNumericEscape_consumed (n : Nat) (decode : Int → CString) (incomplete invalid : String)
    (value : CString) (s : LexerState) :
    ∃ errors, Consumed s (scanNumericEscape n decode incomplete invalid value s).2 errors := by
  unfold scanNumericEscape
  split
  · exact ⟨_, Consumed.error (.of_drop s 0) incomplete⟩
  · dsimp only
    split
    · exact ⟨_, .of_drop s n⟩
    · exact ⟨_, Consumed.error (.of_drop s n) _⟩

theorem scanEscape_consumed (escaped : UInt8) (value : CString) (s : LexerState) :
    ∃ errors, Consumed s (scanEscape escaped value s).2 errors := by
  unfold scanEscape
  split_ifs
  · exact ⟨_, .of_drop s 0⟩
  · exact ⟨_, .of_drop s 0⟩
  · exact ⟨_, .of_drop s 0⟩
  · exact ⟨_, .of_drop s 0⟩
  · exact scanNumericEscape_consumed ..
  · exact scanNumericEscape_consumed ..
  · exact ⟨_, .of_drop s 0⟩

/-- The body of a string ends before a closing quote, or an error says why it does not. -/
theorem scanStringBody_consumed (quote : UInt8) (isMultiline : Bool) (fuel : Nat) (value : CString)
    (s : LexerState) (hfuel : s.source.length < fuel) :
    ∃ errors, Consumed s (scanStringBody quote isMultiline fuel value s).2 errors ∧
      ((scanStringBody quote isMultiline fuel value s).1 = none → errors ≠ []) := by
  induction fuel generalizing value s with
  | zero => omega
  | succ fuel ih =>
      rw [scanStringBody]
      cases hsource : s.source with
      | nil => exact ⟨_, Consumed.error (.of_drop s 0) _, by simp⟩
      | cons c rest =>
          rw [hsource, List.length_cons] at hfuel
          have hrest : Consumed s { s with source := rest } [] := by
            have hdrop := Consumed.of_drop s 1
            rw [hsource] at hdrop
            exact hdrop
          simp only
          split_ifs
          · exact ⟨_, .of_drop s 0, by simp⟩
          · exact ⟨_, .of_drop s 0, by simp⟩
          · exact ⟨_, Consumed.error (.of_drop s 0) _, by simp⟩
          · cases rest with
            | nil => exact ⟨_, hrest.error _, by simp⟩
            | cons escaped rest =>
                obtain ⟨errors, hescape⟩ := scanEscape_consumed escaped value { s with source := rest }
                have hlength := hescape.source.length_le
                obtain ⟨errors', hbody, hnone⟩ := ih
                  (scanEscape escaped value { s with source := rest }).1
                  (scanEscape escaped value { s with source := rest }).2 (by
                    simp only [List.length_cons] at hfuel hlength
                    omega)
                have hboth : Consumed s { s with source := rest } [] := by
                  have hdrop := Consumed.of_drop s 2
                  rw [hsource] at hdrop
                  exact hdrop
                refine ⟨_, (hboth.trans hescape).trans hbody, fun h => ?_⟩
                have := hnone h
                simp [this]
          · obtain ⟨errors, hbody, hnone⟩ := ih (value ++ [c]) { s with source := rest } (by
              show rest.length < fuel
              omega)
            exact ⟨_, hrest.trans hbody, hnone⟩

theorem scanString_advanced {c : UInt8} {rest : CString} (hc : c ≠ byte '\x60')
    (hsource : s.source = c :: rest) :
    Advanced stod settled s (scanString c { s with source := rest }) := by
  rw [scanString]
  dsimp only
  generalize (c == byte '\x22' && tripleQuote.isPrefixOf (c :: rest)) = isMultiline
  have hopened : ∀ opened, opened = (if isMultiline then { s with source := rest.drop 2 }
      else { s with source := rest }) → opened.source <:+ rest ∧ opened.tokens = s.tokens ∧
        opened.errors = s.errors := by
    rintro opened rfl
    cases isMultiline
    · exact ⟨List.suffix_refl rest, rfl, rfl⟩
    · exact ⟨List.drop_suffix 2 rest, rfl, rfl⟩
  generalize (if isMultiline = true then { s with source := rest.drop 2 }
    else { s with source := rest } : LexerState) = opened at hopened ⊢
  obtain ⟨hfront, htokens, herrors⟩ := hopened opened rfl
  obtain ⟨errors, hbody, hnone⟩ :=
    scanStringBody_consumed c isMultiline (opened.source.length + 1) [] opened (Nat.lt_succ_self _)
  generalize scanStringBody c isMultiline (opened.source.length + 1) [] opened = scanned
    at hbody hnone ⊢
  obtain ⟨value, after⟩ := scanned
  have hafter : after.source <:+ rest := hbody.source.trans hfront
  cases value with
  | none =>
      refine advanced_of_error [] errors ?_ ?_ ?_ ?_ (hnone rfl)
      · rw [hsource]
        exact hafter.trans (List.suffix_cons c rest)
      · rw [hsource, List.length_cons]
        exact Nat.lt_succ_of_le hafter.length_le
      · rw [List.append_nil, ← htokens]
        exact hbody.tokens
      · rw [← herrors]
        exact hbody.errors
  | some value =>
      generalize hn : (if isMultiline = true then 3 else 1) = n
      have hclosed : after.source.drop n <:+ rest := (List.drop_suffix n _).trans hafter
      have hlexeme : (c :: rest).take ((c :: rest).length - (after.source.drop n).length) ++
          after.source.drop n = c :: rest :=
        List.suffix_iff_eq_append.mp (hclosed.trans (List.suffix_cons c rest))
      have hlength := hclosed.length_le
      have hpositive : (c :: rest).length - (after.source.drop n).length =
          (rest.length - (after.source.drop n).length) + 1 := by
        rw [List.length_cons]
        omega
      refine advanced_of_token ⟨.STRING, (c :: rest).take ((c :: rest).length -
        (after.source.drop n).length), .string value⟩ errors ?_ ?_ ?_ ?_ ?_
      · rw [hsource]
        exact hlexeme.symm
      · simp only [hpositive, List.take_succ_cons]
        simp
      · simp only [hpositive, List.take_succ_cons]
        simpa using hc
      · show after.tokens ++ _ = _
        rw [hbody.tokens, htokens]
      · show after.errors = _
        rw [hbody.errors, herrors]

/-! ### Words -/

theorem scanRawString_advanced {quote : UInt8} {rest : CString}
    (hsource : s.source = byte 'r' :: quote :: rest) :
    Advanced stod settled s (scanRawString { s with source := quote :: rest }) := by
  have hvalue := List.prefix_iff_eq_append.mp (List.takeWhile_prefix (l := rest) (· != quote))
  simp only [scanRawString]
  split
  · refine advanced_of_error [] [_] ?_ ?_ (List.append_nil _).symm rfl (by simp)
    · exact List.nil_suffix
    · rw [hsource]
      simp [LexerState.error]
  · rename_i close after hdrop
    rw [hdrop] at hvalue
    refine ⟨_, _, [], ?_, ?_, rfl, (List.append_nil _).symm, .rawString rfl⟩
    · simp
    · rw [hsource]
      simp only [LexerState.addToken, List.cons_append, List.append_assoc, List.nil_append]
      rw [hvalue]

theorem scanIdentifier_advanced {c : UInt8} {rest : CString} (hc : c ≠ byte '\x60')
    (hsource : s.source = c :: rest) :
    Advanced stod settled s (scanIdentifier c { s with source := rest }) := by
  have htext : c :: rest.takeWhile isAlphaNumeric ++ rest.dropWhile isAlphaNumeric = c :: rest := by
    rw [List.cons_append, List.takeWhile_append_dropWhile]
  have htoken : ∀ type literal, Advanced stod settled s
      (({ s with source := rest.dropWhile isAlphaNumeric } : LexerState).addToken type
        (c :: rest.takeWhile isAlphaNumeric) literal) := by
    intro type literal
    refine advanced_of_token ⟨type, c :: rest.takeWhile isAlphaNumeric, literal⟩ [] ?_ ?_ ?_ rfl
      (List.append_nil _).symm
    · rw [hsource]
      exact htext.symm
    · simp
    · simpa using hc
  rw [scanIdentifier]
  dsimp only
  split
  · exact htoken _ _
  · split
    · rename_i hraw
      obtain ⟨hr, hquote⟩ := hraw
      obtain ⟨rfl, hnone⟩ := List.cons.inj hr
      rw [hr] at htext
      cases hdrop : rest.dropWhile isAlphaNumeric with
      | nil =>
          rw [hdrop] at hquote
          simp at hquote
      | cons quote after =>
          rw [hdrop] at htext
          apply scanRawString_advanced
          rw [hsource]
          exact htext.symm
    · exact htoken _ _

/-! ### Operators and comments -/

theorem scanOperator_advanced {c : UInt8} {rest : CString} (hc : c ≠ byte '\x60')
    (hsource : s.source = c :: rest) (longer : List (CString × TokenType)) (alone : TokenType) :
    Advanced stod settled s (scanOperator c longer alone { s with source := rest }) := by
  rw [scanOperator]
  split
  · rename_i text type hfind
    have hmatch : text.isPrefixOf rest = true := by
      have hfound := List.find?_some hfind
      exact hfound
    have hfront := List.prefix_iff_eq_append.mp (List.isPrefixOf_iff_prefix.mp hmatch)
    refine advanced_of_token ⟨type, c :: text, .nil⟩ [] ?_ ?_ ?_ rfl (List.append_nil _).symm
    · rw [hsource]
      exact congrArg (c :: ·) hfront.symm
    · simp
    · simpa using hc
  · refine advanced_of_token ⟨alone, [c], .nil⟩ [] ?_ ?_ ?_ rfl (List.append_nil _).symm
    · exact hsource
    · simp
    · simpa using hc

theorem afterBlockComment_some {nesting : Nat} {source rest : CString}
    (hafter : afterBlockComment nesting source = some rest) :
    ∃ text, source = text ++ rest ∧ afterBlockComment nesting text = some [] := by
  fun_induction afterBlockComment nesting source with
  | case1 =>
      cases hafter
      exact ⟨[], rfl, by simp [afterBlockComment]⟩
  | case2 => cases hafter
  | case3 => cases hafter
  | case4 =>
      rename_i hopen ih
      obtain ⟨text, rfl, hagain⟩ := ih hafter
      refine ⟨_ :: _ :: text, rfl, ?_⟩
      rw [afterBlockComment, if_pos hopen]
      exact hagain
  | case5 =>
      rename_i hopen hclose ih
      obtain ⟨text, rfl, hagain⟩ := ih hafter
      refine ⟨_ :: _ :: text, rfl, ?_⟩
      rw [afterBlockComment, if_neg hopen, if_pos hclose]
      exact hagain
  | case6 =>
      rename_i hopen hclose ih
      obtain ⟨text, hsource, hagain⟩ := ih hafter
      cases text with
      | nil =>
          rw [afterBlockComment] at hagain
          cases hagain
      | cons d text =>
          obtain ⟨rfl, rfl⟩ := List.cons.inj hsource
          refine ⟨_ :: _ :: text, rfl, ?_⟩
          rw [afterBlockComment, if_neg hopen, if_neg hclose]
          exact hagain

theorem skipLineComment_spec (s : LexerState) :
    ∃ text, 10 ∉ text ∧ s.source = text ++ (skipLineComment s).source := by
  refine ⟨s.source.takeWhile (· != 10), fun hmem => ?_, ?_⟩
  · have hnot := List.mem_takeWhile_imp hmem
    simp at hnot
  · exact List.takeWhile_append_dropWhile.symm

/-- A block comment that is closed is blank. -/
theorem skipBlockComment_advanced {rest : CString} (hsource : s.source = byte '/' :: byte '*' :: rest) :
    Advanced stod settled s (skipBlockComment { s with source := rest }) := by
  rw [skipBlockComment]
  split
  · rename_i after hafter
    obtain ⟨text, htext, hclosed⟩ := afterBlockComment_some hafter
    refine advanced_of_blank _ ?_ (.block hclosed) rfl rfl
    rw [hsource]
    exact congrArg (byte '/' :: byte '*' :: ·) htext
  · refine advanced_of_error [] [_] List.nil_suffix ?_ (List.append_nil _).symm rfl (by simp)
    rw [hsource]
    simp [LexerState.error]

/-! ### The switch -/

theorem eq_byte {c : UInt8} {ch : Char} (hch : Char.ofNat c.toNat = ch) : c = byte ch := by
  have hvalid : c.toNat.isValidChar := .inl (Nat.lt_trans c.toNat_lt (by decide))
  rw [← hch, byte, Char.ofNat, dif_pos hvalid]
  exact (UInt8.ofNat_toNat).symm

theorem of_isPrefixOf {front source : CString} (hfront : front.isPrefixOf source = true) :
    front ++ source.drop front.length = source :=
  List.prefix_iff_eq_append.mp (List.isPrefixOf_iff_prefix.mp hfront)

theorem scanNewline_advanced {rest : CString} (hsource : s.source = 10 :: rest) :
    Advanced stod settled s (scanNewline { s with source := rest }) := by
  have hblank : Advanced stod settled s { s with source := rest } :=
    advanced_of_blank [10] hsource .newline rfl rfl
  have htoken : Advanced stod settled s
      (({ s with source := rest } : LexerState).addToken .NEWLINE [10]) :=
    advanced_of_token ⟨.NEWLINE, [10], .nil⟩ [] hsource (by simp) (by decide) rfl
      (List.append_nil _).symm
  unfold scanNewline
  split
  · exact hblank
  · split
    · split
      · exact hblank
      · exact htoken
    · exact htoken

theorem scanOther_advanced {c : UInt8} {rest : CString} (hc : c ≠ byte '\x60')
    (hsource : s.source = c :: rest) :
    Advanced stod settled s (scanOther (plainHost stod) c { s with source := rest }) := by
  have htoken : ∀ (s' : LexerState) type, s'.source = rest → s'.tokens = s.tokens →
      s'.errors = s.errors → Advanced stod settled s (s'.addToken type [c]) := by
    intro s' type hrest htokens herrors
    refine advanced_of_token ⟨type, [c], .nil⟩ [] ?_ (by simp) (by simpa using hc) ?_ ?_
    · rw [hsource, ← hrest]
      rfl
    · rw [← htokens]
      rfl
    · rw [List.append_nil, ← herrors]
      rfl
  have herror : ∀ (s' : LexerState) message, s'.source <:+ rest → s'.tokens = s.tokens →
      s'.errors = s.errors → Advanced stod settled s (s'.error message) := by
    intro s' message hrest htokens herrors
    refine advanced_of_error [] [message] ?_ ?_ ?_ ?_ (by simp)
    · rw [hsource]
      exact hrest.trans (List.suffix_cons c rest)
    · rw [hsource, List.length_cons]
      exact Nat.lt_succ_of_le hrest.length_le
    · rw [List.append_nil, ← htokens]
      rfl
    · rw [← herrors]
      rfl
  have hblank : c ∈ [byte ' ', byte '\r', byte '\t'] →
      Advanced stod settled s { s with source := rest } := fun hspace =>
    advanced_of_blank [c] hsource (.space hspace) rfl rfl
  unfold scanOther
  split
  · exact htoken _ _ rfl rfl rfl
  · exact htoken _ _ rfl rfl rfl
  · exact htoken _ _ rfl rfl rfl
  · exact htoken _ _ rfl rfl rfl
  · rename_i hch
    have hdot := eq_byte hch
    split_ifs with hmore htwo
    · refine advanced_of_token ⟨.ELLIPSIS, lit "...", .nil⟩ [] ?_ (by decide) (by decide) rfl
        (List.append_nil _).symm
      rw [hsource, hdot]
      exact congrArg (byte '.' :: ·) (of_isPrefixOf hmore).symm
    · exact herror _ _ (List.drop_suffix 1 rest) rfl rfl
    · exact htoken _ _ rfl rfl rfl
  · rename_i hch
    have hslash := eq_byte hch
    split_ifs with hline hblock hequal
    · obtain ⟨text, htext, hafter⟩ := skipLineComment_spec { s with source := rest.drop 1 }
      refine advanced_of_blank _ ?_ (.line htext) rfl rfl
      have hrest : byte '/' :: rest.drop 1 = rest := of_isPrefixOf hline
      rw [hsource, hslash]
      exact (congrArg (byte '/' :: ·) hrest).symm.trans
        (congrArg (byte '/' :: byte '/' :: ·) hafter)
    · apply skipBlockComment_advanced
      rw [hsource, hslash]
      exact congrArg (byte '/' :: ·) (of_isPrefixOf hblock).symm
    · refine advanced_of_token ⟨.SLASH_EQUAL, lit "/=", .nil⟩ [] ?_ (by decide) (by decide) rfl
        (List.append_nil _).symm
      rw [hsource, hslash]
      exact congrArg (byte '/' :: ·) (of_isPrefixOf hequal).symm
    · exact htoken _ _ rfl rfl rfl
  · rename_i hch
    obtain ⟨text, htext, hafter⟩ := skipLineComment_spec { s with source := rest }
    refine advanced_of_blank _ ?_ (.hash htext) rfl rfl
    rw [hsource, eq_byte hch]
    exact congrArg (byte '#' :: ·) hafter
  · rename_i hch
    apply scanNewline_advanced
    rw [hsource, eq_byte hch]
    rfl
  · exact htoken _ _ rfl rfl rfl
  · rename_i hch
    exact hblank (by simp [eq_byte hch])
  · rename_i hch
    exact hblank (by simp [eq_byte hch])
  · rename_i hch
    exact hblank (by simp [eq_byte hch])
  · exact scanString_advanced hc hsource
  · exact scanString_advanced hc hsource
  · rename_i hch
    exact absurd (eq_byte hch) hc
  · exact herror _ _ (List.suffix_refl rest) rfl rfl

theorem eq_cons_of_take {rest : CString} {m : UInt8} (hmark : rest.take 1 = [m]) :
    rest = m :: rest.drop 1 := by
  cases rest with
  | nil => cases hmark
  | cons d rest => exact congrArg (· ++ rest) hmark

theorem scanBased_mark_advanced {c m : UInt8} {rest : CString} {base : Nat}
    {isBaseDigit : UInt8 → Bool} {missing tooLarge : String} (hc : c ≠ byte '`')
    (hsource : s.source = c :: rest) (hmark : rest.take 1 = [m]) :
    Advanced stod settled s (scanBased (c :: rest.take 1) base isBaseDigit missing tooLarge
      { s with source := rest.drop 1 }) := by
  rw [hmark]
  apply scanBased_advanced hc
  rw [hsource]
  exact congrArg (c :: ·) (eq_cons_of_take hmark)

/-- A call that does not begin with a template string throws where a decimal number is out of range, and
accounts for what it consumes otherwise. -/
theorem scanToken_cases {c : UInt8} {rest : CString} (hc : c ≠ byte '\x60')
    (hsource : s.source = c :: rest) :
    (¬InRange stod s.source ∧ ∃ e, scanToken (plainHost stod) s = .error e) ∨
      InRange stod s.source ∧ ∃ s', scanToken (plainHost stod) s = .ok s' ∧
        ∀ settled, Advanced stod settled s s' := by
  simp only [scanToken, hsource]
  by_cases hdigit : isDigit c = true
  · rw [if_pos hdigit]
    by_cases hhex : c = byte '0' ∧ (rest.take 1 = lit "x" ∨ rest.take 1 = lit "X")
    · rw [if_pos hhex]
      right
      refine ⟨fun _ hbased => ?_, _, rfl, fun settled => ?_⟩
      · obtain ⟨rfl, hmark | hmark⟩ := hhex <;> simp [isBased, hmark] at hbased
      · obtain ⟨-, hmark | hmark⟩ := hhex
        · exact scanBased_mark_advanced hc hsource hmark
        · exact scanBased_mark_advanced hc hsource hmark
    · rw [if_neg hhex]
      by_cases hbinary : c = byte '0' ∧ (rest.take 1 = lit "b" ∨ rest.take 1 = lit "B")
      · rw [if_pos hbinary]
        right
        refine ⟨fun _ hbased => ?_, _, rfl, fun settled => ?_⟩
        · obtain ⟨rfl, hmark | hmark⟩ := hbinary <;> simp [isBased, hmark] at hbased
        · obtain ⟨-, hmark | hmark⟩ := hbinary
          · exact scanBased_mark_advanced hc hsource hmark
          · exact scanBased_mark_advanced hc hsource hmark
      · rw [if_neg hbinary]
        have hbased : isBased c rest = false := by
          rw [Bool.eq_false_iff]
          intro hbased
          simp only [isBased, Bool.and_eq_true, beq_iff_eq, List.contains_eq_mem, List.mem_cons,
            List.not_mem_nil, or_false, decide_eq_true_eq] at hbased
          obtain ⟨hzero, hmark⟩ := hbased
          tauto
        obtain ⟨hnone, herror⟩ | ⟨hsome, hok⟩ := @scanNumber_cases stod s c rest hc hsource
        · exact .inl ⟨fun hrange => hrange hdigit hbased hnone, herror⟩
        · exact .inr ⟨fun _ _ => hsome, hok⟩
  · right
    refine ⟨fun h => absurd h hdigit, ?_⟩
    rw [if_neg hdigit]
    split
    · exact ⟨_, rfl, fun settled => scanIdentifier_advanced hc hsource⟩
    · split
      · exact ⟨_, rfl, fun settled => scanOperator_advanced hc hsource _ _⟩
      · exact ⟨_, rfl, fun settled => scanOther_advanced hc hsource⟩

/-! ### Lexers of interpolations -/

theorem partTokens_error {sub : CString → Lexed} {part : Part} {e : String}
    (herror : partTokens sub part = .error e) : part.isExpr = true ∧ sub part.text = .error e := by
  rw [partTokens] at herror
  split at herror
  · rename_i hexpr
    refine ⟨hexpr, ?_⟩
    split at herror
    · cases herror
    · rename_i hsub
      rw [hsub]
      exact congrArg Except.error (Except.error.inj herror)
  · cases herror

theorem joinParts_error {sub : CString → Lexed} {first : Bool} {parts : List Part} {e : String}
    (herror : joinParts sub first parts = .error e) :
    ∃ part ∈ parts, part.isExpr = true ∧ sub part.text = .error e := by
  induction parts generalizing first with
  | nil => cases herror
  | cons part parts ih =>
      rw [joinParts] at herror
      cases hpart : partTokens sub part with
      | error exception =>
          rw [hpart] at herror
          cases herror
          exact ⟨part, List.mem_cons_self, partTokens_error hpart⟩
      | ok tokens =>
          simp only [hpart] at herror
          cases hparts : joinParts sub false parts with
          | error exception =>
              rw [hparts] at herror
              cases herror
              obtain ⟨other, hother, hsub⟩ := ih hparts
              exact ⟨other, List.mem_cons_of_mem _ hother, hsub⟩
          | ok others =>
              rw [hparts] at herror
              cases herror

/-- A template string throws only where the lexer of an interpolation does. -/
theorem templateTokens_error {sub : CString → Lexed} {parts : List Part} {e : String}
    (herror : templateTokens sub parts = .error e) :
    ∃ part ∈ parts, part.isExpr = true ∧ sub part.text = .error e := by
  rw [templateTokens] at herror
  split at herror
  · split at herror
    · rename_i exception hjoin
      cases herror
      exact joinParts_error hjoin
    · cases herror
  · cases herror

section Congruence

variable {sub sub' : CString → Lexed}

theorem templateTokens_congr {parts : List Part}
    (hsame : ∀ part ∈ parts, part.isExpr = true → sub part.text = sub' part.text) :
    templateTokens sub parts = templateTokens sub' parts := by
  have hjoin : ∀ first, joinParts sub first parts = joinParts sub' first parts := by
    induction parts with
    | nil => exact fun first => rfl
    | cons part parts ih =>
        intro first
        have hpart : partTokens sub part = partTokens sub' part := by
          by_cases hexpr : part.isExpr = true
          · rw [partTokens, partTokens, hsame part List.mem_cons_self hexpr]
          · rw [partTokens, partTokens, if_neg hexpr, if_neg hexpr]
        rw [joinParts, joinParts, hpart,
          ih (fun other hother => hsame other (List.mem_cons_of_mem _ hother)) false]
  rw [templateTokens, templateTokens, hjoin]

/-- A call asks the lexers of interpolations about shorter texts only. -/
theorem scanTokenWith_congr (hsame : ∀ text, text.length < s.source.length → sub text = sub' text) :
    scanTokenWith stod sub s = scanTokenWith stod sub' s := by
  rw [scanTokenWith, scanTokenWith]
  split
  · rename_i hhead
    rw [scanInterpolatedString, scanInterpolatedString]
    cases hparts : templateParts [] [] (s.source.drop 1) with
    | error message => rfl
    | ok out =>
        obtain ⟨parts, rest⟩ := out
        have htokens : templateTokens sub parts = templateTokens sub' parts := by
          apply templateTokens_congr
          intro part hpart hexpr
          obtain hnil | hlength := length_of_templateParts hparts part hpart hexpr
          · cases hnil
          · apply hsame
            rw [List.length_drop] at hlength
            omega
        simp only [htokens]
  · rfl

theorem Advanced.length (hadvanced : Advanced stod settled s s') :
    s'.source.length < s.source.length := by
  obtain ⟨chunk, tokens, errors, hne, hsource, -⟩ := hadvanced
  have hpositive := List.length_pos_iff.mpr hne
  rw [hsource, List.length_append]
  omega

theorem eq_cons_of_head {source : CString} {c : UInt8} (hhead : source.head? = some c) :
    source = c :: source.drop 1 := by
  cases source with
  | nil => cases hhead
  | cons d rest =>
      cases hhead
      rfl

/-- A template string is cut into parts, which add their tokens, or is reported and ends the source. -/
theorem scanInterpolatedString_cases (hscan : scanInterpolatedString sub s = .ok s') :
    (∃ message, templateParts [] [] s.source = .error message ∧
      s' = { s with source := [] }.error message) ∨
    ∃ parts rest tokens, templateParts [] [] s.source = .ok (parts, rest) ∧
      templateTokens sub parts = .ok tokens ∧
      s' = { s with source := rest, tokens := s.tokens ++ tokens } := by
  rw [scanInterpolatedString] at hscan
  cases hparts : templateParts [] [] s.source with
  | error message =>
      simp only [hparts] at hscan
      cases hscan
      exact .inl ⟨message, rfl, rfl⟩
  | ok out =>
      obtain ⟨parts, rest⟩ := out
      simp only [hparts] at hscan
      cases htokens : templateTokens sub parts with
      | error exception =>
          rw [htokens] at hscan
          cases hscan
      | ok tokens =>
          rw [htokens] at hscan
          cases hscan
          exact .inr ⟨parts, rest, tokens, rfl, htokens, rfl⟩

theorem scanInterpolatedString_length (hhead : s.source.head? = some (byte '\x60'))
    (hscan : scanInterpolatedString sub { s with source := s.source.drop 1 } = .ok s') :
    s'.source.length < s.source.length := by
  have hlength := congrArg List.length (eq_cons_of_head hhead)
  rw [List.length_cons] at hlength
  obtain ⟨message, _, rfl⟩ | ⟨parts, rest, tokens, hparts, _, rfl⟩ := scanInterpolatedString_cases hscan
  · show 0 < _
    omega
  · obtain ⟨text, htext, -⟩ := templateParts_ok hparts
    dsimp only at htext ⊢
    rw [htext, List.length_append] at hlength
    omega

/-- Every call consumes a character, whatever the lexers of interpolations return. -/
theorem scanTokenWith_length (hne : s.source ≠ []) (hscan : scanTokenWith stod sub s = .ok s') :
    s'.source.length < s.source.length := by
  obtain ⟨c, rest, hsource⟩ := List.exists_cons_of_ne_nil hne
  rw [scanTokenWith] at hscan
  split at hscan
  · rename_i hhead
    exact scanInterpolatedString_length hhead hscan
  · rename_i hhead
    have hc : c ≠ byte '\x60' := by
      rintro rfl
      exact hhead (by rw [hsource]; rfl)
    obtain ⟨-, e, herror⟩ | ⟨-, s'', hok, hadvanced⟩ := @scanToken_cases stod s c rest hc hsource
    · rw [herror] at hscan
      cases hscan
    · rw [hok] at hscan
      cases hscan
      exact (hadvanced fun _ => True).length

theorem scanTokensWith_congr (fuel : Nat) (s : LexerState)
    (hsame : ∀ text, text.length < s.source.length → sub text = sub' text) :
    scanTokensWith stod sub fuel s = scanTokensWith stod sub' fuel s := by
  induction fuel generalizing s with
  | zero => rfl
  | succ fuel ih =>
      rw [scanTokensWith, scanTokensWith, scanTokenWith_congr hsame]
      split
      · rfl
      · rename_i hempty
        cases hscan : scanTokenWith stod sub' s with
        | error exception => rfl
        | ok s' =>
            have hlength := scanTokenWith_length (by simpa using hempty) hscan
            exact ih s' fun text htext => hsame text (by omega)

theorem tokenizeWith_congr {source : CString}
    (hsame : ∀ text, text.length < source.length → sub text = sub' text) :
    tokenizeWith stod sub source = tokenizeWith stod sub' source := by
  rw [tokenizeWith, tokenizeWith, scanTokensWith_congr source.length { source } hsame]

end Congruence

/-- The depth does not matter above the length. -/
theorem tokenizeNested_depth (length depth depth' : Nat) (hdepth : length < depth)
    (hdepth' : length < depth') (source : CString) (hlength : source.length ≤ length) :
    tokenizeNested stod depth source = tokenizeNested stod depth' source := by
  induction length generalizing depth depth' source with
  | zero =>
      obtain ⟨depth, rfl⟩ := Nat.exists_eq_succ_of_ne_zero (Nat.ne_of_gt hdepth)
      obtain ⟨depth', rfl⟩ := Nat.exists_eq_succ_of_ne_zero (Nat.ne_of_gt hdepth')
      rw [tokenizeNested, tokenizeNested]
      apply tokenizeWith_congr
      intro text htext
      omega
  | succ length ih =>
      obtain ⟨depth, rfl⟩ := Nat.exists_eq_add_of_lt hdepth
      obtain ⟨depth', rfl⟩ := Nat.exists_eq_add_of_lt hdepth'
      rw [tokenizeNested, tokenizeNested]
      apply tokenizeWith_congr
      intro text htext
      apply ih <;> omega

/-- `tokenize` with lexers of interpolations that are `tokenize` again. -/
theorem tokenizeAll_eq (source : CString) :
    tokenizeAll stod source = tokenizeWith stod (tokenizeAll stod) source := by
  rw [tokenizeAll, tokenizeNested]
  apply tokenizeWith_congr
  intro text htext
  exact tokenizeNested_depth text.length _ _ htext (Nat.lt_succ_self _) text le_rfl

/-! ### The loop -/

/-- The texts of the interpolations of a template string at the front. -/
def Interpolations (settled : CString → Prop) (source : CString) : Prop :=
  ∀ text parts rest, source = byte '\x60' :: text → templateParts [] [] text = .ok (parts, rest) →
    ∀ part ∈ parts, part.isExpr = true → settled part.text

/-- A call goes through where a number is in range and the lexers of interpolations return. -/
theorem step_of_inRange (hne : s.source ≠ []) (hrange : InRange stod s.source)
    (hparts : Interpolations (fun text => ∃ out, tokenizeAll stod text = .ok out) s.source) :
    ∃ s', Step stod s s' := by
  obtain ⟨c, rest, hsource⟩ := List.exists_cons_of_ne_nil hne
  by_cases hc : c = byte '\x60'
  · subst hc
    have hscan : scanTokenWith stod (tokenizeAll stod) s =
        scanInterpolatedString (tokenizeAll stod) { s with source := rest } := by
      rw [scanTokenWith, hsource]
      rfl
    suffices hok : ∃ s', scanInterpolatedString (tokenizeAll stod) { s with source := rest } = .ok s' by
      obtain ⟨s', hs'⟩ := hok
      exact ⟨s', hne, hscan.trans hs'⟩
    rw [scanInterpolatedString]
    cases htemplate : templateParts [] [] rest with
    | error message => exact ⟨_, rfl⟩
    | ok out =>
        obtain ⟨parts, after⟩ := out
        cases htokens : templateTokens (tokenizeAll stod) parts with
        | error exception =>
            obtain ⟨part, hpart, hexpr, herror⟩ := templateTokens_error htokens
            obtain ⟨out, hout⟩ := hparts rest parts after hsource htemplate part hpart hexpr
            rw [herror] at hout
            cases hout
        | ok tokens =>
            simp only [htokens]
            exact ⟨_, rfl⟩
  · have hscan : scanTokenWith stod (tokenizeAll stod) s = scanToken (plainHost stod) s := by
      rw [scanTokenWith, hsource, if_neg (by simpa using hc)]
    obtain ⟨hnot, -⟩ | ⟨-, s', hok, -⟩ := @scanToken_cases stod s c rest hc hsource
    · exact absurd hrange hnot
    · exact ⟨s', hne, hscan.trans hok⟩

theorem inRange_of_step (hstep : Step stod s s') : InRange stod s.source := by
  obtain ⟨hne, hscan⟩ := hstep
  obtain ⟨c, rest, hsource⟩ := List.exists_cons_of_ne_nil hne
  by_cases hc : c = byte '\x60'
  · rw [hsource, hc]
    intro hdigit
    exact absurd hdigit (by decide)
  · rw [scanTokenWith, hsource, if_neg (by simpa using hc)] at hscan
    obtain ⟨-, e, herror⟩ | ⟨hrange, -⟩ := @scanToken_cases stod s c rest hc hsource
    · rw [herror] at hscan
      cases hscan
    · exact hrange

/-- What a call on a closed template string does. -/
theorem scanTemplate_step {text rest : CString} {parts : List Part} (hstep : Step stod s s')
    (hsource : s.source = byte '\x60' :: text) (hparts : templateParts [] [] text = .ok (parts, rest)) :
    ∃ tokens, templateTokens (tokenizeAll stod) parts = .ok tokens ∧
      s' = { s with source := rest, tokens := s.tokens ++ tokens } := by
  obtain ⟨-, hscan⟩ := hstep
  rw [scanTokenWith, hsource, if_pos List.head?_cons, scanInterpolatedString] at hscan
  simp only [List.drop_succ_cons, List.drop_zero, hparts] at hscan
  cases htokens : templateTokens (tokenizeAll stod) parts with
  | error exception =>
      rw [htokens] at hscan
      cases hscan
  | ok tokens =>
      rw [htokens] at hscan
      cases hscan
      exact ⟨tokens, rfl, rfl⟩

theorem step_advanced (hstep : Step stod s s') (hparts : Interpolations settled s.source) :
    Advanced stod settled s s' := by
  obtain ⟨hne, hscan⟩ := hstep
  obtain ⟨c, rest, hsource⟩ := List.exists_cons_of_ne_nil hne
  by_cases hc : c = byte '\x60'
  · subst hc
    cases htemplate : templateParts [] [] rest with
    | error message =>
        rw [scanTokenWith, hsource, if_pos List.head?_cons, scanInterpolatedString] at hscan
        simp only [List.drop_succ_cons, List.drop_zero, htemplate] at hscan
        cases hscan
        refine advanced_of_error [] [message] List.nil_suffix ?_ (List.append_nil _).symm rfl (by simp)
        rw [hsource]
        exact Nat.succ_pos _
    | ok out =>
        obtain ⟨parts, after⟩ := out
        obtain ⟨tokens, htokens, rfl⟩ := scanTemplate_step ⟨hne, hscan⟩ hsource htemplate
        obtain ⟨text, rfl, hagain⟩ := templateParts_ok htemplate
        have hwhole := hagain []
        rw [List.append_nil] at hwhole
        exact ⟨byte '\x60' :: text, tokens, [], by simp, hsource, rfl, (List.append_nil _).symm,
          .template hwhole htokens (hparts _ parts after hsource htemplate)⟩
  · rw [scanTokenWith, hsource, if_neg (by simpa using hc)] at hscan
    obtain ⟨-, e, herror⟩ | ⟨-, s'', hok, hadvanced⟩ := @scanToken_cases stod s c rest hc hsource
    · rw [herror] at hscan
      cases hscan
    · rw [hok] at hscan
      cases hscan
      exact hadvanced settled

/-- A template string is accounted for only by its interpolations. -/
theorem settled_of_advanced (hstep : Step stod s s') (hadvanced : Advanced stod settled s s') :
    Interpolations settled s.source := by
  intro text parts rest hsource hparts
  obtain ⟨emitted, -, hs'⟩ := scanTemplate_step hstep hsource hparts
  obtain ⟨chunk, tokens, errors, hne, hchunk, -, herrors, haccounted⟩ := hadvanced
  have hnone : errors = [] := by
    rw [hs'] at herrors
    simpa using herrors
  rw [hsource] at hchunk
  cases haccounted with
  | reported h => exact absurd hnone h
  | @token t ht =>
      obtain ⟨c, lexeme, hlexeme⟩ := List.exists_cons_of_ne_nil hne
      rw [hlexeme] at hchunk ht
      exact absurd (congrArg some (List.cons.inj hchunk).1.symm) ht
  | rawString _ => exact absurd (List.cons.inj hchunk).1 (by decide)
  | blank hblank =>
      cases hblank with
      | space hc =>
          rw [← (List.cons.inj hchunk).1] at hc
          exact absurd hc (by decide)
      | newline => exact absurd (List.cons.inj hchunk).1 (by decide)
      | hash _ => exact absurd (List.cons.inj hchunk).1 (by decide)
      | line _ => exact absurd (List.cons.inj hchunk).1 (by decide)
      | block _ => exact absurd (List.cons.inj hchunk).1 (by decide)
  | @template text' parts' tokens hparts' _ hsettled =>
      obtain ⟨front, hfront, hagain⟩ := templateParts_ok hparts'
      rw [List.append_nil] at hfront
      have hsame := hagain s'.source
      have htext : text = text' ++ s'.source := (List.cons.inj hchunk).2
      rw [← hfront, ← htext, hparts] at hsame
      cases hsame
      exact hsettled

/-- The loop ends when no call throws. -/
theorem scanTokensWith_ends (fuel : Nat) (s : LexerState) (hfuel : s.source.length ≤ fuel)
    (hprogress : ∀ s', Relation.ReflTransGen (Step stod) s s' → s'.source ≠ [] →
      ∃ s'', Step stod s' s'') :
    ∃ final, Relation.ReflTransGen (Step stod) s final ∧ final.source = [] ∧
      scanTokensWith stod (tokenizeAll stod) fuel s = .ok final := by
  induction fuel generalizing s with
  | zero => exact ⟨s, .refl, List.length_eq_zero_iff.mp (by omega), rfl⟩
  | succ fuel ih =>
      rw [scanTokensWith]
      by_cases hempty : s.source = []
      · rw [if_pos (by simp [hempty])]
        exact ⟨s, .refl, hempty, rfl⟩
      · rw [if_neg (by simp [hempty])]
        obtain ⟨s', hstep⟩ := hprogress s .refl hempty
        have hlength := scanTokenWith_length hstep.1 hstep.2
        obtain ⟨final, hreached, hend, hscan⟩ := ih s' (by omega) fun s'' hs'' =>
          hprogress s'' (hs''.head hstep)
        refine ⟨final, hreached.head hstep, hend, ?_⟩
        rw [hstep.2]
        exact hscan

/-- Where the loop comes to the end, it goes on from every state before. -/
theorem step_of_ended {source : CString} (hended : Ended stod source) (hs : Reached stod source s)
    (hne : s.source ≠ []) : ∃ s', Step stod s s' := by
  obtain ⟨final, hfinal, hempty, -⟩ := hended
  have hunique : Relator.RightUnique (Step stod) := fun a b c hb hc =>
    Except.ok.inj (hb.2.symm.trans hc.2)
  obtain hlater | hearlier := Relation.ReflTransGen.total_of_right_unique hunique hs hfinal
  · obtain rfl | ⟨s', hstep, -⟩ := hlater.cases_head
    · exact absurd hempty hne
    · exact ⟨s', hstep⟩
  · obtain rfl | ⟨s', hstep, -⟩ := hearlier.cases_head
    · exact absurd hempty hne
    · exact absurd hempty hstep.1

theorem ended_of_progress {source : CString}
    (hprogress : ∀ s, Reached stod source s → s.source ≠ [] → ∃ s', Step stod s s') :
    Ended stod source := by
  obtain ⟨final, hreached, hempty, hscan⟩ :=
    scanTokensWith_ends source.length { source } le_rfl hprogress
  refine ⟨final, hreached, hempty, ?_⟩
  rw [tokenizeAll_eq, tokenizeWith, hscan]

/-- A source is tokenized to its end, with every character accounted for, exactly when it is
readable. -/
theorem total_iff_readable (source : CString) : Total stod source ↔ Readable stod source := by
  induction hn : source.length using Nat.strong_induction_on generalizing source with
  | _ n ih =>
      subst hn
      rw [Total, Readable]
      constructor
      · rintro ⟨hended, hall⟩ s hs
        by_cases hempty : s.source = []
        · rw [hempty]
          exact ⟨trivial, fun text parts rest hsource => nomatch hsource⟩
        · obtain ⟨s', hstep⟩ := step_of_ended hended hs hempty
          refine ⟨inRange_of_step hstep, fun text parts rest hsource hparts part hpart hexpr => ?_⟩
          obtain ⟨hlength, htotal, hunreported⟩ := settled_of_advanced hstep (hall s s' hs hstep)
            text parts rest hsource hparts part hpart hexpr
          exact ⟨hlength, (ih _ hlength _ rfl).mp htotal, hunreported⟩
      · intro hread
        have hsettled : ∀ s, Reached stod source s → Interpolations (fun text =>
            ∃ _ : text.length < source.length, Total stod text ∧ Unreported stod text) s.source := by
          intro s hs text parts rest hsource hparts part hpart hexpr
          obtain ⟨hlength, hreadable, hunreported⟩ :=
            (hread s hs).2 text parts rest hsource hparts part hpart hexpr
          exact ⟨hlength, (ih _ hlength _ rfl).mpr hreadable, hunreported⟩
        constructor
        · apply ended_of_progress
          intro s hs hne
          apply step_of_inRange hne (hread s hs).1
          intro text parts rest hsource hparts part hpart hexpr
          obtain ⟨-, htotal, -⟩ := hsettled s hs text parts rest hsource hparts part hpart hexpr
          rw [Total] at htotal
          obtain ⟨⟨final, -, -, htokenize⟩, -⟩ := htotal
          exact ⟨_, htokenize⟩
        · intro s s' hs hstep
          exact step_advanced hstep (hsettled s hs)

/-- `std::stod` throws at a number of which the exponent is too large. -/
def rangeStod (text : CString) : Option UInt64 := if text = lit "1e999" then none else some 0

/-- And `tokenize` with it. -/
theorem hugeExponent_not_total : ¬Total rangeStod (lit "1e999") := by
  rw [Total]
  rintro ⟨⟨final, -, -, htokenize⟩, -⟩
  have hthrows : tokenizeAll rangeStod (lit "1e999") = .error "stod" := by rfl
  rw [hthrows] at htokenize
  cases htokenize

end Lexer

end EZLanguage
