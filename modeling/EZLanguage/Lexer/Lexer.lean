import Mathlib.Algebra.GroupWithZero.Nat
import Mathlib.Algebra.Group.Int.Defs
import EZLanguage.VM.Value
import EZLanguage.Compiler.ClosedExpr

/-!
# The lexer

From the bytes of a source to its tokens. Places are left out: they reach messages only. A template
string is cut up by a lexer of its own, which is a parameter, as is the reading of a double.
-/

namespace EZLanguage

/-- In the order of the source, which the parser compares by. -/
inductive TokenType where
  | NUMBER | STRING | IDENTIFIER | TRUE | FALSE | NIL
  | OUT | IN | WHEN | OTHER | REPEAT | TO | STEP | WHILE | USE | TASK | GIVE | ESCAPE | SKIP | GET
  | MATCH | AND | OR | NOT | ASYNC | AWAIT | TEST | DECORATOR_KW
  | MODEL | INIT | SELF | HIDDEN | SHOWN | EXTENDS | STRUCT | ENUM | NEW | SUPER | STATIC | INTERFACE
  | IMPLEMENTS | TRY | CATCH | THROW | FINALLY | EXPORT | REQUIRES | ENSURES
  | AT
  | PLUS | MINUS | STAR | STAR_STAR | SLASH | PERCENT | EQUAL | EQUAL_EQUAL | BANG | BANG_EQUAL
  | LESS | LESS_EQUAL | GREATER | GREATER_EQUAL
  | PLUS_EQUAL | MINUS_EQUAL | STAR_EQUAL | STAR_STAR_EQUAL | SLASH_EQUAL
  | AMPERSAND | CARET | TILDE | LSHIFT | RSHIFT
  | LPAREN | RPAREN | LBRACKET | RBRACKET | LBRACE | RBRACE | COMMA | DOT | COLON
  | QUESTION_MARK | QUESTION_QUESTION | QUESTION_DOT | PIPE | ARROW | NEWLINE | ELLIPSIS
  | END_OF_FILE | ERROR
  deriving DecidableEq

structure Token where
  type : TokenType
  lexeme : CString
  literal : Literal := .nil
  deriving DecidableEq

structure LexerState where
  /-- The source from `current` on. -/
  source : CString
  tokens : List Token := []
  /-- The messages of the errors so far; `hadError` is that there are any. -/
  errors : List String := []
  openParens : Nat := 0
  openBrackets : Nat := 0

namespace LexerState

def hadError (s : LexerState) : Bool := !s.errors.isEmpty

def addToken (s : LexerState) (type : TokenType) (lexeme : CString) (literal : Literal := .nil) :
    LexerState :=
  { s with tokens := s.tokens ++ [{ type, lexeme, literal }] }

def error (s : LexerState) (message : String) : LexerState :=
  { s with errors := s.errors ++ [message] }

end LexerState

/-- `std::stod`, none where it throws, and the cutting up of a template string. -/
structure LexerHost where
  stod : CString → Option UInt64
  scanInterpolatedString : LexerState → LexerState

namespace Lexer

variable (host : LexerHost)

/-- The byte of an ASCII character. -/
def byte (c : Char) : UInt8 := UInt8.ofNat c.toNat

/-- Bytes in a message. -/
def text (bytes : CString) : String := String.ofList (bytes.map fun c => Char.ofNat c.toNat)

def keywords : List (CString × TokenType) :=
  [(lit "out", .OUT), (lit "in", .IN), (lit "when", .WHEN), (lit "other", .OTHER),
    (lit "repeat", .REPEAT), (lit "to", .TO), (lit "step", .STEP), (lit "while", .WHILE),
    (lit "use", .USE), (lit "task", .TASK), (lit "decorator", .DECORATOR_KW), (lit "give", .GIVE),
    (lit "escape", .ESCAPE), (lit "skip", .SKIP), (lit "get", .GET), (lit "match", .MATCH),
    (lit "async", .ASYNC), (lit "await", .AWAIT), (lit "test", .TEST), (lit "and", .AND),
    (lit "or", .OR), (lit "not", .NOT), (lit "true", .TRUE), (lit "false", .FALSE),
    (lit "yes", .TRUE), (lit "no", .FALSE), (lit "nil", .NIL), (lit "model", .MODEL),
    (lit "init", .INIT), (lit "self", .SELF), (lit "hidden", .HIDDEN), (lit "shown", .SHOWN),
    (lit "extends", .EXTENDS), (lit "struct", .STRUCT), (lit "enum", .ENUM), (lit "new", .NEW),
    (lit "super", .SUPER), (lit "static", .STATIC), (lit "interface", .INTERFACE),
    (lit "implements", .IMPLEMENTS), (lit "try", .TRY), (lit "catch", .CATCH),
    (lit "throw", .THROW), (lit "finally", .FINALLY), (lit "export", .EXPORT),
    (lit "requires", .REQUIRES), (lit "ensures", .ENSURES)]

def isDigit (c : UInt8) : Bool := byte '0' ≤ c && c ≤ byte '9'

def isAlpha (c : UInt8) : Bool :=
  (byte 'a' ≤ c && c ≤ byte 'z') || (byte 'A' ≤ c && c ≤ byte 'Z') || c == byte '_'

def isAlphaNumeric (c : UInt8) : Bool := isAlpha c || isDigit c

def isxdigit (c : UInt8) : Bool :=
  isDigit c || (byte 'a' ≤ c && c ≤ byte 'f') || (byte 'A' ≤ c && c ≤ byte 'F')

/-! ### Numerals -/

/-- The value of a digit in a base of at most 16. -/
def digitValue (c : UInt8) : Nat :=
  if isDigit c then c.toNat - 48
  else if byte 'a' ≤ c then c.toNat - 87
  else c.toNat - 55

def numeralValue (base : Nat) (digits : CString) : Nat :=
  digits.foldl (fun n c => n * base + digitValue c) 0

/-- `std::isspace`. -/
def isSpace (c : UInt8) : Bool := c == 32 || (9 ≤ c && c ≤ 13)

/-- `std::stoi(hex, nullptr, 16)` and `std::stoul`: the digits at the front, after spaces, a sign and a
`0x`. None where there are no digits. -/
def leadingHex (text : CString) : Option Int :=
  let text := text.dropWhile isSpace
  let (negative, text) :=
    match text with
    | c :: rest => if c = byte '-' then (true, rest) else if c = byte '+' then (false, rest)
        else (false, text)
    | [] => (false, text)
  let text :=
    match text with
    | z :: x :: d :: rest =>
        if z = byte '0' ∧ (x = byte 'x' ∨ x = byte 'X') ∧ isxdigit d then d :: rest else text
    | _ => text
  let digits := text.takeWhile isxdigit
  if digits.isEmpty then none
  else
    let value : Int := numeralValue 16 digits
    some (if negative then -value else value)

/-- The literal of a run of decimal digits: `std::stoll`, and `std::stod` where that is out of range. -/
def decimalLiteral (text : CString) : Option Literal :=
  if numeralValue 10 text < 2 ^ 63 then some (.int (Int64.ofNat (numeralValue 10 text)))
  else (host.stod text).map .double

/-- The digits after the point of a number. -/
def scanFraction (source : CString) : CString :=
  match source with
  | point :: d :: rest =>
      if point = byte '.' ∧ isDigit d then point :: (d :: rest).takeWhile isDigit else []
  | _ => []

/-- The exponent of a number, and whether its digits are missing. -/
def scanExponent (source : CString) : CString × Bool :=
  match source with
  | [] => ([], false)
  | e :: rest =>
      if e = byte 'e' ∨ e = byte 'E' then
        let sign := (rest.take 1).takeWhile fun c => c == byte '+' || c == byte '-'
        let digits := (rest.drop sign.length).takeWhile isDigit
        (e :: sign ++ digits, digits.isEmpty)
      else ([], false)

/-- `first` is the digit already consumed. -/
def scanNumber (first : UInt8) (s : LexerState) : Except String LexerState :=
  let whole := s.source.takeWhile isDigit
  let fraction := scanFraction (s.source.drop whole.length)
  let (exponent, missing) := scanExponent (s.source.drop (whole.length + fraction.length))
  let text := first :: whole ++ fraction ++ exponent
  let s := { s with source := s.source.drop (whole.length + fraction.length + exponent.length) }
  let s := if missing then s.error "Expected digits after exponent" else s
  let literal :=
    if fraction.isEmpty && exponent.isEmpty then decimalLiteral host text
    else (host.stod text).map .double
  match literal with
  | some literal => .ok (s.addToken .NUMBER text literal)
  | none => .error "stod"

/-- `scanHexNumber` and `scanBinaryNumber`. -/
def scanBased (prefixText : CString) (base : Nat) (isBaseDigit : UInt8 → Bool)
    (missing tooLarge : String) (s : LexerState) : LexerState :=
  let text := s.source.takeWhile isBaseDigit
  let s := { s with source := s.source.drop text.length }
  if text.isEmpty then s.error missing
  else if numeralValue base text < 2 ^ 64 then
    s.addToken .NUMBER (prefixText ++ text) (.int (Int64.ofNat (numeralValue base text)))
  else s.error tooLarge

def scanHexNumber (prefixText : CString) : LexerState → LexerState :=
  scanBased prefixText 16 isxdigit "Expected hexadecimal digits after '0x'"
    "Hexadecimal literal too large"

def scanBinaryNumber (prefixText : CString) : LexerState → LexerState :=
  scanBased prefixText 2 (fun c => c == byte '0' || c == byte '1')
    "Expected binary digits after '0b'" "Binary literal too large"

/-! ### Strings -/

/-- The bytes of the code point of a `\u` escape. -/
def encodeEscape (cp : Nat) : CString :=
  if cp ≤ 0x7F then [UInt8.ofNat cp]
  else if cp ≤ 0x7FF then
    [(0xC0 : UInt8) ||| UInt8.ofNat (cp >>> 6), (0x80 : UInt8) ||| UInt8.ofNat (cp &&& 0x3F)]
  else
    [(0xE0 : UInt8) ||| UInt8.ofNat (cp >>> 12), (0x80 : UInt8) ||| UInt8.ofNat ((cp >>> 6) &&& 0x3F),
      (0x80 : UInt8) ||| UInt8.ofNat (cp &&& 0x3F)]

/-- A numeric escape of `n` digits, `decode` of which is appended to the value. -/
def scanNumericEscape (n : Nat) (decode : Int → CString) (incomplete invalid : String)
    (value : CString) (s : LexerState) : CString × LexerState :=
  if s.source.length < n then (value, s.error incomplete)
  else
    let after := { s with source := s.source.drop n }
    match leadingHex (s.source.take n) with
    | some cp => (value ++ decode cp, after)
    | none => (value, after.error (invalid ++ text (s.source.take n)))

/-- The character after a backslash. -/
def scanEscape (escaped : UInt8) (value : CString) (s : LexerState) : CString × LexerState :=
  if escaped = byte 'n' then (value ++ [10], s)
  else if escaped = byte 't' then (value ++ [9], s)
  else if escaped = byte 'r' then (value ++ [13], s)
  else if escaped = byte '0' then (value ++ [0], s)
  else if escaped = byte 'x' then
    scanNumericEscape 2 (fun cp => [UInt8.ofInt cp]) "Incomplete hex escape" "Invalid hex escape: \\x"
      value s
  else if escaped = byte 'u' then
    scanNumericEscape 4 (fun cp => encodeEscape (cp % 2 ^ 64).toNat)
      "Incomplete unicode escape (expected 4 hex digits)" "Invalid unicode escape: \\u" value s
  else (value ++ [escaped], s)

def tripleQuote : CString := lit "\"\"\""

/-- The characters of a string up to its closing quote, which is left. None after an unterminated one.
Every round consumes a character, so that the length of the source is fuel enough. -/
def scanStringBody (quote : UInt8) (isMultiline : Bool) :
    Nat → CString → LexerState → Option CString × LexerState
  | 0, _, s => (none, s)
  | fuel + 1, value, s =>
      match s.source with
      | [] =>
          (none, s.error "Unterminated string -- no closing quote found before end of file")
      | c :: rest =>
          if isMultiline && tripleQuote.isPrefixOf s.source then (some value, s)
          else if !isMultiline && c == quote then (some value, s)
          else if !isMultiline && c == 10 then (none, s.error "Unterminated string")
          else if c = byte '\x5c' then
            match rest with
            | [] => (none, { s with source := [] }.error
                "Unterminated string -- no closing quote found")
            | escaped :: rest =>
                let (value, s) := scanEscape escaped value { s with source := rest }
                scanStringBody quote isMultiline fuel value s
          else scanStringBody quote isMultiline fuel (value ++ [c]) { s with source := rest }

/-- `quote` is already consumed. -/
def scanString (quote : UInt8) (s : LexerState) : LexerState :=
  let start := quote :: s.source
  let isMultiline := quote == byte '\x22' && tripleQuote.isPrefixOf start
  let s := if isMultiline then { s with source := s.source.drop 2 } else s
  let (value, s) := scanStringBody quote isMultiline (s.source.length + 1) [] s
  match value with
  | none => s
  | some value =>
      let s := { s with source := s.source.drop (if isMultiline then 3 else 1) }
      s.addToken .STRING (start.take (start.length - s.source.length)) (.string value)

def scanRawString (s : LexerState) : LexerState :=
  match s.source with
  | [] => s
  | quote :: rest =>
      let value := rest.takeWhile (· != quote)
      match rest.drop value.length with
      | [] => { s with source := [] }.error
          "Unterminated raw string -- no closing quote found before end of file"
      | close :: after =>
          { s with source := after }.addToken .STRING (quote :: value ++ [close]) (.string value)

/-! ### Words, comments and operators -/

def keywordLiteral : TokenType → Literal
  | .TRUE => .bool true
  | .FALSE => .bool false
  | _ => .nil

/-- `first` is the letter already consumed. -/
def scanIdentifier (first : UInt8) (s : LexerState) : LexerState :=
  let text := first :: s.source.takeWhile isAlphaNumeric
  let s := { s with source := s.source.dropWhile isAlphaNumeric }
  match lookup keywords text with
  | some type => s.addToken type text (keywordLiteral type)
  | none =>
      if text = lit "r" ∧ (s.source.head? = some (byte '\x22') ∨ s.source.head? = some (byte '\x27')) then
        scanRawString s
      else s.addToken .IDENTIFIER text

def skipLineComment (s : LexerState) : LexerState :=
  { s with source := s.source.dropWhile (· != 10) }

/-- The source after a block comment, none where it is not closed. -/
def afterBlockComment : Nat → CString → Option CString
  | 0, source => some source
  | _ + 1, [] => none
  | _ + 1, [_] => none
  | nesting + 1, c :: d :: rest =>
      if c = byte '/' ∧ d = byte '*' then afterBlockComment (nesting + 2) rest
      else if c = byte '*' ∧ d = byte '/' then afterBlockComment nesting rest
      else afterBlockComment (nesting + 1) (d :: rest)
termination_by _ source => source.length

def skipBlockComment (s : LexerState) : LexerState :=
  match afterBlockComment 1 s.source with
  | some rest => { s with source := rest }
  | none => { s with source := [] }.error
      "Unterminated block comment -- no matching '*/' found before end of file"

/-- The longer tokens a character may begin, in the order they are tried, and the token it is alone. -/
def operator? (c : UInt8) : Option (List (CString × TokenType) × TokenType) :=
  match Char.ofNat c.toNat with
  | '\x7b' => some ([], .LBRACE)
  | '\x7d' => some ([], .RBRACE)
  | ',' => some ([], .COMMA)
  | ':' => some ([], .COLON)
  | '@' => some ([], .AT)
  | '?' => some ([(lit "?", .QUESTION_QUESTION), (lit ".", .QUESTION_DOT)], .QUESTION_MARK)
  | '+' => some ([(lit "=", .PLUS_EQUAL)], .PLUS)
  | '-' => some ([(lit "=", .MINUS_EQUAL), (lit ">", .ARROW)], .MINUS)
  | '*' =>
      some ([(lit "*=", .STAR_STAR_EQUAL), (lit "*", .STAR_STAR), (lit "=", .STAR_EQUAL)], .STAR)
  | '%' => some ([], .PERCENT)
  | '=' => some ([(lit "=", .EQUAL_EQUAL), (lit ">", .ARROW)], .EQUAL)
  | '!' => some ([(lit "=", .BANG_EQUAL)], .BANG)
  | '<' => some ([(lit "<", .LSHIFT), (lit "=", .LESS_EQUAL)], .LESS)
  | '>' => some ([(lit ">", .RSHIFT), (lit "=", .GREATER_EQUAL)], .GREATER)
  | '&' => some ([], .AMPERSAND)
  | '|' => some ([], .PIPE)
  | '^' => some ([], .CARET)
  | '~' => some ([], .TILDE)
  | _ => none

def scanOperator (first : UInt8) (longer : List (CString × TokenType)) (alone : TokenType)
    (s : LexerState) : LexerState :=
  match longer.find? fun entry => entry.1.isPrefixOf s.source with
  | some (text, type) =>
      { s with source := s.source.drop text.length }.addToken type (first :: text)
  | none => s.addToken alone [first]

/-- After one of these a line goes on. -/
def continuesLine (type : TokenType) : Bool :=
  [TokenType.PLUS, .MINUS, .STAR, .STAR_STAR, .SLASH, .PERCENT, .EQUAL_EQUAL, .BANG_EQUAL, .LESS,
    .LESS_EQUAL, .GREATER, .GREATER_EQUAL, .AND, .OR, .COMMA, .DOT, .EQUAL, .PLUS_EQUAL, .MINUS_EQUAL,
    .STAR_EQUAL, .STAR_STAR_EQUAL, .SLASH_EQUAL, .AMPERSAND, .PIPE, .CARET, .LSHIFT, .RSHIFT,
    .ARROW].contains type

def scanNewline (s : LexerState) : LexerState :=
  if 0 < s.openParens ∨ 0 < s.openBrackets then s
  else
    match s.tokens.getLast? with
    | some last => if continuesLine last.type then s else s.addToken .NEWLINE [10]
    | none => s.addToken .NEWLINE [10]

/-- The characters that are no operator, digit or letter. -/
def scanOther (c : UInt8) (s : LexerState) : LexerState :=
  match Char.ofNat c.toNat with
  | '(' => { s with openParens := s.openParens + 1 }.addToken .LPAREN [c]
  | ')' => { s with openParens := s.openParens - 1 }.addToken .RPAREN [c]
  | '[' => { s with openBrackets := s.openBrackets + 1 }.addToken .LBRACKET [c]
  | ']' => { s with openBrackets := s.openBrackets - 1 }.addToken .RBRACKET [c]
  | '.' =>
      if (lit "..").isPrefixOf s.source then
        { s with source := s.source.drop 2 }.addToken .ELLIPSIS (lit "...")
      else if (lit ".").isPrefixOf s.source then
        { s with source := s.source.drop 1 }.error "Invalid token '..'"
      else s.addToken .DOT [c]
  | '/' =>
      if (lit "/").isPrefixOf s.source then skipLineComment { s with source := s.source.drop 1 }
      else if (lit "*").isPrefixOf s.source then
        skipBlockComment { s with source := s.source.drop 1 }
      else if (lit "=").isPrefixOf s.source then
        { s with source := s.source.drop 1 }.addToken .SLASH_EQUAL (lit "/=")
      else s.addToken .SLASH [c]
  | '#' => skipLineComment s
  | '\n' => scanNewline s
  | ';' => s.addToken .NEWLINE [c]
  | ' ' => s
  | '\r' => s
  | '\t' => s
  | '\x22' => scanString c s
  | '\x27' => scanString c s
  | '\x60' => host.scanInterpolatedString s
  | _ => s.error ("Unexpected character: " ++ text [c])

/-- The switch of the source tries digits and letters last; no other case has any. -/
def scanToken (s : LexerState) : Except String LexerState :=
  match s.source with
  | [] => .ok s
  | c :: rest =>
      let s := { s with source := rest }
      if isDigit c then
        let mark := rest.take 1
        if c = byte '0' ∧ (mark = lit "x" ∨ mark = lit "X") then
          .ok (scanHexNumber (c :: mark) { s with source := rest.drop 1 })
        else if c = byte '0' ∧ (mark = lit "b" ∨ mark = lit "B") then
          .ok (scanBinaryNumber (c :: mark) { s with source := rest.drop 1 })
        else scanNumber host c s
      else if isAlpha c then .ok (scanIdentifier c s)
      else
        match operator? c with
        | some (longer, alone) => .ok (scanOperator c longer alone s)
        | none => .ok (scanOther host c s)

/-- Every token takes a character, so that the length of the source is fuel enough. -/
def scanTokens : Nat → LexerState → Except String LexerState
  | 0, s => .ok s
  | fuel + 1, s =>
      if s.source.isEmpty then .ok s
      else
        match scanToken host s with
        | .ok s => scanTokens fuel s
        | .error exception => .error exception

def endOfFile : Token := { type := .END_OF_FILE, lexeme := [] }

/-- The tokens of a source and the errors reported. -/
def tokenize (source : CString) : Except String (List Token × List String) :=
  match scanTokens host source.length { source } with
  | .ok s => .ok (s.tokens ++ [endOfFile], s.errors)
  | .error exception => .error exception

end Lexer

end EZLanguage
