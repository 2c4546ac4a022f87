import Mathlib.Algebra.GroupWithZero.Nat
import Mathlib.Algebra.Group.Int.Defs
import Mathlib.Tactic.FinCases
import EZLanguage.Parser.ExprText

/-!
# Lexing a printed expression

Every token of a printed expression is read back from its text, where a space or the end follows.
-/

namespace EZLanguage

open Lexer

variable (host : LexerHost)

/-- The text ends or goes on with a space. -/
def Ends (rest : CString) : Prop := rest = [] ∨ ∃ more, rest = 32 :: more

/-- A token's text is scanned to the token and no further. -/
def Lexes (token : Token) : Prop :=
  token.lexeme ≠ [] ∧ ∀ s rest, Ends rest → s.source = token.lexeme ++ rest →
    ∃ parens brackets, scanToken host s =
      .ok { source := rest, tokens := s.tokens ++ [token], errors := s.errors,
            openParens := parens, openBrackets := brackets }

variable {host}

/-! ### Symbols -/

theorem lexes_symbol {type : TokenType} {text : String} (hne : lit text ≠ [])
    (hend : ∀ tokens errors parens brackets, ∃ parens' brackets',
      scanToken host { source := lit text, tokens, errors, openParens := parens,
                       openBrackets := brackets } =
        .ok { source := [], tokens := tokens ++ [Spell.symbol type text], errors,
              openParens := parens', openBrackets := brackets' })
    (hspace : ∀ more tokens errors parens brackets, ∃ parens' brackets',
      scanToken host { source := lit text ++ 32 :: more, tokens, errors, openParens := parens,
                       openBrackets := brackets } =
        .ok { source := 32 :: more, tokens := tokens ++ [Spell.symbol type text], errors,
              openParens := parens', openBrackets := brackets' }) :
    Lexes host (Spell.symbol type text) := by
  refine ⟨hne, ?_⟩
  rintro ⟨source, tokens, errors, parens, brackets⟩ rest hends hsource
  change source = lit text ++ rest at hsource
  subst hsource
  rcases hends with rfl | ⟨more, rfl⟩
  · rw [List.append_nil]
    exact hend tokens errors parens brackets
  · exact hspace more tokens errors parens brackets

theorem lexes_unary (op : UnaryOp) : Lexes host (Spell.unary op) := by
  cases op <;>
    exact lexes_symbol (by decide) (fun _ _ _ _ => ⟨_, _, rfl⟩) fun _ _ _ _ _ => ⟨_, _, rfl⟩

theorem lexes_binary (op : BinaryOp) : Lexes host (Spell.binary op) := by
  cases op <;>
    exact lexes_symbol (by decide) (fun _ _ _ _ => ⟨_, _, rfl⟩) fun _ _ _ _ _ => ⟨_, _, rfl⟩

theorem lexes_logical (op : LogicalOp) : Lexes host (Spell.logical op) := by
  cases op <;>
    exact lexes_symbol (by decide) (fun _ _ _ _ => ⟨_, _, rfl⟩) fun _ _ _ _ _ => ⟨_, _, rfl⟩

theorem lexes_punctuation : ∀ token ∈ [Spell.lparen, Spell.rparen, Spell.lbracket, Spell.rbracket,
    Spell.comma, Spell.equal, Spell.colon, Spell.questionMark, Spell.dot true, Spell.dot false],
    Lexes host token := by
  intro token htoken
  fin_cases htoken <;>
    exact lexes_symbol (by decide) (fun _ _ _ _ => ⟨_, _, rfl⟩) fun _ _ _ _ _ => ⟨_, _, rfl⟩

/-! ### Runs of characters -/

theorem Ends.head {rest : CString} (h : Ends rest) {c : UInt8} (hc : rest.head? = some c) : c = 32 := by
  rcases h with rfl | ⟨more, rfl⟩
  · cases hc
  · injection hc with hc
    exact hc.symm

section Runs

variable {accepts : UInt8 → Bool} {run rest : CString}

theorem takeWhile_run (hrun : run.all accepts = true) (hrest : ∀ c, rest.head? = some c → accepts c = false) :
    (run ++ rest).takeWhile accepts = run := by
  rw [List.takeWhile_append_of_pos fun c hc => List.all_eq_true.mp hrun c hc]
  cases rest with
  | nil => simp
  | cons c rest => simp [List.takeWhile, hrest c rfl]

theorem dropWhile_run (hrun : run.all accepts = true) (hrest : ∀ c, rest.head? = some c → accepts c = false) :
    (run ++ rest).dropWhile accepts = rest := by
  rw [List.dropWhile_append_of_pos fun c hc => List.all_eq_true.mp hrun c hc]
  cases rest with
  | nil => rfl
  | cons c rest => exact List.dropWhile_cons_of_neg (by simp [hrest c rfl])

end Runs

/-! ### Words -/

theorem alpha_not_digit {c : UInt8} (h : isAlpha c = true) : isDigit c = false := by
  have hbounds : byte '0' = 48 ∧ byte '9' = 57 ∧ byte 'a' = 97 ∧ byte 'z' = 122 ∧ byte 'A' = 65 ∧
      byte 'Z' = 90 ∧ byte '_' = 95 := by decide
  obtain ⟨h0, h9, ha, hz, hA, hZ, hunderscore⟩ := hbounds
  rw [isAlpha, ha, hz, hA, hZ, hunderscore] at h
  rw [isDigit, h0, h9]
  grind

theorem lexes_word {name : CString} (hname : isWord name = true) : Lexes host (Spell.word name) := by
  cases name with
  | nil => cases hname
  | cons first letters =>
      rw [isWord, Bool.and_eq_true] at hname
      obtain ⟨hfirst, hletters⟩ := hname
      refine ⟨by rw [word_lexeme]; simp, ?_⟩
      rintro ⟨source, tokens, errors, parens, brackets⟩ rest hends hsource
      rw [word_lexeme] at hsource
      change source = first :: (letters ++ rest) at hsource
      subst hsource
      have hstop : ∀ c, rest.head? = some c → isAlphaNumeric c = false := by
        intro c hc
        rw [hends.head hc]
        rfl
      have htext := takeWhile_run hletters hstop
      have hrest := dropWhile_run hletters hstop
      refine ⟨parens, brackets, ?_⟩
      have hquote : ¬((first :: letters) = lit "r" ∧
          (rest.head? = some (byte '\x22') ∨ rest.head? = some (byte '\x27'))) := by
        rintro ⟨-, hquote | hquote⟩
        · exact absurd (hends.head hquote) (by decide)
        · exact absurd (hends.head hquote) (by decide)
      simp only [scanToken, alpha_not_digit hfirst, hfirst, Bool.false_eq_true, if_false, if_true,
        scanIdentifier, htext, hrest, Spell.word]
      cases lookup keywords (first :: letters) with
      | some type => rfl
      | none =>
          rw [if_neg hquote]
          rfl

/-! ### Numbers -/

theorem scanFraction_none {rest : CString} (h : Ends rest) : scanFraction rest = [] := by
  rcases h with rfl | ⟨more, rfl⟩
  · rfl
  · cases more with
    | nil => rfl
    | cons d more =>
        rw [scanFraction, if_neg fun hpoint => absurd hpoint.1 (by decide)]

theorem scanExponent_none {rest : CString} (h : Ends rest) : scanExponent rest = ([], false) := by
  rcases h with rfl | ⟨more, rfl⟩
  · rfl
  · rw [scanExponent, if_neg (by decide)]

theorem digit_stops {rest : CString} (h : Ends rest) : ∀ c, rest.head? = some c → isDigit c = false := by
  intro c hc
  rw [h.head hc]
  rfl

/-- A number is scanned with its fraction, if there is one. -/
theorem scanNumber_eq {first : UInt8} {whole fraction rest : CString} {value : Literal} {s : LexerState}
    (hwhole : whole.all isDigit = true) (hsource : s.source = whole ++ (fraction ++ rest))
    (hstop : ∀ c, (fraction ++ rest).head? = some c → isDigit c = false)
    (hfraction : scanFraction (fraction ++ rest) = fraction) (hends : Ends rest)
    (hvalue : (if fraction.isEmpty then decimalLiteral host (first :: whole)
      else (host.stod (first :: whole ++ fraction)).map .double) = some value) :
    scanNumber host first s =
      .ok ({ s with source := rest }.addToken .NUMBER (first :: whole ++ fraction) value) := by
  have htake : s.source.takeWhile isDigit = whole := by
    rw [hsource]
    exact takeWhile_run hwhole hstop
  have hdrop : s.source.drop whole.length = fraction ++ rest := by
    rw [hsource, List.drop_left]
  have hdropAll : s.source.drop (whole.length + fraction.length) = rest := by
    rw [← List.drop_drop, hdrop, List.drop_left]
  simp only [scanNumber, htake, hdrop, hfraction, hdropAll, scanExponent_none hends, List.append_nil,
    List.isEmpty_nil, Bool.and_true, List.length_nil, Nat.add_zero, Bool.false_eq_true, if_false]
  cases fraction with
  | nil =>
      rw [List.isEmpty_nil, if_pos rfl] at hvalue
      rw [List.isEmpty_nil, if_pos rfl, List.append_nil, hvalue]
  | cons point digits =>
      rw [List.isEmpty_cons, if_neg (by decide)] at hvalue
      rw [List.isEmpty_cons, if_neg (by decide), hvalue]

/-- A point and digits, or nothing. -/
def IsFraction (fraction : CString) : Prop :=
  fraction = [] ∨ ∃ d digits, fraction = byte '.' :: d :: digits ∧ (d :: digits).all isDigit = true

theorem IsFraction.scan {fraction rest : CString} (h : IsFraction fraction) (hends : Ends rest) :
    scanFraction (fraction ++ rest) = fraction := by
  rcases h with rfl | ⟨d, digits, rfl, hdigits⟩
  · exact scanFraction_none hends
  · have hd : isDigit d = true := by
      rw [List.all_cons, Bool.and_eq_true] at hdigits
      exact hdigits.1
    change scanFraction (byte '.' :: d :: (digits ++ rest)) = _
    rw [scanFraction, if_pos ⟨rfl, hd⟩]
    have htake := takeWhile_run hdigits (digit_stops hends)
    rw [List.cons_append] at htake
    rw [htake]

theorem IsFraction.head {fraction rest : CString} (h : IsFraction fraction) (hends : Ends rest) :
    ∀ c, (fraction ++ rest).head? = some c → c = byte '.' ∨ c = 32 := by
  intro c hc
  rcases h with rfl | ⟨d, digits, rfl, -⟩
  · exact .inr (hends.head hc)
  · injection hc with hc
    exact .inl hc.symm

theorem lexes_number {first : UInt8} {whole fraction : CString} {value : Literal}
    (hfirst : isDigit first = true) (hwhole : whole.all isDigit = true) (hfraction : IsFraction fraction)
    (hvalue : (if fraction.isEmpty then decimalLiteral host (first :: whole)
      else (host.stod (first :: whole ++ fraction)).map .double) = some value) :
    Lexes host { type := .NUMBER, lexeme := first :: whole ++ fraction, literal := value } := by
  refine ⟨by simp, ?_⟩
  rintro ⟨source, tokens, errors, parens, brackets⟩ rest hends hsource
  change source = first :: (whole ++ fraction ++ rest) at hsource
  rw [List.append_assoc] at hsource
  subst hsource
  have hstop : ∀ c, (fraction ++ rest).head? = some c → isDigit c = false := by
    intro c hc
    rcases hfraction.head hends c hc with rfl | rfl <;> rfl
  have hmark : ∀ c, (whole ++ (fraction ++ rest)).take 1 = [c] →
      isDigit c = true ∨ c = byte '.' ∨ c = 32 := by
    intro c hc
    cases whole with
    | nil =>
        right
        apply hfraction.head hends
        rw [List.nil_append] at hc
        cases hrest : fraction ++ rest with
        | nil =>
            rw [hrest] at hc
            cases hc
        | cons d more =>
            rw [hrest] at hc
            injection hc with hd
            rw [hd]
            rfl
    | cons d digits =>
        injection hc with hd
        rw [List.all_cons, Bool.and_eq_true, hd] at hwhole
        exact .inl hwhole.1
  have hletter : ∀ c, isDigit c = false → c ≠ byte '.' → c ≠ 32 →
      (whole ++ (fraction ++ rest)).take 1 ≠ [c] := by
    intro c hdigit hpoint hspace hc
    rcases hmark c hc with hc | hc | hc
    · rw [hdigit] at hc
      cases hc
    · exact hpoint hc
    · exact hspace hc
  have hhex : ¬(first = byte '0' ∧ ((whole ++ (fraction ++ rest)).take 1 = lit "x" ∨
      (whole ++ (fraction ++ rest)).take 1 = lit "X")) := by
    rintro ⟨-, hx | hx⟩
    · exact hletter (byte 'x') rfl (by decide) (by decide) hx
    · exact hletter (byte 'X') rfl (by decide) (by decide) hx
  have hbinary : ¬(first = byte '0' ∧ ((whole ++ (fraction ++ rest)).take 1 = lit "b" ∨
      (whole ++ (fraction ++ rest)).take 1 = lit "B")) := by
    rintro ⟨-, hb | hb⟩
    · exact hletter (byte 'b') rfl (by decide) (by decide) hb
    · exact hletter (byte 'B') rfl (by decide) (by decide) hb
  refine ⟨parens, brackets, ?_⟩
  simp only [scanToken, hfirst, if_true, if_neg hhex, if_neg hbinary]
  exact scanNumber_eq hwhole rfl hstop (hfraction.scan hends) hends hvalue

/-! ### Decimals -/

theorem byte_of_digit {c : Char} (h : c.isDigit = true) :
    isDigit (byte c) = true ∧ digitValue (byte c) = c.toNat - 48 := by
  have hbounds : 48 ≤ c.toNat ∧ c.toNat ≤ 57 := Char.isDigit_iff_toNat.mp h
  obtain ⟨hlow, hhigh⟩ := hbounds
  have hnat : (byte c).toNat = c.toNat := by
    rw [byte, UInt8.toNat_ofNat']
    omega
  have hdigit : isDigit (byte c) = true := by
    have hzero : (byte '0').toNat = 48 := rfl
    have hnine : (byte '9').toNat = 57 := rfl
    rw [isDigit, Bool.and_eq_true, decide_eq_true_eq, decide_eq_true_eq, UInt8.le_iff_toNat_le,
      UInt8.le_iff_toNat_le, hnat, hzero, hnine]
    exact ⟨hlow, hhigh⟩
  rw [digitValue, if_pos hdigit, hnat]
  exact ⟨hdigit, rfl⟩

theorem numeralValue_bytes {chars : List Char} (h : ∀ c ∈ chars, c.isDigit = true) (n : Nat) :
    (chars.map byte).foldl (fun n c => n * 10 + digitValue c) n = Nat.ofDigitChars 10 chars n := by
  induction chars generalizing n with
  | nil => simp
  | cons c chars ih =>
      have hc := byte_of_digit (h c List.mem_cons_self)
      rw [List.map_cons, List.foldl_cons, hc.2, Nat.ofDigitChars_cons,
        ih fun d hd => h d (List.mem_cons_of_mem c hd), Nat.mul_comm]
      rfl

theorem decimal_digits (n : Nat) : (Spell.decimal n).all isDigit = true ∧ Spell.decimal n ≠ [] ∧
    numeralValue 10 (Spell.decimal n) = n := by
  have hdigits : ∀ c ∈ Nat.toDigits 10 n, c.isDigit = true := by
    intro c hc
    exact Nat.isDigit_of_mem_toDigits (by decide) (by decide) hc
  constructor
  · rw [Spell.decimal, List.all_eq_true]
    intro b hb
    obtain ⟨c, hc, rfl⟩ := List.mem_map.mp hb
    exact (byte_of_digit (hdigits c hc)).1
  · constructor
    · simp [Spell.decimal, Nat.toDigits_ne_nil]
    · rw [numeralValue, Spell.decimal, numeralValue_bytes hdigits]
      exact Nat.ofDigitChars_toDigits (by decide) (by decide)

theorem lexes_int {i : Int64} (h : 0 ≤ i.toInt) (double : UInt64 → CString) :
    Lexes host (Spell.literal double (.int i)) := by
  obtain ⟨hdigits, hne, hvalue⟩ := decimal_digits i.toInt.toNat
  rw [Spell.literal]
  cases htext : Spell.decimal i.toInt.toNat with
  | nil => exact absurd htext hne
  | cons first whole =>
      rw [htext] at hdigits hvalue
      rw [List.all_cons, Bool.and_eq_true] at hdigits
      have hliteral : decimalLiteral host (first :: whole) = some (.int i) := by
        have hlt : i.toInt.toNat < 2 ^ 63 := by
          have := i.toInt_lt
          omega
        have hback : Int64.ofNat i.toInt.toNat = i := by
          apply Int64.toInt.inj
          rw [Int64.toInt_ofNat_of_lt hlt, Int.toNat_of_nonneg h]
        rw [decimalLiteral, hvalue, if_pos hlt, hback]
      have hlexes := lexes_number hdigits.1 hdigits.2 (.inl rfl)
        (show (if ([] : CString).isEmpty then decimalLiteral host (first :: whole)
          else _) = some (.int i) from hliteral)
      rw [List.append_nil] at hlexes
      exact hlexes

theorem lexes_double {bits : UInt64} {double : UInt64 → CString}
    (h : Literal.Writable host double (.double bits)) :
    Lexes host (Spell.literal double (.double bits)) := by
  obtain ⟨⟨first, whole, point, fraction, htext, hpoint, hfirst, hwhole, hne, hfraction⟩, hstod⟩ := h
  rw [Spell.literal, htext]
  rw [htext] at hstod
  subst hpoint
  cases fraction with
  | nil => exact absurd rfl hne
  | cons d digits =>
      apply lexes_number hfirst hwhole (.inr ⟨d, digits, rfl, hfraction⟩)
      rw [List.isEmpty_cons, if_neg (by decide), hstod]
      rfl

/-! ### Strings -/

theorem quoteBody_cons (c : UInt8) (value : CString) :
    Spell.quoteBody (c :: value) =
      (if c = 34 then [92, 34] else if c = 92 then [92, 92] else if c = 10 then [92, 110] else [c]) ++
        Spell.quoteBody value := rfl

/-- The characters of a quoted string are scanned one after the other. -/
theorem scanStringBody_quoteBody (value acc rest : CString) (fuel : Nat) (s : LexerState)
    (hfuel : (Spell.quoteBody value).length < fuel)
    (hsource : s.source = Spell.quoteBody value ++ 34 :: rest) :
    scanStringBody 34 false fuel acc s = (some (acc ++ value), { s with source := 34 :: rest }) := by
  induction value generalizing acc fuel s with
  | nil =>
      obtain ⟨fuel, rfl⟩ : ∃ left, fuel = left + 1 := ⟨fuel - 1, by omega⟩
      obtain ⟨source, tokens, errors, parens, brackets⟩ := s
      change source = 34 :: rest at hsource
      subst hsource
      rw [List.append_nil]
      rfl
  | cons c value ih =>
      obtain ⟨fuel, rfl⟩ : ∃ left, fuel = left + 1 := ⟨fuel - 1, by omega⟩
      obtain ⟨source, tokens, errors, parens, brackets⟩ := s
      have hacc : acc ++ c :: value = acc ++ [c] ++ value := by simp
      rw [quoteBody_cons, List.append_assoc] at hsource
      rw [quoteBody_cons, List.length_append] at hfuel
      change source = _ at hsource
      subst hsource
      rw [hacc]
      by_cases hquote : c = 34
      · subst hquote
        apply ih (acc ++ [34]) fuel
        · change 2 + _ < _ at hfuel
          omega
        · rfl
      by_cases hslash : c = 92
      · subst hslash
        apply ih (acc ++ [92]) fuel
        · change 2 + _ < _ at hfuel
          omega
        · rfl
      by_cases hnewline : c = 10
      · subst hnewline
        apply ih (acc ++ [10]) fuel
        · change 2 + _ < _ at hfuel
          omega
        · rfl
      · rw [if_neg hquote, if_neg hslash, if_neg hnewline] at hfuel ⊢
        have hbackslash : byte '\x5c' = 92 := rfl
        simp only [List.singleton_append, scanStringBody, Bool.false_and, Bool.not_false, Bool.true_and,
          beq_iff_eq, hquote, hnewline, hbackslash, hslash, Bool.false_eq_true, if_false]
        apply ih (acc ++ [c]) fuel
        · change 1 + _ < _ at hfuel
          omega
        · rfl

/-- A quoted string does not look like the start of a multiline one. -/
theorem quote_not_triple (value rest : CString) (hends : Ends rest) :
    tripleQuote.isPrefixOf (34 :: (Spell.quoteBody value ++ 34 :: rest)) = false := by
  cases value with
  | nil => rcases hends with rfl | ⟨more, rfl⟩ <;> rfl
  | cons c value =>
      rw [quoteBody_cons]
      by_cases hquote : c = 34
      · subst hquote
        rfl
      by_cases hslash : c = 92
      · subst hslash
        rfl
      by_cases hnewline : c = 10
      · subst hnewline
        rfl
      · have hne : ((34 : UInt8) == c) = false := by
          rw [beq_eq_false_iff_ne]
          exact fun heq => hquote heq.symm
        rw [if_neg hquote, if_neg hslash, if_neg hnewline]
        change ((34 : UInt8) == 34 && ((34 : UInt8) == c && _)) = false
        rw [hne, Bool.false_and, Bool.and_false]

theorem lexes_string (value : CString) (double : UInt64 → CString) :
    Lexes host (Spell.literal double (.string value)) := by
  refine ⟨by simp [Spell.literal, Spell.quote, lit], ?_⟩
  rintro ⟨source, tokens, errors, parens, brackets⟩ rest hends hsource
  have hquote : (Spell.literal double (.string value)).lexeme =
      34 :: (Spell.quoteBody value ++ [34]) := rfl
  rw [hquote, List.cons_append, List.append_assoc, List.singleton_append] at hsource
  change source = _ at hsource
  subst hsource
  have hbody := scanStringBody_quoteBody value [] rest
    ((Spell.quoteBody value ++ 34 :: rest).length + 1)
    { source := Spell.quoteBody value ++ 34 :: rest, tokens, errors, openParens := parens,
      openBrackets := brackets }
    (by simp only [List.length_append, List.length_cons]; omega) rfl
  have hlexeme : (34 :: (Spell.quoteBody value ++ 34 :: rest)).take
      ((34 :: (Spell.quoteBody value ++ 34 :: rest)).length - rest.length) =
        34 :: (Spell.quoteBody value ++ [34]) := by
    have hsplit : 34 :: (Spell.quoteBody value ++ 34 :: rest) =
        (34 :: (Spell.quoteBody value ++ [34])) ++ rest := by simp
    rw [hsplit, List.length_append, Nat.add_sub_cancel, List.take_left]
  refine ⟨parens, brackets, ?_⟩
  change Except.ok (scanString 34 _) = _
  rw [scanString]
  simp only [quote_not_triple value rest hends, Bool.and_false, Bool.false_eq_true, if_false, hbody,
    List.nil_append, List.drop_one, List.tail_cons, hlexeme]
  rfl

theorem lexes_literal {value : Literal} {double : UInt64 → CString}
    (h : value.Writable host double) : Lexes host (Spell.literal double value) := by
  cases value with
  | nil => exact lexes_word rfl
  | bool b =>
      cases b with
      | true => exact lexes_word rfl
      | false => exact lexes_word rfl
  | int i => exact lexes_int h double
  | double bits => exact lexes_double h
  | string value => exact lexes_string value double

/-! ### The tokens of a tree -/

theorem scanTokens_end (fuel : Nat) {s : LexerState} (hsource : s.source = []) :
    scanTokens host fuel s = .ok s := by
  cases fuel with
  | zero => rfl
  | succ fuel =>
      rw [scanTokens, hsource]
      rfl

theorem scanTokens_step {fuel : Nat} {s s' : LexerState} (hsource : s.source ≠ [])
    (h : scanToken host s = .ok s') : scanTokens host (fuel + 1) s = scanTokens host fuel s' := by
  have hempty : s.source.isEmpty = false := by
    cases hcase : s.source with
    | nil => exact absurd hcase hsource
    | cons c rest => rfl
  rw [scanTokens, hempty, if_neg (by decide), h]

/-- Tokens with a space between them are read back. -/
theorem scanTokens_render (tokens : List Token) (hlexes : ∀ token ∈ tokens, Lexes host token)
    (fuel : Nat) (s : LexerState) (hsource : s.source = render tokens)
    (hfuel : (render tokens).length ≤ fuel) :
    ∃ parens brackets, scanTokens host fuel s =
      .ok { source := [], tokens := s.tokens ++ tokens, errors := s.errors, openParens := parens,
            openBrackets := brackets } := by
  induction tokens generalizing fuel s with
  | nil =>
      obtain ⟨source, tokens, errors, parens, brackets⟩ := s
      change source = [] at hsource
      subst hsource
      refine ⟨parens, brackets, ?_⟩
      rw [List.append_nil]
      exact scanTokens_end fuel rfl
  | cons token tokens ih =>
      obtain ⟨hne, htoken⟩ := hlexes token List.mem_cons_self
      have hlength := List.length_pos_iff.mpr hne
      cases tokens with
      | nil =>
          change s.source = token.lexeme at hsource
          change token.lexeme.length ≤ fuel at hfuel
          obtain ⟨fuel, rfl⟩ : ∃ left, fuel = left + 1 := ⟨fuel - 1, by omega⟩
          obtain ⟨parens, brackets, hscan⟩ := htoken s [] (.inl rfl) (by rw [hsource, List.append_nil])
          refine ⟨parens, brackets, ?_⟩
          rw [scanTokens_step (by rw [hsource]; exact hne) hscan]
          exact scanTokens_end fuel rfl
      | cons next tokens =>
          change s.source = token.lexeme ++ 32 :: render (next :: tokens) at hsource
          change (token.lexeme ++ 32 :: render (next :: tokens)).length ≤ fuel at hfuel
          rw [List.length_append, List.length_cons] at hfuel
          obtain ⟨fuel, rfl⟩ : ∃ left, fuel = left + 2 := ⟨fuel - 2, by omega⟩
          obtain ⟨parens, brackets, hscan⟩ := htoken s _ (.inr ⟨_, rfl⟩) hsource
          obtain ⟨parens', brackets', hrest⟩ := ih
            (fun token htoken => hlexes token (List.mem_cons_of_mem _ htoken)) fuel
            { source := render (next :: tokens), tokens := s.tokens ++ [token], errors := s.errors,
              openParens := parens, openBrackets := brackets } rfl (by omega)
          refine ⟨parens', brackets', ?_⟩
          have hnonempty : s.source ≠ [] := by
            rw [hsource]
            simp
          have hspace : scanToken host
              { source := 32 :: render (next :: tokens), tokens := s.tokens ++ [token],
                errors := s.errors, openParens := parens, openBrackets := brackets } =
              .ok { source := render (next :: tokens), tokens := s.tokens ++ [token],
                    errors := s.errors, openParens := parens, openBrackets := brackets } := rfl
          rw [scanTokens_step hnonempty hscan, scanTokens_step (by simp) hspace, hrest]
          simp

section Trees

variable {p : Printing}

theorem lexes_enclose {place : Nat} {tree : ExprTree} {tokens : List Token}
    (h : ∀ token ∈ tokens, Lexes host token) : ∀ token ∈ p.enclose place tree tokens, Lexes host token := by
  intro token htoken
  rw [Printing.enclose] at htoken
  split at htoken
  · rw [List.cons_append, List.mem_cons, List.mem_append, List.mem_singleton] at htoken
    rcases htoken with rfl | htoken | rfl
    · exact lexes_punctuation _ (by simp)
    · exact h token htoken
    · exact lexes_punctuation _ (by simp)
  · exact h token htoken

theorem isWord_of_isIdentifier {name : CString} (h : isIdentifier name = true) : isWord name = true := by
  rw [isIdentifier, Bool.and_eq_true] at h
  exact h.1

theorem lexes_dot (isOptional : Bool) : Lexes host (Spell.dot isOptional) := by
  cases isOptional with
  | true => exact lexes_punctuation _ (by simp)
  | false => exact lexes_punctuation _ (by simp)

mutual

theorem tokens_lex (tree : ExprTree) (h : tree.Writable host p) :
    ∀ token ∈ tree.tokens p, Lexes host token := by
  intro token htoken
  match tree with
  | .literal value =>
      rw [ExprTree.tokens, List.mem_singleton] at htoken
      rw [htoken]
      exact lexes_literal h
  | .identifier name =>
      rw [ExprTree.tokens, List.mem_singleton] at htoken
      rw [htoken]
      exact lexes_word (isWord_of_isIdentifier h)
  | .unary op operand =>
      rw [ExprTree.tokens, List.mem_cons] at htoken
      rcases htoken with rfl | htoken
      · exact lexes_unary op
      · exact lexes_enclose (tokens_lex operand h) token htoken
  | .binary left op right =>
      rw [ExprTree.tokens, List.mem_append, List.mem_cons] at htoken
      rcases htoken with htoken | rfl | htoken
      · exact lexes_enclose (tokens_lex left h.1) token htoken
      · exact lexes_binary op
      · exact lexes_enclose (tokens_lex right h.2) token htoken
  | .logical left op right =>
      rw [ExprTree.tokens, List.mem_append, List.mem_cons] at htoken
      rcases htoken with htoken | rfl | htoken
      · exact lexes_enclose (tokens_lex left h.1) token htoken
      · exact lexes_logical op
      · exact lexes_enclose (tokens_lex right h.2) token htoken
  | .ternary condition thenBranch elseBranch =>
      rw [ExprTree.tokens, List.mem_append, List.mem_cons, List.mem_append, List.mem_cons] at htoken
      rcases htoken with htoken | rfl | htoken | rfl | htoken
      · exact lexes_enclose (tokens_lex condition h.1) token htoken
      · exact lexes_punctuation _ (by simp)
      · exact lexes_enclose (tokens_lex thenBranch h.2.1) token htoken
      · exact lexes_punctuation _ (by simp)
      · exact lexes_enclose (tokens_lex elseBranch h.2.2) token htoken
  | .call callee arguments =>
      rw [ExprTree.tokens, List.mem_append, List.mem_append, List.mem_cons, List.mem_singleton] at htoken
      rcases htoken with (htoken | rfl | htoken) | rfl
      · exact lexes_enclose (tokens_lex callee h.1) token htoken
      · exact lexes_punctuation _ (by simp)
      · exact argument_tokens_lex arguments h.2 token (List.mem_of_mem_tail htoken)
      · exact lexes_punctuation _ (by simp)
  | .index object index =>
      rw [ExprTree.tokens, List.mem_append, List.mem_append, List.mem_cons, List.mem_singleton] at htoken
      rcases htoken with (htoken | rfl | htoken) | rfl
      · exact lexes_enclose (tokens_lex object h.1) token htoken
      · exact lexes_punctuation _ (by simp)
      · exact lexes_enclose (tokens_lex index h.2) token htoken
      · exact lexes_punctuation _ (by simp)
  | .property object name isOptional =>
      rw [ExprTree.tokens, List.mem_append, List.mem_cons, List.mem_singleton] at htoken
      rcases htoken with htoken | rfl | rfl
      · exact lexes_enclose (tokens_lex object h.1) token htoken
      · exact lexes_dot isOptional
      · exact lexes_word h.2

theorem argument_tokens_lex (arguments : ArgumentTrees) (h : arguments.Writable host p) :
    ∀ token ∈ arguments.tokens p, Lexes host token := by
  intro token htoken
  match arguments with
  | .nil => cases htoken
  | .cons name value rest =>
      obtain ⟨hname, hvalue, hrest⟩ := h
      rw [ArgumentTrees.tokens, List.mem_append, List.mem_append, List.mem_cons] at htoken
      rcases htoken with ((rfl | htoken) | htoken) | htoken
      · exact lexes_punctuation _ (by simp)
      · rw [argumentName] at htoken
        split at htoken
        · cases htoken
        · rename_i hne
          rw [List.mem_cons, List.mem_singleton] at htoken
          rcases htoken with rfl | rfl
          · rcases hname with rfl | hname
            · exact absurd rfl hne
            · exact lexes_word (isWord_of_isIdentifier hname)
          · exact lexes_punctuation _ (by simp)
      · exact lexes_enclose (tokens_lex value hvalue) token htoken
      · exact argument_tokens_lex rest hrest token htoken

end

/-- A printed tree is read back token for token. -/
theorem tokenize_print {tree : ExprTree} (h : tree.Writable host p) :
    tokenize host (render (tree.print p)) = .ok (tree.print p ++ [endOfFile], []) := by
  obtain ⟨parens, brackets, hscan⟩ := scanTokens_render (tree.print p)
    (lexes_enclose (tokens_lex tree h)) (render (tree.print p)).length
    { source := render (tree.print p) } rfl (Nat.le_refl _)
  rw [tokenize, hscan]
  rfl

end Trees

end EZLanguage
