import EZLanguage.Parser.ExprReading
import EZLanguage.Parser.ExprLexing

/-!
# Expressions come back from their text

What the lexer and `Parser::expression` make together of the text of an expression.
-/

namespace EZLanguage

open Support Support.Reader EZLanguage.Parser

variable {S : Type}

/-- An expression from a source that the lexer accepts, and the tokens after it. -/
def readExpression (host : LexerHost) (declaration : StatementParser S) (source : CString) :
    Except String (ParsedExpr S × List Token) :=
  match Lexer.tokenize host source with
  | .ok (tokens, []) => Parser.expression declaration tokens
  | .ok (_, message :: _) => .error message
  | .error exception => .error exception

theorem readExpression_print {host : LexerHost} {declaration : StatementParser S} {p : Printing}
    {tree : ExprTree} (hwritable : tree.Writable host p) :
    readExpression host declaration (render (tree.print p)) =
      Parser.expression declaration (tree.print p ++ [Lexer.endOfFile]) := by
  rw [readExpression, tokenize_print hwritable]

theorem expression_print {host : LexerHost} {declaration : StatementParser S} {p : Printing}
    {tree : ExprTree} (hwritable : tree.Writable host p) (hdepth : tree.depth p ≤ MAX_DEPTH) :
    Parser.expression declaration (tree.print p ++ [Lexer.endOfFile]) =
      .ok (tree.expr, [Lexer.endOfFile]) := by
  have hread : ReadBack declaration p tree := readBack tree hwritable
  have hexpression := hread.bracketed (tokens_open tree hwritable) hdepth
    (Nat.le_trans (Nat.le_add_left MAX_DEPTH (tree.print p ++ [Lexer.endOfFile]).length)
      (Nat.le_succ _))
  rw [Parser.expression]
  apply hexpression
  exact Nat.le_refl 16

/-- A printed tree is read back, and no other tree has its text, in whatever printing: with the
parentheses required and any others, as long as no more than 100 expressions are nested. -/
theorem expression_roundTrip (host : LexerHost) (declaration : StatementParser S) (p : Printing)
    (tree : ExprTree) (hwritable : tree.Writable host p) (hdepth : tree.depth p ≤ MAX_DEPTH) :
    readExpression host declaration (render (tree.print p)) = .ok (tree.expr, [Lexer.endOfFile]) ∧
      ∀ (p' : Printing) (tree' : ExprTree), tree'.Writable host p' → tree'.depth p' ≤ MAX_DEPTH →
        render (tree'.print p') = render (tree.print p) →
          (tree'.expr : ParsedExpr S) = tree.expr := by
  have hroundTrip : ∀ (p : Printing) (tree : ExprTree), tree.Writable host p →
      tree.depth p ≤ MAX_DEPTH → readExpression host declaration (render (tree.print p)) =
        .ok (tree.expr, [Lexer.endOfFile]) := by
    intro p tree hwritable hdepth
    rw [readExpression_print hwritable, expression_print hwritable hdepth]
  refine ⟨hroundTrip p tree hwritable hdepth, ?_⟩
  intro p' tree' hwritable' hdepth' htext
  have hread := hroundTrip p' tree' hwritable' hdepth'
  rw [htext, hroundTrip p tree hwritable hdepth] at hread
  injection hread with hpair
  injection hpair with hexpr
  exact hexpr.symm

/-- A host whose double and template units are never reached. -/
def LexerHost.bare : LexerHost where
  stod _ := none
  scanInterpolatedString s := s

namespace Printing

/-- Only the parentheses required. -/
def minimal : Printing where
  double _ := []
  redundant _ _ := false

/-- Parentheses around every operation. -/
def full : Printing where
  double _ := []
  redundant _ tree := decide (0 < tree.level)

end Printing

/-- `-(2 ** x) - 1 + f(a ? b : c, key = s.name[0])` -/
def sampleTree : ExprTree :=
  .binary
    (.binary (.unary .MINUS (.binary (.literal (.int 2)) .STAR_STAR (.identifier (lit "x")))) .MINUS
      (.literal (.int 1)))
    .PLUS
    (.call (.identifier (lit "f"))
      (.cons [] (.ternary (.identifier (lit "a")) (.identifier (lit "b")) (.identifier (lit "c")))
        (.cons (lit "key") (.index (.property (.identifier (lit "s")) (lit "name") false)
          (.literal (.int 0))) .nil)))

theorem sampleTree_writable (p : Printing) : sampleTree.Writable .bare p := by
  refine ⟨⟨⟨?_, ?_⟩, ?_⟩, ?_, .inl rfl, ⟨?_, ?_, ?_⟩, .inr ?_, ⟨⟨?_, ?_⟩, ?_⟩, trivial⟩ <;>
    first
    | rfl
    | exact Int.le_of_lt (by decide)
    | exact Int.le_refl 0

theorem sampleTree_roundTrip :
    readExpression .bare (fun _ => (fail "" : ParserM (Option Unit)))
        (render (sampleTree.print .minimal)) = .ok (sampleTree.expr, [Lexer.endOfFile]) ∧
      readExpression .bare (fun _ => (fail "" : ParserM (Option Unit)))
        (render (sampleTree.print .full)) = .ok (sampleTree.expr, [Lexer.endOfFile]) :=
  ⟨(expression_roundTrip .bare _ .minimal sampleTree (sampleTree_writable _) (by decide)).1,
    (expression_roundTrip .bare _ .full sampleTree (sampleTree_writable _) (by decide)).1⟩

/-! ### Nested too deep -/

/-- `a[a[a[…]]]` -/
def deepTree : Nat → ExprTree
  | 0 => .identifier (lit "a")
  | n + 1 => .index (.identifier (lit "a")) (deepTree n)

theorem deepTree_tokens (n : Nat) :
    (deepTree (n + 1)).tokens .minimal = Spell.word (lit "a") :: Spell.lbracket ::
      ((deepTree n).tokens .minimal ++ [Spell.rbracket]) := by
  cases n <;> rfl

theorem deepTree_writable (n : Nat) (p : Printing) : (deepTree n).Writable .bare p := by
  induction n with
  | zero => rfl
  | succ n ih => exact ⟨rfl, ih⟩

/-- An error of the tightest level is one of every level. -/
theorem level_error {nested : Nested S} {tokens : List Token} {message : String}
    (hstart : ∀ entry ∈ prefixOperators, entry.1 ≠ peek tokens)
    (h : call nested tokens = .error message) (n : Nat) (hn : n ≤ 14) (fuel : Nat) :
    levelWithin nested fuel n tokens = .error message := by
  induction n generalizing fuel with
  | zero => exact h
  | succ n ih =>
      have hlevel := ih (by omega)
      by_cases hunary : n = 0
      · subst hunary
        cases fuel with
        | zero => exact h
        | succ fuel =>
            change (matchAny prefixOperators >>= _) _ = _
            rw [bind_of_ok (matchAny_none hstart)]
            exact h
      by_cases hpower : n = 1
      · subst hpower
        cases fuel with
        | zero => exact hlevel _
        | succ fuel => exact bind_of_error (hlevel tokens.length)
      by_cases hternary : n = 13
      · subst hternary
        cases fuel with
        | zero => exact hlevel 0
        | succ fuel => exact bind_of_error (hlevel 0)
      · rw [level_eq_chain (by omega) (by omega)]
        exact chain_of_error (hlevel tokens.length)

theorem assignment_error {nested : Nested S} {tokens : List Token} {message : String}
    (hstart : ∀ entry ∈ prefixOperators, entry.1 ≠ peek tokens)
    (h : call nested tokens = .error message) : assignment nested tokens = .error message := by
  have hternary : Parser.ternary nested tokens = .error message :=
    level_error hstart h 14 (Nat.le_refl 14) tokens.length
  rw [assignment]
  cases tokens.length with
  | zero => exact hternary
  | succ fuel => exact bind_of_error hternary

/-- A tree that is nested deeper than the parser has left is rejected, by induction on what is left. -/
theorem deepTree_rejected (declaration : StatementParser S) (depth fuel n : Nat) (rest : List Token)
    (hn : depth ≤ n) : ∃ message, (nestedWithin declaration fuel depth).expression
      ((deepTree n).tokens .minimal ++ rest) = .error message := by
  induction depth generalizing fuel n rest with
  | zero => cases fuel <;> exact ⟨_, rfl⟩
  | succ depth ih =>
      cases fuel with
      | zero => exact ⟨_, rfl⟩
      | succ fuel =>
          obtain ⟨n, rfl⟩ : ∃ inner, n = inner + 1 := ⟨n - 1, by omega⟩
          obtain ⟨message, hinner⟩ := ih fuel n (Spell.rbracket :: rest) (by omega)
          refine ⟨message, ?_⟩
          rw [deepTree_tokens, List.cons_append, List.cons_append, List.append_assoc,
            List.singleton_append]
          apply assignment_error
          · change ∀ entry ∈ prefixOperators, entry.1 ≠ (Spell.word (lit "a")).type
            decide
          · have hindex : finishIndex (nestedWithin declaration fuel depth)
                (.identifier (lit "a")) ((deepTree n).tokens .minimal ++ Spell.rbracket :: rest) =
                  .error message := bind_of_error hinner
            have hsuffix : suffix (nestedWithin declaration fuel depth) (.identifier (lit "a"))
                (Spell.lbracket :: ((deepTree n).tokens .minimal ++ Spell.rbracket :: rest)) =
                  .error message := bind_of_error hindex
            rw [call, Reader.chain]
            change iterate _ (_ + 1) (ParsedExpr.identifier (lit "a")) _ = _
            rw [iterate, hsuffix]

/-- The parser rejects a tree that is nested deeper than it allows. -/
theorem deepTree_not_roundTrip : (deepTree 100).Writable .bare .minimal ∧
    readExpression .bare (fun _ => (fail "" : ParserM (Option Unit)))
        (render ((deepTree 100).print .minimal)) ≠ .ok ((deepTree 100).expr, [Lexer.endOfFile]) := by
  refine ⟨deepTree_writable 100 .minimal, ?_⟩
  rw [readExpression_print (deepTree_writable 100 .minimal), Parser.expression]
  obtain ⟨message, hrejected⟩ := deepTree_rejected
    (fun _ => (fail "" : ParserM (Option Unit))) MAX_DEPTH
    (((deepTree 100).print .minimal ++ [Lexer.endOfFile]).length + MAX_DEPTH + 1) 100
    [Lexer.endOfFile] (Nat.le_refl 100)
  have hprint : (deepTree 100).print .minimal = (deepTree 100).tokens .minimal := rfl
  rw [hprint] at hrejected ⊢
  rw [hrejected]
  exact fun h => nomatch h

end EZLanguage
