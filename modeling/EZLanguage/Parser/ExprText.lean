import EZLanguage.Parser.ParserExpr

/-!
# Expressions and their text

The trees of operators, calls, indexing and property access, and how they are written: with the
parentheses that precedence and associativity require, and with any others besides. The levels are those
of the precedence table; the operators it leaves out are `**`, which binds tighter than `*` and looser
than a prefix, `in`, a comparison, and the ternary, which is below `??`.
-/

namespace EZLanguage

mutual

inductive ExprTree where
  | literal (value : Literal)
  | identifier (name : CString)
  | unary (op : UnaryOp) (operand : ExprTree)
  | binary (left : ExprTree) (op : BinaryOp) (right : ExprTree)
  | logical (left : ExprTree) (op : LogicalOp) (right : ExprTree)
  | ternary (condition thenBranch elseBranch : ExprTree)
  | call (callee : ExprTree) (arguments : ArgumentTrees)
  | index (object index : ExprTree)
  | property (object : ExprTree) (name : CString) (isOptional : Bool)

/-- The arguments of a call; the name of a positional one is empty. -/
inductive ArgumentTrees where
  | nil
  | cons (name : CString) (value : ExprTree) (rest : ArgumentTrees)

end

variable {S : Type}

mutual

/-- The tree as the parser builds it. -/
def ExprTree.expr : ExprTree → ParsedExpr S
  | .literal value => .literal value
  | .identifier name => .identifier name
  | .unary op operand => .mk (.UnaryExpr op operand.expr)
  | .binary left op right => .mk (.BinaryExpr left.expr op right.expr)
  | .logical left op right => .mk (.LogicalExpr left.expr op right.expr)
  | .ternary condition thenBranch elseBranch =>
      .mk (.TernaryExpr condition.expr thenBranch.expr elseBranch.expr)
  | .call callee arguments => .mk (.CallExpr callee.expr arguments.exprs)
  | .index object index => .mk (.IndexExpr object.expr index.expr)
  | .property object name isOptional => .mk (.PropertyAccessExpr object.expr name isOptional)

def ArgumentTrees.exprs : ArgumentTrees → List (Argument (ParsedExpr S))
  | .nil => []
  | .cons name value rest => { name, value := value.expr } :: rest.exprs

end

/-! ### Levels -/

/-- The level of an operator; the tightest is the lowest. -/
def BinaryOp.level : BinaryOp → Nat
  | STAR_STAR => 2
  | STAR | SLASH | PERCENT => 3
  | PLUS | MINUS => 4
  | LSHIFT | RSHIFT => 5
  | LESS | LESS_EQUAL | GREATER | GREATER_EQUAL | IN => 6
  | EQUAL_EQUAL | BANG_EQUAL => 7
  | AMPERSAND => 8
  | CARET => 9
  | PIPE => 10

def LogicalOp.level : LogicalOp → Nat
  | AND => 11
  | OR => 12
  | QUESTION_QUESTION => 13

/-- The loosest level an operand may have without parentheses: `**` associates to the right. -/
def BinaryOp.leftLevel (op : BinaryOp) : Nat := if op = STAR_STAR then 1 else op.level

def BinaryOp.rightLevel (op : BinaryOp) : Nat := if op = STAR_STAR then op.level else op.level - 1

namespace ExprTree

def looseLevel : Nat := 14

def level : ExprTree → Nat
  | unary _ _ => 1
  | binary _ op _ => op.level
  | logical _ op _ => op.level
  | ternary _ _ _ => looseLevel
  | _ => 0

end ExprTree

/-! ### Tokens -/

namespace Spell

def symbol (type : TokenType) (text : String) : Token := { type, lexeme := lit text }

def unary : UnaryOp → Token
  | .MINUS => symbol .MINUS "-"
  | .NOT => symbol .NOT "not"
  | .BANG => symbol .BANG "!"
  | .TILDE => symbol .TILDE "~"

def binary : BinaryOp → Token
  | .PLUS => symbol .PLUS "+"
  | .MINUS => symbol .MINUS "-"
  | .STAR => symbol .STAR "*"
  | .STAR_STAR => symbol .STAR_STAR "**"
  | .SLASH => symbol .SLASH "/"
  | .PERCENT => symbol .PERCENT "%"
  | .AMPERSAND => symbol .AMPERSAND "&"
  | .PIPE => symbol .PIPE "|"
  | .CARET => symbol .CARET "^"
  | .LSHIFT => symbol .LSHIFT "<<"
  | .RSHIFT => symbol .RSHIFT ">>"
  | .EQUAL_EQUAL => symbol .EQUAL_EQUAL "=="
  | .BANG_EQUAL => symbol .BANG_EQUAL "!="
  | .LESS => symbol .LESS "<"
  | .LESS_EQUAL => symbol .LESS_EQUAL "<="
  | .GREATER => symbol .GREATER ">"
  | .GREATER_EQUAL => symbol .GREATER_EQUAL ">="
  | .IN => symbol .IN "in"

def logical : LogicalOp → Token
  | .AND => symbol .AND "and"
  | .OR => symbol .OR "or"
  | .QUESTION_QUESTION => symbol .QUESTION_QUESTION "??"

def lparen : Token := symbol .LPAREN "("
def rparen : Token := symbol .RPAREN ")"
def lbracket : Token := symbol .LBRACKET "["
def rbracket : Token := symbol .RBRACKET "]"
def comma : Token := symbol .COMMA ","
def equal : Token := symbol .EQUAL "="
def colon : Token := symbol .COLON ":"
def questionMark : Token := symbol .QUESTION_MARK "?"

def dot (isOptional : Bool) : Token :=
  if isOptional then symbol .QUESTION_DOT "?." else symbol .DOT "."

/-- A word, which is a keyword where it is one of the table. -/
def word (name : CString) : Token :=
  match lookup Lexer.keywords name with
  | some type => { type, lexeme := name, literal := Lexer.keywordLiteral type }
  | none => { type := .IDENTIFIER, lexeme := name }

/-- A string between double quotes. -/
def quoteBody (value : CString) : CString :=
  value.flatMap fun c =>
    if c = 34 then lit "\\\"" else if c = 92 then lit "\\\\" else if c = 10 then lit "\\n" else [c]

def quote (value : CString) : CString := lit "\"" ++ quoteBody value ++ lit "\""

def decimal (n : Nat) : CString := (Nat.toDigits 10 n).map Lexer.byte

/-- The text of a double is a parameter. -/
def literal (double : UInt64 → CString) (value : Literal) : Token :=
  match value with
  | .nil => word (lit "nil")
  | .bool true => word (lit "true")
  | .bool false => word (lit "false")
  | .int i => { type := .NUMBER, lexeme := decimal i.toInt.toNat, literal := value }
  | .double bits => { type := .NUMBER, lexeme := double bits, literal := value }
  | .string s => { type := .STRING, lexeme := quote s, literal := value }

end Spell

theorem word_lexeme (name : CString) : (Spell.word name).lexeme = name := by
  rw [Spell.word]
  split <;> rfl

/-! ### Printing -/

/-- How trees are written: the text of a double, and where parentheses stand that are not required,
by the level of the place and the tree in it. -/
structure Printing where
  double : UInt64 → CString
  redundant : Nat → ExprTree → Bool

namespace Printing

variable (p : Printing)

def encloses (place : Nat) (tree : ExprTree) : Bool :=
  decide (place < tree.level) || p.redundant place tree

/-- A tree with its parentheses, from its tokens without. -/
def enclose (place : Nat) (tree : ExprTree) (tokens : List Token) : List Token :=
  if p.encloses place tree then Spell.lparen :: tokens ++ [Spell.rparen] else tokens

/-- How deep expressions are nested in it. -/
def encloseNesting (place : Nat) (tree : ExprTree) (nesting : Nat) : Nat :=
  if p.encloses place tree then nesting + 1 else nesting

end Printing

def argumentName (name : CString) : List Token :=
  if name.isEmpty then [] else [Spell.word name, Spell.equal]

mutual

/-- The tokens of a tree, without parentheses around it. -/
def ExprTree.tokens (p : Printing) : ExprTree → List Token
  | .literal value => [Spell.literal p.double value]
  | .identifier name => [Spell.word name]
  | .unary op operand => Spell.unary op :: p.enclose 1 operand (operand.tokens p)
  | .binary left op right =>
      p.enclose op.leftLevel left (left.tokens p) ++
        Spell.binary op :: p.enclose op.rightLevel right (right.tokens p)
  | .logical left op right =>
      p.enclose op.level left (left.tokens p) ++
        Spell.logical op :: p.enclose (op.level - 1) right (right.tokens p)
  | .ternary condition thenBranch elseBranch =>
      p.enclose 13 condition (condition.tokens p) ++
        Spell.questionMark :: (p.enclose 14 thenBranch (thenBranch.tokens p) ++
          Spell.colon :: p.enclose 14 elseBranch (elseBranch.tokens p))
  | .call callee arguments =>
      p.enclose 0 callee (callee.tokens p) ++
        Spell.lparen :: (arguments.tokens p).tail ++ [Spell.rparen]
  | .index object index =>
      p.enclose 0 object (object.tokens p) ++
        Spell.lbracket :: p.enclose 14 index (index.tokens p) ++ [Spell.rbracket]
  | .property object name isOptional =>
      p.enclose 0 object (object.tokens p) ++ [Spell.dot isOptional, Spell.word name]

/-- The arguments, each after a comma. -/
def ArgumentTrees.tokens (p : Printing) : ArgumentTrees → List Token
  | .nil => []
  | .cons name value rest =>
      Spell.comma :: argumentName name ++ p.enclose 14 value (value.tokens p) ++ rest.tokens p

end

mutual

/-- How deep expressions are nested in a tree as it is written. -/
def ExprTree.nesting (p : Printing) : ExprTree → Nat
  | .literal _ => 0
  | .identifier _ => 0
  | .unary _ operand => p.encloseNesting 1 operand (operand.nesting p)
  | .binary left op right =>
      max (p.encloseNesting op.leftLevel left (left.nesting p))
        (p.encloseNesting op.rightLevel right (right.nesting p))
  | .logical left op right =>
      max (p.encloseNesting op.level left (left.nesting p))
        (p.encloseNesting (op.level - 1) right (right.nesting p))
  | .ternary condition thenBranch elseBranch =>
      max (p.encloseNesting 13 condition (condition.nesting p))
        (max (p.encloseNesting 14 thenBranch (thenBranch.nesting p) + 1)
          (p.encloseNesting 14 elseBranch (elseBranch.nesting p)))
  | .call callee arguments =>
      max (p.encloseNesting 0 callee (callee.nesting p)) (arguments.nesting p)
  | .index object index =>
      max (p.encloseNesting 0 object (object.nesting p))
        (p.encloseNesting 14 index (index.nesting p) + 1)
  | .property object _ _ => p.encloseNesting 0 object (object.nesting p)

def ArgumentTrees.nesting (p : Printing) : ArgumentTrees → Nat
  | .nil => 0
  | .cons _ value rest =>
      max (p.encloseNesting 14 value (value.nesting p) + 1) (rest.nesting p)

end

namespace ExprTree

/-- The tokens of a tree as a whole. -/
def print (p : Printing) (tree : ExprTree) : List Token := p.enclose looseLevel tree (tree.tokens p)

/-- The nested expressions, the whole one included. -/
def depth (p : Printing) (tree : ExprTree) : Nat :=
  p.encloseNesting looseLevel tree (tree.nesting p) + 1

end ExprTree

/-- Tokens with a space between them. -/
def render : List Token → CString
  | [] => []
  | [token] => token.lexeme
  | token :: rest => token.lexeme ++ 32 :: render rest

/-! ### What can be written -/

def isWord (name : CString) : Bool :=
  match name with
  | [] => false
  | first :: rest => Lexer.isAlpha first && rest.all Lexer.isAlphaNumeric

/-- A name that is no keyword. -/
def isIdentifier (name : CString) : Bool := isWord name && (lookup Lexer.keywords name).isNone

/-- Digits, a point and digits. -/
def IsNumeral (text : CString) : Prop :=
  ∃ first whole point fraction, text = first :: whole ++ point :: fraction ∧
    point = Lexer.byte '.' ∧ Lexer.isDigit first = true ∧ whole.all Lexer.isDigit = true ∧
    fraction ≠ [] ∧ fraction.all Lexer.isDigit = true

/-- A literal of the source: an integer has no sign, and a double is read back from its numeral. -/
def Literal.Writable (host : LexerHost) (double : UInt64 → CString) : Literal → Prop
  | .int i => 0 ≤ i.toInt
  | .double bits => IsNumeral (double bits) ∧ host.stod (double bits) = some bits
  | _ => True

mutual

/-- The names of a tree are names and its literals can be written. -/
def ExprTree.Writable (host : LexerHost) (p : Printing) : ExprTree → Prop
  | .literal value => value.Writable host p.double
  | .identifier name => isIdentifier name = true
  | .unary _ operand => operand.Writable host p
  | .binary left _ right => left.Writable host p ∧ right.Writable host p
  | .logical left _ right => left.Writable host p ∧ right.Writable host p
  | .ternary condition thenBranch elseBranch =>
      condition.Writable host p ∧ thenBranch.Writable host p ∧ elseBranch.Writable host p
  | .call callee arguments => callee.Writable host p ∧ arguments.Writable host p
  | .index object index => object.Writable host p ∧ index.Writable host p
  | .property object name _ => object.Writable host p ∧ isWord name = true

def ArgumentTrees.Writable (host : LexerHost) (p : Printing) : ArgumentTrees → Prop
  | .nil => True
  | .cons name value rest =>
      (name = [] ∨ isIdentifier name = true) ∧ value.Writable host p ∧ rest.Writable host p

end

end EZLanguage
