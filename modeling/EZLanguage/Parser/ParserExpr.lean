import EZLanguage.Support.Chain
import EZLanguage.Compiler.Syntax
import EZLanguage.Lexer.Lexer

/-!
# The expression parser

One function for each level of precedence. A level is given the parsers of what stands in brackets
inside it. The trees carry no places, and the parser of the statements in the body of a lambda is a
parameter. Where the source records an error and goes on, in a lambda, it throws on the next token.
-/

namespace EZLanguage

/-- An expression less its place, with statements in `S`. -/
inductive ParsedExpr (S : Type) where
  | mk (variant : ExprVariant (ParsedExpr S) S)

namespace ParsedExpr

variable {S : Type}

def variant : ParsedExpr S → ExprVariant (ParsedExpr S) S
  | mk variant => variant

def literal (value : Literal) : ParsedExpr S := mk (.LiteralExpr value)

def identifier (name : CString) : ParsedExpr S := mk (.IdentifierExpr name)

end ParsedExpr

/-- A parser over the tokens from `current` on, with the messages of `ParseError`. -/
abbrev ParserM := Support.Reader Token String

namespace Parser

open Support

variable {α : Type}

/-! ### Tokens -/

/-- `peek().type`. -/
def peek : List Token → TokenType
  | [] => .END_OF_FILE
  | token :: _ => token.type

def isKeywordToken (type : TokenType) : Bool :=
  TokenType.OUT.ctorIdx ≤ type.ctorIdx && type.ctorIdx ≤ TokenType.ENSURES.ctorIdx

def isPropertyNameToken (type : TokenType) : Bool :=
  type == .IDENTIFIER || type == .TRUE || type == .FALSE || type == .NIL || isKeywordToken type

def fail (message : String) : ParserM α := fun _ => .error message

/-- `match`, with what stands for each of the types. -/
def matchAny (table : List (TokenType × α)) : ParserM (Option α)
  | [] => .ok (none, [])
  | token :: rest =>
      match table.find? fun entry => entry.1 == token.type with
      | some entry => .ok (some entry.2, rest)
      | none => .ok (none, token :: rest)

def «match» (type : TokenType) : ParserM (Option Unit) := matchAny [(type, ())]

def check (type : TokenType) : ParserM Bool := fun tokens => .ok (peek tokens == type, tokens)

def consume (type : TokenType) (message : String) : ParserM Token
  | [] => .error message
  | token :: rest =>
      if token.type = type then .ok (token, rest)
      else if type = .IDENTIFIER ∧ isKeywordToken token.type = true then
        .error (message ++ " -- '" ++ Lexer.text token.lexeme ++
          "' is a reserved keyword and can't be used as a name")
      else .error message

def skipNewlines : ParserM Unit := fun tokens =>
  .ok ((), tokens.dropWhile fun token => token.type == .NEWLINE)

/-- `do { item } while (match(COMMA))`. -/
def commaSeparated (item : ParserM α) : ParserM (List α) :=
  Reader.chain (do let first ← item; pure [first]) fun items => do
    match ← «match» .COMMA with
    | none => pure none
    | some () => do
        let next ← item
        pure (some (items ++ [next]))

/-- Items up to a closing token, which may follow at once. -/
def itemsUntil (close : TokenType) (item : ParserM α) : ParserM (List α) := do
  if ← check close then pure [] else commaSeparated item

/-- The type of an argument of `new`; it leaves no trace in the tree. Types nest, each in brackets. -/
def parseType : Nat → ParserM Unit
  | 0 => fail "Expected type name"
  | fuel + 1 => do
      let _ ← consume .IDENTIFIER "Expected type name"
      match ← «match» .LBRACKET with
      | none => pure ()
      | some () => do
          let _ ← commaSeparated (parseType fuel)
          let _ ← consume .RBRACKET "Expected ']' after type arguments"
          pure ()

def describeMisplacedKeyword : TokenType → Option String
  | .FINALLY => some
      "'finally' can only appear after a 'try' block (and any 'catch' blocks), not on its own"
  | .CATCH => some "'catch' can only appear directly after a 'try' block, not on its own"
  | .OTHER => some "'other' can only appear as a branch inside a 'when' statement"
  | .TO => some "'to' is only valid inside a 'repeat <var> = <start> to <end>' loop"
  | .STEP => some "'step' is only valid inside a 'repeat ... to ... step ...' loop"
  | .IMPLEMENTS => some
      "'implements' can only appear right after a model's name (and optional 'extends') in a 'model' declaration"
  | .EXTENDS => some "'extends' can only appear right after a model's name in a 'model' declaration"
  | .REQUIRES => some
      "'requires' can only appear as a task precondition, directly after the task signature"
  | .ENSURES => some
      "'ensures' can only appear as a task postcondition, directly after the task signature"
  | .HIDDEN => some
      "'hidden' is a field-visibility modifier and can only appear inside a 'model' body"
  | .SHOWN => some
      "'shown' is a field-visibility modifier and can only appear inside a 'model' body"
  | .INIT => some
      "'init' can only be used to define a model's constructor, inside a 'model' body"
  | _ => none

/-! ### Levels -/

variable {S : Type}

/-- The parsers of what stands in brackets: `expression`, the `ternary` of a dictionary's key, and the
`declaration` of a lambda's body. -/
structure Nested (S : Type) where
  expression : ParserM (ParsedExpr S)
  key : ParserM (ParsedExpr S)
  declaration : ParserM (Option S)

variable (nested : Nested S)

/-- The parameters of a lambda and whether the last is a rest parameter. -/
def lambdaParams : Nat → ParserM (List CString × Bool)
  | 0 => fail "Expected parameter name"
  | fuel + 1 => do
      match ← «match» .ELLIPSIS with
      | some () => do
          let param ← consume .IDENTIFIER "Expected parameter name after '...'"
          pure ([param.lexeme], true)
      | none => do
          let param ← consume .IDENTIFIER "Expected parameter name"
          match ← «match» .COMMA with
          | none => pure ([param.lexeme], false)
          | some () => do
              let (params, isVariadic) ← lambdaParams fuel
              pure (param.lexeme :: params, isVariadic)

/-- The statements of a body up to its brace. -/
def lambdaStatements : Nat → ParserM (List S)
  | 0 => pure []
  | fuel + 1 => fun tokens =>
      if peek tokens = .RBRACE ∨ peek tokens = .END_OF_FILE then .ok ([], tokens)
      else
        (do
          let statement ← nested.declaration
          skipNewlines
          let statements ← lambdaStatements fuel
          pure (statement.toList ++ statements)) tokens

def lambdaExpression (isAsync noParams : Bool) : ParserM (ParsedExpr S) := fun tokens =>
  (do
    let (params, isVariadic) ←
      if noParams then pure ([], false)
      else do
        let signature ←
          if ← check .PIPE then pure ([], false) else lambdaParams tokens.length
        let _ ← consume .PIPE "Expected '|' after lambda parameters"
        skipNewlines
        pure signature
    match ← matchAny [(.ARROW, true), (.LBRACE, false)] with
    | some true => do
        skipNewlines
        let body ← nested.expression
        pure (.mk (.LambdaExpr params (some body) [] isVariadic isAsync))
    | some false => do
        skipNewlines
        let body ← lambdaStatements nested tokens.length
        let _ ← consume .RBRACE "Expected '\x7d' after lambda body"
        pure (.mk (.LambdaExpr params none body isVariadic isAsync))
    | none => do
        let body ← nested.expression
        pure (.mk (.LambdaExpr params (some body) [] isVariadic isAsync)) :
    ParserM (ParsedExpr S)) tokens

/-- An expression, or the spread of one. -/
def spreadOr : ParserM (ParsedExpr S) := do
  match ← «match» .ELLIPSIS with
  | none => nested.expression
  | some () => do
      let spread ← nested.expression
      pure (.mk (.SpreadExpr spread))

/-- An element between the newlines that a bracket allows. -/
def element (item : ParserM (ParsedExpr S)) : ParserM (ParsedExpr S) := do
  skipNewlines
  let e ← item
  skipNewlines
  pure e

def newExpression : ParserM (ParsedExpr S) := fun tokens =>
  (do
    let name ← consume .IDENTIFIER "Expected model name after 'new'"
    match ← «match» .LBRACKET with
    | none => pure ()
    | some () => do
        let _ ← commaSeparated (parseType tokens.length)
        let _ ← consume .RBRACKET "Expected ']' after type arguments"
        pure ()
    match ← «match» .LPAREN with
    | none => pure (.mk (.NewExpr name.lexeme []))
    | some () => do
        let arguments ← itemsUntil .RPAREN nested.expression
        let _ ← consume .RPAREN "Expected ')' after arguments"
        pure (.mk (.NewExpr name.lexeme arguments)) : ParserM (ParsedExpr S)) tokens

def asyncExpression : ParserM (ParsedExpr S) := do
  match ← «match» .PIPE with
  | some () => lambdaExpression nested true false
  | none => do
      if ← check .LBRACE then do
        let lambda ← lambdaExpression nested true true
        pure (.mk (.CallExpr lambda []))
      else fail "Expected '|' or '\x7b' after 'async'"

/-- A key that is an identifier stands for its name. -/
def dictionaryKey (key : ParsedExpr S) : ParsedExpr S :=
  match key.variant with
  | .IdentifierExpr name => .literal (.string name)
  | _ => key

def dictionaryPairs : Nat → ParserM (List (ParsedExpr S × ParsedExpr S))
  | 0 => pure []
  | fuel + 1 => fun tokens =>
      if peek tokens = .RBRACE ∨ peek tokens = .END_OF_FILE then .ok ([], tokens)
      else
        (do
          let key ← nested.key
          let _ ← consume .COLON "Expected ':' after dictionary key"
          let value ← nested.expression
          match ← matchAny [(.COMMA, ()), (.NEWLINE, ())] with
          | some () => skipNewlines
          | none => do
              if ← check .RBRACE then pure ()
              else fail "Expected ',' or newline between dictionary entries"
          let pairs ← dictionaryPairs fuel
          pure ((dictionaryKey key, value) :: pairs)) tokens

def dictionaryExpression : ParserM (ParsedExpr S) := fun tokens =>
  (do
    skipNewlines
    let pairs ← dictionaryPairs nested tokens.length
    let _ ← consume .RBRACE "Expected '\x7d' after dictionary"
    pure (.mk (.DictionaryExpr pairs)) : ParserM (ParsedExpr S)) tokens

def arrayExpression : ParserM (ParsedExpr S) := do
  let elements ← itemsUntil .RBRACKET (element (spreadOr nested))
  let _ ← consume .RBRACKET "Expected ']' after array elements"
  pure (.mk (.ArrayExpr elements))

/-- What follows an opening parenthesis: a tuple or an expression in parentheses. -/
def parenthesised : ParserM (ParsedExpr S) := do
  match ← «match» .RPAREN with
  | some () => pure (.mk (.TupleExpr []))
  | none => do
      let e ← nested.expression
      match ← «match» .COMMA with
      | none => do
          let _ ← consume .RPAREN "Expected ')' after expression"
          pure e
      | some () => do
          let elements ← itemsUntil .RPAREN (element nested.expression)
          let _ ← consume .RPAREN "Expected ')' after tuple elements"
          pure (.mk (.TupleExpr (e :: elements)))

def primary : ParserM (ParsedExpr S)
  | [] => .error "Expected expression"
  | token :: rest =>
      match token.type with
      | .FALSE => .ok (.literal (.bool false), rest)
      | .TRUE => .ok (.literal (.bool true), rest)
      | .NIL => .ok (.literal .nil, rest)
      | .NEW => newExpression nested rest
      | .NUMBER => .ok (.literal token.literal, rest)
      | .STRING => .ok (.literal token.literal, rest)
      | .IDENTIFIER => .ok (.identifier token.lexeme, rest)
      | .SUPER => .ok (.mk .SuperExpr, rest)
      | .SELF => .ok (.mk .SelfExpr, rest)
      | .IN => .ok (.mk (.CallExpr (.identifier (lit "__input__")) []), rest)
      | .PIPE => lambdaExpression nested false false rest
      | .ASYNC => asyncExpression nested rest
      | .LBRACKET => arrayExpression nested rest
      | .LBRACE => dictionaryExpression nested rest
      | .LPAREN => parenthesised nested rest
      | type =>
          match describeMisplacedKeyword type with
          | some hint => .error ("Expected expression -- " ++ hint)
          | none => .error "Expected expression"

/-- An argument of a call: `name = value`, a spread or an expression. -/
def argument : ParserM (Argument (ParsedExpr S))
  | name :: next :: rest =>
      if name.type = .IDENTIFIER ∧ next.type = .EQUAL then
        (do
          let value ← nested.expression
          pure { name := name.lexeme, value } : ParserM (Argument (ParsedExpr S))) rest
      else
        (do
          let value ← spreadOr nested
          pure { name := [], value } : ParserM (Argument (ParsedExpr S))) (name :: next :: rest)
  | tokens =>
      (do
        let value ← spreadOr nested
        pure { name := [], value } : ParserM (Argument (ParsedExpr S))) tokens

def finishCall (callee : ParsedExpr S) : ParserM (ParsedExpr S) := do
  let arguments ← itemsUntil .RPAREN (argument nested)
  let _ ← consume .RPAREN "Expected ')' after arguments"
  pure (.mk (.CallExpr callee arguments))

def finishIndex (object : ParsedExpr S) : ParserM (ParsedExpr S) := do
  let index ← nested.expression
  let _ ← consume .RBRACKET "Expected ']' after index"
  pure (.mk (.IndexExpr object index))

/-- After the dot. -/
def finishProperty (object : ParsedExpr S) (isOptional : Bool) : ParserM (ParsedExpr S)
  | token :: rest =>
      if isPropertyNameToken token.type then
        .ok (.mk (.PropertyAccessExpr object token.lexeme isOptional), rest)
      else .error (if isOptional then "Expected property name after '?.'"
        else "Expected property name after '.'")
  | [] => .error (if isOptional then "Expected property name after '?.'"
      else "Expected property name after '.'")

inductive Suffix where
  | call | index | property (isOptional : Bool)

/-- One postfix. A dot may stand on a later line. -/
def suffix (e : ParsedExpr S) : ParserM (Option (ParsedExpr S)) := fun tokens =>
  match matchAny [(.LPAREN, Suffix.call), (.LBRACKET, .index), (.DOT, .property false),
      (.QUESTION_DOT, .property true)] tokens with
  | .error message => .error message
  | .ok (some .call, rest) => (some <$> finishCall nested e) rest
  | .ok (some .index, rest) => (some <$> finishIndex nested e) rest
  | .ok (some (.property isOptional), rest) => (some <$> finishProperty e isOptional) rest
  | .ok (none, _) =>
      match matchAny [(.DOT, false), (.QUESTION_DOT, true)]
          (tokens.dropWhile fun token => token.type == .NEWLINE) with
      | .ok (some isOptional, rest) => (some <$> finishProperty e isOptional) rest
      | _ => .ok (none, tokens)

def call : ParserM (ParsedExpr S) := Reader.chain (primary nested) (suffix nested)

/-- The prefix operators, and none for `await`. -/
def prefixOperators : List (TokenType × Option UnaryOp) :=
  [(.BANG, some .BANG), (.MINUS, some .MINUS), (.NOT, some .NOT), (.TILDE, some .TILDE),
    (.AWAIT, none)]

def makeUnary (operand : ParsedExpr S) : Option UnaryOp → ParsedExpr S
  | some op => .mk (.UnaryExpr op operand)
  | none => .mk (.AwaitExpr operand)

/-- The functions that call themselves consume a token first; their fuel is the number of tokens. -/
def unaryWithin : Nat → ParserM (ParsedExpr S)
  | 0 => call nested
  | fuel + 1 => do
      match ← matchAny prefixOperators with
      | none => call nested
      | some op => do
          let operand ← unaryWithin fuel
          pure (makeUnary operand op)

def unary : ParserM (ParsedExpr S) := fun tokens => unaryWithin nested tokens.length tokens

def makeBinary (left : ParsedExpr S) (op : BinaryOp) (right : ParsedExpr S) : ParsedExpr S :=
  .mk (.BinaryExpr left op right)

def makeLogical (left : ParsedExpr S) (op : LogicalOp) (right : ParsedExpr S) : ParsedExpr S :=
  .mk (.LogicalExpr left op right)

def powerWithin : Nat → ParserM (ParsedExpr S)
  | 0 => unary nested
  | fuel + 1 => do
      let left ← unary nested
      match ← «match» .STAR_STAR with
      | none => pure left
      | some () => do
          let right ← powerWithin fuel
          pure (makeBinary left .STAR_STAR right)

def power : ParserM (ParsedExpr S) := fun tokens => powerWithin nested tokens.length tokens

/-- An operator of a level and the operand after it. -/
def operation {Op : Type} (table : List (TokenType × Op))
    (make : ParsedExpr S → Op → ParsedExpr S → ParsedExpr S) (operand : ParserM (ParsedExpr S))
    (left : ParsedExpr S) : ParserM (Option (ParsedExpr S)) := do
  match ← matchAny table with
  | none => pure none
  | some op => do
      let right ← operand
      pure (some (make left op right))

/-- A level of left-associative operators. -/
def leftAssociative {Op : Type} (table : List (TokenType × Op))
    (make : ParsedExpr S → Op → ParsedExpr S → ParsedExpr S) (operand : ParserM (ParsedExpr S)) :
    ParserM (ParsedExpr S) :=
  Reader.chain operand (operation table make operand)

def factorOperators : List (TokenType × BinaryOp) :=
  [(.STAR, .STAR), (.SLASH, .SLASH), (.PERCENT, .PERCENT)]

def factor : ParserM (ParsedExpr S) := leftAssociative factorOperators makeBinary (power nested)

def termOperators : List (TokenType × BinaryOp) := [(.PLUS, .PLUS), (.MINUS, .MINUS)]

def term : ParserM (ParsedExpr S) := leftAssociative termOperators makeBinary (factor nested)

def shiftOperators : List (TokenType × BinaryOp) := [(.LSHIFT, .LSHIFT), (.RSHIFT, .RSHIFT)]

def bitwiseShift : ParserM (ParsedExpr S) := leftAssociative shiftOperators makeBinary (term nested)

def comparisonOperators : List (TokenType × BinaryOp) :=
  [(.GREATER, .GREATER), (.GREATER_EQUAL, .GREATER_EQUAL), (.LESS, .LESS),
    (.LESS_EQUAL, .LESS_EQUAL), (.IN, .IN)]

def comparison : ParserM (ParsedExpr S) :=
  leftAssociative comparisonOperators makeBinary (bitwiseShift nested)

def equalityOperators : List (TokenType × BinaryOp) :=
  [(.EQUAL_EQUAL, .EQUAL_EQUAL), (.BANG_EQUAL, .BANG_EQUAL)]

def equality : ParserM (ParsedExpr S) :=
  leftAssociative equalityOperators makeBinary (comparison nested)

def bitwiseAnd : ParserM (ParsedExpr S) :=
  leftAssociative [(.AMPERSAND, .AMPERSAND)] makeBinary (equality nested)

def bitwiseXor : ParserM (ParsedExpr S) :=
  leftAssociative [(.CARET, .CARET)] makeBinary (bitwiseAnd nested)

def bitwiseOr : ParserM (ParsedExpr S) :=
  leftAssociative [(.PIPE, .PIPE)] makeBinary (bitwiseXor nested)

def logicalAnd : ParserM (ParsedExpr S) :=
  leftAssociative [(.AND, .AND)] makeLogical (bitwiseOr nested)

def logicalOr : ParserM (ParsedExpr S) :=
  leftAssociative [(.OR, .OR)] makeLogical (logicalAnd nested)

def nullCoalescing : ParserM (ParsedExpr S) :=
  leftAssociative [(.QUESTION_QUESTION, .QUESTION_QUESTION)] makeLogical (logicalOr nested)

def ternaryWithin : Nat → ParserM (ParsedExpr S)
  | 0 => nullCoalescing nested
  | fuel + 1 => do
      let condition ← nullCoalescing nested
      match ← «match» .QUESTION_MARK with
      | none => pure condition
      | some () => do
          let thenBranch ← nested.expression
          let _ ← consume .COLON "Expected ':' after then branch of ternary operator"
          let elseBranch ← ternaryWithin fuel
          pure (.mk (.TernaryExpr condition thenBranch elseBranch))

def ternary : ParserM (ParsedExpr S) := fun tokens => ternaryWithin nested tokens.length tokens

/-- The assignments, and none for `=`. -/
def assignmentOperators : List (TokenType × Option CompoundOp) :=
  [(.EQUAL, none), (.PLUS_EQUAL, some .PLUS_EQUAL), (.MINUS_EQUAL, some .MINUS_EQUAL),
    (.STAR_EQUAL, some .STAR_EQUAL), (.STAR_STAR_EQUAL, some .STAR_STAR_EQUAL),
    (.SLASH_EQUAL, some .SLASH_EQUAL)]

def compoundBinary : CompoundOp → BinaryOp
  | .PLUS_EQUAL => .PLUS
  | .MINUS_EQUAL => .MINUS
  | .STAR_EQUAL => .STAR
  | .STAR_STAR_EQUAL => .STAR_STAR
  | .SLASH_EQUAL => .SLASH

def assign (target value : ParsedExpr S) (op : Option CompoundOp) :
    Except String (ParsedExpr S) :=
  match target.variant, op with
  | .TupleExpr _, some _ =>
      .error "Compound assignment is not allowed for tuple destructuring"
  | .IdentifierExpr name, none => .ok (.mk (.AssignExpr name value))
  | .IdentifierExpr name, some op =>
      .ok (.mk (.AssignExpr name (makeBinary target (compoundBinary op) value)))
  | .IndexExpr object index, op => .ok (.mk (.IndexAssignExpr object index value op))
  | .PropertyAccessExpr object property _, op => .ok (.mk (.SetExpr object property value op))
  | .TupleExpr elements, none => .ok (.mk (.DestructureAssignExpr (elements.map some) value))
  | _, _ => .error "Invalid assignment target"

def assignmentWithin : Nat → ParserM (ParsedExpr S)
  | 0 => ternary nested
  | fuel + 1 => do
      let target ← ternary nested
      match ← matchAny assignmentOperators with
      | none => pure target
      | some op => do
          let value ← assignmentWithin fuel
          match assign target value op with
          | .ok e => pure e
          | .error message => fail message

def assignment : ParserM (ParsedExpr S) := fun tokens => assignmentWithin nested tokens.length tokens

/-! ### The knot -/

def MAX_DEPTH : Nat := 100

/-- `declaration` at a remaining depth. -/
abbrev StatementParser (S : Type) := Nat → ParserM (Option S)

variable (declaration : StatementParser S)

/-- What may be nested `depth` times more. A key is not counted, but each stands after a brace of its
own, so that the fuel of `expression` below is enough. -/
def nestedWithin : Nat → Nat → Nested S
  | 0, _ =>
      { expression := fail "Expected expression", key := fail "Expected expression",
        declaration := fail "Expected expression" }
  | fuel + 1, depth =>
      { expression :=
          match depth with
          | 0 => fail "Maximum nesting depth exceeded"
          | depth + 1 => assignment (nestedWithin fuel depth)
        key := ternary (nestedWithin fuel depth)
        declaration := declaration depth }

/-- `Parser::expression` of a new parser. -/
def expression : ParserM (ParsedExpr S) := fun tokens =>
  (nestedWithin declaration (tokens.length + MAX_DEPTH + 1) MAX_DEPTH).expression tokens

end Parser

end EZLanguage
