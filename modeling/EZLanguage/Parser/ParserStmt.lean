import EZLanguage.Parser.ParserExpr

/-!
# The parser of conditionals and loops

The statements with bodies that may stand without braces, blocks, typed declarations and expression
statements. The other statements begin with keywords of their own and are a parameter. A statement with
an error is one that is not read: what the source does to report more errors after the first is left out.
-/

namespace EZLanguage

/-- A statement less its place. -/
inductive ParsedStmt where
  | mk (variant : StmtVariant (ParsedExpr ParsedStmt) ParsedStmt)

namespace Parser

open Support

/-- The parsers that those of statements call: `expression`, `statement` and `declaration`. -/
structure Context where
  expression : ParserM (ParsedExpr ParsedStmt)
  statement : ParserM ParsedStmt
  declaration : ParserM ParsedStmt

variable (ctx : Context)

/-- The statements of a block up to its brace; each consumes a token. -/
def blockStatements : Nat → ParserM (List ParsedStmt)
  | 0 => pure []
  | fuel + 1 => fun tokens =>
      if peek tokens = .RBRACE ∨ peek tokens = .END_OF_FILE then .ok ([], tokens)
      else
        (do
          let statement ← ctx.declaration
          skipNewlines
          let statements ← blockStatements fuel
          pure (statement :: statements)) tokens

/-- After the opening brace. -/
def blockStatement : ParserM ParsedStmt := fun tokens =>
  (do
    skipNewlines
    let statements ← blockStatements ctx tokens.length
    let _ ← consume .RBRACE "Expected '\x7d' after block"
    pure (.mk (.BlockStmt statements)) : ParserM ParsedStmt) tokens

/-- The body of a loop or of `other`, after its newlines. -/
def bodyStatement : ParserM ParsedStmt := do
  match ← «match» .LBRACE with
  | some () => blockStatement ctx
  | none => ctx.statement

/-- At one of these a branch without braces ends before its first statement. -/
def endsBranch (type : TokenType) : Bool :=
  [TokenType.TASK, .WHEN, .WHILE, .REPEAT, .GET].contains type

/-- The loop that collects the statements of a branch without braces. -/
def branchStatements : Nat → List ParsedStmt → ParserM (List ParsedStmt)
  | 0, statements => pure statements
  | fuel + 1, statements => fun tokens =>
      if peek tokens = .END_OF_FILE ∨ peek tokens = .OTHER ∨ endsBranch (peek tokens) = true then
        .ok (statements, tokens)
      else
        (do
          let statement ← ctx.statement
          skipNewlines
          let more := statements ++ [statement]
          if more.length = 1 && !(← check .OTHER) then pure more
          else branchStatements fuel more) tokens

/-- The first branch of a `when`, after its newlines. -/
def thenStatement : ParserM ParsedStmt := fun tokens =>
  (do
    match ← «match» .LBRACE with
    | some () => blockStatement ctx
    | none => do
        let statements ← branchStatements ctx (tokens.length + 1) []
        match statements with
        | [statement] => pure statement
        | statements => pure (.mk (.BlockStmt statements)) : ParserM ParsedStmt) tokens

/-- What follows the first branch; `nested` is `whenStatement` after `other when`. -/
def otherPart (nested : ParserM ParsedStmt) (condition : ParsedExpr ParsedStmt)
    (thenBranch : ParsedStmt) : ParserM ParsedStmt := do
  skipNewlines
  match ← «match» .OTHER with
  | none => pure (.mk (.WhenStmt condition thenBranch none))
  | some () => do
      skipNewlines
      let elseBranch ←
        match ← «match» .WHEN with
        | some () => nested
        | none => bodyStatement ctx
      pure (.mk (.WhenStmt condition thenBranch (some elseBranch)))

/-- `other when` consumes tokens before it calls `whenStatement` again. -/
def whenWithin : Nat → ParserM ParsedStmt
  | 0 => fail "Expected expression"
  | fuel + 1 => do
      let condition ← ctx.expression
      skipNewlines
      let thenBranch ← thenStatement ctx
      otherPart ctx (whenWithin fuel) condition thenBranch

def whenStatement : ParserM ParsedStmt := fun tokens => whenWithin ctx (tokens.length + 1) tokens

/-- A statement of a header and a body. -/
def loopStatement {Header : Type} (header : ParserM Header) (make : Header → ParsedStmt → ParsedStmt) :
    ParserM ParsedStmt := do
  let h ← header
  skipNewlines
  let body ← bodyStatement ctx
  pure (make h body)

def makeWhile (condition : ParsedExpr ParsedStmt) (body : ParsedStmt) : ParsedStmt :=
  .mk (.WhileStmt condition body)

def whileStatement : ParserM ParsedStmt := loopStatement ctx ctx.expression makeWhile

structure RepeatHeader where
  var : CString
  start : ParsedExpr ParsedStmt
  finish : ParsedExpr ParsedStmt
  step : Option (ParsedExpr ParsedStmt)

def repeatHeader : ParserM RepeatHeader := do
  let var ← consume .IDENTIFIER "Expected variable name after 'repeat'"
  let _ ← consume .EQUAL "Expected '=' after variable name"
  let start ← ctx.expression
  let _ ← consume .TO "Expected 'to' in repeat statement"
  let finish ← ctx.expression
  match ← «match» .STEP with
  | none => pure { var := var.lexeme, start, finish, step := none }
  | some () => do
      let step ← ctx.expression
      pure { var := var.lexeme, start, finish, step := some step }

def makeRepeat (h : RepeatHeader) (body : ParsedStmt) : ParsedStmt :=
  .mk (.RepeatStmt h.var h.start h.finish h.step body)

def repeatStatement : ParserM ParsedStmt := loopStatement ctx (repeatHeader ctx) makeRepeat

structure GetHeader where
  var : CString
  /-- Empty without a variable for the values. -/
  valueVar : CString
  iterable : ParsedExpr ParsedStmt

def getHeader : ParserM GetHeader := do
  let (var, valueVar) ←
    match ← «match» .LBRACKET with
    | none => do
        let var ← consume .IDENTIFIER "Expected variable name after 'get'"
        pure (var.lexeme, [])
    | some () => do
        let key ← consume .IDENTIFIER "Expected key variable name after '['"
        let _ ← consume .COMMA "Expected ',' between key and value variables"
        let value ← consume .IDENTIFIER "Expected value variable name"
        let _ ← consume .RBRACKET "Expected ']' after value variable"
        pure (key.lexeme, value.lexeme)
  let _ ← consume .IN "Expected 'in' after variable name"
  let iterable ← ctx.expression
  pure { var, valueVar, iterable }

def makeGet (h : GetHeader) (body : ParsedStmt) : ParsedStmt :=
  .mk (.GetStmt h.var h.valueVar h.iterable body)

def getStatement : ParserM ParsedStmt := loopStatement ctx (getHeader ctx) makeGet

/-- A name before another name or a brace is a misspelt keyword; the one meant is left out. -/
def misspelt (e : ParsedExpr ParsedStmt) (next : TokenType) : Option String :=
  match e.variant with
  | .IdentifierExpr name =>
      if next = .IDENTIFIER ∨ next = .LBRACE then
        some ("Unexpected token after '" ++ Lexer.text name ++ "'")
      else none
  | _ => none

def expressionStatement : ParserM ParsedStmt := fun tokens =>
  match ctx.expression tokens with
  | .error message => .error message
  | .ok (e, rest) =>
      match misspelt e (peek rest) with
      | some message => .error message
      | none => .ok (.mk (.ExpressionStmt e), rest)

/-- A type hint leaves no trace in the tree. -/
def varDeclStatement : ParserM ParsedStmt := fun tokens =>
  (do
    let name ← consume .IDENTIFIER "Expected variable name"
    let _ ← consume .COLON "Expected ':' after variable name"
    let _ ← parseType tokens.length
    match ← «match» .EQUAL with
    | none => pure (.mk (.VarDeclStmt name.lexeme none))
    | some () => do
        let initializer ← ctx.expression
        pure (.mk (.VarDeclStmt name.lexeme (some initializer))) : ParserM ParsedStmt) tokens

/-- The keywords, and `@`, that begin the other statements. -/
def beginsOther (type : TokenType) : Bool :=
  [TokenType.INTERFACE, .OUT, .MATCH, .STATIC, .AT, .ASYNC, .TASK, .DECORATOR_KW, .MODEL, .GIVE,
    .ESCAPE, .SKIP, .STRUCT, .ENUM, .USE, .TRY, .THROW, .EXPORT, .TEST].contains type

/-- `statement`, after its guard; `others` reads the statements of the other keywords. -/
def dispatch (others : ParserM ParsedStmt) : ParserM ParsedStmt
  | [] => expressionStatement ctx []
  | token :: rest =>
      match token.type with
      | .WHEN => whenStatement ctx rest
      | .WHILE => whileStatement ctx rest
      | .REPEAT => repeatStatement ctx rest
      | .GET => getStatement ctx rest
      | .LBRACE => blockStatement ctx rest
      | type =>
          if beginsOther type then others (token :: rest) else expressionStatement ctx (token :: rest)

/-- A name and a colon begin a typed declaration. -/
def isTyped : List Token → Bool
  | name :: colon :: _ => name.type == .IDENTIFIER && colon.type == .COLON
  | _ => false

def declarationOr (expression : ParserM (ParsedExpr ParsedStmt)) (statement : ParserM ParsedStmt) :
    ParserM ParsedStmt := fun tokens =>
  if isTyped tokens then
    varDeclStatement { expression, statement, declaration := fail "Expected expression" } tokens
  else statement tokens

/-- The other statements at a remaining depth. -/
abbrev OtherStatements := Nat → ParserM ParsedStmt

/-- The parsers where `depth` more may be nested. Each statement in another, or in a lambda, comes after
tokens of its own, so that their number is fuel enough. -/
def contextWithin (others : OtherStatements) : Nat → Nat → Context
  | 0, _ =>
      { expression := fail "Expected expression", statement := fail "Expected expression",
        declaration := fail "Expected expression" }
  | fuel + 1, depth =>
      let lambdas : StatementParser ParsedStmt := fun depth => do
        let statement ← (contextWithin others fuel depth).declaration
        pure (some statement)
      let expression : ParserM (ParsedExpr ParsedStmt) := fun tokens =>
        (nestedWithin lambdas (tokens.length + depth + 1) depth).expression tokens
      let statement : ParserM ParsedStmt :=
        match depth with
        | 0 => fail "Maximum nesting depth exceeded"
        | depth + 1 => dispatch (contextWithin others fuel depth) (others depth)
      { expression, statement, declaration := declarationOr expression statement }

end Parser

end EZLanguage
