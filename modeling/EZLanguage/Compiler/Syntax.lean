import EZLanguage.Compiler.ClosedExpr

/-!
# Syntax trees

The statements and expressions of the parser, with the places they come from. The variants are
parametric in the trees below them, so that the compiler's functions for each of them need not know how
those are compiled.
-/

namespace EZLanguage

/-- `LogicalExpr` takes these; the parser never gives them to a `BinaryExpr`. -/
inductive LogicalOp where
  | AND | OR | QUESTION_QUESTION
  deriving DecidableEq

inductive CompoundOp where
  | PLUS_EQUAL | MINUS_EQUAL | STAR_EQUAL | STAR_STAR_EQUAL | SLASH_EQUAL
  deriving DecidableEq

/-- An argument of a call. The name of a positional one is empty. -/
structure Argument (E : Type) where
  name : CString
  value : E

/-- A parameter and its default. -/
structure Param (E : Type) where
  name : CString
  defaultValue : Option E

inductive ExprVariant (E S : Type) where
  | LiteralExpr (value : Literal)
  | IdentifierExpr (name : CString)
  | BinaryExpr (left : E) (op : BinaryOp) (right : E)
  | UnaryExpr (op : UnaryOp) (operand : E)
  | CallExpr (callee : E) (arguments : List (Argument E))
  | IndexExpr (object index : E)
  | ArrayExpr (elements : List E)
  | TupleExpr (elements : List E)
  | DictionaryExpr (pairs : List (E × E))
  | AssignExpr (name : CString) (value : E)
  | IndexAssignExpr (object index value : E) (compoundOp : Option CompoundOp)
  | DestructureAssignExpr (targets : List (Option E)) (value : E)
  | LogicalExpr (left : E) (op : LogicalOp) (right : E)
  | TernaryExpr (condition thenBranch elseBranch : E)
  | LambdaExpr (params : List CString) (body : Option E) (stmtBody : List S)
      (isVariadic isAsync : Bool)
  | PropertyAccessExpr (object : E) (property : CString) (isOptional : Bool)
  | SelfExpr
  | SuperExpr
  | NewExpr (className : CString) (arguments : List E)
  | SetExpr (object : E) (name : CString) (value : E) (compoundOp : Option CompoundOp)
  | SpreadExpr (expression : E)
  | AwaitExpr (expression : E)

structure MatchArm (E S : Type) where
  /-- None in the default arm. -/
  pattern : Option E
  body : S

structure RateLimitConfig where
  count : Int64
  per : CString

/-- A clause of a contract and its message. -/
structure Clause (E : Type) where
  condition : E
  message : CString

structure TaskStmt (E S : Type) where
  name : CString
  params : List (Param E)
  body : List S
  isVariadic : Bool := false
  isAsync : Bool := false
  requiresClauses : List (Clause E) := []
  ensuresClauses : List (Clause E) := []
  isCached : Bool := false
  rateLimit : Option RateLimitConfig := none
  userDecorators : List E := []

structure ValidateRule (E : Type) where
  ruleName : CString
  param : Option E
  message : CString

/-- A property or a method of a model. `typeHint` is the base type of a property. -/
structure ModelMember (E S : Type) where
  isPublic : Bool
  isStatic : Bool
  isMethod : Bool
  isAsync : Bool := false
  isCached : Bool := false
  isVariadic : Bool := false
  name : CString
  typeHint : Option CString := none
  initializer : Option E := none
  params : List (Param E) := []
  body : List S := []
  validators : List (ValidateRule E) := []
  requiresClauses : List (Clause E) := []
  ensuresClauses : List (Clause E) := []
  userDecorators : List E := []

structure ModelStmt (E S : Type) where
  name : CString
  /-- Empty without a parent. -/
  parentName : CString := []
  interfaces : List CString := []
  initParams : List (Param E) := []
  initBody : List S := []
  members : List (ModelMember E S) := []
  audited : Bool := false
  snapshot : Bool := false
  persistPath : CString := []
  userDecorators : List E := []

/-- The names are empty where the source leaves them out. -/
structure CatchBlock (S : Type) where
  typeName : CString
  varName : CString
  body : S

inductive StmtVariant (E S : Type) where
  | ExpressionStmt (expr : E)
  | OutStmt (expr : E)
  | VarDeclStmt (name : CString) (initializer : Option E)
  | BlockStmt (statements : List S)
  | WhenStmt (condition : E) (thenBranch : S) (elseBranch : Option S)
  | WhileStmt (condition : E) (body : S)
  | RepeatStmt (var : CString) (start finish : E) (step : Option E) (body : S)
  | GetStmt (var valueVar : CString) (iterable : E) (body : S)
  | MatchStmt (subject : E) (arms : List (MatchArm E S))
  | TaskStmt (task : TaskStmt E S)
  | GiveStmt (value : Option E)
  | UseStmt (path aliasName : CString)
  | ExportStmt (inner : S)
  | EscapeStmt
  | SkipStmt
  | ModelStmt (model : ModelStmt E S)
  | StaticStmt (name : CString) (initializer : E)
  | TryStmt (tryBlock : S) (catchBlocks : List (CatchBlock S)) (finallyBlock : Option S)
  | ThrowStmt (expr : E)
  | InterfaceStmt (name : CString) (methods : List CString)

mutual

inductive Expr where
  | mk (line column : Nat) (filename : CString) (variant : ExprVariant Expr Stmt)

inductive Stmt where
  | mk (line : Nat) (filename : CString) (variant : StmtVariant Expr Stmt)

end

namespace Expr

def line : Expr → Nat
  | mk line _ _ _ => line

def column : Expr → Nat
  | mk _ column _ _ => column

def filename : Expr → CString
  | mk _ _ filename _ => filename

def variant : Expr → ExprVariant Expr Stmt
  | mk _ _ _ variant => variant

/-- The name of an `IdentifierExpr`. -/
def identifier? (e : Expr) : Option CString :=
  match e.variant with
  | .IdentifierExpr name => some name
  | _ => none

end Expr

namespace Stmt

def line : Stmt → Nat
  | mk line _ _ => line

def filename : Stmt → CString
  | mk _ filename _ => filename

def variant : Stmt → StmtVariant Expr Stmt
  | mk _ _ variant => variant

/-- The task a statement declares. -/
def task? (s : Stmt) : Option (TaskStmt Expr Stmt) :=
  match s.variant with
  | .TaskStmt task => some task
  | _ => none

end Stmt

end EZLanguage
