import EZLanguage.Parser.Levels
import EZLanguage.Parser.ParserStmt

/-!
# Bodies without braces

A body without braces reads as the statement it is, as it does in braces, but for two kinds: the first
branch of a `when` ends before a task, a loop or another `when`, and no body is a typed declaration.
-/

namespace EZLanguage

namespace Parser

open Support Support.Reader

section Bodies

variable {others : OtherStatements} {fuel depth : Nat} {ss rest body : List Token} {s : ParsedStmt}
  {lbrace rbrace : Token}

/-! ### Statements where they stand -/

/-- Tokens after their newlines. -/
def skip (tokens : List Token) : List Token := tokens.dropWhile fun token => token.type == .NEWLINE

theorem skipNewlines_eq (tokens : List Token) : skipNewlines tokens = .ok ((), skip tokens) := rfl

theorem skip_cons {token : Token} {tokens : List Token} (h : token.type ≠ .NEWLINE) :
    skip (token :: tokens) = token :: tokens := by
  apply List.dropWhile_cons_of_neg
  simpa using h

theorem skip_skip (tokens : List Token) : skip (skip tokens) = skip tokens := by
  induction tokens with
  | nil => rfl
  | cons token tokens ih =>
      by_cases h : token.type = .NEWLINE
      · have hskip : skip (token :: tokens) = skip tokens :=
          List.dropWhile_cons_of_pos (by simpa using h)
        rw [hskip, ih]
      · rw [skip_cons h, skip_cons h]

theorem skip_length (tokens : List Token) : (skip tokens).length ≤ tokens.length :=
  (List.dropWhile_suffix _).length_le

/-- A statement that begins with none of these is read where its first token is. -/
def beginsStatement (type : TokenType) : Bool :=
  not <| [TokenType.LBRACE, .RBRACE, .NEWLINE, .OTHER, .END_OF_FILE].contains type

/-- `ss` is the statement `s`, before `rest` and before a brace that ends a block. -/
structure Written (ctx : Context) (ss rest : List Token) (rbrace : Token) (s : ParsedStmt) : Prop where
  before : ctx.declaration (ss ++ rest) = .ok (s, rest)
  braced : ctx.declaration (ss ++ rbrace :: rest) = .ok (s, rbrace :: rest)
  begins : ∃ first more, ss = first :: more ∧ beginsStatement first.type = true
  closes : rbrace.type = .RBRACE

theorem declaration_untyped {tokens : List Token} (h : isTyped tokens = false) :
    (contextWithin others fuel depth).declaration tokens =
      (contextWithin others fuel depth).statement tokens := by
  cases fuel with
  | zero => rfl
  | succ fuel =>
      change declarationOr _ (contextWithin others (fuel + 1) depth).statement tokens = _
      simp [declarationOr, h]

theorem expressionStatement_form {ctx : Context} {tokens rest : List Token} {s : ParsedStmt}
    (h : expressionStatement ctx tokens = .ok (s, rest)) : ∃ e, s = .mk (.ExpressionStmt e) := by
  rw [expressionStatement] at h
  cases hexpression : ctx.expression tokens with
  | error message =>
      rw [hexpression] at h
      cases h
  | ok result =>
      obtain ⟨e, mid⟩ := result
      rw [hexpression] at h
      cases hmisspelt : misspelt e (peek mid) with
      | some message =>
          simp only [hmisspelt] at h
          cases h
      | none =>
          simp only [hmisspelt] at h
          cases h
          exact ⟨e, rfl⟩

theorem varDeclStatement_form {ctx : Context} {tokens rest : List Token} {s : ParsedStmt}
    (h : varDeclStatement ctx tokens = .ok (s, rest)) :
    ∃ name initializer, s = .mk (.VarDeclStmt name initializer) := by
  obtain ⟨name, mid, -, h⟩ := bind_ok.mp h
  obtain ⟨colon, mid, -, h⟩ := bind_ok.mp h
  obtain ⟨⟨⟩, mid, -, h⟩ := bind_ok.mp h
  obtain ⟨equal, mid, -, h⟩ := bind_ok.mp h
  cases equal with
  | none =>
      obtain ⟨rfl, -⟩ := pure_ok.mp h
      exact ⟨name.lexeme, none, rfl⟩
  | some equal =>
      obtain ⟨initializer, mid, -, h⟩ := bind_ok.mp h
      obtain ⟨rfl, -⟩ := pure_ok.mp h
      exact ⟨name.lexeme, some initializer, rfl⟩

/-- A typed declaration is read as one only by `declaration`. -/
theorem declaration_typed {tokens : List Token} (h : isTyped tokens = true)
    (hread : (contextWithin others fuel depth).declaration tokens = .ok (s, rest)) :
    ∃ name initializer, s = .mk (.VarDeclStmt name initializer) := by
  cases fuel with
  | zero => cases hread
  | succ fuel =>
      change declarationOr _ (contextWithin others (fuel + 1) depth).statement tokens = _ at hread
      simp only [declarationOr, h, if_true] at hread
      exact varDeclStatement_form hread

theorem statement_typed {tokens : List Token} (h : isTyped tokens = true)
    (hread : (contextWithin others fuel depth).statement tokens = .ok (s, rest)) :
    ∃ e, s = .mk (.ExpressionStmt e) := by
  cases fuel with
  | zero => cases hread
  | succ fuel =>
      cases depth with
      | zero => cases hread
      | succ depth =>
          match tokens with
          | name :: colon :: more =>
              rw [isTyped, Bool.and_eq_true, beq_iff_eq] at h
              change dispatch _ _ (name :: colon :: more) = _ at hread
              rw [dispatch, h.1] at hread
              exact expressionStatement_form hread

/-! ### Bodies -/

namespace Written

variable {ctx : Context}

theorem skip_append (h : Written ctx ss rest rbrace s) (tokens : List Token) :
    skip (ss ++ tokens) = ss ++ tokens := by
  obtain ⟨first, more, rfl, hfirst⟩ := h.begins
  apply skip_cons
  intro hnewline
  rw [hnewline] at hfirst
  cases hfirst

theorem peek_ne (h : Written ctx ss rest rbrace s) {type : TokenType}
    (htype : beginsStatement type = false) (tokens : List Token) : peek (ss ++ tokens) ≠ type := by
  obtain ⟨first, more, rfl, hfirst⟩ := h.begins
  intro heq
  have hsame : first.type = type := heq
  rw [hsame, htype] at hfirst
  cases hfirst

/-- In braces it is a block of one statement. -/
theorem blockStatement_eq (h : Written ctx ss rest rbrace s) :
    blockStatement ctx (ss ++ rbrace :: rest) = .ok (.mk (.BlockStmt [s]), rest) := by
  have hbrace : skip (rbrace :: rest) = rbrace :: rest := by
    apply skip_cons
    rw [h.closes]
    decide
  have hend : ∀ fuel, blockStatements ctx fuel (rbrace :: rest) = .ok ([], rbrace :: rest) := by
    intro fuel
    cases fuel with
    | zero => rfl
    | succ fuel =>
        rw [blockStatements]
        exact if_pos (.inl h.closes)
  have hstatements : ∀ fuel, blockStatements ctx (fuel + 1) (ss ++ rbrace :: rest) =
      .ok ([s], rbrace :: rest) := by
    intro fuel
    have hmore : ¬(peek (ss ++ rbrace :: rest) = .RBRACE ∨
        peek (ss ++ rbrace :: rest) = .END_OF_FILE) := by
      rintro (heq | heq)
      · exact h.peek_ne rfl _ heq
      · exact h.peek_ne rfl _ heq
    rw [blockStatements]
    beta_reduce
    rw [if_neg hmore, bind_of_ok h.braced, bind_of_ok (skipNewlines_eq _), hbrace,
      bind_of_ok (hend fuel)]
    rfl
  have hlength : (ss ++ rbrace :: rest).length = (ss ++ rest).length + 1 := by simp [Nat.add_assoc]
  rw [blockStatement, bind_of_ok (skipNewlines_eq _), h.skip_append, hlength,
    bind_of_ok (hstatements _), bind_of_ok (consume_ok h.closes)]
  rfl

theorem bodyStatement_braced (h : Written ctx ss rest rbrace s) (hopen : lbrace.type = .LBRACE) :
    bodyStatement ctx (lbrace :: (ss ++ rbrace :: rest)) = .ok (.mk (.BlockStmt [s]), rest) := by
  rw [bodyStatement, bind_of_ok (match_some hopen)]
  exact h.blockStatement_eq

theorem bodyStatement_eq (h : Written ctx ss rest rbrace s) :
    bodyStatement ctx (ss ++ rest) = ctx.statement (ss ++ rest) := by
  rw [bodyStatement, bind_of_ok (match_none (h.peek_ne rfl rest))]

end Written

/-- Read as a body without braces, the tokens give the statement where they are no typed declaration. -/
theorem statement_iff (h : Written (contextWithin others fuel depth) ss rest rbrace s) :
    (contextWithin others fuel depth).statement (ss ++ rest) = .ok (s, rest) ↔
      isTyped (ss ++ rest) = false := by
  constructor
  · intro hread
    by_contra htyped
    rw [Bool.not_eq_false] at htyped
    obtain ⟨e, rfl⟩ := statement_typed htyped hread
    obtain ⟨name, initializer, heq⟩ := declaration_typed htyped h.before
    cases heq
  · intro huntyped
    rw [← declaration_untyped huntyped]
    exact h.before

/-! ### The first branch of a `when` -/

/-- The loop of the branch takes the statement. -/
theorem Written.not_ended {ctx : Context} (h : Written ctx ss rest rbrace s)
    (hends : endsBranch (peek (ss ++ rest)) = false) :
    ¬(peek (ss ++ rest) = .END_OF_FILE ∨ peek (ss ++ rest) = .OTHER ∨
      endsBranch (peek (ss ++ rest)) = true) := by
  rintro (heq | heq | heq)
  · exact h.peek_ne rfl _ heq
  · exact h.peek_ne rfl _ heq
  · rw [hends] at heq
    cases heq

/-- What a branch without braces makes of its first statement. -/
theorem thenStatement_eq {ctx : Context} (h : Written ctx ss rest rbrace s)
    (hends : endsBranch (peek (ss ++ rest)) = false) {b : ParsedStmt} {after : List Token}
    (hread : ctx.statement (ss ++ rest) = .ok (b, after)) :
    thenStatement ctx (ss ++ rest) = .ok (b, skip after) := by
  have hstatements : ∀ fuel, branchStatements ctx (fuel + 2) [] (ss ++ rest) =
      .ok ([b], skip after) := by
    intro fuel
    rw [branchStatements]
    beta_reduce
    rw [if_neg (h.not_ended hends), bind_of_ok hread, bind_of_ok (skipNewlines_eq after), bind_of_ok (check_eq .OTHER)]
    by_cases hother : peek (skip after) = .OTHER
    · rw [hother]
      change branchStatements ctx (fuel + 1) [b] (skip after) = _
      rw [branchStatements]
      exact if_pos (.inr (.inl hother))
    · have hcheck : (peek (skip after) == .OTHER) = false := by simpa using hother
      rw [hcheck]
      rfl
  obtain ⟨first, more, heq, -⟩ := h.begins
  have hlength : (ss ++ rest).length = (more ++ rest).length + 1 := by simp [heq]
  rw [thenStatement, bind_of_ok (match_none (h.peek_ne rfl rest)), hlength]
  change (branchStatements ctx _ [] >>= _) _ = _
  rw [bind_of_ok (hstatements _)]
  rfl

theorem thenStatement_error {ctx : Context} (h : Written ctx ss rest rbrace s)
    (hends : endsBranch (peek (ss ++ rest)) = false) {message : String}
    (hread : ctx.statement (ss ++ rest) = .error message) :
    thenStatement ctx (ss ++ rest) = .error message := by
  have hstatements : ∀ fuel, branchStatements ctx (fuel + 1) [] (ss ++ rest) = .error message := by
    intro fuel
    rw [branchStatements]
    beta_reduce
    rw [if_neg (h.not_ended hends), bind_of_error hread]
  rw [thenStatement, bind_of_ok (match_none (h.peek_ne rfl rest))]
  change (branchStatements ctx _ [] >>= _) _ = _
  exact bind_of_error (hstatements _)

theorem thenStatement_ends {ctx : Context} (h : Written ctx ss rest rbrace s)
    (hends : endsBranch (peek (ss ++ rest)) = true) :
    thenStatement ctx (ss ++ rest) = .ok (.mk (.BlockStmt []), ss ++ rest) := by
  have hstatements : ∀ fuel, branchStatements ctx (fuel + 1) [] (ss ++ rest) = .ok ([], ss ++ rest) := by
    intro fuel
    rw [branchStatements]
    exact if_pos (.inr (.inr hends))
  rw [thenStatement, bind_of_ok (match_none (h.peek_ne rfl rest))]
  change (branchStatements ctx _ [] >>= _) _ = _
  rw [bind_of_ok (hstatements _)]
  rfl

theorem thenStatement_braced {ctx : Context} (h : Written ctx ss rest rbrace s)
    (hopen : lbrace.type = .LBRACE) :
    thenStatement ctx (lbrace :: (ss ++ rbrace :: rest)) = .ok (.mk (.BlockStmt [s]), rest) := by
  rw [thenStatement, bind_of_ok (match_some hopen)]
  exact h.blockStatement_eq

/-- The part after the first branch reads as `elseBranch`, whatever the condition and the branch. -/
def OtherReads (ctx : Context) (nested : ParserM ParsedStmt) (rest : List Token)
    (elseBranch : Option ParsedStmt) (after : List Token) : Prop :=
  ∀ condition thenBranch, otherPart ctx nested condition thenBranch rest =
    .ok (.mk (.WhenStmt condition thenBranch elseBranch), after)

theorem otherPart_skip (ctx : Context) (nested : ParserM ParsedStmt)
    (condition : ParsedExpr ParsedStmt) (thenBranch : ParsedStmt) (tokens : List Token) :
    otherPart ctx nested condition thenBranch (skip tokens) =
      otherPart ctx nested condition thenBranch tokens := by
  rw [otherPart, bind_of_ok (skipNewlines_eq _), bind_of_ok (skipNewlines_eq _), skip_skip]

theorem otherPart_none {ctx : Context} {nested : ParserM ParsedStmt}
    {condition : ParsedExpr ParsedStmt} {thenBranch : ParsedStmt} {tokens : List Token}
    (h : peek (skip tokens) ≠ .OTHER) : otherPart ctx nested condition thenBranch tokens =
      .ok (.mk (.WhenStmt condition thenBranch none), skip tokens) := by
  rw [otherPart, bind_of_ok (skipNewlines_eq _), bind_of_ok (match_none h)]
  rfl

/-- What `otherPart` returns, and what it consumes where there is no `other`. -/
theorem otherPart_form {ctx : Context} {nested : ParserM ParsedStmt}
    {condition : ParsedExpr ParsedStmt} {thenBranch : ParsedStmt} {tokens after : List Token}
    (h : otherPart ctx nested condition thenBranch tokens = .ok (s, after)) :
    ∃ elseBranch, s = .mk (.WhenStmt condition thenBranch elseBranch) ∧
      (elseBranch = none → after = skip tokens) := by
  by_cases hother : peek (skip tokens) = .OTHER
  · obtain ⟨token, more, hskip, htoken⟩ : ∃ token more, skip tokens = token :: more ∧
        token.type = .OTHER := by
      cases hcase : skip tokens with
      | nil =>
          rw [hcase] at hother
          cases hother
      | cons token more =>
          rw [hcase] at hother
          exact ⟨token, more, rfl, hother⟩
    rw [otherPart, bind_of_ok (skipNewlines_eq _), hskip, bind_of_ok (match_some htoken)] at h
    obtain ⟨⟨⟩, mid, -, h⟩ := bind_ok.mp h
    obtain ⟨matched, mid, -, h⟩ := bind_ok.mp h
    cases matched with
    | none =>
        obtain ⟨elseBranch, mid, -, h⟩ := bind_ok.mp h
        obtain ⟨rfl, -⟩ := pure_ok.mp h
        exact ⟨some elseBranch, rfl, fun hnone => nomatch hnone⟩
    | some matched =>
        obtain ⟨elseBranch, mid, -, h⟩ := bind_ok.mp h
        obtain ⟨rfl, -⟩ := pure_ok.mp h
        exact ⟨some elseBranch, rfl, fun hnone => nomatch hnone⟩
  · rw [otherPart_none hother] at h
    cases h
    exact ⟨none, rfl, fun _ => rfl⟩

/-- Without an `other` nothing but newlines is consumed. -/
theorem OtherReads.after_none {ctx : Context} {nested : ParserM ParsedStmt} {after : List Token}
    (h : OtherReads ctx nested rest none after) : after.length ≤ rest.length := by
  obtain ⟨elseBranch, heq, hafter⟩ := otherPart_form (h (.literal .nil) (.mk .EscapeStmt))
  cases heq
  rw [hafter rfl]
  exact skip_length rest

/-! ### The forms -/

section Forms

variable {ctx : Context} {c : ParsedExpr ParsedStmt} {tokens braced after : List Token}
  {elseBranch : Option ParsedStmt}

/-- A `when`, from its condition on. -/
theorem whenStatement_eq (hcondition : ctx.expression tokens = .ok (c, body)) :
    whenStatement ctx tokens =
      (thenStatement ctx >>= fun thenBranch =>
        otherPart ctx (whenWithin ctx tokens.length) c thenBranch) (skip body) := by
  rw [whenStatement, whenWithin, bind_of_ok hcondition, bind_of_ok (skipNewlines_eq _)]

theorem loopStatement_eq {Header : Type} {header : ParserM Header}
    {make : Header → ParsedStmt → ParsedStmt} {h : Header} (hheader : header tokens = .ok (h, body)) :
    loopStatement ctx header make tokens =
      (bodyStatement ctx >>= fun body => pure (make h body)) (skip body) := by
  rw [loopStatement, bind_of_ok hheader, bind_of_ok (skipNewlines_eq _)]

theorem skip_lbrace (hopen : lbrace.type = .LBRACE) (tokens : List Token) :
    skip (lbrace :: tokens) = lbrace :: tokens := by
  apply skip_cons
  rw [hopen]
  decide

/-- A loop with its body in braces. -/
theorem loopStatement_braced {Header : Type} {header : ParserM Header}
    {make : Header → ParsedStmt → ParsedStmt} {h : Header} (hwritten : Written ctx ss rest rbrace s)
    (hopen : lbrace.type = .LBRACE)
    (hheader : header braced = .ok (h, lbrace :: (ss ++ rbrace :: rest))) :
    loopStatement ctx header make braced = .ok (make h (.mk (.BlockStmt [s])), rest) := by
  rw [loopStatement_eq hheader, skip_lbrace hopen, bind_of_ok (hwritten.bodyStatement_braced hopen)]
  rfl

theorem whenStatement_braced (hwritten : Written ctx ss rest rbrace s)
    (hopen : lbrace.type = .LBRACE)
    (hcondition : ctx.expression braced = .ok (c, lbrace :: (ss ++ rbrace :: rest)))
    (hother : OtherReads ctx (whenWithin ctx braced.length) rest elseBranch after) :
    whenStatement ctx braced =
      .ok (.mk (.WhenStmt c (.mk (.BlockStmt [s])) elseBranch), after) := by
  rw [whenStatement_eq hcondition, skip_lbrace hopen, bind_of_ok (thenStatement_braced hwritten hopen)]
  exact hother c _

end Forms

section Claims

variable {c : ParsedExpr ParsedStmt} {tokens after : List Token} {elseBranch : Option ParsedStmt}

theorem whenStatement_iff (h : Written (contextWithin others fuel depth) ss rest rbrace s)
    (hcondition : (contextWithin others fuel depth).expression tokens = .ok (c, body))
    (hbody : skip body = ss ++ rest)
    (hother : OtherReads (contextWithin others fuel depth)
      (whenWithin (contextWithin others fuel depth) tokens.length) rest elseBranch after) :
    whenStatement (contextWithin others fuel depth) tokens =
        .ok (.mk (.WhenStmt c s elseBranch), after) ↔
      endsBranch (peek (ss ++ rest)) = false ∧ isTyped (ss ++ rest) = false := by
  rw [whenStatement_eq hcondition, hbody]
  constructor
  · intro hread
    have hends : endsBranch (peek (ss ++ rest)) = false := by
      by_contra hends
      rw [Bool.not_eq_false] at hends
      have hnone : peek (skip (ss ++ rest)) ≠ .OTHER := by
        rw [h.skip_append]
        exact h.peek_ne rfl rest
      rw [bind_of_ok (thenStatement_ends h hends), otherPart_none hnone, h.skip_append] at hread
      -- The branch would be empty, and the statement what follows the `when`.
      cases hread
      have hlength := hother.after_none
      obtain ⟨first, more, heq, -⟩ := h.begins
      rw [heq, List.length_append, List.length_cons] at hlength
      omega
    refine ⟨hends, ?_⟩
    by_contra htyped
    rw [Bool.not_eq_false] at htyped
    obtain ⟨name, initializer, rfl⟩ := declaration_typed htyped h.before
    cases hstatement : (contextWithin others fuel depth).statement (ss ++ rest) with
    | error message =>
        rw [bind_of_error (thenStatement_error h hends hstatement)] at hread
        cases hread
    | ok result =>
        obtain ⟨b, mid⟩ := result
        obtain ⟨e, rfl⟩ := statement_typed htyped hstatement
        rw [bind_of_ok (thenStatement_eq h hends hstatement)] at hread
        obtain ⟨elseBranch', heq, -⟩ := otherPart_form hread
        cases heq
  · rintro ⟨hends, huntyped⟩
    have hstatement := (statement_iff h).mpr huntyped
    rw [bind_of_ok (thenStatement_eq h hends hstatement), otherPart_skip]
    exact hother c s

theorem loopStatement_iff {Header : Type} {header : ParserM Header}
    {make : Header → ParsedStmt → ParsedStmt} {hd : Header}
    (hmake : ∀ b b', make hd b = make hd b' → b = b')
    (h : Written (contextWithin others fuel depth) ss rest rbrace s)
    (hheader : header tokens = .ok (hd, body)) (hbody : skip body = ss ++ rest) :
    loopStatement (contextWithin others fuel depth) header make tokens = .ok (make hd s, rest) ↔
      isTyped (ss ++ rest) = false := by
  rw [loopStatement_eq hheader, hbody, ← statement_iff h]
  constructor
  · intro hread
    obtain ⟨b, mid, hstatement, hread⟩ := bind_ok.mp hread
    obtain ⟨heq, rfl⟩ := pure_ok.mp hread
    rw [h.bodyStatement_eq] at hstatement
    rw [hstatement, hmake b s heq]
  · intro hstatement
    rw [← h.bodyStatement_eq] at hstatement
    rw [bind_of_ok hstatement]
    rfl

/-- The branch after `other`, where it is no `when`. -/
theorem otherPart_iff {nested : ParserM ParsedStmt} {thenBranch : ParsedStmt} {other : Token}
    (h : Written (contextWithin others fuel depth) ss rest rbrace s)
    (hwhen : peek (ss ++ rest) ≠ .WHEN) (hopen : other.type = .OTHER) (hbody : skip body = ss ++ rest) :
    otherPart (contextWithin others fuel depth) nested c thenBranch (other :: body) =
        .ok (.mk (.WhenStmt c thenBranch (some s)), rest) ↔
      isTyped (ss ++ rest) = false := by
  have hskip : skip (other :: body) = other :: body := by
    apply skip_cons
    rw [hopen]
    decide
  rw [otherPart, bind_of_ok (skipNewlines_eq _), hskip, bind_of_ok (match_some hopen)]
  change (skipNewlines >>= _) _ = _ ↔ _
  rw [bind_of_ok (skipNewlines_eq _), hbody, bind_of_ok (match_none hwhen), ← statement_iff h,
    ← h.bodyStatement_eq]
  change (bodyStatement (contextWithin others fuel depth) >>= _) _ = _ ↔ _
  constructor
  · intro hread
    obtain ⟨b, mid, hstatement, hread⟩ := bind_ok.mp hread
    obtain ⟨heq, rfl⟩ := pure_ok.mp hread
    cases heq
    exact hstatement
  · intro hstatement
    rw [bind_of_ok hstatement]
    rfl

end Claims

/-! ### With and without braces -/

/-- The branch after `other` in braces. -/
theorem otherPart_braced {ctx : Context} {nested : ParserM ParsedStmt} {c : ParsedExpr ParsedStmt}
    {thenBranch : ParsedStmt} {other : Token} (h : Written ctx ss rest rbrace s)
    (hopen : other.type = .OTHER) (hlbrace : lbrace.type = .LBRACE) :
    otherPart ctx nested c thenBranch (other :: lbrace :: (ss ++ rbrace :: rest)) =
      .ok (.mk (.WhenStmt c thenBranch (some (.mk (.BlockStmt [s])))), rest) := by
  have hskip : skip (other :: lbrace :: (ss ++ rbrace :: rest)) =
      other :: lbrace :: (ss ++ rbrace :: rest) := by
    apply skip_cons
    rw [hopen]
    decide
  have hwhen : peek (lbrace :: (ss ++ rbrace :: rest)) ≠ .WHEN := by
    rw [peek, hlbrace]
    decide
  rw [otherPart, bind_of_ok (skipNewlines_eq _), hskip, bind_of_ok (match_some hopen)]
  change (skipNewlines >>= _) _ = _
  rw [bind_of_ok (skipNewlines_eq _), skip_lbrace hlbrace, bind_of_ok (match_none hwhen)]
  change (bodyStatement ctx >>= _) _ = _
  rw [bind_of_ok (h.bodyStatement_braced hlbrace)]
  rfl

/-- A form reads a statement without braces as the statement, and in braces as its block. -/
def SameAsBraced (form : ParserM ParsedStmt) (tokens braced : List Token)
    (make : ParsedStmt → ParsedStmt) (s : ParsedStmt) (after : List Token) : Prop :=
  form tokens = .ok (make s, after) ∧ form braced = .ok (make (.mk (.BlockStmt [s])), after)

/-- The tokens of a form after its header `h`, without braces and with them. -/
structure Headed {Header : Type} (header : ParserM Header) (h : Header) (tokens braced : List Token)
    (ss rest : List Token) (rbrace : Token) : Prop where
  unbraced : ∃ body, header tokens = .ok (h, body) ∧ skip body = ss ++ rest
  braced : ∃ lbrace, lbrace.type = .LBRACE ∧
    header braced = .ok (h, lbrace :: (ss ++ rbrace :: rest))

theorem loopStatement_same_iff {Header : Type} {header : ParserM Header}
    {make : Header → ParsedStmt → ParsedStmt} {hd : Header} {tokens braced : List Token}
    (hmake : ∀ b b', make hd b = make hd b' → b = b')
    (h : Written (contextWithin others fuel depth) ss rest rbrace s)
    (hheader : Headed header hd tokens braced ss rest rbrace) :
    SameAsBraced (loopStatement (contextWithin others fuel depth) header make) tokens braced (make hd)
        s rest ↔ isTyped (ss ++ rest) = false := by
  obtain ⟨body, htokens, hbody⟩ := hheader.unbraced
  obtain ⟨lbrace, hopen, hbraced⟩ := hheader.braced
  rw [SameAsBraced, loopStatement_iff hmake h htokens hbody]
  exact and_iff_left (loopStatement_braced h hopen hbraced)

end Bodies

/-! ### A `when` as the body of a `when` -/

namespace Sample

def name (text : String) : Token := { type := .IDENTIFIER, lexeme := lit text }

def symbol (type : TokenType) (text : String) : Token := { type, lexeme := lit text }

def noOthers : OtherStatements := fun _ => fail "Expected expression"

def context : Context := contextWithin noOthers 4 MAX_DEPTH

def eof : List Token := [Lexer.endOfFile]

/-- The expression statement of a name. -/
def statement (text : String) : ParsedStmt := .mk (.ExpressionStmt (.identifier (lit text)))

/-- `when b x` -/
def inner : ParsedStmt := .mk (.WhenStmt (.identifier (lit "b")) (statement "x") none)

def innerTokens : List Token := [symbol .WHEN "when", name "b", name "x"]

def lbrace : Token := symbol .LBRACE "\x7b"

def rbrace : Token := symbol .RBRACE "\x7d"

theorem x_written : Written context [name "x"] eof rbrace (statement "x") where
  before := rfl
  braced := rfl
  begins := ⟨name "x", [], rfl, rfl⟩
  closes := rfl

theorem inner_written : Written context innerTokens eof rbrace inner where
  before := rfl
  braced := rfl
  begins := ⟨symbol .WHEN "when", [name "b", name "x"], rfl, rfl⟩
  closes := rfl

/-- After the condition `a`. -/
theorem headed (ss : List Token)
    (h : context.expression (name "a" :: (ss ++ eof)) = .ok (.identifier (lit "a"), ss ++ eof))
    (hbraced : context.expression (name "a" :: lbrace :: (ss ++ rbrace :: eof)) =
      .ok (.identifier (lit "a"), lbrace :: (ss ++ rbrace :: eof)))
    (hskip : skip (ss ++ eof) = ss ++ eof) :
    Headed context.expression (.identifier (lit "a")) (name "a" :: (ss ++ eof))
      (name "a" :: lbrace :: (ss ++ rbrace :: eof)) ss eof rbrace where
  unbraced := ⟨ss ++ eof, h, hskip⟩
  braced := ⟨lbrace, rfl, hbraced⟩

theorem otherReads_eof (n : Nat) : OtherReads context (whenWithin context n) eof none eof :=
  fun _ _ => rfl

end Sample

end Parser

end EZLanguage
