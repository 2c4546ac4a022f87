import Mathlib.Tactic.IntervalCases
import EZLanguage.Parser.ParserExpr

/-!
# The rules of the levels

What each level of the expression parser makes of a block of tokens that a tighter one reads, whatever
follows it that is not the level's own to take.
-/

namespace EZLanguage

namespace Parser

open Support Support.Reader

variable {S : Type}

/-- The tightest level that a token goes on at. -/
def bindingLevel : TokenType → Nat
  | .LPAREN | .LBRACKET | .DOT | .QUESTION_DOT | .NEWLINE => 0
  | .STAR_STAR => 2
  | .STAR | .SLASH | .PERCENT => 3
  | .PLUS | .MINUS => 4
  | .LSHIFT | .RSHIFT => 5
  | .GREATER | .GREATER_EQUAL | .LESS | .LESS_EQUAL | .IN => 6
  | .EQUAL_EQUAL | .BANG_EQUAL => 7
  | .AMPERSAND => 8
  | .CARET => 9
  | .PIPE => 10
  | .AND => 11
  | .OR => 12
  | .QUESTION_QUESTION => 13
  | .QUESTION_MARK => 14
  | .EQUAL | .PLUS_EQUAL | .MINUS_EQUAL | .STAR_EQUAL | .STAR_STAR_EQUAL | .SLASH_EQUAL => 15
  | _ => 16

/-- What follows goes on at no level below `n`. -/
def Room (n : Nat) (rest : List Token) : Prop := n ≤ bindingLevel (peek rest)

theorem Room.mono {n m : Nat} {rest : List Token} (h : Room n rest) (hle : m ≤ n) : Room m rest :=
  Nat.le_trans hle h

/-! ### Tokens -/

section Tokens

variable {α : Type} {table : List (TokenType × α)} {tokens rest : List Token} {token : Token}

theorem matchAny_none (h : ∀ entry ∈ table, entry.1 ≠ peek tokens) :
    matchAny table tokens = .ok (none, tokens) := by
  cases tokens with
  | nil => rfl
  | cons token rest =>
      have hfind : table.find? (fun entry => entry.1 == token.type) = none := by
        apply List.find?_eq_none.mpr
        intro entry hentry
        have hne : entry.1 ≠ token.type := h entry hentry
        simp [hne]
      simp only [matchAny, hfind]

theorem matchAny_some {type : TokenType} {a : α} (htype : token.type = type)
    (h : (table.find? fun entry => entry.1 == type) = some (type, a)) :
    matchAny table (token :: rest) = .ok (some a, rest) := by
  subst htype
  simp only [matchAny, h]

/-- The tokens of a level are not there where there is room above it. -/
theorem matchAny_none_of_room {n : Nat} (htable : ∀ entry ∈ table, bindingLevel entry.1 < n)
    (hroom : Room n tokens) : matchAny table tokens = .ok (none, tokens) := by
  apply matchAny_none
  intro entry hentry heq
  have hlt := htable entry hentry
  rw [heq] at hlt
  exact absurd hroom (Nat.not_le.mpr hlt)

theorem match_none {type : TokenType} (h : peek tokens ≠ type) :
    «match» type tokens = .ok (none, tokens) := by
  apply matchAny_none
  intro entry hentry
  rw [List.mem_singleton] at hentry
  subst hentry
  exact fun heq => h heq.symm

theorem match_some {type : TokenType} (h : token.type = type) :
    «match» type (token :: rest) = .ok (some (), rest) := by
  apply matchAny_some h
  simp

theorem consume_ok {type : TokenType} {message : String} (h : token.type = type) :
    consume type message (token :: rest) = .ok (token, rest) := by
  rw [consume, if_pos h]

theorem check_eq (type : TokenType) : check type tokens = .ok (peek tokens == type, tokens) := rfl

end Tokens

/-! ### Postfixes -/

section Suffixes

variable {nested : Nested S} {block inner : List Token} {e e' : ParsedExpr S}

/-- After `block` a call may go on with postfixes. -/
abbrev Chained (nested : Nested S) (block : List Token) (e : ParsedExpr S) : Prop :=
  (call nested).Chains (suffix nested) (fun _ => True) block e

theorem Chained.of_primary (h : (primary nested).ReadsBefore (fun _ => True) block e) :
    Chained nested block e :=
  Chains.of_first h

theorem suffix_none {rest : List Token} (h : Room 1 rest) :
    suffix nested e rest = .ok (none, rest) := by
  have hdrop : rest.dropWhile (fun token => token.type == .NEWLINE) = rest := by
    cases rest with
    | nil => rfl
    | cons token more =>
        apply List.dropWhile_cons_of_neg
        intro hnewline
        rw [Room, peek, beq_iff_eq.mp hnewline] at h
        exact absurd h (by decide)
  have hfirst : matchAny [(.LPAREN, Suffix.call), (.LBRACKET, .index), (.DOT, .property false),
      (.QUESTION_DOT, .property true)] rest = .ok (none, rest) :=
    matchAny_none_of_room (by decide) h
  have hlater : matchAny [(.DOT, false), (.QUESTION_DOT, true)] rest = .ok (none, rest) :=
    matchAny_none_of_room (by decide) h
  simp only [suffix, hfirst, hdrop, hlater]

theorem Chained.reads (h : Chained nested block e) :
    (call nested).ReadsBefore (Room 1) block e := by
  apply Chains.ends h
  intro rest hrest
  exact ⟨trivial, suffix_none hrest⟩

variable {open' close token name : Token}

theorem suffix_index (hopen : open'.type = .LBRACKET) (hclose : close.type = .RBRACKET)
    (h : nested.expression.ReadsBefore (Room 16) inner e') (rest : List Token) :
    suffix nested e (open' :: inner ++ [close] ++ rest) =
      .ok (some (.mk (.IndexExpr e e')), rest) := by
  have hinner : nested.expression (inner ++ close :: rest) = .ok (e', close :: rest) := by
    apply h
    rw [Room, peek, hclose]
    decide
  have hmatch : matchAny [(.LPAREN, Suffix.call), (.LBRACKET, .index), (.DOT, .property false),
      (.QUESTION_DOT, .property true)] (open' :: (inner ++ close :: rest)) =
        .ok (some .index, inner ++ close :: rest) :=
    matchAny_some hopen rfl
  have hfinish : finishIndex nested e (inner ++ close :: rest) =
      .ok (.mk (.IndexExpr e e'), rest) := by
    rw [finishIndex, bind_of_ok hinner, bind_of_ok (consume_ok hclose)]
    rfl
  rw [List.append_assoc, List.cons_append, List.singleton_append, suffix, hmatch]
  exact bind_of_ok hfinish

theorem Chained.index (h : Chained nested block e) (hopen : open'.type = .LBRACKET)
    (hclose : close.type = .RBRACKET) (hinner : nested.expression.ReadsBefore (Room 16) inner e') :
    Chained nested (block ++ (open' :: inner ++ [close])) (.mk (.IndexExpr e e')) := by
  apply h.extend (by simp)
  · intro rest _
    trivial
  · intro rest _
    exact suffix_index hopen hclose hinner rest

theorem suffix_property {isOptional : Bool}
    (hdot : token.type = if isOptional then .QUESTION_DOT else .DOT)
    (hname : isPropertyNameToken name.type = true) (rest : List Token) :
    suffix nested e (token :: name :: rest) =
      .ok (some (.mk (.PropertyAccessExpr e name.lexeme isOptional)), rest) := by
  have hmatch : matchAny [(.LPAREN, Suffix.call), (.LBRACKET, .index), (.DOT, .property false),
      (.QUESTION_DOT, .property true)] (token :: name :: rest) =
        .ok (some (.property isOptional), name :: rest) := by
    apply matchAny_some hdot
    cases isOptional <;> rfl
  have hfinish : finishProperty e isOptional (name :: rest) =
      .ok (.mk (.PropertyAccessExpr e name.lexeme isOptional), rest) := by
    rw [finishProperty, if_pos hname]
  rw [suffix, hmatch]
  exact bind_of_ok hfinish

theorem Chained.property {isOptional : Bool} (h : Chained nested block e)
    (hdot : token.type = if isOptional then .QUESTION_DOT else .DOT)
    (hname : isPropertyNameToken name.type = true) :
    Chained nested (block ++ [token, name]) (.mk (.PropertyAccessExpr e name.lexeme isOptional)) := by
  apply h.extend (by simp)
  · intro rest _
    trivial
  · intro rest _
    exact suffix_property hdot hname rest

/-- The arguments of a call up to its closing parenthesis. -/
def ArgumentsRead (nested : Nested S) (inner : List Token)
    (arguments : List (Argument (ParsedExpr S))) : Prop :=
  ∀ close rest, close.type = .RPAREN → itemsUntil .RPAREN (argument nested) (inner ++ close :: rest) =
    .ok (arguments, close :: rest)

theorem suffix_call {arguments : List (Argument (ParsedExpr S))} (hopen : open'.type = .LPAREN)
    (hclose : close.type = .RPAREN) (h : ArgumentsRead nested inner arguments) (rest : List Token) :
    suffix nested e (open' :: inner ++ [close] ++ rest) =
      .ok (some (.mk (.CallExpr e arguments)), rest) := by
  have hmatch : matchAny [(.LPAREN, Suffix.call), (.LBRACKET, .index), (.DOT, .property false),
      (.QUESTION_DOT, .property true)] (open' :: (inner ++ close :: rest)) =
        .ok (some .call, inner ++ close :: rest) :=
    matchAny_some hopen rfl
  have hfinish : finishCall nested e (inner ++ close :: rest) =
      .ok (.mk (.CallExpr e arguments), rest) := by
    rw [finishCall, bind_of_ok (h close rest hclose), bind_of_ok (consume_ok hclose)]
    rfl
  rw [List.append_assoc, List.cons_append, List.singleton_append, suffix, hmatch]
  exact bind_of_ok hfinish

theorem Chained.call {arguments : List (Argument (ParsedExpr S))} (h : Chained nested block e)
    (hopen : open'.type = .LPAREN) (hclose : close.type = .RPAREN)
    (hinner : ArgumentsRead nested inner arguments) :
    Chained nested (block ++ (open' :: inner ++ [close])) (.mk (.CallExpr e arguments)) := by
  apply h.extend (by simp)
  · intro rest _
    trivial
  · intro rest _
    exact suffix_call hopen hclose hinner rest

/-- An expression in parentheses. -/
theorem Chained.parentheses (hopen : open'.type = .LPAREN) (hclose : close.type = .RPAREN)
    (hne : peek inner ≠ .RPAREN) (hinner : inner ≠ [])
    (h : nested.expression.ReadsBefore (Room 16) inner e) :
    Chained nested (open' :: inner ++ [close]) e := by
  apply Chained.of_primary
  intro rest _
  have hhead : peek (inner ++ close :: rest) ≠ .RPAREN := by
    cases inner with
    | nil => exact absurd rfl hinner
    | cons first more => exact hne
  have hread : nested.expression (inner ++ close :: rest) = .ok (e, close :: rest) := by
    apply h
    rw [Room, peek, hclose]
    decide
  have hcomma : peek (close :: rest) ≠ .COMMA := by
    rw [peek, hclose]
    decide
  have hparenthesised : parenthesised nested (inner ++ close :: rest) = .ok (e, rest) := by
    rw [parenthesised, bind_of_ok (match_none hhead)]
    change (nested.expression >>= _) _ = _
    rw [bind_of_ok hread, bind_of_ok (match_none hcomma)]
    change (consume .RPAREN _ >>= _) _ = _
    rw [bind_of_ok (consume_ok hclose)]
    rfl
  rw [List.append_assoc, List.cons_append, List.singleton_append, primary, hopen]
  exact hparenthesised

end Suffixes

/-! ### Arguments -/

section Arguments

variable {nested : Nested S} {block : List Token} {e : ParsedExpr S}

/-- The tokens of a keyword argument's name do not begin an expression. -/
def StartsKeyword (tokens : List Token) : Prop :=
  ∃ name next rest, tokens = name :: next :: rest ∧ name.type = .IDENTIFIER ∧ next.type = .EQUAL

theorem argument_positional {tokens rest : List Token} (hkeyword : ¬StartsKeyword tokens)
    (hspread : peek tokens ≠ .ELLIPSIS) (h : nested.expression tokens = .ok (e, rest)) :
    argument nested tokens = .ok ({ name := [], value := e }, rest) := by
  have hvalue : spreadOr nested tokens = .ok (e, rest) := by
    rw [spreadOr, bind_of_ok (match_none hspread)]
    exact h
  match tokens with
  | [] =>
      rw [argument]
      · rw [bind_of_ok hvalue]
        rfl
      · intro name next more heq
        cases heq
  | [token] =>
      rw [argument]
      · rw [bind_of_ok hvalue]
        rfl
      · intro name next more heq
        cases heq
  | name :: next :: more =>
      rw [argument, if_neg fun hboth => hkeyword ⟨name, next, more, rfl, hboth⟩, bind_of_ok hvalue]
      rfl

theorem argument_keyword {name next : Token} {tokens rest : List Token}
    (hname : name.type = .IDENTIFIER) (hnext : next.type = .EQUAL)
    (h : nested.expression tokens = .ok (e, rest)) :
    argument nested (name :: next :: tokens) = .ok ({ name := name.lexeme, value := e }, rest) := by
  rw [argument, if_pos ⟨hname, hnext⟩, bind_of_ok h]
  rfl

variable {α : Type} {item : ParserM α} {items : List α} {a : α}

/-- What `commaSeparated` does at a comma. -/
def nextItem (item : ParserM α) (items : List α) : ParserM (Option (List α)) := do
  match ← «match» .COMMA with
  | none => pure none
  | some () => do
      let next ← item
      pure (some (items ++ [next]))

/-- After `block` a list may go on with more items. -/
abbrev ItemsChained (item : ParserM α) (block : List Token) (items : List α) : Prop :=
  (commaSeparated item).Chains (nextItem item) (Room 16) block items

theorem ItemsChained.first (h : item.ReadsBefore (Room 16) block a) :
    ItemsChained item block [a] := by
  apply Chains.of_first
  intro rest hrest
  rw [bind_of_ok (h rest hrest)]
  rfl

theorem ItemsChained.comma {comma : Token} {more : List Token} (h : ItemsChained item block items)
    (hcomma : comma.type = .COMMA) (hmore : item.ReadsBefore (Room 16) more a) :
    ItemsChained item (block ++ comma :: more) (items ++ [a]) := by
  apply h.extend (by simp)
  · intro rest _
    rw [List.cons_append, Room, peek, hcomma]
    decide
  · intro rest hrest
    rw [List.cons_append, nextItem, bind_of_ok (match_some hcomma)]
    change (item >>= _) _ = _
    rw [bind_of_ok (hmore rest hrest)]
    rfl

theorem ItemsChained.reads (h : ItemsChained item block items) {close : Token} {rest : List Token}
    (hclose : close.type = .RPAREN) :
    commaSeparated item (block ++ close :: rest) = .ok (items, close :: rest) := by
  have hends : (commaSeparated item).ReadsBefore (fun rest => peek rest = .RPAREN) block items := by
    apply h.ends
    intro rest hrest
    constructor
    · rw [Room, hrest]
      decide
    · have hcomma : peek rest ≠ .COMMA := by
        rw [hrest]
        decide
      rw [nextItem, bind_of_ok (match_none hcomma)]
      rfl
  exact hends (close :: rest) hclose

theorem argumentsRead_nil : ArgumentsRead nested [] [] := by
  intro close rest hclose
  rw [List.nil_append, itemsUntil, bind_of_ok (check_eq .RPAREN)]
  simp only [peek, hclose, beq_self_eq_true, if_true]
  rfl

theorem argumentsRead_of_items {arguments : List (Argument (ParsedExpr S))} (hne : block ≠ [])
    (hhead : peek block ≠ .RPAREN) (h : ItemsChained (argument nested) block arguments) :
    ArgumentsRead nested block arguments := by
  intro close rest hclose
  have hpeek : (peek (block ++ close :: rest) == .RPAREN) = false := by
    cases block with
    | nil => exact absurd rfl hne
    | cons first more => simpa [peek] using hhead
  rw [itemsUntil, bind_of_ok (check_eq .RPAREN), hpeek, if_neg (by decide)]
  exact h.reads hclose

end Arguments

/-! ### Operators -/

section Operators

variable {nested : Nested S}

/-- The parser of a level, with the fuel of those that call themselves. -/
def levelWithin (nested : Nested S) (fuel : Nat) : Nat → ParserM (ParsedExpr S)
  | 0 => call nested
  | 1 => unaryWithin nested fuel
  | 2 => powerWithin nested fuel
  | 3 => factor nested
  | 4 => term nested
  | 5 => bitwiseShift nested
  | 6 => comparison nested
  | 7 => equality nested
  | 8 => bitwiseAnd nested
  | 9 => bitwiseXor nested
  | 10 => bitwiseOr nested
  | 11 => logicalAnd nested
  | 12 => logicalOr nested
  | 13 => nullCoalescing nested
  | _ => ternaryWithin nested fuel

def level (nested : Nested S) (n : Nat) : ParserM (ParsedExpr S) := fun tokens =>
  levelWithin nested tokens.length n tokens

/-- The level reads `block` as `e` before what it does not take. -/
def Reads (nested : Nested S) (n : Nat) (block : List Token) (e : ParsedExpr S) : Prop :=
  ∀ fuel rest, (block ++ rest).length ≤ fuel → Room (n + 1) rest →
    levelWithin nested fuel n (block ++ rest) = .ok (e, rest)

variable {block block' : List Token} {e e' : ParsedExpr S} {n : Nat}

theorem Reads.readsBefore (h : Reads nested n block e) :
    (level nested n).ReadsBefore (Room (n + 1)) block e := by
  intro rest hrest
  exact h (block ++ rest).length rest (Nat.le_refl _) hrest

def binaryTable : Nat → List (TokenType × BinaryOp)
  | 3 => factorOperators
  | 4 => termOperators
  | 5 => shiftOperators
  | 6 => comparisonOperators
  | 7 => equalityOperators
  | 8 => [(.AMPERSAND, .AMPERSAND)]
  | 9 => [(.CARET, .CARET)]
  | 10 => [(.PIPE, .PIPE)]
  | _ => []

def logicalTable : Nat → List (TokenType × LogicalOp)
  | 11 => [(.AND, .AND)]
  | 12 => [(.OR, .OR)]
  | 13 => [(.QUESTION_QUESTION, .QUESTION_QUESTION)]
  | _ => []

/-- An operation of a level of left-associative operators. -/
def operationAt (nested : Nested S) (n : Nat) (left : ParsedExpr S) : ParserM (Option (ParsedExpr S)) :=
  if n ≤ 10 then operation (binaryTable n) makeBinary (level nested (n - 1)) left
  else operation (logicalTable n) makeLogical (level nested (n - 1)) left

theorem level_eq_chain (hlow : 3 ≤ n) (hhigh : n ≤ 13) (fuel : Nat) :
    levelWithin nested fuel n = Reader.chain (level nested (n - 1)) (operationAt nested n) := by
  interval_cases n <;> rfl

theorem operation_none {Op : Type} {table : List (TokenType × Op)}
    {make : ParsedExpr S → Op → ParsedExpr S → ParsedExpr S} {operand : ParserM (ParsedExpr S)}
    {rest : List Token} (htable : ∀ entry ∈ table, bindingLevel entry.1 < n) (hroom : Room n rest) :
    operation table make operand e rest = .ok (none, rest) := by
  rw [operation, bind_of_ok (matchAny_none_of_room htable hroom)]
  rfl

theorem operation_some {Op : Type} {table : List (TokenType × Op)} {op : Op} {token : Token}
    {type : TokenType} {make : ParsedExpr S → Op → ParsedExpr S → ParsedExpr S}
    {operand : ParserM (ParsedExpr S)} {tokens rest : List Token} (htype : token.type = type)
    (htable : (table.find? fun entry => entry.1 == type) = some (type, op))
    (hoperand : operand tokens = .ok (e', rest)) :
    operation table make operand e (token :: tokens) = .ok (some (make e op e'), rest) := by
  rw [operation, bind_of_ok (matchAny_some htype htable)]
  change (operand >>= _) _ = _
  rw [bind_of_ok hoperand]
  rfl

theorem operationAt_none (hlow : 3 ≤ n) (hhigh : n ≤ 13) {rest : List Token}
    (hroom : Room (n + 1) rest) : operationAt nested n e rest = .ok (none, rest) := by
  interval_cases n <;> exact operation_none (by decide) hroom

/-- After `block` a level may go on with its operators. -/
abbrev OperandChained (nested : Nested S) (n : Nat) (block : List Token) (e : ParsedExpr S) : Prop :=
  (Reader.chain (level nested (n - 1)) (operationAt nested n)).Chains (operationAt nested n) (Room n)
    block e

theorem OperandChained.of_reads (hlow : 3 ≤ n) (h : Reads nested (n - 1) block e) :
    OperandChained nested n block e := by
  apply Chains.of_first
  apply h.readsBefore.mono
  intro rest hrest
  exact hrest.mono (by omega)

theorem OperandChained.reads (hlow : 3 ≤ n) (hhigh : n ≤ 13) (h : OperandChained nested n block e) :
    Reads nested n block e := by
  have hends : (Reader.chain (level nested (n - 1)) (operationAt nested n)).ReadsBefore
      (Room (n + 1)) block e := by
    apply h.ends
    intro rest hrest
    exact ⟨hrest.mono (by omega), operationAt_none hlow hhigh hrest⟩
  intro fuel rest _ hrest
  rw [level_eq_chain hlow hhigh]
  exact hends rest hrest

/-- An operator of the level and an operand of the tighter one. -/
theorem OperandChained.extend {token : Token} {made : ParsedExpr S} (hlow : 3 ≤ n)
    (h : OperandChained nested n block e) (htoken : bindingLevel token.type = n)
    (hright : Reads nested (n - 1) block' e')
    (hstep : ∀ tokens rest, level nested (n - 1) tokens = .ok (e', rest) →
      operationAt nested n e (token :: tokens) = .ok (some made, rest)) :
    OperandChained nested n (block ++ token :: block') made := by
  apply Chains.extend h (by simp)
  · intro rest _
    exact htoken.ge
  · intro rest hrest
    rw [List.cons_append]
    apply hstep
    exact hright.readsBefore rest (hrest.mono (by omega))

/-! ### Climbing -/

theorem Reads.unary_of_call (hne : block ≠ []) (hhead : ∀ entry ∈ prefixOperators, entry.1 ≠ peek block)
    (h : Reads nested 0 block e) : Reads nested 1 block e := by
  intro fuel rest hfuel hrest
  have hcall : call nested (block ++ rest) = .ok (e, rest) := h fuel rest hfuel (hrest.mono (by omega))
  have hpeek : peek (block ++ rest) = peek block := by
    cases block with
    | nil => exact absurd rfl hne
    | cons first more => rfl
  cases fuel with
  | zero => exact hcall
  | succ fuel =>
      rw [← hpeek] at hhead
      change (matchAny prefixOperators >>= _) _ = _
      rw [bind_of_ok (matchAny_none hhead)]
      exact hcall

theorem Reads.power_of_unary (h : Reads nested 1 block e) : Reads nested 2 block e := by
  intro fuel rest _ hrest
  have hunary : unary nested (block ++ rest) = .ok (e, rest) :=
    h _ rest (Nat.le_refl _) (hrest.mono (by omega))
  cases fuel with
  | zero => exact hunary
  | succ fuel =>
      change (unary nested >>= _) _ = _
      rw [bind_of_ok hunary]
      change (matchAny _ >>= _) _ = _
      rw [bind_of_ok (matchAny_none_of_room (by decide) hrest)]
      rfl

theorem Reads.ternary_of_nullCoalescing (h : Reads nested 13 block e) : Reads nested 14 block e := by
  intro fuel rest hfuel hrest
  have hoperand : nullCoalescing nested (block ++ rest) = .ok (e, rest) :=
    h fuel rest hfuel (hrest.mono (by omega))
  cases fuel with
  | zero => exact hoperand
  | succ fuel =>
      change (nullCoalescing nested >>= _) _ = _
      rw [bind_of_ok hoperand]
      change (matchAny _ >>= _) _ = _
      rw [bind_of_ok (matchAny_none_of_room (by decide) hrest)]
      rfl

theorem Reads.succ (hlow : 1 ≤ n) (hhigh : n < 14) (h : Reads nested n block e) :
    Reads nested (n + 1) block e := by
  by_cases hunary : n = 1
  · subst hunary
    exact h.power_of_unary
  by_cases hternary : n = 13
  · subst hternary
    exact h.ternary_of_nullCoalescing
  · apply OperandChained.reads (by omega) (by omega)
    exact OperandChained.of_reads (by omega) h

theorem Reads.climb {m : Nat} (hlow : 1 ≤ n) (hle : n ≤ m) (hhigh : m ≤ 14)
    (h : Reads nested n block e) : Reads nested m block e := by
  induction hle with
  | refl => exact h
  | @step m hle ih =>
      have hbelow : n ≤ m := hle
      exact (ih (by omega)).succ (by omega) (by omega)

/-! ### The levels that call themselves -/

theorem Reads.unary {token : Token} {type : TokenType} {op : Option UnaryOp}
    (htoken : token.type = type)
    (htable : (prefixOperators.find? fun entry => entry.1 == type) = some (type, op))
    (h : Reads nested 1 block e) : Reads nested 1 (token :: block) (makeUnary e op) := by
  intro fuel rest hfuel hrest
  cases fuel with
  | zero => simp at hfuel
  | succ fuel =>
      have hoperand : unaryWithin nested fuel (block ++ rest) = .ok (e, rest) := by
        apply h fuel rest _ hrest
        simpa using hfuel
      change (matchAny prefixOperators >>= _) _ = _
      rw [List.cons_append, bind_of_ok (matchAny_some htoken htable)]
      change (unaryWithin nested fuel >>= _) _ = _
      rw [bind_of_ok hoperand]
      rfl

theorem Reads.power {token : Token} (htoken : token.type = .STAR_STAR)
    (hleft : Reads nested 1 block e) (hright : Reads nested 2 block' e') :
    Reads nested 2 (block ++ token :: block') (makeBinary e .STAR_STAR e') := by
  intro fuel rest hfuel hrest
  rw [List.append_assoc, List.cons_append] at hfuel ⊢
  cases fuel with
  | zero => simp at hfuel
  | succ fuel =>
      have hunary : Parser.unary nested (block ++ token :: (block' ++ rest)) =
          .ok (e, token :: (block' ++ rest)) := by
        apply hleft _ _ (Nat.le_refl _)
        rw [Room, peek, htoken]
        decide
      have hpower : powerWithin nested fuel (block' ++ rest) = .ok (e', rest) := by
        apply hright fuel rest _ hrest
        simp only [List.length_append, List.length_cons] at hfuel ⊢
        omega
      change (Parser.unary nested >>= _) _ = _
      rw [bind_of_ok hunary, bind_of_ok (match_some htoken)]
      change (powerWithin nested fuel >>= _) _ = _
      rw [bind_of_ok hpower]
      rfl

theorem Reads.ternary {question colon : Token} {then' else' : List Token}
    {condition thenBranch elseBranch : ParsedExpr S} (hquestion : question.type = .QUESTION_MARK)
    (hcolon : colon.type = .COLON) (hcondition : Reads nested 13 block condition)
    (hthen : nested.expression.ReadsBefore (Room 16) then' thenBranch)
    (helse : Reads nested 14 else' elseBranch) :
    Reads nested 14 (block ++ question :: (then' ++ colon :: else'))
      (.mk (.TernaryExpr condition thenBranch elseBranch)) := by
  intro fuel rest hfuel hrest
  simp only [List.append_assoc, List.cons_append] at hfuel ⊢
  cases fuel with
  | zero => simp at hfuel
  | succ fuel =>
      have hfirst : nullCoalescing nested (block ++ question :: (then' ++ colon :: (else' ++ rest))) =
          .ok (condition, question :: (then' ++ colon :: (else' ++ rest))) := by
        apply hcondition _ _ (Nat.le_refl _)
        rw [Room, peek, hquestion]
        decide
      have hsecond : nested.expression (then' ++ colon :: (else' ++ rest)) =
          .ok (thenBranch, colon :: (else' ++ rest)) := by
        apply hthen
        rw [Room, peek, hcolon]
        decide
      have hthird : ternaryWithin nested fuel (else' ++ rest) = .ok (elseBranch, rest) := by
        apply helse fuel rest _ hrest
        simp only [List.length_append, List.length_cons] at hfuel ⊢
        omega
      change (nullCoalescing nested >>= _) _ = _
      rw [bind_of_ok hfirst, bind_of_ok (match_some hquestion)]
      change (nested.expression >>= _) _ = _
      rw [bind_of_ok hsecond, bind_of_ok (consume_ok hcolon)]
      rw [bind_of_ok hthird]
      rfl

theorem assignment_reads (h : Reads nested 14 block e) :
    (assignment nested).ReadsBefore (Room 16) block e := by
  intro rest hrest
  have hternary : Parser.ternary nested (block ++ rest) = .ok (e, rest) :=
    h _ rest (Nat.le_refl _) (hrest.mono (by omega))
  rw [assignment]
  cases (block ++ rest).length with
  | zero => exact hternary
  | succ fuel =>
      change (Parser.ternary nested >>= _) _ = _
      rw [bind_of_ok hternary, bind_of_ok (matchAny_none_of_room (by decide) hrest)]
      rfl

end Operators

end Parser

end EZLanguage
