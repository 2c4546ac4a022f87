import EZLanguage.Parser.Levels
import EZLanguage.Parser.ExprText

/-!
# Reading a printed expression

The parser gives back every tree from its tokens, with any parentheses added to those required, as long as
its expressions are not nested deeper than the parser allows.
-/

namespace EZLanguage

open Support Support.Reader EZLanguage.Parser

variable {S : Type}

/-! ### How expressions begin -/

def canOpen (type : TokenType) : Bool :=
  [TokenType.NUMBER, .STRING, .IDENTIFIER, .TRUE, .FALSE, .NIL, .LPAREN, .BANG, .MINUS, .NOT,
    .TILDE].contains type

/-- How the tokens of a tree of a level begin. -/
def Opens (n : Nat) (block : List Token) : Prop :=
  ∃ first more, block = first :: more ∧ canOpen first.type = true ∧ peek more ≠ .EQUAL ∧
    (n = 0 → ∀ entry ∈ prefixOperators, entry.1 ≠ first.type)

namespace Opens

variable {n m : Nat} {block : List Token}

theorem ne_nil (h : Opens n block) : block ≠ [] := by
  obtain ⟨first, more, rfl, -⟩ := h
  simp

theorem peek_ne {type : TokenType} (h : Opens n block) (htype : canOpen type = false) :
    peek block ≠ type := by
  obtain ⟨first, more, rfl, hfirst, -⟩ := h
  intro heq
  rw [← heq] at htype
  exact absurd hfirst (by rw [show first.type = peek (first :: more) from rfl, htype]; simp)

theorem not_operator (h : Opens 0 block) : ∀ entry ∈ prefixOperators, entry.1 ≠ peek block := by
  obtain ⟨first, more, rfl, -, -, hstart⟩ := h
  exact hstart rfl

theorem single {token : Token} (htoken : canOpen token.type = true)
    (hstart : ∀ entry ∈ prefixOperators, entry.1 ≠ token.type) : Opens n [token] :=
  ⟨token, [], rfl, htoken, by decide, fun _ => hstart⟩

theorem append {token : Token} {rest : List Token} (h : Opens n block)
    (htoken : token.type ≠ .EQUAL) (hlevel : m = 0 → n = 0) : Opens m (block ++ token :: rest) := by
  obtain ⟨first, more, rfl, hfirst, hmore, hstart⟩ := h
  refine ⟨first, more ++ token :: rest, rfl, hfirst, ?_, fun hzero => hstart (hlevel hzero)⟩
  cases more with
  | nil => exact htoken
  | cons second more => exact hmore

theorem cons {token : Token} (htoken : canOpen token.type = true)
    (hstart : n = 0 → ∀ entry ∈ prefixOperators, entry.1 ≠ token.type) (h : Opens m block) :
    Opens n (token :: block) :=
  ⟨token, block, rfl, htoken, h.peek_ne rfl, hstart⟩

theorem mono (h : Opens n block) (hlevel : m = 0 → n = 0) : Opens m block := by
  obtain ⟨first, more, hblock, hfirst, hmore, hstart⟩ := h
  exact ⟨first, more, hblock, hfirst, hmore, fun hzero => hstart (hlevel hzero)⟩

/-- No expression begins like a keyword argument. -/
theorem not_startsKeyword {rest : List Token} (h : Opens n block) (hrest : Room 16 rest) :
    ¬StartsKeyword (block ++ rest) := by
  rintro ⟨name, next, after, heq, -, hnext⟩
  obtain ⟨first, more, rfl, -, hmore, -⟩ := h
  cases more with
  | nil =>
      injection heq with hname hafter
      have hrest' : rest = next :: after := hafter
      rw [Room, hrest', peek, hnext] at hrest
      exact absurd hrest (by decide)
  | cons second more =>
      injection heq with hname hafter
      injection hafter with hsecond hafter
      rw [peek, hsecond, hnext] at hmore
      exact hmore rfl

end Opens

theorem opens_enclose {p : Printing} {place : Nat} {tree : ExprTree} {tokens : List Token}
    (h : Opens tree.level tokens) : Opens place (p.enclose place tree tokens) := by
  rw [Printing.enclose]
  by_cases hencloses : p.encloses place tree = true
  · rw [if_pos hencloses]
    have hinner : Opens 1 (tokens ++ Spell.rparen :: []) := h.append (by decide) (by simp)
    exact hinner.cons rfl fun _ => by decide
  · rw [if_neg hencloses]
    apply h.mono
    intro hzero
    simp only [Printing.encloses, Bool.or_eq_true, decide_eq_true_eq, not_or] at hencloses
    omega

theorem word_of_identifier {name : CString} (h : isIdentifier name = true) :
    Spell.word name = { type := .IDENTIFIER, lexeme := name } := by
  simp only [isIdentifier, Bool.and_eq_true, Option.isNone_iff_eq_none] at h
  rw [Spell.word, h.2]

/-- A token that is an operand by itself. -/
def isOperand (type : TokenType) : Bool :=
  [TokenType.NIL, .TRUE, .FALSE, .NUMBER, .STRING, .IDENTIFIER].contains type

theorem Opens.operand {token : Token} (h : isOperand token.type = true) : Opens 0 [token] := by
  have hopens : ∀ type, isOperand type = true →
      canOpen type = true ∧ ∀ entry ∈ prefixOperators, entry.1 ≠ type := by
    intro type htype
    cases type <;> first | exact absurd htype (by decide) | decide
  obtain ⟨hcan, hstart⟩ := hopens token.type h
  exact Opens.single hcan hstart

theorem literal_isOperand (double : UInt64 → CString) (value : Literal) :
    isOperand (Spell.literal double value).type = true := by
  cases value with
  | nil =>
      change isOperand (Spell.word (lit "nil")).type = true
      decide
  | bool b =>
      cases b with
      | true =>
          change isOperand (Spell.word (lit "true")).type = true
          decide
      | false =>
          change isOperand (Spell.word (lit "false")).type = true
          decide
  | int i => rfl
  | double bits => rfl
  | string s => rfl

theorem BinaryOp.level_bounds (op : BinaryOp) : 2 ≤ op.level ∧ op.level ≤ 10 := by
  cases op <;> decide

theorem LogicalOp.level_bounds (op : LogicalOp) : 11 ≤ op.level ∧ op.level ≤ 13 := by
  cases op <;> decide

theorem ExprTree.level_le (tree : ExprTree) : tree.level ≤ 14 := by
  cases tree with
  | binary left op right =>
      have hop := op.level_bounds
      change op.level ≤ 14
      omega
  | logical left op right =>
      have hop := op.level_bounds
      change op.level ≤ 14
      omega
  | ternary condition thenBranch elseBranch => exact Nat.le_refl 14
  | unary op operand =>
      change 1 ≤ 14
      omega
  | _ => exact Nat.zero_le 14

theorem tokens_open {host : LexerHost} {p : Printing} (tree : ExprTree)
    (h : tree.Writable host p) : Opens tree.level (tree.tokens p) := by
  match tree with
  | .literal value => exact Opens.operand (literal_isOperand p.double value)
  | .identifier name =>
      rw [ExprTree.tokens, word_of_identifier h]
      exact Opens.operand rfl
  | .unary op operand =>
      have hoperand : Opens 1 _ := opens_enclose (p := p) (tokens_open operand h)
      rw [ExprTree.tokens]
      apply hoperand.cons
      · cases op <;> rfl
      · intro hzero
        cases hzero
  | .binary left op right =>
      have hleft : Opens op.leftLevel _ := opens_enclose (p := p) (tokens_open left h.1)
      rw [ExprTree.tokens]
      apply hleft.append
      · cases op <;> decide
      · intro hzero
        have hop := op.level_bounds
        change op.level = 0 at hzero
        omega
  | .logical left op right =>
      have hleft : Opens op.level _ := opens_enclose (p := p) (tokens_open left h.1)
      rw [ExprTree.tokens]
      apply hleft.append
      · cases op <;> decide
      · exact id
  | .ternary condition thenBranch elseBranch =>
      have hcondition : Opens 13 _ := opens_enclose (p := p) (tokens_open condition h.1)
      rw [ExprTree.tokens]
      apply hcondition.append
      · decide
      · intro hzero
        cases hzero
  | .call callee arguments =>
      have hcallee : Opens 0 _ := opens_enclose (p := p) (tokens_open callee h.1)
      rw [ExprTree.tokens, List.append_assoc]
      exact hcallee.append (by decide) fun _ => rfl
  | .index object index =>
      have hobject : Opens 0 _ := opens_enclose (p := p) (tokens_open object h.1)
      rw [ExprTree.tokens, List.append_assoc]
      exact hobject.append (by decide) fun _ => rfl
  | .property object name isOptional =>
      have hobject : Opens 0 _ := opens_enclose (p := p) (tokens_open object h.1)
      rw [ExprTree.tokens]
      apply hobject.append
      · cases isOptional <;> decide
      · exact fun _ => rfl

/-! ### Operands -/

section Operands

/-- A block of a level, with what may go on after it at the levels that are chains. -/
structure Parsed (nested : Nested S) (n : Nat) (block : List Token) (e : ParsedExpr S) : Prop where
  reads : Reads nested n block e
  postfixes : n = 0 → Chained nested block e
  operations : 3 ≤ n → n ≤ 13 → OperandChained nested n block e

namespace Parsed

variable {nested : Nested S} {n m : Nat} {block : List Token} {e : ParsedExpr S}

theorem of_chained (h : Chained nested block e) : Parsed nested 0 block e where
  reads := fun _ rest _ hrest => h.reads rest hrest
  postfixes := fun _ => h
  operations := fun hlow => absurd hlow (by decide)

theorem of_operations (hlow : 3 ≤ n) (hhigh : n ≤ 13) (h : OperandChained nested n block e) :
    Parsed nested n block e where
  reads := h.reads hlow hhigh
  postfixes := fun hzero => absurd hlow (by omega)
  operations := fun _ _ => h

theorem of_reads (hlow : 1 ≤ n) (hlevel : n < 3 ∨ 13 < n) (h : Reads nested n block e) :
    Parsed nested n block e where
  reads := h
  postfixes := fun hzero => absurd hlow (by omega)
  operations := fun _ _ => absurd hlevel (by omega)

theorem reads_climb (h : Parsed nested n block e) (hopens : Opens n block) (hle : n ≤ m)
    (hhigh : m ≤ 14) : Reads nested m block e := by
  by_cases heq : n = m
  · rw [← heq]
    exact h.reads
  cases n with
  | zero =>
      have hunary := h.reads.unary_of_call hopens.ne_nil hopens.not_operator
      exact hunary.climb (Nat.le_refl 1) (by omega) hhigh
  | succ n => exact h.reads.climb (by omega) hle hhigh

/-- A looser place takes the same block. -/
theorem climb (h : Parsed nested n block e) (hopens : Opens n block) (hle : n ≤ m)
    (hhigh : m ≤ 14) : Parsed nested m block e := by
  by_cases heq : n = m
  · rw [← heq]
    exact h
  · exact
      { reads := h.reads_climb hopens hle hhigh
        postfixes := fun hzero => absurd hzero (by omega)
        operations := fun hlow _ =>
          OperandChained.of_reads hlow (h.reads_climb hopens (by omega) (by omega)) }

end Parsed

variable (declaration : StatementParser S) {p : Printing}

/-- A tree is read from its tokens wherever its expressions may be nested deep enough. -/
def ReadBack (p : Printing) (tree : ExprTree) : Prop :=
  ∀ fuel depth, tree.nesting p ≤ depth → depth ≤ fuel →
    Parsed (nestedWithin declaration fuel depth) tree.level (tree.tokens p) (tree.expr (S := S))

variable {declaration} {tree : ExprTree} {fuel depth : Nat}

theorem expression_reads {block : List Token} {e : ParsedExpr S}
    (h : Reads (nestedWithin declaration fuel depth) 14 block e) :
    (nestedWithin declaration (fuel + 1) (depth + 1)).expression.ReadsBefore (Room 16) block e :=
  assignment_reads h

/-- In its place a tree is read with its parentheses. -/
theorem ReadBack.operand (h : ReadBack declaration p tree) (hopens : Opens tree.level (tree.tokens p))
    (place : Nat) (hplace : place ≤ 14) (hdepth : p.encloseNesting place tree (tree.nesting p) ≤ depth)
    (hfuel : depth ≤ fuel) :
    Parsed (nestedWithin declaration fuel depth) place (p.enclose place tree (tree.tokens p))
      tree.expr := by
  have henclosed : Opens 0 (p.enclose 0 tree (tree.tokens p)) := opens_enclose hopens
  have hlevel := tree.level_le
  rw [Printing.enclose, Printing.encloseNesting] at *
  by_cases hencloses : p.encloses place tree = true
  · rw [if_pos hencloses] at hdepth ⊢
    obtain ⟨depth, rfl⟩ : ∃ inner, depth = inner + 1 := ⟨depth - 1, by omega⟩
    obtain ⟨fuel, rfl⟩ : ∃ inner, fuel = inner + 1 := ⟨fuel - 1, by omega⟩
    have hinner := h fuel depth (by omega) (by omega)
    have hread := expression_reads (hinner.reads_climb hopens hlevel (Nat.le_refl 14))
    have hchained : Chained (nestedWithin declaration (fuel + 1) (depth + 1))
        (Spell.lparen :: tree.tokens p ++ [Spell.rparen]) tree.expr :=
      Chained.parentheses rfl rfl (hopens.peek_ne rfl) hopens.ne_nil hread
    have hparens : Opens 0 (Spell.lparen :: tree.tokens p ++ [Spell.rparen]) := by
      have hafter : Opens 1 (tree.tokens p ++ Spell.rparen :: []) :=
        hopens.append (by decide) (by simp)
      exact hafter.cons rfl fun _ => by decide
    exact (Parsed.of_chained hchained).climb hparens (Nat.zero_le _) hplace
  · rw [if_neg hencloses] at hdepth ⊢
    have hle : tree.level ≤ place := by
      simp only [Printing.encloses, Bool.or_eq_true, decide_eq_true_eq, not_or] at hencloses
      omega
    exact (h fuel depth hdepth hfuel).climb hopens hle hplace

/-- In brackets a tree is read as an expression. -/
theorem ReadBack.bracketed (h : ReadBack declaration p tree)
    (hopens : Opens tree.level (tree.tokens p))
    (hdepth : p.encloseNesting 14 tree (tree.nesting p) + 1 ≤ depth) (hfuel : depth ≤ fuel) :
    (nestedWithin declaration fuel depth).expression.ReadsBefore (Room 16)
      (p.enclose 14 tree (tree.tokens p)) tree.expr := by
  obtain ⟨depth, rfl⟩ : ∃ inner, depth = inner + 1 := ⟨depth - 1, by omega⟩
  obtain ⟨fuel, rfl⟩ : ∃ inner, fuel = inner + 1 := ⟨fuel - 1, by omega⟩
  exact expression_reads
    (h.operand hopens 14 (Nat.le_refl 14) (by omega) (by omega)).reads

/-! ### Trees -/

theorem argument_reads {name : CString} {value : ExprTree} (h : ReadBack declaration p value)
    (hopens : Opens value.level (value.tokens p)) (hname : name = [] ∨ isIdentifier name = true)
    (hdepth : p.encloseNesting 14 value (value.nesting p) + 1 ≤ depth) (hfuel : depth ≤ fuel) :
    (argument (nestedWithin declaration fuel depth)).ReadsBefore (Room 16)
      (argumentName name ++ p.enclose 14 value (value.tokens p)) { name, value := value.expr } := by
  have hvalue := h.bracketed hopens hdepth hfuel
  have henclosed : Opens 14 (p.enclose 14 value (value.tokens p)) := opens_enclose hopens
  intro rest hrest
  rcases hname with rfl | hname
  · apply argument_positional
    · exact henclosed.not_startsKeyword hrest
    · have hhead : peek (p.enclose 14 value (value.tokens p)) ≠ .ELLIPSIS := henclosed.peek_ne rfl
      obtain ⟨first, more, heq, -⟩ := henclosed
      rw [heq] at hhead
      change peek (p.enclose 14 value (value.tokens p) ++ rest) ≠ _
      rw [heq]
      exact hhead
    · exact hvalue rest hrest
  · have hword := word_of_identifier hname
    have hne : name.isEmpty = false := by
      cases name with
      | nil => cases hname
      | cons first more => rfl
    rw [argumentName, hne, if_neg (by decide), hword, List.append_assoc, List.cons_append,
      List.singleton_append]
    exact argument_keyword rfl rfl (hvalue rest hrest)

/-- An argument does not begin with the parenthesis that ends the call. -/
theorem argument_head {name : CString} {value : ExprTree}
    (hopens : Opens value.level (value.tokens p)) (hname : name = [] ∨ isIdentifier name = true) :
    ∃ first more, argumentName name ++ p.enclose 14 value (value.tokens p) = first :: more ∧
      first.type ≠ .RPAREN := by
  rcases hname with rfl | hname
  · have henclosed : Opens 14 (p.enclose 14 value (value.tokens p)) := opens_enclose hopens
    have hne : peek (p.enclose 14 value (value.tokens p)) ≠ .RPAREN := henclosed.peek_ne rfl
    obtain ⟨first, more, heq, -⟩ := henclosed
    rw [heq] at hne
    exact ⟨first, more, heq, hne⟩
  · cases name with
    | nil => cases hname
    | cons c name =>
        refine ⟨Spell.word (c :: name), Spell.equal :: p.enclose 14 value (value.tokens p), rfl, ?_⟩
        rw [word_of_identifier hname]
        exact fun h => nomatch h

theorem binary_operation {nested : Nested S} {op : BinaryOp} (hop : op ≠ .STAR_STAR)
    {left right : ParsedExpr S} (tokens rest : List Token)
    (h : level nested (op.level - 1) tokens = .ok (right, rest)) :
    operationAt nested op.level left (Spell.binary op :: tokens) =
      .ok (some (.mk (.BinaryExpr left op right)), rest) := by
  have htable : ((binaryTable op.level).find? fun entry => entry.1 == (Spell.binary op).type) =
      some ((Spell.binary op).type, op) := by
    cases op <;> first | exact absurd rfl hop | rfl
  rw [operationAt, if_pos op.level_bounds.2]
  exact operation_some rfl htable h

theorem logical_operation {nested : Nested S} {op : LogicalOp} {left right : ParsedExpr S}
    (tokens rest : List Token) (h : level nested (op.level - 1) tokens = .ok (right, rest)) :
    operationAt nested op.level left (Spell.logical op :: tokens) =
      .ok (some (.mk (.LogicalExpr left op right)), rest) := by
  have hop := op.level_bounds
  have htable : ((logicalTable op.level).find? fun entry => entry.1 == (Spell.logical op).type) =
      some ((Spell.logical op).type, op) := by
    cases op <;> rfl
  rw [operationAt, if_neg (by omega)]
  exact operation_some rfl htable h

theorem binary_bindingLevel (op : BinaryOp) : bindingLevel (Spell.binary op).type = op.level := by
  cases op <;> rfl

theorem logical_bindingLevel (op : LogicalOp) : bindingLevel (Spell.logical op).type = op.level := by
  cases op <;> rfl

theorem unary_matches (op : UnaryOp) :
    (prefixOperators.find? fun entry => entry.1 == (Spell.unary op).type) =
      some ((Spell.unary op).type, some op) := by
  cases op <;> rfl

theorem literal_primary (nested : Nested S) (double : UInt64 → CString) (value : Literal)
    (rest : List Token) :
    primary nested (Spell.literal double value :: rest) = .ok (.literal value, rest) := by
  cases value with
  | bool b => cases b <;> rfl
  | _ => rfl

theorem word_isPropertyName (name : CString) : isPropertyNameToken (Spell.word name).type = true := by
  have hkeywords : ∀ entry ∈ Lexer.keywords, isPropertyNameToken entry.2 = true := by decide
  rw [Spell.word]
  cases hlookup : lookup Lexer.keywords name with
  | none => rfl
  | some type =>
      rw [lookup] at hlookup
      obtain ⟨entry, hfind, rfl⟩ := Option.map_eq_some_iff.mp hlookup
      exact hkeywords entry (List.mem_of_find?_eq_some hfind)

variable {host : LexerHost}

mutual

/-- The parser reads every tree back, by recursion on the tree. -/
theorem readBack (tree : ExprTree) (hwritable : tree.Writable host p) :
    ReadBack declaration p tree := by
  intro fuel depth hdepth hfuel
  match tree with
  | .literal value =>
      apply Parsed.of_chained
      apply Chained.of_primary
      intro rest _
      exact literal_primary _ p.double value rest
  | .identifier name =>
      apply Parsed.of_chained
      apply Chained.of_primary
      intro rest _
      rw [ExprTree.tokens, word_of_identifier hwritable]
      rfl
  | .unary op operand =>
      rw [ExprTree.nesting] at hdepth
      have hoperand := (readBack operand hwritable).operand (tokens_open operand hwritable)
        1 (by decide) hdepth hfuel
      apply Parsed.of_reads (Nat.le_refl 1) (.inl (by decide))
      exact hoperand.reads.unary rfl (unary_matches op)
  | .binary left op right =>
      rw [ExprTree.nesting] at hdepth
      have hop := op.level_bounds
      by_cases hpower : op = .STAR_STAR
      · subst hpower
        have hleft := (readBack left hwritable.1).operand
          (tokens_open left hwritable.1) 1 (by decide) (Nat.le_trans (Nat.le_max_left _ _) hdepth) hfuel
        have hright := (readBack right hwritable.2).operand
          (tokens_open right hwritable.2) 2 (by decide) (Nat.le_trans (Nat.le_max_right _ _) hdepth) hfuel
        apply Parsed.of_reads (Nat.le_succ 1) (.inl (Nat.lt_succ_self 2))
        exact hleft.reads.power rfl hright.reads
      · have hlow : 3 ≤ op.level := by
          cases op <;> first | exact absurd rfl hpower | decide
        rw [BinaryOp.leftLevel, BinaryOp.rightLevel, if_neg hpower, if_neg hpower] at hdepth
        have hleft := (readBack left hwritable.1).operand
          (tokens_open left hwritable.1) op.level (by omega) (Nat.le_trans (Nat.le_max_left _ _) hdepth) hfuel
        have hright := (readBack right hwritable.2).operand
          (tokens_open right hwritable.2) (op.level - 1) (by omega) (Nat.le_trans (Nat.le_max_right _ _) hdepth) hfuel
        apply Parsed.of_operations hlow (by omega)
        rw [ExprTree.tokens, BinaryOp.leftLevel, BinaryOp.rightLevel, if_neg hpower, if_neg hpower]
        exact (hleft.operations hlow (by omega)).extend hlow (binary_bindingLevel op) hright.reads
          (binary_operation hpower)
  | .logical left op right =>
      rw [ExprTree.nesting] at hdepth
      have hop := op.level_bounds
      have hleft := (readBack left hwritable.1).operand
        (tokens_open left hwritable.1) op.level (by omega) (Nat.le_trans (Nat.le_max_left _ _) hdepth) hfuel
      have hright := (readBack right hwritable.2).operand
        (tokens_open right hwritable.2) (op.level - 1) (by omega) (Nat.le_trans (Nat.le_max_right _ _) hdepth) hfuel
      apply Parsed.of_operations (by omega) hop.2
      rw [ExprTree.tokens]
      exact (hleft.operations (by omega) hop.2).extend (by omega) (logical_bindingLevel op)
        hright.reads logical_operation
  | .ternary condition thenBranch elseBranch =>
      rw [ExprTree.nesting] at hdepth
      obtain ⟨hcondition, hthen, helse⟩ := hwritable
      have hfirst := (readBack condition hcondition).operand
        (tokens_open condition hcondition) 13 (by decide) (by omega) hfuel
      have hsecond := (readBack thenBranch hthen).bracketed (tokens_open thenBranch hthen)
        (by omega) hfuel
      have hthird := (readBack elseBranch helse).operand
        (tokens_open elseBranch helse) 14 (by decide) (by omega) hfuel
      apply Parsed.of_reads (Nat.succ_pos 13) (.inr (Nat.lt_succ_self 13))
      exact hfirst.reads.ternary rfl rfl hsecond hthird.reads
  | .call callee .nil =>
      rw [ExprTree.nesting] at hdepth
      have hcallee := (readBack callee hwritable.1).operand
        (tokens_open callee hwritable.1) 0 (by decide) (Nat.le_trans (Nat.le_max_left _ _) hdepth) hfuel
      apply Parsed.of_chained
      rw [ExprTree.tokens, List.append_assoc]
      exact (hcallee.postfixes rfl).call rfl rfl argumentsRead_nil
  | .call callee (.cons name value rest) =>
      rw [ExprTree.nesting, ArgumentTrees.nesting] at hdepth
      obtain ⟨hwcallee, hwname, hwvalue, hwrest⟩ := hwritable
      have hopens := tokens_open value hwvalue
      have hcallee := (readBack callee hwcallee).operand
        (tokens_open callee hwcallee) 0 (by decide) (by omega) hfuel
      have hfirst := ItemsChained.first
        (argument_reads (readBack value hwvalue) hopens hwname (by omega) hfuel)
      have hitems := itemsBack rest hwrest fuel depth (by omega) hfuel _ _ hfirst
      apply Parsed.of_chained
      rw [ExprTree.tokens, List.append_assoc]
      apply (hcallee.postfixes rfl).call rfl rfl
      have hblock : (ArgumentTrees.cons name value rest).tokens p = Spell.comma ::
          (argumentName name ++ p.enclose 14 value (value.tokens p) ++ rest.tokens p) := rfl
      obtain ⟨first, more, heq, hfirst⟩ := argument_head hopens hwname
      rw [hblock, List.tail_cons]
      apply argumentsRead_of_items _ _ hitems
      · rw [heq]
        simp
      · rw [heq]
        exact hfirst
  | .index object index =>
      rw [ExprTree.nesting] at hdepth
      have hobject := (readBack object hwritable.1).operand
        (tokens_open object hwritable.1) 0 (by decide) (Nat.le_trans (Nat.le_max_left _ _) hdepth) hfuel
      have hindex := (readBack index hwritable.2).bracketed (tokens_open index hwritable.2)
        (Nat.le_trans (Nat.le_max_right _ _) hdepth) hfuel
      apply Parsed.of_chained
      rw [ExprTree.tokens, List.append_assoc]
      exact (hobject.postfixes rfl).index rfl rfl hindex
  | .property object name isOptional =>
      rw [ExprTree.nesting] at hdepth
      have hobject := (readBack object hwritable.1).operand
        (tokens_open object hwritable.1) 0 (by decide) hdepth hfuel
      apply Parsed.of_chained
      have hdot : (Spell.dot isOptional).type = if isOptional then .QUESTION_DOT else .DOT := by
        cases isOptional <;> rfl
      have hproperty := (hobject.postfixes rfl).property hdot (word_isPropertyName name)
      rw [word_lexeme] at hproperty
      exact hproperty

theorem itemsBack (arguments : ArgumentTrees) (hwritable : arguments.Writable host p) (fuel depth : Nat)
    (hdepth : arguments.nesting p ≤ depth) (hfuel : depth ≤ fuel) (block : List Token)
    (items : List (Argument (ParsedExpr S)))
    (h : ItemsChained (argument (nestedWithin declaration fuel depth)) block items) :
    ItemsChained (argument (nestedWithin declaration fuel depth)) (block ++ arguments.tokens p)
      (items ++ arguments.exprs) := by
  match arguments with
  | .nil =>
      rw [ArgumentTrees.tokens, ArgumentTrees.exprs, List.append_nil, List.append_nil]
      exact h
  | .cons name value rest =>
      rw [ArgumentTrees.nesting] at hdepth
      obtain ⟨hwname, hwvalue, hwrest⟩ := hwritable
      have hvalue : ReadBack declaration p value := readBack value hwvalue
      have hargument := argument_reads hvalue (tokens_open value hwvalue) hwname
        (Nat.le_trans (Nat.le_max_left _ _) hdepth) hfuel
      have hcomma : Spell.comma.type = .COMMA := rfl
      have hnext := h.comma hcomma hargument
      have hitems := itemsBack rest hwrest fuel depth (Nat.le_trans (Nat.le_max_right _ _) hdepth) hfuel
        _ _ hnext
      rw [ArgumentTrees.tokens, ArgumentTrees.exprs]
      simpa only [List.append_assoc, List.cons_append, List.nil_append] using hitems

end

end Operands

end EZLanguage
