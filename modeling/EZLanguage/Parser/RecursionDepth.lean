import EZLanguage.Lexer.Lexer
import EZLanguage.Support.Runs

/-!
# The recursion depth of the parser

`expression` and `statement` hold a `DepthGuard` while they run, and no other function of the parser does.
A run is looked at as its calls, returns and errors. A function calls another at the places the source has
for that, each behind the tokens it has just matched; how the functions move in the tokens otherwise is
left open, so that the runs here are those of every parse and more.
-/

namespace EZLanguage

namespace RecursionDepth

inductive Production where
  | parse | declaration | statement | varDeclStatement | interfaceStatement | outStatement
  | whenStatement | whileStatement | repeatStatement | getStatement | matchStatement
  | staticStatement | taskStatement | modelStatement | giveStatement | escapeStatement
  | skipStatement | blockStatement | structStatement | enumStatement | useStatement
  | tryStatement | throwStatement | exportStatement | testStatement | expressionStatement
  | parseType | expression | assignment | ternary | nullCoalescing | logicalOr | logicalAnd
  | bitwiseOr | bitwiseXor | bitwiseAnd | equality | comparison | bitwiseShift | term | factor
  | power | unary | call | finishCall | primary | lambdaExpression
  deriving DecidableEq

open Production

def MAX_DEPTH : Nat := 100

/-- The functions that hold a `DepthGuard`. -/
def guarded : Production → Bool
  | expression | statement => true
  | _ => false

/-- A place where a function calls another, with the tokens one of which it has just matched there. None
are given where no match precedes the call. -/
structure CallSite where
  behind : List TokenType
  callee : Production
  deriving DecidableEq

def site (callee : Production) (behind : List TokenType) : CallSite := ⟨behind, callee⟩

/-- The calls of each function. -/
def callSites : Production → List CallSite
  | parse => [site declaration []]
  | declaration => [site varDeclStatement [], site statement []]
  | statement =>
      [site interfaceStatement [.INTERFACE], site outStatement [.OUT], site whenStatement [.WHEN],
        site whileStatement [.WHILE], site repeatStatement [.REPEAT], site getStatement [.GET],
        site matchStatement [.MATCH], site staticStatement [.STATIC], site expression [.AT],
        site taskStatement [.TASK, .DECORATOR_KW], site modelStatement [.MODEL],
        site giveStatement [.GIVE], site escapeStatement [.ESCAPE], site skipStatement [.SKIP],
        site blockStatement [.LBRACE], site structStatement [.STRUCT], site enumStatement [.ENUM],
        site useStatement [.USE], site tryStatement [.TRY], site throwStatement [.THROW],
        site exportStatement [.EXPORT], site testStatement [.TEST], site expressionStatement []]
  | varDeclStatement => [site parseType [.COLON], site expression [.EQUAL]]
  | interfaceStatement => [site parseType [.COLON, .ARROW]]
  | outStatement | giveStatement | throwStatement | expressionStatement => [site expression []]
  | whenStatement =>
      [site expression [], site blockStatement [.LBRACE], site statement [],
        site whenStatement [.WHEN]]
  | whileStatement | repeatStatement | getStatement | matchStatement =>
      [site expression [], site blockStatement [.LBRACE], site statement []]
  | staticStatement | enumStatement => [site expression [.EQUAL]]
  | taskStatement =>
      [site parseType [.COLON, .ARROW], site ternary [.EQUAL], site expression [],
        site declaration [], site statement []]
  | modelStatement =>
      [site parseType [.COLON, .ARROW], site ternary [.EQUAL], site expression [],
        site declaration []]
  | structStatement => [site parseType [.COLON], site expression [.EQUAL]]
  | tryStatement => [site blockStatement [.LBRACE]]
  | exportStatement => [site declaration []]
  | testStatement => [site lambdaExpression []]
  | blockStatement => [site declaration []]
  | escapeStatement | skipStatement | useStatement => []
  | parseType => [site parseType [.LBRACKET, .COMMA]]
  | expression => [site assignment []]
  | assignment =>
      [site ternary [],
        site assignment
          [.EQUAL, .PLUS_EQUAL, .MINUS_EQUAL, .STAR_EQUAL, .STAR_STAR_EQUAL, .SLASH_EQUAL]]
  | ternary => [site nullCoalescing [], site expression [.QUESTION_MARK], site ternary [.COLON]]
  | nullCoalescing => [site logicalOr []]
  | logicalOr => [site logicalAnd []]
  | logicalAnd => [site bitwiseOr []]
  | bitwiseOr => [site bitwiseXor []]
  | bitwiseXor => [site bitwiseAnd []]
  | bitwiseAnd => [site equality []]
  | equality => [site comparison []]
  | comparison => [site bitwiseShift []]
  | bitwiseShift => [site term []]
  | term => [site factor []]
  | factor => [site power []]
  | power => [site unary [], site power [.STAR_STAR]]
  | unary => [site unary [.BANG, .MINUS, .NOT, .TILDE, .AWAIT], site call []]
  | call => [site primary [], site finishCall [.LPAREN], site expression [.LBRACKET]]
  | finishCall => [site expression []]
  | primary =>
      [site parseType [.LBRACKET, .COMMA], site expression [], site lambdaExpression [],
        site ternary []]
  | lambdaExpression => [site expression [], site declaration []]

/-- Calls that lead back to a function which is running already, through no guard. -/
def recursive (caller callee : Production) : Bool :=
  decide (caller = callee) || decide (caller = primary ∧ callee = ternary)

/-- The functions in the order in which they call each other between two guards. -/
def level : Production → Nat
  | parseType => 0
  | varDeclStatement | finishCall => 1
  | declaration => 2
  | lambdaExpression | blockStatement | exportStatement => 3
  | primary | whenStatement | whileStatement | repeatStatement | getStatement | matchStatement
  | tryStatement | testStatement => 4
  | call => 5
  | unary => 6
  | power => 7
  | factor => 8
  | term => 9
  | bitwiseShift => 10
  | comparison => 11
  | equality => 12
  | bitwiseAnd => 13
  | bitwiseXor => 14
  | bitwiseOr => 15
  | logicalAnd => 16
  | logicalOr => 17
  | nullCoalescing => 18
  | ternary => 19
  | assignment | taskStatement | modelStatement => 20
  | expression => 21
  | statement => 22
  | parse => 23
  | _ => 1

/-- Every call goes down, passes a guard or is one of the recursive ones. -/
theorem level_callee (p : Production) : ∀ c ∈ callSites p,
    guarded c.callee = true ∨ recursive p c.callee = true ∨ level c.callee < level p := by
  cases p <;> decide

theorem level_le (p : Production) : level p ≤ 23 := by
  cases p <;> decide

/-- The parser between two steps. The functions that run are listed from the inside. -/
structure State where
  frames : List Production
  currentDepth : Nat
  current : Nat
  hadError : Bool

inductive Label where
  | move
  | call (caller callee : Production)
  | enter (callee : Production)
  | refuse (callee : Production)
  | giveBack
  | throw

def start : State := ⟨[parse], 0, 0, false⟩

/-- An exception ends the functions up to the `declaration` that catches it, and their guards with them. -/
def unwind : List Production → Nat → List Production × Nat
  | [], depth => ([], depth)
  | p :: k, depth =>
      if p = declaration ∨ p = parse then (p :: k, depth)
      else unwind k (if guarded p then depth - 1 else depth)

example : unwind [expression, parse] 1 = ([parse], 0) := by simp [unwind, guarded]

/-- The tokens in front of a call are there. -/
def Behind (tokens : List TokenType) (current : Nat) (c : CallSite) : Prop :=
  c.behind = [] ∨ ∃ i t, current = i + 1 ∧ tokens[i]? = some t ∧ t ∈ c.behind

inductive Step (tokens : List TokenType) : Label → State → State → Prop
  | move {k d i e} (j : Nat) : Step tokens .move ⟨k, d, i, e⟩ ⟨k, d, j, e⟩
  | call {p k d i e} {c : CallSite} (hc : c ∈ callSites p) (hbehind : Behind tokens i c)
      (hfree : guarded c.callee = false) :
      Step tokens (.call p c.callee) ⟨p :: k, d, i, e⟩ ⟨c.callee :: p :: k, d, i, e⟩
  | enter {p k d i e} {c : CallSite} (hc : c ∈ callSites p) (hbehind : Behind tokens i c)
      (hguarded : guarded c.callee = true) (hdepth : d + 1 ≤ MAX_DEPTH) :
      Step tokens (.enter c.callee) ⟨p :: k, d, i, e⟩ ⟨c.callee :: p :: k, d + 1, i, e⟩
  -- the constructor of the guard has counted before it throws, and no destructor runs
  | refuse {p k d i e} {c : CallSite} (hc : c ∈ callSites p) (hbehind : Behind tokens i c)
      (hguarded : guarded c.callee = true) (hdepth : MAX_DEPTH < d + 1) :
      Step tokens (.refuse c.callee) ⟨p :: k, d, i, e⟩
        ⟨(unwind (p :: k) (d + 1)).1, (unwind (p :: k) (d + 1)).2, i, true⟩
  | giveBack {p q k d i e} :
      Step tokens .giveBack ⟨p :: q :: k, d, i, e⟩
        ⟨q :: k, if guarded p then d - 1 else d, i, e⟩
  | throw {p k d i e} :
      Step tokens .throw ⟨p :: k, d, i, e⟩ ⟨(unwind (p :: k) d).1, (unwind (p :: k) d).2, i, true⟩

/-- The guards that are held. -/
def guards (k : List Production) : Nat := k.countP guarded

/-- The recursive calls without a guard that are open. -/
def unguarded : List Production → Nat
  | q :: p :: k => (if recursive p q then 1 else 0) + unguarded (p :: k)
  | _ => 0

example : unguarded [] = 0 := by simp [unguarded]

/-- The functions that run call each other. -/
def Linked : List Production → Prop
  | q :: p :: k => (∃ c ∈ callSites p, c.callee = q) ∧ Linked (p :: k)
  | _ => True

def isRefuse : Label → Bool
  | .refuse _ => true
  | _ => false

theorem guards_cons (p : Production) (k : List Production) :
    guards (p :: k) = guards k + if guarded p then 1 else 0 := by
  rw [guards, guards, List.countP_cons]

theorem unguarded_le (k : List Production) : unguarded k ≤ k.length := by
  induction k with
  | nil => exact Nat.le_refl _
  | cons q k ih =>
      cases k with
      | nil => exact Nat.zero_le _
      | cons p k =>
          rw [unguarded, List.length_cons]
          split <;> omega

theorem linked_tail {p : Production} {k : List Production} (h : Linked (p :: k)) : Linked k := by
  cases k with
  | nil => trivial
  | cons q k => exact h.2

/-- The frames between two guards or recursive calls go down in level. -/
theorem length_le {p : Production} {k : List Production} (h : Linked (p :: k)) :
    (p :: k).length + level p ≤ 24 * (guards (p :: k) + unguarded (p :: k) + 1) := by
  induction k generalizing p with
  | nil =>
      have hp := level_le p
      rw [List.length_singleton]
      omega
  | cons q k ih =>
      obtain ⟨⟨c, hc, rfl⟩, hk⟩ := h
      have hq := ih hk
      have hp := level_le c.callee
      rw [guards_cons, unguarded, List.length_cons]
      obtain hguarded | hrecursive | hlevel := level_callee q c hc
      · rw [hguarded, if_pos rfl]
        omega
      · rw [hrecursive, if_pos rfl]
        omega
      · omega

theorem linked_unwind {k : List Production} (d : Nat) (h : Linked k) : Linked (unwind k d).1 := by
  induction k generalizing d with
  | nil => trivial
  | cons p k ih =>
      rw [unwind]
      split
      · exact h
      · exact ih _ (linked_tail h)

/-- An exception takes off the counter what it takes off the guards. -/
theorem guards_unwind (k : List Production) (n : Nat) :
    (unwind k (guards k + n)).2 = guards (unwind k (guards k + n)).1 + n := by
  induction k with
  | nil => rfl
  | cons p k ih =>
      rw [unwind]
      split
      · rfl
      · have hdepth : (if guarded p = true then guards (p :: k) + n - 1 else guards (p :: k) + n) =
            guards k + n := by
          rw [guards_cons]
          split <;> omega
        rw [hdepth]
        exact ih

theorem guards_unwind_le (k : List Production) (d : Nat) : guards (unwind k d).1 ≤ guards k := by
  induction k generalizing d with
  | nil => exact Nat.le_refl _
  | cons p k ih =>
      rw [unwind]
      split
      · exact Nat.le_refl _
      · have hk := ih (if guarded p then d - 1 else d)
        rw [guards_cons]
        omega

/-- What holds in every state: the counter is the guards that are held and those that were refused. -/
structure Counted (refused : Nat) (s : State) : Prop where
  linked : Linked s.frames
  depth : s.currentDepth = guards s.frames + refused
  held : guards s.frames ≤ MAX_DEPTH
  reported : 0 < refused → s.hadError = true

theorem counted_step {tokens : List TokenType} {refused : Nat} {l : Label} {s s' : State}
    (h : Counted refused s) (hstep : Step tokens l s s') :
    Counted (refused + if isRefuse l then 1 else 0) s' := by
  obtain ⟨hlinked, hdepth, hheld, hreported⟩ := h
  cases hstep with
  | move j => exact ⟨hlinked, hdepth, hheld, hreported⟩
  | call hc _ hfree =>
      refine ⟨⟨⟨_, hc, rfl⟩, hlinked⟩, ?_, ?_, hreported⟩
      · rw [guards_cons, hfree]
        exact hdepth
      · rw [guards_cons, hfree]
        exact hheld
  | enter hc _ hguarded hroom =>
      dsimp only at hdepth hheld
      refine ⟨⟨⟨_, hc, rfl⟩, hlinked⟩, ?_, ?_, hreported⟩
      · rw [guards_cons, hguarded, if_pos rfl, hdepth]
        simp only [isRefuse, Bool.false_eq_true, if_false]
        omega
      · rw [guards_cons, hguarded, if_pos rfl]
        omega
  | @refuse p k d =>
      dsimp only at hdepth hheld
      have hcount : d + 1 = guards (p :: k) + (refused + 1) := by omega
      refine ⟨linked_unwind _ hlinked, ?_, ?_, fun _ => rfl⟩
      · rw [hcount]
        exact guards_unwind (p :: k) (refused + 1)
      · exact Nat.le_trans (guards_unwind_le _ _) hheld
  | @giveBack p q k d =>
      dsimp only at hdepth hheld
      rw [guards_cons] at hdepth hheld
      refine ⟨linked_tail hlinked, ?_, Nat.le_trans (Nat.le_add_right _ _) hheld, hreported⟩
      simp only [isRefuse, Bool.false_eq_true, if_false]
      split at hdepth <;> simp_all
  | @throw p k d =>
      dsimp only at hdepth hheld
      refine ⟨linked_unwind _ hlinked, ?_, Nat.le_trans (guards_unwind_le _ _) hheld, fun _ => rfl⟩
      rw [hdepth]
      exact guards_unwind (p :: k) refused

theorem counted_run {tokens : List TokenType} {labels : List Label} {s : State}
    (hrun : Runs.Run (Step tokens) start labels s) : Counted (labels.countP isRefuse) s := by
  apply Runs.Run.history (I := fun labels s => Counted (labels.countP isRefuse) s) _ _ hrun
  · exact ⟨trivial, rfl, by decide, fun h => absurd h (Nat.lt_irrefl 0)⟩
  · intro labels l s s' _ h hstep
    rw [List.countP_append, List.countP_singleton]
    exact counted_step h hstep

/-- What is promised of a state: a depth that the limit determines, a counter that errors leave right, and
a report where the limit was passed. -/
structure Bounded (labels : List Label) (s : State) : Prop where
  depth : s.frames.length ≤ 24 * (MAX_DEPTH + 1)
  restored : s.currentDepth = guards s.frames
  reported : labels.any isRefuse = true → s.hadError = true

/-- What is around the statement in so many blocks. -/
def blocks : Nat → List Production
  | 0 => [parse]
  | n + 1 => blockStatement :: statement :: declaration :: blocks n

theorem guards_blocks (n : Nat) : guards (declaration :: blocks n) = n := by
  induction n with
  | zero => rfl
  | succ n ih =>
      rw [guards_cons] at ih
      rw [blocks, guards_cons, guards_cons, guards_cons, guards_cons]
      simp only [guarded, Bool.false_eq_true, if_false, if_true] at ih ⊢
      omega

section reachable

variable {tokens : List TokenType}

/-- A state that a parse gets to. -/
def Reached (tokens : List TokenType) (s : State) : Prop :=
  ∃ labels, Runs.Run (Step tokens) start labels s

theorem reached_move {k : List Production} {d i : Nat} {e : Bool} (j : Nat)
    (h : Reached tokens ⟨k, d, i, e⟩) : Reached tokens ⟨k, d, j, e⟩ := by
  obtain ⟨labels, hrun⟩ := h
  exact ⟨_, hrun.snoc (.move j)⟩

theorem reached_call {p q : Production} {k : List Production} {d i : Nat} {e : Bool}
    {b : List TokenType} (h : Reached tokens ⟨p :: k, d, i, e⟩)
    (hq : site q b ∈ callSites p) (hbehind : Behind tokens i (site q b))
    (hfree : guarded q = false) : Reached tokens ⟨q :: p :: k, d, i, e⟩ := by
  obtain ⟨labels, hrun⟩ := h
  exact ⟨_, hrun.snoc (.call hq hbehind hfree)⟩

theorem reached_enter {p q : Production} {k : List Production} {d i : Nat} {e : Bool}
    {b : List TokenType} (h : Reached tokens ⟨p :: k, d, i, e⟩)
    (hq : site q b ∈ callSites p) (hbehind : Behind tokens i (site q b))
    (hguarded : guarded q = true) (hdepth : d + 1 ≤ MAX_DEPTH) :
    Reached tokens ⟨q :: p :: k, d + 1, i, e⟩ := by
  obtain ⟨labels, hrun⟩ := h
  exact ⟨_, hrun.snoc (.enter hq hbehind hguarded hdepth)⟩

theorem reached_start : Reached tokens ⟨[declaration, parse], 0, 0, false⟩ :=
  reached_call (p := parse) (q := declaration) ⟨[], .nil⟩ (by decide) (.inl rfl) rfl

theorem behind_replicate {t : TokenType} {m n : Nat} {q : Production} {behind rest : List TokenType}
    (hn : n < m) (ht : t ∈ behind) : Behind (List.replicate m t ++ rest) (n + 1) (site q behind) := by
  refine .inr ⟨n, t, rfl, ?_, ht⟩
  rw [List.getElem?_append_left (by rwa [List.length_replicate]), List.getElem?_replicate, if_pos hn]

/-- `out 1` in 100 blocks. -/
def nested : List TokenType := List.replicate MAX_DEPTH .LBRACE ++ [.OUT, .NUMBER]

theorem reached_blocks (n : Nat) (hn : n ≤ MAX_DEPTH) :
    Reached nested ⟨declaration :: blocks n, n, n, false⟩ := by
  induction n with
  | zero => exact reached_start
  | succ n ih =>
      have hstatement := reached_enter (q := statement) (ih (by omega)) (by decide) (.inl rfl) rfl hn
      have hblock := reached_call (q := blockStatement) (reached_move (n + 1) hstatement) (by decide)
        (behind_replicate hn (List.mem_singleton.mpr rfl)) rfl
      exact reached_call (q := declaration) hblock (by decide) (.inl rfl) rfl

/-- What is around the first operand of an expression, with so many signs in front of it. -/
def signs : Nat → List Production
  | 0 =>
      [unary, power, factor, term, bitwiseShift, comparison, equality, bitwiseAnd, bitwiseXor,
        bitwiseOr, logicalAnd, logicalOr, nullCoalescing, ternary, assignment, expression,
        expressionStatement, statement, declaration, parse]
  | n + 1 => unary :: signs n

/-- Every call of an expression on the way down to its first operand. -/
theorem reached_operand : Reached tokens ⟨signs 0, 2, 0, false⟩ := by
  have hstart : Reached tokens ⟨[declaration, parse], 0, 0, false⟩ := reached_start
  have hstatement := reached_enter (q := statement) hstart (by decide) (.inl rfl) rfl (by decide)
  have hexpression := reached_enter (q := expression)
    (reached_call (q := expressionStatement) hstatement (by decide) (.inl rfl) rfl) (by decide)
    (.inl rfl) rfl (by decide)
  have hternary := reached_call (q := ternary)
    (reached_call (q := assignment) hexpression (by decide) (.inl rfl) rfl) (by decide) (.inl rfl) rfl
  have hlogical := reached_call (q := logicalAnd) (reached_call (q := logicalOr)
    (reached_call (q := nullCoalescing) hternary (by decide) (.inl rfl) rfl) (by decide) (.inl rfl) rfl)
    (by decide) (.inl rfl) rfl
  have hbitwise := reached_call (q := bitwiseAnd) (reached_call (q := bitwiseXor)
    (reached_call (q := bitwiseOr) hlogical (by decide) (.inl rfl) rfl) (by decide) (.inl rfl) rfl)
    (by decide) (.inl rfl) rfl
  have hshift := reached_call (q := bitwiseShift) (reached_call (q := comparison)
    (reached_call (q := equality) hbitwise (by decide) (.inl rfl) rfl) (by decide) (.inl rfl) rfl)
    (by decide) (.inl rfl) rfl
  have hpower := reached_call (q := power) (reached_call (q := factor)
    (reached_call (q := term) hshift (by decide) (.inl rfl) rfl) (by decide) (.inl rfl) rfl)
    (by decide) (.inl rfl) rfl
  exact reached_call (q := unary) hpower (by decide) (.inl rfl) rfl

theorem reached_signs {m : Nat} (n : Nat) (hn : n ≤ m) :
    Reached (List.replicate m .MINUS ++ [.NUMBER]) ⟨signs n, 2, n, false⟩ := by
  induction n with
  | zero => exact reached_operand
  | succ n ih =>
      have hunary : ∃ k, signs n = unary :: k := by
        cases n with
        | zero => exact ⟨_, rfl⟩
        | succ n => exact ⟨_, rfl⟩
      obtain ⟨k, hk⟩ := hunary
      have hbefore := reached_move (n + 1) (ih (by omega))
      rw [hk] at hbefore
      rw [signs, hk]
      exact reached_call (b := [.BANG, .MINUS, .NOT, .TILDE, .AWAIT]) hbefore (by decide)
        (behind_replicate hn (by decide)) rfl

theorem length_signs (n : Nat) : n ≤ (signs n).length := by
  induction n with
  | zero => exact Nat.zero_le _
  | succ n ih =>
      rw [signs, List.length_cons]
      omega

/-- No bound holds for the depth of all parses: signs are read by calls of `unary` in one another. -/
theorem depth_unbounded (bound : Nat) : ∃ (tokens : List TokenType) (s : State),
    Reached tokens s ∧ bound < s.frames.length := by
  refine ⟨_, _, reached_signs (bound + 1) (Nat.le_refl _), ?_⟩
  exact length_signs (bound + 1)

end reachable

end RecursionDepth

end EZLanguage
