import Mathlib.Data.List.Infix
import Mathlib.Tactic.Common

/-!
# SQL scripts

`_split_statements` cuts a script at its semicolons, apart from those in quotes and comments.
`exec_script` prepares what is left between them one after another, since SQLite compiles one statement
only.

SQLite finds more quotes than the scanner: identifiers may stand in brackets or backquotes as well, and the
name of a variable may go on in parentheses.
-/

namespace EZLanguage

namespace SqlScript

abbrev Text := List Char

/-! ### The scanner -/

/-- The loop behind an opening quote: `cur` with the rest of the quoted run, and the text behind it. -/
def copyQuoted (quote : Char) : Text → Text → Text × Text
  | cur, [] => (cur, [])
  | cur, ch :: rest =>
      if ch = quote ∧ rest.head? = some quote then
        copyQuoted quote (cur ++ [quote, quote]) rest.tail
      else if ch = quote then (cur ++ [quote], rest)
      else copyQuoted quote (cur ++ [ch]) rest
termination_by _ text => text.length
decreasing_by all_goals simp only [List.length_tail, List.length_cons]; omega

/-- The loop to the end of the line. -/
def copyLine : Text → Text → Text × Text
  | cur, [] => (cur, [])
  | cur, ch :: rest => if ch ≠ '\n' then copyLine (cur ++ [ch]) rest else (cur, ch :: rest)

/-- The loop to the end of a block comment. -/
def copyBlock : Text → Text → Text × Text
  | cur, [] => (cur, [])
  | cur, ch :: rest =>
      if ch = '*' ∧ rest.head? = some '/' then (cur ++ ['*', '/'], rest.tail)
      else copyBlock (cur ++ [ch]) rest

/-- One pass of the outer loop that does not find a semicolon. -/
def copyRun (cur : Text) (c : Char) (rest : Text) : Text × Text :=
  if c = '\'' ∨ c = '"' then copyQuoted c (cur ++ [c]) rest
  else if c = '-' ∧ rest.head? = some '-' then copyLine cur (c :: rest)
  else if c = '/' ∧ rest.head? = some '*' then copyBlock (cur ++ ['/', '*']) rest.tail
  else (cur ++ [c], rest)

/-! ### Tokens -/

/-- What a quoted run takes behind the opening quote, where a doubled quote does not end it. -/
def quotedRun (quote : Char) : Text → Text × Text
  | [] => ([], [])
  | ch :: rest =>
      if ch = quote ∧ rest.head? = some quote then
        let (run, behind) := quotedRun quote rest.tail
        (quote :: quote :: run, behind)
      else if ch = quote then ([quote], rest)
      else
        let (run, behind) := quotedRun quote rest
        (ch :: run, behind)
termination_by text => text.length
decreasing_by all_goals simp only [List.length_tail, List.length_cons]; omega

def lineRun : Text → Text × Text
  | [] => ([], [])
  | ch :: rest =>
      if ch ≠ '\n' then
        let (run, behind) := lineRun rest
        (ch :: run, behind)
      else ([], ch :: rest)

def blockRun : Text → Text × Text
  | [] => ([], [])
  | ch :: rest =>
      if ch = '*' ∧ rest.head? = some '/' then (['*', '/'], rest.tail)
      else
        let (run, behind) := blockRun rest
        (ch :: run, behind)

/-- What the scanner takes at once. -/
def scannerToken (c : Char) (rest : Text) : Text × Text :=
  if c = '\'' ∨ c = '"' then
    let (run, behind) := quotedRun c rest
    (c :: run, behind)
  else if c = '-' ∧ rest.head? = some '-' then lineRun (c :: rest)
  else if c = '/' ∧ rest.head? = some '*' then
    let (run, behind) := blockRun rest.tail
    ('/' :: '*' :: run, behind)
  else ([c], rest)

theorem copyQuoted_eq (quote : Char) (cur text : Text) :
    copyQuoted quote cur text = (cur ++ (quotedRun quote text).1, (quotedRun quote text).2) := by
  induction cur, text using copyQuoted.induct quote with
  | case1 cur => simp [copyQuoted, quotedRun]
  | case2 cur ch rest hdouble ih =>
      rw [copyQuoted, quotedRun, if_pos hdouble, if_pos hdouble, ih]
      simp
  | case3 cur rest hdouble =>
      rw [copyQuoted, quotedRun, if_neg hdouble, if_neg hdouble, if_pos rfl, if_pos rfl]
  | case4 cur ch rest hdouble hch ih =>
      rw [copyQuoted, quotedRun, if_neg hdouble, if_neg hdouble, if_neg hch, if_neg hch, ih]
      simp

theorem copyLine_eq (cur text : Text) :
    copyLine cur text = (cur ++ (lineRun text).1, (lineRun text).2) := by
  induction text generalizing cur with
  | nil => simp [copyLine, lineRun]
  | cons ch rest ih =>
      rw [copyLine, lineRun]
      split
      · simp [ih]
      · simp

theorem copyBlock_eq (cur text : Text) :
    copyBlock cur text = (cur ++ (blockRun text).1, (blockRun text).2) := by
  induction text generalizing cur with
  | nil => simp [copyBlock, blockRun]
  | cons ch rest ih =>
      rw [copyBlock, blockRun]
      split
      · simp
      · simp [ih]

theorem copyRun_eq (cur : Text) (c : Char) (rest : Text) :
    copyRun cur c rest = (cur ++ (scannerToken c rest).1, (scannerToken c rest).2) := by
  unfold copyRun scannerToken
  split
  · simp [copyQuoted_eq]
  · split
    · exact copyLine_eq cur (c :: rest)
    · split
      · simp [copyBlock_eq]
      · rfl

theorem eq_cons_of_head? {c : Char} {text : Text} (h : text.head? = some c) :
    text = c :: text.tail := by
  cases text with
  | nil => cases h
  | cons d rest =>
      cases h
      rfl

theorem quotedRun_append (quote : Char) (text : Text) :
    (quotedRun quote text).1 ++ (quotedRun quote text).2 = text := by
  induction text using quotedRun.induct quote with
  | case1 => simp [quotedRun]
  | case2 ch rest hdouble run behind _ ih =>
      rw [quotedRun, if_pos hdouble, hdouble.1]
      conv => rhs; rw [eq_cons_of_head? hdouble.2, ← ih]
      rfl
  | case3 rest hdouble => rw [quotedRun, if_neg hdouble, if_pos rfl, List.singleton_append]
  | case4 ch rest hdouble hch run behind _ ih =>
      rw [quotedRun, if_neg hdouble, if_neg hch]
      exact congrArg (ch :: ·) ih

theorem lineRun_append (text : Text) : (lineRun text).1 ++ (lineRun text).2 = text := by
  induction text with
  | nil => rfl
  | cons ch rest ih =>
      rw [lineRun]
      split
      · simp [ih]
      · rfl

theorem blockRun_append (text : Text) : (blockRun text).1 ++ (blockRun text).2 = text := by
  induction text with
  | nil => rfl
  | cons ch rest ih =>
      rw [blockRun]
      split
      case isTrue h =>
          rw [h.1]
          simp only [List.cons_append, List.nil_append]
          rw [← eq_cons_of_head? h.2]
      case isFalse => simp [ih]

/-- Tokens from their first character on: a token, and what is behind it. -/
structure Tokenizer where
  token : Char → Text → Text × Text
  takes : ∀ c rest, ∃ run, (token c rest).1 = c :: run ∧ run ++ (token c rest).2 = rest

theorem scannerToken_takes (c : Char) (rest : Text) :
    ∃ run, (scannerToken c rest).1 = c :: run ∧ run ++ (scannerToken c rest).2 = rest := by
  unfold scannerToken
  split
  · exact ⟨_, rfl, quotedRun_append c rest⟩
  · split
    case isTrue hline =>
        have hrun : lineRun (c :: rest) = (c :: (lineRun rest).1, (lineRun rest).2) := by
          rw [hline.1, lineRun, if_pos (by decide)]
        rw [hrun]
        exact ⟨_, rfl, lineRun_append rest⟩
    case isFalse =>
        split
        case isTrue hblock => 
            refine ⟨'*' :: (blockRun rest.tail).1, ?_, ?_⟩
            · rw [hblock.1]
            · change '*' :: ((blockRun rest.tail).1 ++ (blockRun rest.tail).2) = rest
              rw [blockRun_append, ← eq_cons_of_head? hblock.2]
        case isFalse => exact ⟨[], rfl, rfl⟩

def scanner : Tokenizer := ⟨scannerToken, scannerToken_takes⟩

theorem Tokenizer.behind_le (t : Tokenizer) (c : Char) (rest : Text) :
    (t.token c rest).2.length ≤ rest.length := by
  obtain ⟨run, -, hrest⟩ := t.takes c rest
  rw [← congrArg List.length hrest, List.length_append]
  exact Nat.le_add_left _ _

/-- The outer loop of `_split_statements`. -/
def splitLoop (outParts : List Text) (cur : Text) : Text → List Text
  | [] => outParts ++ [cur]
  | c :: rest =>
      if c = ';' then splitLoop (outParts ++ [cur]) [] rest
      else splitLoop outParts (copyRun cur c rest).1 (copyRun cur c rest).2
termination_by text => text.length
decreasing_by
  · exact Nat.lt_succ_self _
  · rw [copyRun_eq]
    exact Nat.lt_succ_of_le (scanner.behind_le c rest)

/-- `_split_statements`. -/
def splitStatements (sql : Text) : List Text := splitLoop [] [] sql

namespace Tokenizer

/-- The text cut at the semicolons that are tokens. -/
def split (t : Tokenizer) (cur : Text) : Text → List Text
  | [] => [cur]
  | c :: rest =>
      if c = ';' then cur :: t.split [] rest
      else t.split (cur ++ (t.token c rest).1) (t.token c rest).2
termination_by text => text.length
decreasing_by
  · exact Nat.lt_succ_self _
  · exact Nat.lt_succ_of_le (t.behind_le c rest)

/-- The tokens of a text. -/
def tokens (t : Tokenizer) : Text → List Text
  | [] => []
  | c :: rest => (t.token c rest).1 :: t.tokens (t.token c rest).2
termination_by text => text.length
decreasing_by exact Nat.lt_succ_of_le (t.behind_le c rest)

theorem split_nil (t : Tokenizer) (cur : Text) : t.split cur [] = [cur] := by
  rw [split]

theorem split_semicolon (t : Tokenizer) (cur rest : Text) :
    t.split cur (';' :: rest) = cur :: t.split [] rest := by
  rw [split, if_pos rfl]

theorem split_token (t : Tokenizer) (cur : Text) {c : Char} (hc : c ≠ ';') (rest : Text) :
    t.split cur (c :: rest) = t.split (cur ++ (t.token c rest).1) (t.token c rest).2 := by
  rw [split, if_neg hc]

theorem split_ne_nil (t : Tokenizer) (cur text : Text) : t.split cur text ≠ [] := by
  induction cur, text using split.induct t with
  | case1 cur =>
      rw [split_nil]
      exact List.cons_ne_nil _ _
  | case2 cur rest _ =>
      rw [split_semicolon]
      exact List.cons_ne_nil _ _
  | case3 cur c rest hc ih => rwa [split_token t cur hc]

/-- Joined by semicolons, the pieces give the text back. -/
theorem intercalate_split (t : Tokenizer) (cur text : Text) :
    [';'].intercalate (t.split cur text) = cur ++ text := by
  induction cur, text using split.induct t with
  | case1 cur => simp [split_nil]
  | case2 cur rest ih =>
      rw [split_semicolon]
      obtain ⟨piece, pieces, hpieces⟩ := List.exists_cons_of_ne_nil (t.split_ne_nil [] rest)
      rw [hpieces] at ih ⊢
      rw [List.intercalate_cons_cons, ih]
      simp
  | case3 cur c rest hc ih =>
      obtain ⟨run, htoken, hrest⟩ := t.takes c rest
      rw [split_token t cur hc, ih, htoken, List.append_assoc, List.cons_append, hrest]

end Tokenizer

theorem splitLoop_eq (outParts : List Text) (cur text : Text) :
    splitLoop outParts cur text = outParts ++ scanner.split cur text := by
  induction outParts, cur, text using splitLoop.induct with
  | case1 outParts cur => rw [splitLoop, Tokenizer.split_nil]
  | case2 outParts cur rest ih =>
      rw [splitLoop, if_pos rfl, ih, Tokenizer.split_semicolon, List.append_assoc]
      rfl
  | case3 outParts cur c rest hc ih =>
      rw [splitLoop, if_neg hc, ih, Tokenizer.split_token scanner cur hc, copyRun_eq]
      rfl

theorem splitStatements_eq (sql : Text) : splitStatements sql = scanner.split [] sql :=
  splitLoop_eq [] [] sql

/-! ### SQLite's tokens -/

/-- A character of an identifier. -/
def isIdChar (c : Char) : Bool := c.isAlphanum || c == '_' || c == '$' || 128 ≤ c.toNat

def isSpace (c : Char) : Bool := c == ' ' || 9 ≤ c.toNat && c.toNat ≤ 13

/-- The first character of a variable. -/
def startsVariable (c : Char) : Bool := c == '$' || c == '@' || c == '#' || c == ':'

/-- An identifier in brackets, behind the opening one. -/
def bracketRun : Text → Text × Text
  | [] => ([], [])
  | ch :: rest => if ch = ']' then ([']'], rest) else (ch :: (bracketRun rest).1, (bracketRun rest).2)

/-- What stands in the parentheses of a variable, without a blank. -/
def parenRun : Text → Text × Text
  | [] => ([], [])
  | ch :: rest =>
      if ch = ')' then ([')'], rest)
      else if isSpace ch then ([], ch :: rest)
      else (ch :: (parenRun rest).1, (parenRun rest).2)

/-- A variable behind its first character. It goes on with `::` and, once it has a name, with one pair of
parentheses. -/
def variableRun (named : Bool) : Text → Text × Text
  | [] => ([], [])
  | ch :: rest =>
      if isIdChar ch then (ch :: (variableRun true rest).1, (variableRun true rest).2)
      else if ch = '(' ∧ named then ('(' :: (parenRun rest).1, (parenRun rest).2)
      else if ch = ':' ∧ rest.head? = some ':' then
        (':' :: ':' :: (variableRun named rest.tail).1, (variableRun named rest.tail).2)
      else ([], ch :: rest)
termination_by text => text.length
decreasing_by all_goals simp only [List.length_tail, List.length_cons]; omega

/-- What SQLite takes at once, as far as it matters for semicolons: the tokens that may contain one, and
identifiers. A comment is not opened by the last two characters. -/
def sqliteToken (c : Char) (rest : Text) : Text × Text :=
  if c = '\'' ∨ c = '"' ∨ c = '\x60' then (c :: (quotedRun c rest).1, (quotedRun c rest).2)
  else if c = '[' then (c :: (bracketRun rest).1, (bracketRun rest).2)
  else if c = '-' ∧ rest.head? = some '-' then lineRun (c :: rest)
  else if c = '/' ∧ rest.head? = some '*' ∧ rest.tail ≠ [] then
    ('/' :: '*' :: (blockRun rest.tail).1, (blockRun rest.tail).2)
  else if startsVariable c then (c :: (variableRun false rest).1, (variableRun false rest).2)
  else if isIdChar c then (c :: rest.takeWhile isIdChar, rest.dropWhile isIdChar)
  else ([c], rest)

theorem bracketRun_append (text : Text) : (bracketRun text).1 ++ (bracketRun text).2 = text := by
  induction text with
  | nil => rfl
  | cons ch rest ih =>
      rw [bracketRun]
      split
      case isTrue h => rw [h, List.singleton_append]
      case isFalse => exact congrArg (ch :: ·) ih

theorem parenRun_append (text : Text) : (parenRun text).1 ++ (parenRun text).2 = text := by
  induction text with
  | nil => rfl
  | cons ch rest ih =>
      rw [parenRun]
      split
      case isTrue h => rw [h, List.singleton_append]
      case isFalse =>
          split
          · rfl
          · exact congrArg (ch :: ·) ih

theorem variableRun_append (named : Bool) (text : Text) :
    (variableRun named text).1 ++ (variableRun named text).2 = text := by
  induction named, text using variableRun.induct with
  | case1 named => simp [variableRun]
  | case2 named ch rest hid ih =>
      rw [variableRun, if_pos hid]
      exact congrArg (ch :: ·) ih
  | case3 named ch rest hid hparen =>
      rw [variableRun, if_neg hid, if_pos hparen, hparen.1]
      exact congrArg ('(' :: ·) (parenRun_append rest)
  | case4 named ch rest hid hparen hcolon ih =>
      rw [variableRun, if_neg hid, if_neg hparen, if_pos hcolon, hcolon.1]
      conv => rhs; rw [eq_cons_of_head? hcolon.2, ← ih]
      rfl
  | case5 named ch rest hid hparen hcolon =>
      rw [variableRun, if_neg hid, if_neg hparen, if_neg hcolon]
      rfl

theorem lineRun_dash (rest : Text) : lineRun ('-' :: rest) = ('-' :: (lineRun rest).1, (lineRun rest).2) := by
  rw [lineRun, if_pos (by decide)]

theorem sqliteToken_takes (c : Char) (rest : Text) :
    ∃ run, (sqliteToken c rest).1 = c :: run ∧ run ++ (sqliteToken c rest).2 = rest := by
  unfold sqliteToken
  split
  · exact ⟨_, rfl, quotedRun_append c rest⟩
  split
  · exact ⟨_, rfl, bracketRun_append rest⟩
  split
  case isTrue hline =>
      rw [hline.1, lineRun_dash]
      exact ⟨_, rfl, lineRun_append rest⟩
  split
  case isTrue hblock =>
      refine ⟨'*' :: (blockRun rest.tail).1, ?_, ?_⟩
      · rw [hblock.1]
      · change '*' :: ((blockRun rest.tail).1 ++ (blockRun rest.tail).2) = rest
        rw [blockRun_append, ← eq_cons_of_head? hblock.2.1]
  split
  · exact ⟨_, rfl, variableRun_append false rest⟩
  split
  · exact ⟨_, rfl, List.takeWhile_append_dropWhile⟩
  · exact ⟨[], rfl, rfl⟩

def sqlite : Tokenizer := ⟨sqliteToken, sqliteToken_takes⟩

/-- The scanner reads a token of SQLite as SQLite does: it is neither an identifier in brackets or backquotes
nor a variable that goes on in parentheses. -/
def Known (token : Text) : Prop :=
  token.head? ≠ some '[' ∧ token.head? ≠ some '\x60' ∧
    ((token.head?.map startsVariable).getD false = true → '(' ∉ token)

instance (token : Text) : Decidable (Known token) := by
  unfold Known
  infer_instance

/-! ### Both read alike -/

/-- A character that the scanner copies alone. -/
def Ordinary (c : Char) : Prop := c ≠ '\'' ∧ c ≠ '"' ∧ c ≠ '-' ∧ c ≠ '/' ∧ c ≠ ';'

instance (c : Char) : Decidable (Ordinary c) := by
  unfold Ordinary
  infer_instance

theorem split_ordinary {c : Char} (hc : Ordinary c) (cur rest : Text) :
    scanner.split cur (c :: rest) = scanner.split (cur ++ [c]) rest := by
  have htoken : scannerToken c rest = ([c], rest) := by
    unfold scannerToken
    rw [if_neg (by simp [hc.1, hc.2.1]), if_neg (by simp [hc.2.2.1]), if_neg (by simp [hc.2.2.2.1])]
  rw [Tokenizer.split_token _ _ hc.2.2.2.2]
  change scanner.split (cur ++ (scannerToken c rest).1) (scannerToken c rest).2 = _
  rw [htoken]

theorem split_ordinaries {run : Text} (hrun : ∀ c ∈ run, Ordinary c) (cur rest : Text) :
    scanner.split cur (run ++ rest) = scanner.split (cur ++ run) rest := by
  induction run generalizing cur with
  | nil => rw [List.nil_append, List.append_nil]
  | cons c run ih =>
      rw [List.cons_append, split_ordinary (hrun c List.mem_cons_self),
        ih (fun d hd => hrun d (List.mem_cons_of_mem c hd)), List.append_assoc, List.singleton_append]

theorem ordinary_of_isIdChar {c : Char} (hc : isIdChar c = true) : Ordinary c := by
  refine ⟨?_, ?_, ?_, ?_, ?_⟩ <;>
  · rintro rfl
    revert hc
    decide

theorem ordinary_of_startsVariable {c : Char} (hc : startsVariable c = true) : Ordinary c := by
  refine ⟨?_, ?_, ?_, ?_, ?_⟩ <;>
  · rintro rfl
    revert hc
    decide

/-- Without parentheses a variable is made of characters the scanner copies. -/
theorem variableRun_ordinary (named : Bool) (text : Text) (hparen : '(' ∉ (variableRun named text).1) :
    ∀ c ∈ (variableRun named text).1, Ordinary c := by
  induction named, text using variableRun.induct with
  | case1 named => simp [variableRun]
  | case2 named ch rest hid ih =>
      rw [variableRun, if_pos hid] at hparen ⊢
      refine List.forall_mem_cons.mpr ⟨ordinary_of_isIdChar hid, ih fun hmem => ?_⟩
      exact hparen (List.mem_cons_of_mem _ hmem)
  | case3 named ch rest hid hopen =>
      rw [variableRun, if_neg hid, if_pos hopen] at hparen
      exact absurd List.mem_cons_self hparen
  | case4 named ch rest hid hopen hcolon ih =>
      rw [variableRun, if_neg hid, if_neg hopen, if_pos hcolon] at hparen ⊢
      have hord : Ordinary ':' := ordinary_of_startsVariable (by decide)
      refine List.forall_mem_cons.mpr ⟨hord, List.forall_mem_cons.mpr ⟨hord, ih fun hmem => ?_⟩⟩
      exact hparen (List.mem_cons_of_mem _ (List.mem_cons_of_mem _ hmem))
  | case5 named ch rest hid hopen hcolon =>
      rw [variableRun, if_neg hid, if_neg hopen, if_neg hcolon]
      simp

theorem scanner_token (c : Char) (rest : Text) : scanner.token c rest = scannerToken c rest := rfl

theorem sqlite_token (c : Char) (rest : Text) : sqlite.token c rest = sqliteToken c rest := rfl

/-- Where SQLite's token is one the scanner knows, cutting may go on behind it. -/
theorem split_known (cur : Text) {c : Char} (hc : c ≠ ';') {rest : Text}
    (hknown : Known (sqliteToken c rest).1) :
    scanner.split cur (c :: rest) =
      scanner.split (cur ++ (sqliteToken c rest).1) (sqliteToken c rest).2 := by
  obtain ⟨hbracket, hbackquote, hvariable⟩ := hknown
  obtain ⟨run, htoken, hrest⟩ := sqliteToken_takes c rest
  have hhead : (sqliteToken c rest).1.head? = some c := by rw [htoken]; rfl
  rw [hhead] at hbracket hbackquote hvariable
  have hc₁ : c ≠ '[' := fun h => hbracket (congrArg some h)
  have hc₂ : c ≠ '\x60' := fun h => hbackquote (congrArg some h)
  by_cases hquote : c = '\'' ∨ c = '"'
  · have hsame : sqliteToken c rest = scannerToken c rest := by
      rw [sqliteToken, scannerToken, if_pos (by tauto), if_pos hquote]
    rw [Tokenizer.split_token _ _ hc, scanner_token, hsame]
  by_cases hline : c = '-' ∧ rest.head? = some '-'
  · have hsame : sqliteToken c rest = scannerToken c rest := by
      rw [sqliteToken, scannerToken, if_neg (by tauto), if_neg hc₁, if_pos hline, if_neg hquote,
        if_pos hline]
    rw [Tokenizer.split_token _ _ hc, scanner_token, hsame]
  by_cases hblock : c = '/' ∧ rest.head? = some '*'
  · by_cases hend : rest.tail = []
    · -- a comment that is opened at the very end
      have hstar : rest = ['*'] := by rw [eq_cons_of_head? hblock.2, hend]
      rw [Tokenizer.split_token _ _ hc, scanner_token, hblock.1, hstar]
      have hscanner : scannerToken '/' ['*'] = (['/', '*'], []) := by decide
      have hsqlite : sqliteToken '/' ['*'] = (['/'], ['*']) := by decide
      rw [hscanner, hsqlite, split_ordinary (by decide), List.append_assoc]
      rfl
    · have hsame : sqliteToken c rest = scannerToken c rest := by
        rw [sqliteToken, scannerToken, if_neg (by tauto), if_neg hc₁, if_neg hline,
          if_pos ⟨hblock.1, hblock.2, hend⟩, if_neg hquote, if_neg hline, if_pos hblock]
      rw [Tokenizer.split_token _ _ hc, scanner_token, hsame]
  have hplain : sqliteToken c rest =
      if startsVariable c then (c :: (variableRun false rest).1, (variableRun false rest).2)
      else if isIdChar c then (c :: rest.takeWhile isIdChar, rest.dropWhile isIdChar)
      else ([c], rest) := by
    rw [sqliteToken, if_neg (by tauto), if_neg hc₁, if_neg hline, if_neg (by tauto)]
  by_cases hstart : startsVariable c = true
  · rw [if_pos hstart] at hplain
    have hparen := hvariable hstart
    rw [hplain] at hparen ⊢
    have hords : ∀ d ∈ c :: (variableRun false rest).1, Ordinary d :=
      List.forall_mem_cons.mpr ⟨ordinary_of_startsVariable hstart,
        variableRun_ordinary false rest fun hmem => hparen (List.mem_cons_of_mem _ hmem)⟩
    have hsplit := split_ordinaries hords cur (variableRun false rest).2
    rwa [List.cons_append, variableRun_append] at hsplit
  rw [if_neg hstart] at hplain
  by_cases hid : isIdChar c = true
  · rw [if_pos hid] at hplain
    rw [hplain]
    have hords : ∀ d ∈ c :: rest.takeWhile isIdChar, Ordinary d := by
      refine List.forall_mem_cons.mpr ⟨ordinary_of_isIdChar hid, fun d hd => ?_⟩
      exact ordinary_of_isIdChar (List.all_eq_true.mp List.all_takeWhile d hd)
    have hsplit := split_ordinaries hords cur (rest.dropWhile isIdChar)
    rwa [List.cons_append, List.takeWhile_append_dropWhile] at hsplit
  · rw [if_neg hid] at hplain
    rw [Tokenizer.split_token _ _ hc, scanner_token, hplain]
    have hscanner : scannerToken c rest = ([c], rest) := by
      rw [scannerToken, if_neg hquote, if_neg hline, if_neg hblock]
    rw [hscanner]

/-- A semicolon is a token of one character. -/
theorem sqliteToken_semicolon (rest : Text) : sqliteToken ';' rest = ([';'], rest) := by
  rw [sqliteToken, if_neg (by decide), if_neg (by decide), if_neg (by simp), if_neg (by simp),
    if_neg (by decide), if_neg (by decide)]

/-- A text whose tokens are all known is cut as SQLite reads it. -/
theorem split_eq_of_known (cur text : Text) (hknown : ∀ token ∈ sqlite.tokens text, Known token) :
    scanner.split cur text = sqlite.split cur text := by
  induction cur, text using Tokenizer.split.induct sqlite with
  | case1 cur => rw [Tokenizer.split_nil, Tokenizer.split_nil]
  | case2 cur rest ih =>
      rw [Tokenizer.tokens, sqlite_token, sqliteToken_semicolon] at hknown
      rw [Tokenizer.split_semicolon, Tokenizer.split_semicolon,
        ih fun token htoken => hknown token (List.mem_cons_of_mem _ htoken)]
  | case3 cur c rest hc ih =>
      rw [Tokenizer.tokens] at hknown
      rw [split_known cur hc (hknown _ List.mem_cons_self), Tokenizer.split_token sqlite cur hc]
      exact ih fun token htoken => hknown token (List.mem_cons_of_mem _ htoken)

/-! ### Running a script -/

/-- `trim`. -/
def isBlank (c : Char) : Bool := c == ' ' || c == '\t' || c == '\n' || c == '\r'

def trim (text : Text) : Text := ((text.dropWhile isBlank).reverse.dropWhile isBlank).reverse

/-- What `raw_prepare` gives: an error, no statement, or a statement. -/
inductive Prepared (Statement : Type*) where
  | failed
  | empty
  | statement (st : Statement)

/-- A database as far as a script uses it. Running a statement changes it or fails. Blanks around a
statement are not part of it, and an empty text holds no statement. -/
structure Database (State Statement : Type*) where
  prepare : State → Text → Prepared Statement
  run : State → Statement → Option State
  prepare_trim : ∀ db text, prepare db (trim text) = prepare db text
  prepare_nil : ∀ db, prepare db [] = .empty

variable {State Statement : Type*}

/-- How a script ends: the database behind it, the statements that were run in order, and whether the last
of them or the text behind it failed. -/
structure Ending (State Statement : Type*) where
  db : State
  executed : List Statement
  failed : Bool

/-- The loop of `exec_script`. -/
def execParts (sqlite3 : Database State Statement) (db : State) (executed : List Statement) :
    List Text → Ending State Statement
  | [] => ⟨db, executed, false⟩
  | p :: parts =>
      let t := trim p
      if t.length > 0 then
        match sqlite3.prepare db t with
        | .failed => ⟨db, executed, true⟩
        | .empty => execParts sqlite3 db executed parts
        | .statement st =>
            match sqlite3.run db st with
            | none => ⟨db, executed ++ [st], true⟩
            | some db => execParts sqlite3 db (executed ++ [st]) parts
      else execParts sqlite3 db executed parts

/-- `exec_script`. -/
def execScript (sqlite3 : Database State Statement) (db : State) (sql : Text) : Ending State Statement :=
  execParts sqlite3 db [] (splitStatements sql)

/-- What a script means: its statements, each run once and in order, up to the first that fails. -/
def execStatements (sqlite3 : Database State Statement) (db : State) (executed : List Statement) :
    List Text → Ending State Statement
  | [] => ⟨db, executed, false⟩
  | text :: texts =>
      match sqlite3.prepare db text with
      | .failed => ⟨db, executed, true⟩
      | .empty => execStatements sqlite3 db executed texts
      | .statement st =>
          match sqlite3.run db st with
          | none => ⟨db, executed ++ [st], true⟩
          | some db => execStatements sqlite3 db (executed ++ [st]) texts

/-- Pieces that are blank hold no statement, and trimming loses none. -/
theorem execParts_eq (sqlite3 : Database State Statement) (db : State) (executed : List Statement)
    (parts : List Text) :
    execParts sqlite3 db executed parts = execStatements sqlite3 db executed parts := by
  induction parts generalizing db executed with
  | nil => rfl
  | cons p parts ih =>
      rw [execParts, execStatements]
      have htrim := sqlite3.prepare_trim db p
      simp only [htrim]
      split
      case isTrue =>
          split
          · rfl
          · exact ih db executed
          · split
            · rfl
            · exact ih _ _
      case isFalse hblank =>
          have hempty : trim p = [] := List.eq_nil_of_length_eq_zero (by omega)
          rw [hempty, sqlite3.prepare_nil] at htrim
          rw [← htrim]
          exact ih db executed

/-- A column whose name has a semicolon in it. -/
def bracketScript : Text := ['S', 'E', 'L', 'E', 'C', 'T', '[', 'a', ';', 'b', ']']

end SqlScript

end EZLanguage
