import EZLanguage.Bytecode.Chunk

/-!
# The guard against nested quantifiers

`buildRegex` and `re_valid` scan a pattern before it is compiled, with one flag for each open group, and
reject a group that is followed by a quantifier when its flag is set. What the scan finds is stated on the
syntax of patterns: it looks at the level of a group only, and takes every `{` for a quantifier.
-/

namespace EZLanguage

namespace Regex

/-! ### The scan -/

/-- The characters `+`, `*` and `{`. -/
def isQuantifier (c : UInt8) : Bool := c == 43 || c == 42 || c == 123

/-- `groupHasQuantifier.back() = true`, where there is an open group. -/
def setBack : List Bool → List Bool
  | [] => []
  | _ :: outer => true :: outer

/-- The scan of the rest of a pattern, whose first character may be escaped: does it reject? The flags
stand with the innermost group in front. -/
def scan : CString → Bool → List Bool → Bool
  | [], _, _ => false
  | _ :: rest, true, groupHasQuantifier => scan rest false groupHasQuantifier
  | c :: rest, false, groupHasQuantifier =>
      if c = 92 then scan rest true groupHasQuantifier
      else if c = 40 then scan rest false (false :: groupHasQuantifier)
      else if c = 41 then
        if rest.head?.any isQuantifier then
          if groupHasQuantifier.head?.getD false then true
          else scan rest false (setBack groupHasQuantifier.tail)
        else scan rest false groupHasQuantifier.tail
      else if isQuantifier c then scan rest false (setBack groupHasQuantifier)
      else scan rest false groupHasQuantifier

example : scan [40, 97, 43, 41, 43] false [] = true := by simp [scan, isQuantifier, setBack]

/-- Why a pattern is not compiled. -/
inductive RegexError
  | nestedQuantifiers
  | unknownFlag (f : UInt8)
  | invalidPattern (pattern what : CString)
  deriving DecidableEq

def RegexError.message : RegexError → CString
  | nestedQuantifiers =>
      lit "Pattern rejected: nested quantifiers are not allowed (ReDoS protection)"
  | unknownFlag f => lit "Unknown regex flag '" ++ f ::
      lit "'. Supported: 'i' (ignore case), 'm' (multiline)."
  | invalidPattern pattern what => lit "Invalid pattern '" ++ pattern ++ lit "': " ++ what

structure Options where
  icase : Bool
  multiline : Bool

/-- The loop over the flags. -/
def readFlags : CString → Options → Except RegexError Options
  | [], opts => .ok opts
  | f :: flags, opts =>
      if f = 105 then readFlags flags { opts with icase := true }
      else if f = 109 then readFlags flags { opts with multiline := true }
      else if f = 32 then readFlags flags opts
      else .error (.unknownFlag f)

section Build

-- the compilation of a pattern, with what its error says
variable (compile : CString → Options → Option CString)

def buildRegex (pattern flags : CString) : Except RegexError Unit :=
  if scan pattern false [] then .error .nestedQuantifiers
  else
    match readFlags flags ⟨false, false⟩ with
    | .error e => .error e
    | .ok opts =>
        match compile pattern opts with
        | some what => .error (.invalidPattern pattern what)
        | none => .ok ()

/-- `re_valid`, whose scan is that of `buildRegex`. -/
def re_valid (pattern : CString) : Bool :=
  if scan pattern false [] then false else (compile pattern ⟨false, false⟩).isNone

theorem re_valid_iff (pattern : CString) :
    re_valid compile pattern = true ↔ buildRegex compile pattern [] = .ok () := by
  rw [re_valid, buildRegex, readFlags]
  by_cases hscan : scan pattern false [] = true
  · rw [if_pos hscan, if_pos hscan]
    simp
  · rw [if_neg hscan, if_neg hscan]
    cases hcompile : compile pattern ⟨false, false⟩ with
    | none => simp [hcompile]
    | some what => simp [hcompile]

theorem buildRegex_nested_iff (pattern flags : CString) :
    buildRegex compile pattern flags = .error .nestedQuantifiers ↔
      scan pattern false [] = true := by
  rw [buildRegex]
  by_cases hscan : scan pattern false [] = true
  · rw [if_pos hscan]
    simp [hscan]
  · rw [if_neg hscan]
    apply iff_of_false _ hscan
    have hflags : ∀ opts, readFlags flags opts ≠ .error .nestedQuantifiers := by
      induction flags with
      | nil =>
          intro opts h
          cases h
      | cons f flags ih =>
          intro opts h
          unfold readFlags at h
          split_ifs at h with hi hm hblank
          · exact ih _ h
          · exact ih _ h
          · exact ih _ h
          · simp at h
    intro h
    cases hread : readFlags flags ⟨false, false⟩ with
    | error e =>
        rw [hread] at h
        dsimp only at h
        apply hflags ⟨false, false⟩
        rw [hread, Except.error.inj h]
    | ok opts =>
        rw [hread] at h
        dsimp only at h
        split at h
        · simp at h
        · simp at h

end Build

/-! ### Patterns -/

inductive Quantifier
  | plus
  | star
  | optional
  | atLeast (digits : CString)
  | exactly (digits : CString)
  | between (low high : CString)
  deriving DecidableEq

/-- A character of a class, plain or escaped. -/
inductive ClassChar
  | plain (c : UInt8)
  | escaped (c : UInt8)
  deriving DecidableEq

/-- A quantifier that may be there, and may be lazy. -/
abbrev Repeat := Option (Quantifier × Bool)

/-- A pattern as the sequence of its parts, `|` and the assertions being characters. A group has the
text behind its parenthesis, as `?:`. -/
inductive Pattern
  | nil
  | char (c : UInt8) (q : Repeat) (rest : Pattern)
  | escape (c : UInt8) (q : Repeat) (rest : Pattern)
  | charClass (body : List ClassChar) (q : Repeat) (rest : Pattern)
  | group (opening : CString) (body : Pattern) (q : Repeat) (rest : Pattern)

def Quantifier.text : Quantifier → CString
  | plus => [43]
  | star => [42]
  | optional => [63]
  | atLeast digits => 123 :: digits ++ [44, 125]
  | exactly digits => 123 :: digits ++ [125]
  | between low high => 123 :: low ++ 44 :: high ++ [125]

def repeatText : Repeat → CString
  | none => []
  | some (q, false) => q.text
  | some (q, true) => q.text ++ [63]

def ClassChar.text : ClassChar → CString
  | plain c => [c]
  | escaped c => [92, c]

namespace Pattern

def text : Pattern → CString
  | nil => []
  | char c q rest => c :: (repeatText q ++ rest.text)
  | escape c q rest => 92 :: c :: (repeatText q ++ rest.text)
  | charClass body q rest => 91 :: (body.flatMap ClassChar.text ++ 93 :: (repeatText q ++ rest.text))
  | group opening body q rest => 40 :: (opening ++ (body.text ++ 41 :: (repeatText q ++ rest.text)))

end Pattern

/-- `+`, `*` and `{n,}`. -/
def Unbounded : Repeat → Bool
  | some (.plus, _) | some (.star, _) | some (.atLeast _, _) => true
  | _ => false

def ClassChar.marks : ClassChar → Bool
  | plain c => isQuantifier c
  | escaped _ => false

/-- One of the plain characters of a class looks like a quantifier. -/
def classMark (body : List ClassChar) : Bool := body.any ClassChar.marks

/-- Whether a quantifier begins with `+`, `*` or `{`. -/
def Marked : Repeat → Bool
  | none | some (.optional, _) => false
  | _ => true

namespace Pattern

/-- Somewhere in the pattern a part has an unbounded quantifier. -/
def hasUnbounded : Pattern → Bool
  | nil => false
  | char _ q rest | escape _ q rest | charClass _ q rest => Unbounded q || rest.hasUnbounded
  | group _ body q rest => body.hasUnbounded || Unbounded q || rest.hasUnbounded

/-- A group with an unbounded quantifier has another one inside, at any depth. -/
def nested : Pattern → Bool
  | nil => false
  | char _ _ rest | escape _ _ rest | charClass _ _ rest => rest.nested
  | group _ body q rest => (Unbounded q && body.hasUnbounded) || body.nested || rest.nested

/-- At its own level the pattern has a `+`, `*` or `{`, be it in a class. -/
def marked : Pattern → Bool
  | nil => false
  | char _ q rest | escape _ q rest | group _ _ q rest => Marked q || rest.marked
  | charClass body q rest => classMark body || Marked q || rest.marked

/-- A group that is followed by `+`, `*` or `{` has one of them at its own level. -/
def direct : Pattern → Bool
  | nil => false
  | char _ _ rest | escape _ _ rest | charClass _ _ rest => rest.direct
  | group _ body q rest => (Marked q && body.marked) || body.direct || rest.direct

end Pattern

/-- Text of a grammar's part that the scan passes over. -/
def Plain (s : CString) : Prop := ∀ c ∈ s, c ≠ 92 ∧ c ≠ 40 ∧ c ≠ 41 ∧ isQuantifier c = false

instance (s : CString) : Decidable (Plain s) :=
  inferInstanceAs (Decidable (∀ c ∈ s, c ≠ 92 ∧ c ≠ 40 ∧ c ≠ 41 ∧ isQuantifier c = false))

/-- The numbers of a quantifier are digits. -/
def RepeatGrammar : Repeat → Prop
  | some (.atLeast digits, _) | some (.exactly digits, _) => ∀ c ∈ digits, 48 ≤ c ∧ c ≤ 57
  | some (.between low high, _) => ∀ c ∈ low ++ high, 48 ≤ c ∧ c ≤ 57
  | _ => True

/-- The characters of a pattern are none of its special ones, and a group opens as `(`, `(?:`, `(?=` or
`(?!`. -/
def Pattern.Grammar : Pattern → Prop
  | nil => True
  | char c q rest => Plain [c] ∧ c ≠ 91 ∧ c ≠ 63 ∧ RepeatGrammar q ∧ rest.Grammar
  | escape _ q rest => RepeatGrammar q ∧ rest.Grammar
  | charClass body q rest =>
      (∀ c, .plain c ∈ body → c ≠ 92 ∧ c ≠ 93) ∧ RepeatGrammar q ∧ rest.Grammar
  | group opening body q rest =>
      opening ∈ [[], [63, 58], [63, 61], [63, 33]] ∧ body.Grammar ∧ RepeatGrammar q ∧ rest.Grammar

/-- No class has a parenthesis that is not escaped. -/
def Pattern.NoClassParens : Pattern → Prop
  | nil => True
  | char _ _ rest | escape _ _ rest => rest.NoClassParens
  | charClass body _ rest => (∀ c, .plain c ∈ body → c ≠ 40 ∧ c ≠ 41) ∧ rest.NoClassParens
  | group _ body _ rest => body.NoClassParens ∧ rest.NoClassParens

/-! ### What the scan finds -/

/-- The flags after a level that may have a quantifier. -/
def after (flag : Bool) (groups : List Bool) : List Bool := if flag then setBack groups else groups

theorem after_false (groups : List Bool) : after false groups = groups := rfl

theorem after_after (a b : Bool) (groups : List Bool) :
    after b (after a groups) = after (a || b) groups := by
  cases a with
  | false => rfl
  | true =>
      cases b with
      | false => rfl
      | true =>
          cases groups with
          | nil => rfl
          | cons flag outer => rfl

theorem scan_plain {s : CString} (hs : Plain s) (tail : CString) (groups : List Bool) :
    scan (s ++ tail) false groups = scan tail false groups := by
  induction s with
  | nil => rfl
  | cons c s ih =>
      obtain ⟨hescape, hopen, hclose, hquantifier⟩ := hs c List.mem_cons_self
      have hrest := ih fun d hd => hs d (List.mem_cons_of_mem _ hd)
      rw [List.cons_append, scan, if_neg hescape, if_neg hopen, if_neg hclose, hquantifier,
        if_neg Bool.false_ne_true, hrest]

theorem scan_quantifier {c : UInt8} (hc : isQuantifier c = true) (tail : CString)
    (groups : List Bool) : scan (c :: tail) false groups = scan tail false (setBack groups) := by
  have hspecial : c ≠ 92 ∧ c ≠ 40 ∧ c ≠ 41 := by
    refine ⟨?_, ?_, ?_⟩
    all_goals
      intro h
      rw [h] at hc
      exact absurd hc (by decide)
  rw [scan, if_neg hspecial.1, if_neg hspecial.2.1, if_neg hspecial.2.2, if_pos hc]

theorem scan_escape (c : UInt8) (tail : CString) (groups : List Bool) :
    scan (92 :: c :: tail) false groups = scan tail false groups := by
  rw [scan, if_pos rfl, scan]

set_option maxRecDepth 4000

/-- A quantifier is a `+`, `*` or `{` with plain text behind it, or it is plain. -/
theorem repeatText_cases {q : Repeat} (hq : RepeatGrammar q) :
    (Marked q = false ∧ Plain (repeatText q)) ∨
    (Marked q = true ∧ ∃ c s, repeatText q = c :: s ∧ isQuantifier c = true ∧ Plain s) := by
  have hdigit : ∀ c : UInt8, 48 ≤ c ∧ c ≤ 57 → Plain [c] := by
    intro c hc d hd
    rw [List.mem_singleton.mp hd]
    have hrange : 48 ≤ c.toNat ∧ c.toNat ≤ 57 := hc
    have hne : ∀ k : UInt8, (k.toNat < 48 ∨ 57 < k.toNat) → c ≠ k := by
      intro k hk heq
      rw [heq] at hrange
      omega
    refine ⟨hne 92 (by decide), hne 40 (by decide), hne 41 (by decide), ?_⟩
    simp [isQuantifier, hne 43 (by decide), hne 42 (by decide), hne 123 (by decide)]
  have hdigits : ∀ s : CString, (∀ c ∈ s, 48 ≤ c ∧ c ≤ 57) → Plain s := by
    intro s hs c hc
    exact hdigit c (hs c hc) c (List.mem_singleton.mpr rfl)
  have happend : ∀ s t : CString, Plain s → Plain t → Plain (s ++ t) := by
    intro s t hs ht c hc
    rcases List.mem_append.mp hc with hfront | hback
    · exact hs c hfront
    · exact ht c hback
  have hlazy : ∀ lazy : Bool, Plain (if lazy then [63] else []) := by
    decide
  have htext : ∀ (q : Quantifier) (lazy : Bool), repeatText (some (q, lazy)) =
      q.text ++ if lazy then [63] else [] := by
    intro q lazy
    cases lazy with
    | false => exact (List.append_nil _).symm
    | true => rfl
  cases q with
  | none => exact Or.inl ⟨rfl, by decide⟩
  | some q =>
      obtain ⟨q, lazy⟩ := q
      rw [htext]
      cases q with
      | optional => exact Or.inl ⟨rfl, happend [63] _ (by decide) (hlazy lazy)⟩
      | plus => exact Or.inr ⟨rfl, 43, _, rfl, rfl, hlazy lazy⟩
      | star => exact Or.inr ⟨rfl, 42, _, rfl, rfl, hlazy lazy⟩
      | atLeast digits =>
          refine Or.inr ⟨rfl, 123, _, rfl, rfl, ?_⟩
          exact happend _ _ (happend _ _ (hdigits _ hq) (by decide)) (hlazy lazy)
      | exactly digits =>
          refine Or.inr ⟨rfl, 123, _, rfl, rfl, ?_⟩
          exact happend _ _ (happend _ _ (hdigits _ hq) (by decide)) (hlazy lazy)
      | between low high =>
          refine Or.inr ⟨rfl, 123, _, rfl, rfl, ?_⟩
          have hlow := hdigits low fun c hc => hq c (List.mem_append_left _ hc)
          have hhigh := hdigits high fun c hc => hq c (List.mem_append_right _ hc)
          have hcomma : Plain [44] := by decide
          have hnumbers := happend _ _ hlow (happend _ _ hcomma hhigh)
          have hclosed := happend _ _ hnumbers (by decide : Plain [125])
          rw [List.singleton_append] at hclosed
          exact happend _ _ hclosed (hlazy lazy)

theorem scan_repeat {q : Repeat} (hq : RepeatGrammar q) (tail : CString) (groups : List Bool) :
    scan (repeatText q ++ tail) false groups = scan tail false (after (Marked q) groups) := by
  rcases repeatText_cases hq with ⟨hmarked, hplain⟩ | ⟨hmarked, c, s, htext, hc, hplain⟩
  · rw [hmarked, scan_plain hplain, after_false]
  · rw [hmarked, htext, List.cons_append, scan_quantifier hc, scan_plain hplain]
    rfl

theorem scan_class {body : List ClassChar} (hbody : ∀ c, .plain c ∈ body → c ≠ 92 ∧ c ≠ 93)
    (hparens : ∀ c, .plain c ∈ body → c ≠ 40 ∧ c ≠ 41) (tail : CString) (groups : List Bool) :
    scan (body.flatMap ClassChar.text ++ tail) false groups =
      scan tail false (after (classMark body) groups) := by
  induction body generalizing groups with
  | nil => rfl
  | cons first body ih =>
      have hrest := ih (fun c hc => hbody c (List.mem_cons_of_mem _ hc))
        (fun c hc => hparens c (List.mem_cons_of_mem _ hc))
      rw [List.flatMap_cons, List.append_assoc, classMark, List.any_cons]
      cases first with
      | escaped c =>
          rw [ClassChar.text, List.cons_append, List.cons_append, List.nil_append, scan_escape,
            hrest]
          rfl
      | plain c =>
          have hescape := (hbody c List.mem_cons_self).1
          have hparen := hparens c List.mem_cons_self
          rw [ClassChar.text, List.cons_append, List.nil_append]
          cases hc : isQuantifier c with
          | true =>
              have hmark := after_after true (classMark body) groups
              rw [scan_quantifier hc, hrest, ClassChar.marks, hc]
              exact congrArg _ hmark
          | false =>
              rw [scan, if_neg hescape, if_neg hparen.1, if_neg hparen.2, hc,
                if_neg Bool.false_ne_true, hrest, ClassChar.marks, hc]
              rfl

/-- What follows a part does not begin with `+`, `*` or `{`. -/
theorem head_text {p : Pattern} (hp : p.Grammar) {tail : CString}
    (htail : tail.head?.any isQuantifier = false) :
    (p.text ++ tail).head?.any isQuantifier = false := by
  cases p with
  | nil => exact htail
  | char c q rest => exact (hp.1 c (List.mem_singleton.mpr rfl)).2.2.2
  | escape c q rest => rfl
  | charClass body q rest => rfl
  | group opening body q rest => rfl

theorem head_repeat {q : Repeat} (hq : RepeatGrammar q) {tail : CString}
    (htail : tail.head?.any isQuantifier = false) :
    (repeatText q ++ tail).head?.any isQuantifier = Marked q := by
  rcases repeatText_cases hq with ⟨hmarked, hplain⟩ | ⟨hmarked, c, s, htext, hc, hplain⟩
  · rw [hmarked]
    cases hrepeat : repeatText q with
    | nil => exact htail
    | cons c s =>
        rw [hrepeat] at hplain
        exact (hplain c List.mem_cons_self).2.2.2
  · rw [hmarked, htext]
    exact hc

theorem scan_close {next : CString} {flag : Bool} (groups : List Bool) :
    scan (41 :: next) false (flag :: groups) =
      ((next.head?.any isQuantifier && flag) ||
        scan next false (after (next.head?.any isQuantifier) groups)) := by
  rw [scan, if_neg (by decide), if_neg (by decide), if_pos rfl]
  cases next.head?.any isQuantifier with
  | false =>
      rw [if_neg Bool.false_ne_true]
      rfl
  | true =>
      rw [if_pos rfl]
      cases flag with
      | false => rfl
      | true => rfl

/-- The scan rejects inside a pattern what is directly nested, and marks the level it is at. -/
theorem scan_text {p : Pattern} (hp : p.Grammar) (hparens : p.NoClassParens) {tail : CString}
    (htail : tail.head?.any isQuantifier = false) (groups : List Bool) :
    scan (p.text ++ tail) false groups =
      (p.direct || scan tail false (after p.marked groups)) := by
  induction p generalizing tail groups with
  | nil => rfl
  | char c q rest ih =>
      obtain ⟨hplain, _, _, hq, hrest⟩ := hp
      have hscan := scan_plain hplain (repeatText q ++ (rest.text ++ tail)) groups
      rw [Pattern.text, List.cons_append, List.append_assoc]
      rw [List.singleton_append] at hscan
      rw [hscan, scan_repeat hq, ih hrest hparens htail, after_after]
      rfl
  | escape c q rest ih =>
      obtain ⟨hq, hrest⟩ := hp
      rw [Pattern.text, List.cons_append, List.cons_append, List.append_assoc, scan_escape,
        scan_repeat hq, ih hrest hparens htail, after_after]
      rfl
  | charClass body q rest ih =>
      obtain ⟨hbody, hq, hrest⟩ := hp
      have hopen : Plain [91] := by decide
      have hclose : Plain [93] := by decide
      have hscan := scan_plain hopen (body.flatMap ClassChar.text ++
        (93 :: (repeatText q ++ (rest.text ++ tail)))) groups
      have hend := scan_plain hclose (repeatText q ++ (rest.text ++ tail))
        (after (classMark body) groups)
      rw [List.singleton_append] at hscan hend
      rw [Pattern.text, List.cons_append, List.append_assoc, List.cons_append, List.append_assoc,
        hscan, scan_class hbody hparens.1, hend, scan_repeat hq, ih hrest hparens.2 htail,
        after_after, after_after, Pattern.direct, Pattern.marked, Bool.or_assoc]
  | group opening body q rest ihbody ihrest =>
      obtain ⟨hopening, hbody, hq, hrest⟩ := hp
      have hplain : ∀ opening ∈ [[], [63, 58], [63, 61], [63, 33]], Plain opening := by decide
      have hnext : (repeatText q ++ (rest.text ++ tail)).head?.any isQuantifier = Marked q :=
        head_repeat hq (head_text hrest htail)
      have hflag : after body.marked (false :: groups) = body.marked :: groups := by
        cases body.marked with
        | false => rfl
        | true => rfl
      rw [Pattern.text, List.cons_append, List.append_assoc, List.append_assoc, List.cons_append,
        List.append_assoc, scan, if_neg (by decide), if_pos rfl, scan_plain (hplain opening hopening),
        ihbody hbody hparens.1 (by rfl), hflag, scan_close, hnext, scan_repeat hq,
        ihrest hrest hparens.2 htail, after_after, after_after, ← Bool.or_assoc (Marked q) (Marked q),
        Bool.or_self, Pattern.direct, Pattern.marked]
      cases body.direct with
      | false => rw [Bool.false_or, Bool.or_false, Bool.or_assoc]
      | true => rw [Bool.true_or, Bool.or_true, Bool.true_or, Bool.true_or]

/-- The pattern `((a+)b)+`. -/
def deepNesting : Pattern :=
  .group [] (.group [] (.char 97 (some (.plus, false)) .nil) none (.char 98 none .nil))
    (some (.plus, false)) .nil

theorem deepNesting_grammar : deepNesting.Grammar :=
  ⟨by decide, ⟨by decide, ⟨by decide, by decide, by decide, trivial, trivial⟩, trivial,
    ⟨by decide, by decide, by decide, trivial, trivial⟩⟩, trivial, trivial⟩

theorem deepNesting_noClassParens : deepNesting.NoClassParens :=
  ⟨⟨trivial, trivial⟩, trivial⟩

end Regex

end EZLanguage
