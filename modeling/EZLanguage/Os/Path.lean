import Mathlib.Data.List.Infix
import Mathlib.Tactic.Common

/-!
# Paths

The paths of the library on both platforms. A path is a text that is cut at separators; `normalize` runs a
stack over the segments. On Windows a path may begin with a drive.

The laws hold for every path on a POSIX system. On Windows they hold for paths without a network prefix
whose only colons at the second place of a segment belong to a drive with its root behind it.
-/

namespace EZLanguage

namespace OSPath

abbrev Path := List Char

inductive Platform where
  | posix
  | windows
  deriving DecidableEq

/-- `PATH_SEP`. -/
def Platform.sep : Platform → Char
  | posix => '/'
  | windows => '\\'

def isSeparator (c : Char) : Bool := c == '/' || c == '\\'

/-! ### Splitting and joining -/

/-- A character before the first piece. -/
def consHead (c : Char) : List Path → List Path
  | [] => [[c]]
  | piece :: pieces => (c :: piece) :: pieces

/-- `split(p, sep)`. -/
def splitAt (sep : Char) : Path → List Path
  | [] => [[]]
  | c :: rest => if c = sep then [] :: splitAt sep rest else consHead c (splitAt sep rest)

/-- The pieces with a separator between any two. -/
def joinWith (sep : Char) : List Path → Path
  | [] => []
  | [piece] => piece
  | piece :: next :: pieces => piece ++ sep :: joinWith sep (next :: pieces)

example : splitAt '/' ['a', '/', 'b'] = [['a'], ['b']] := by simp [splitAt, consHead]

example : joinWith '/' [['a'], ['b']] = ['a', '/', 'b'] := by simp [joinWith]

theorem splitAt_ne_nil (sep : Char) (p : Path) : splitAt sep p ≠ [] := by
  cases p with
  | nil => exact List.cons_ne_nil _ _
  | cons c rest =>
      rw [splitAt]
      split
      · exact List.cons_ne_nil _ _
      · cases splitAt sep rest <;> exact List.cons_ne_nil _ _

/-- A piece without a separator goes before the first piece as a whole. -/
theorem splitAt_append {sep : Char} {s : Path} (hs : sep ∉ s) (p : Path) :
    splitAt sep (s ++ sep :: p) = s :: splitAt sep p := by
  induction s with
  | nil => rw [List.nil_append, splitAt, if_pos rfl]
  | cons c s ih =>
      have hc : c ≠ sep := fun h => hs (h ▸ List.mem_cons_self)
      rw [List.cons_append, splitAt, if_neg hc, ih fun h => hs (List.mem_cons_of_mem c h)]
      rfl

theorem splitAt_of_not_mem {sep : Char} {s : Path} (hs : sep ∉ s) : splitAt sep s = [s] := by
  induction s with
  | nil => rfl
  | cons c s ih =>
      have hc : c ≠ sep := fun h => hs (h ▸ List.mem_cons_self)
      rw [splitAt, if_neg hc, ih fun h => hs (List.mem_cons_of_mem c h)]
      rfl

theorem splitAt_joinWith {sep : Char} {pieces : List Path} (hne : pieces ≠ [])
    (hpieces : ∀ s ∈ pieces, sep ∉ s) : splitAt sep (joinWith sep pieces) = pieces := by
  induction pieces with
  | nil => exact absurd rfl hne
  | cons s pieces ih =>
      cases pieces with
      | nil => exact splitAt_of_not_mem (hpieces s List.mem_cons_self)
      | cons t pieces =>
          rw [joinWith, splitAt_append (hpieces s List.mem_cons_self),
            ih (List.cons_ne_nil _ _) fun u hu => hpieces u (List.mem_cons_of_mem s hu)]

theorem joinWith_consHead (sep c : Char) {pieces : List Path} (hne : pieces ≠ []) :
    joinWith sep (consHead c pieces) = c :: joinWith sep pieces := by
  cases pieces with
  | nil => exact absurd rfl hne
  | cons s pieces =>
      cases pieces with
      | nil => rfl
      | cons t pieces => rfl

theorem joinWith_splitAt (sep : Char) (p : Path) : joinWith sep (splitAt sep p) = p := by
  induction p with
  | nil => rfl
  | cons c rest ih =>
      rw [splitAt]
      split
      case isTrue hc =>
          obtain ⟨s, pieces, hpieces⟩ := List.exists_cons_of_ne_nil (splitAt_ne_nil sep rest)
          rw [hpieces] at ih ⊢
          rw [joinWith, ih, hc, List.nil_append]
      case isFalse => rw [joinWith_consHead sep c (splitAt_ne_nil sep rest), ih]

theorem not_mem_splitAt (sep : Char) (p : Path) : ∀ s ∈ splitAt sep p, sep ∉ s := by
  induction p with
  | nil => simp [splitAt]
  | cons c rest ih =>
      rw [splitAt]
      split
      case isTrue =>
          refine List.forall_mem_cons.mpr ⟨List.not_mem_nil, ih⟩
      case isFalse hc =>
          obtain ⟨s, pieces, hpieces⟩ := List.exists_cons_of_ne_nil (splitAt_ne_nil sep rest)
          rw [hpieces] at ih ⊢
          obtain ⟨hs, hrest⟩ := List.forall_mem_cons.mp ih
          refine List.forall_mem_cons.mpr ⟨fun hmem => ?_, hrest⟩
          rcases List.mem_cons.mp hmem with h | h
          · exact hc h.symm
          · exact hs h

theorem mem_of_mem_splitAt {sep : Char} {p s : Path} (hs : s ∈ splitAt sep p) {c : Char} (hc : c ∈ s) :
    c ∈ p := by
  induction p generalizing s with
  | nil =>
      rw [splitAt, List.mem_singleton] at hs
      exact absurd hc (hs ▸ List.not_mem_nil)
  | cons d rest ih =>
      rw [splitAt] at hs
      split at hs
      case isTrue =>
          rcases List.mem_cons.mp hs with rfl | hs
          · exact absurd hc List.not_mem_nil
          · exact List.mem_cons_of_mem d (ih hs hc)
      case isFalse =>
          obtain ⟨t, pieces, hpieces⟩ := List.exists_cons_of_ne_nil (splitAt_ne_nil sep rest)
          rw [hpieces] at hs ih
          rcases List.mem_cons.mp hs with rfl | hs
          · rcases List.mem_cons.mp hc with rfl | hc
            · exact List.mem_cons_self
            · exact List.mem_cons_of_mem d (ih List.mem_cons_self hc)
          · exact List.mem_cons_of_mem d (ih (List.mem_cons_of_mem t hs) hc)

/-! ### Separators -/

def normalizeSeparators (pl : Platform) (p : Path) : Path :=
  p.map fun c => if isSeparator c then pl.sep else c

/-- `indexOf(p, doubleSep) != -1`. -/
def hasDouble (sep : Char) : Path → Bool
  | a :: b :: rest => (a == sep && b == sep) || hasDouble sep (b :: rest)
  | _ => false

/-- `replace(p, doubleSep, sep)`. -/
def replaceDouble (sep : Char) : Path → Path
  | a :: b :: rest =>
      if a == sep && b == sep then sep :: replaceDouble sep rest else a :: replaceDouble sep (b :: rest)
  | p => p

/-- `startsWith(p, "\\\\")`. -/
def startsNetwork : Path → Bool
  | a :: b :: _ => a == '\\' && b == '\\'
  | _ => false

theorem replaceDouble_length_le (sep : Char) (p : Path) : (replaceDouble sep p).length ≤ p.length := by
  induction p using replaceDouble.induct sep with
  | case1 a b rest h ih =>
      rw [replaceDouble, if_pos h]
      simp only [List.length_cons]
      omega
  | case2 a b rest h ih =>
      rw [replaceDouble, if_neg h]
      simp only [List.length_cons] at ih ⊢
      omega
  | case3 p h =>
      rw [replaceDouble]
      exact h

theorem replaceDouble_length_lt {sep : Char} {p : Path} (hdouble : hasDouble sep p = true) :
    (replaceDouble sep p).length < p.length := by
  induction p using replaceDouble.induct sep with
  | case1 a b rest h _ =>
      have hle := replaceDouble_length_le sep rest
      rw [replaceDouble, if_pos h]
      simp only [List.length_cons]
      omega
  | case2 a b rest h ih =>
      rw [hasDouble, Bool.or_eq_true] at hdouble
      have hlt := ih (hdouble.resolve_left h)
      rw [replaceDouble, if_neg h]
      simp only [List.length_cons] at hlt ⊢
      omega
  | case3 p h =>
      unfold hasDouble at hdouble
      split at hdouble
      · exact absurd rfl (h _ _ _)
      · cases hdouble

/-- The loop of `collapseSeparators`. -/
def collapseLoop (pl : Platform) (p : Path) : Path :=
  if _hdouble : hasDouble pl.sep p = true then
    if startsNetwork p && pl == .windows && !hasDouble '\\' (p.drop 2) then p
    else collapseLoop pl (replaceDouble pl.sep p)
  else p
termination_by p.length
decreasing_by exact replaceDouble_length_lt _hdouble

def collapseSeparators (pl : Platform) (p : Path) : Path := collapseLoop pl (normalizeSeparators pl p)

/-! ### The tasks of `OSPath` -/

def isAbsolute (pl : Platform) (p : Path) : Bool :=
  match pl with
  | .windows =>
      if 2 ≤ p.length ∧ p[1]? = some ':' then true
      else if startsNetwork p then true
      else if p.head? = some '/' ∨ p.head? = some '\\' then true
      else false
  | .posix => p.head? == some '/'

/-- One pass of the loop of `joinAll`, for a part that is not the first. -/
def joinPart (pl : Platform) (res part : Path) : Path :=
  let seg := normalizeSeparators pl part
  if seg ≠ [] then
    if isAbsolute pl seg then seg
    else if res.getLast? = some pl.sep then res ++ seg
    else if res.getLast? = some ':' then res ++ pl.sep :: seg
    else res ++ pl.sep :: seg
  else res

def joinAll (pl : Platform) : List Path → Path
  | [] => []
  | first :: parts =>
      collapseSeparators pl (parts.foldl (joinPart pl) (normalizeSeparators pl first))

def join (pl : Platform) (p1 p2 : Path) : Path := joinAll pl [p1, p2]

def basename (pl : Platform) (p : Path) : Path :=
  (splitAt pl.sep (collapseSeparators pl p)).getLastD []

def dirname (pl : Platform) (p : Path) : Path :=
  let sep := pl.sep
  let p := collapseSeparators pl p
  if p = [] then ['.']
  else
    let isAbs := isAbsolute pl p
    let trimmed := if 1 < p.length ∧ p.getLast? = some sep then p.dropLast else p
    let parts := splitAt sep trimmed
    if parts.length ≤ 1 then if isAbs then [sep] else ['.']
    else
      let res := joinWith sep parts.dropLast
      if res = [] ∧ isAbs then [sep] else res

/-- The loop that looks for the last dot. -/
def lastDot (base : Path) : Option Nat :=
  (base.reverse.findIdx? (· == '.')).map fun i => base.length - 1 - i

def extname (pl : Platform) (p : Path) : Path :=
  let base := basename pl p
  match lastDot base with
  | none | some 0 => []
  | some i => base.drop i

def stem (pl : Platform) (p : Path) : Path :=
  let base := basename pl p
  match lastDot base with
  | none => base
  | some i => base.take i

/-- The prefix of a drive, and the rest. -/
def splitDrive (pl : Platform) (p : Path) : Path × Path :=
  if pl = .windows ∧ 2 ≤ p.length ∧ p[1]? = some ':' then (p.take 2, p.drop 2) else ([], p)

def dot : Path := ['.']

def dotdot : Path := ['.', '.']

/-- One pass of the loop of `normalize` over the segments. -/
def resolveSegment (isAbs : Bool) (stack : List Path) (seg : Path) : List Path :=
  if seg = [] ∨ seg = dot then stack
  else if seg = dotdot then
    if stack ≠ [] ∧ stack.getLast? ≠ some dotdot then stack.dropLast
    else if isAbs then stack
    else stack ++ [seg]
  else stack ++ [seg]

def normalize (pl : Platform) (p : Path) : Path :=
  let sep := pl.sep
  let p := collapseSeparators pl p
  if p = [] then dot
  else
    let isAbs := isAbsolute pl p
    let (drive, rest) := splitDrive pl p
    let stack := (splitAt sep rest).foldl (resolveSegment isAbs) []
    let joined := joinWith sep stack
    if isAbs then if joined = [] then drive ++ [sep] else drive ++ sep :: joined
    else if joined = [] then dot
    else drive ++ joined

/-! ### Locations -/

/-- A segment that names an entry of a directory. -/
def Proper (s : Path) : Prop := s ≠ [] ∧ s ≠ dot ∧ s ≠ dotdot

/-- One segment followed from a directory, which is given by the names on the way to it from the root. -/
def follow (directory : List Path) (seg : Path) : List Path :=
  if seg = [] ∨ seg = dot then directory
  else if seg = dotdot then directory.dropLast
  else directory ++ [seg]

theorem follow_proper {s : Path} (hs : Proper s) (directory : List Path) :
    follow directory s = directory ++ [s] := by
  rw [follow, if_neg fun h => h.elim hs.1 hs.2.1, if_neg hs.2.2]

theorem follow_dotdot (directory : List Path) : follow directory dotdot = directory.dropLast := by
  rw [follow, if_neg (by decide), if_pos rfl]

/-- The stack of `normalize`: names, behind steps up where the path is relative. -/
structure Stacked (isAbs : Bool) (stack : List Path) : Prop where
  proper : isAbs = true → ∀ s ∈ stack, Proper s
  ups : ∃ k names, stack = List.replicate k dotdot ++ names ∧ ∀ s ∈ names, Proper s

theorem Stacked.nil (isAbs : Bool) : Stacked isAbs [] :=
  ⟨fun _ _ hs => absurd hs List.not_mem_nil, 0, [], rfl, fun _ hs => absurd hs List.not_mem_nil⟩

theorem Stacked.push {isAbs : Bool} {stack : List Path} (h : Stacked isAbs stack) {s : Path}
    (hs : Proper s) : Stacked isAbs (stack ++ [s]) := by
  obtain ⟨hproper, k, names, rfl, hnames⟩ := h
  refine ⟨fun habs => ?_, k, names ++ [s], (List.append_assoc _ _ _), ?_⟩
  · exact List.forall_mem_append.mpr ⟨hproper habs, by simpa using hs⟩
  · exact List.forall_mem_append.mpr ⟨hnames, by simpa using hs⟩

/-- The last entry of a stack is a name, unless there are steps up only. -/
theorem Stacked.cases {isAbs : Bool} {stack : List Path} (h : Stacked isAbs stack) :
    (∃ rest name, stack = rest ++ [name] ∧ Proper name ∧ Stacked isAbs rest) ∨
      ∃ k, stack = List.replicate k dotdot := by
  obtain ⟨hproper, k, names, rfl, hnames⟩ := h
  rcases List.eq_nil_or_concat names with rfl | ⟨names, name, rfl⟩
  · exact .inr ⟨k, List.append_nil _⟩
  · refine .inl ⟨List.replicate k dotdot ++ names, name, by simp, hnames name (by simp), ?_⟩
    refine ⟨fun habs s hs => hproper habs s ?_, k, names, rfl, fun s hs => hnames s (by simp [hs])⟩
    rw [List.concat_eq_append, ← List.append_assoc]
    exact List.mem_append_left _ hs

theorem replicate_last {k : Nat} (hk : List.replicate k dotdot ≠ []) :
    (List.replicate k dotdot).getLast? = some dotdot := by
  obtain ⟨n, rfl⟩ : ∃ n, k = n + 1 := by
    cases k with
    | zero => exact absurd rfl hk
    | succ n => exact ⟨n, rfl⟩
  rw [List.replicate_succ', List.getLast?_concat]

/-- One segment keeps the stack in order. -/
theorem resolveSegment_stacked {isAbs : Bool} {stack : List Path} (h : Stacked isAbs stack) (seg : Path) :
    Stacked isAbs (resolveSegment isAbs stack seg) := by
  unfold resolveSegment
  split
  case isTrue => exact h
  case isFalse hseg =>
      split
      case isTrue hup =>
          rcases h.cases with ⟨rest, name, rfl, hname, hrest⟩ | ⟨k, rfl⟩
          · rw [if_pos ⟨by simp, by simpa using hname.2.2⟩, List.dropLast_concat]
            exact hrest
          · rw [if_neg fun hk => hk.2 (replicate_last hk.1)]
            split
            case isTrue => exact h
            case isFalse habs =>
                refine ⟨fun h => absurd h habs, k + 1, [], ?_, by simp⟩
                rw [hup, List.append_nil, List.replicate_succ']
      case isFalse hup =>
          rw [not_or] at hseg
          exact h.push ⟨hseg.1, hseg.2, hup⟩

/-- One segment leads where it leads from the directory the stack leads to. -/
theorem follow_resolveSegment {isAbs : Bool} {stack : List Path} (h : Stacked isAbs stack) (seg : Path)
    {base : List Path} (hbase : isAbs = true → base = []) :
    (resolveSegment isAbs stack seg).foldl follow base = follow (stack.foldl follow base) seg := by
  unfold resolveSegment
  split
  case isTrue hseg => rw [follow, if_pos hseg]
  case isFalse hseg =>
      split
      case isTrue hup =>
          rw [hup, follow_dotdot]
          rcases h.cases with ⟨rest, name, rfl, hname, hrest⟩ | ⟨k, rfl⟩
          · rw [if_pos ⟨by simp, by simpa using hname.2.2⟩, List.dropLast_concat, List.foldl_append,
              List.foldl_cons, List.foldl_nil, follow_proper hname, List.dropLast_concat]
          · rw [if_neg fun hk => hk.2 (replicate_last hk.1)]
            split
            case isTrue habs =>
                -- above the root there is nothing
                have hzero : List.replicate k dotdot = [] := by
                  cases k with
                  | zero => rfl
                  | succ k =>
                      have hproper := h.proper habs dotdot (by simp)
                      exact absurd rfl hproper.2.2
                rw [hzero, hbase habs]
                rfl
            case isFalse => rw [List.foldl_append, List.foldl_cons, List.foldl_nil, follow_dotdot]
      case isFalse hup => rw [List.foldl_append, List.foldl_cons, List.foldl_nil]

/-- What `normalize` makes of the segments of a path. -/
def resolve (isAbs : Bool) (segs : List Path) : List Path := segs.foldl (resolveSegment isAbs) []

theorem foldl_resolve {isAbs : Bool} (segs stack : List Path) (h : Stacked isAbs stack)
    {base : List Path} (hbase : isAbs = true → base = []) :
    Stacked isAbs (segs.foldl (resolveSegment isAbs) stack) ∧
      (segs.foldl (resolveSegment isAbs) stack).foldl follow base =
        segs.foldl follow (stack.foldl follow base) := by
  induction segs generalizing stack with
  | nil => exact ⟨h, rfl⟩
  | cons seg segs ih =>
      obtain ⟨hstacked, hfollow⟩ := ih _ (resolveSegment_stacked h seg)
      refine ⟨hstacked, ?_⟩
      rw [List.foldl_cons, hfollow, follow_resolveSegment h seg hbase, List.foldl_cons]

theorem resolve_stacked (isAbs : Bool) (segs : List Path) : Stacked isAbs (resolve isAbs segs) :=
  (@foldl_resolve isAbs segs [] (Stacked.nil isAbs) [] fun _ => rfl).1

/-- The resolved segments lead to the same place. -/
theorem follow_resolve {isAbs : Bool} (segs : List Path) {base : List Path}
    (hbase : isAbs = true → base = []) :
    (resolve isAbs segs).foldl follow base = segs.foldl follow base :=
  (foldl_resolve segs [] (Stacked.nil isAbs) hbase).2

/-- Resolved segments are resolved already. -/
theorem resolve_self {isAbs : Bool} {stack : List Path} (h : Stacked isAbs stack) :
    resolve isAbs stack = stack := by
  have hnames : ∀ (names before : List Path), (∀ s ∈ names, Proper s) →
      names.foldl (resolveSegment isAbs) before = before ++ names := by
    intro names
    induction names with
    | nil => exact fun before _ => (List.append_nil before).symm
    | cons name names ih =>
        intro before hproper
        obtain ⟨hname, hrest⟩ := List.forall_mem_cons.mp hproper
        have hstep : resolveSegment isAbs before name = before ++ [name] := by
          rw [resolveSegment, if_neg fun h => h.elim hname.1 hname.2.1, if_neg hname.2.2]
        rw [List.foldl_cons, hstep, ih _ hrest, List.append_assoc, List.singleton_append]
  cases isAbs with
  | true => exact (hnames stack [] (h.proper rfl)).trans (List.nil_append _)
  | false =>
      obtain ⟨-, k, names, rfl, hproper⟩ := h
      have hups : ∀ k, (List.replicate k dotdot).foldl (resolveSegment false) [] =
          List.replicate k dotdot := by
        intro k
        induction k with
        | zero => rfl
        | succ k ih =>
            have hstep : resolveSegment false (List.replicate k dotdot) dotdot =
                List.replicate k dotdot ++ [dotdot] := by
              rw [resolveSegment, if_neg (by decide), if_pos rfl,
                if_neg fun hk => hk.2 (replicate_last hk.1), if_neg Bool.false_ne_true]
            rw [List.replicate_succ', List.foldl_append, ih, List.foldl_cons, List.foldl_nil, hstep]
      rw [resolve, List.foldl_append, hups, hnames names _ hproper]

/-! ### What collapsing keeps -/

/-- The nonempty segments. -/
def names (sep : Char) (p : Path) : List Path := (splitAt sep p).filter (· ≠ [])

/-- Only the separator of the platform is left. -/
def Normal (pl : Platform) (p : Path) : Prop := ∀ c ∈ p, isSeparator c = true → c = pl.sep

theorem isSeparator_sep (pl : Platform) : isSeparator pl.sep = true := by cases pl <;> rfl

theorem sep_ne_colon (pl : Platform) : ':' ≠ pl.sep := by cases pl <;> decide

theorem normal_normalizeSeparators (pl : Platform) (p : Path) : Normal pl (normalizeSeparators pl p) := by
  intro c hc hsep
  obtain ⟨d, -, rfl⟩ := List.mem_map.mp hc
  split
  case isTrue => rfl
  case isFalse hd =>
      rw [if_neg hd] at hsep
      exact absurd hsep hd

theorem normalizeSeparators_of_normal {pl : Platform} {p : Path} (h : Normal pl p) :
    normalizeSeparators pl p = p := by
  refine (List.map_congr_left fun c hc => ?_).trans (List.map_id p)
  split
  case isTrue hsep => exact (h c hc hsep).symm
  case isFalse => rfl

theorem splitAt_eq_cons (sep : Char) (p : Path) : ∃ s t, splitAt sep p = s :: t :=
  List.exists_cons_of_ne_nil (splitAt_ne_nil sep p)

/-- One replacement keeps the first segment and the last, and of the others those that are not empty. -/
theorem splitAt_replaceDouble (sep : Char) (p : Path) :
    ∃ s t u, splitAt sep (replaceDouble sep p) = s :: t ∧ splitAt sep p = s :: u ∧
      t.filter (· ≠ []) = u.filter (· ≠ []) ∧ t.getLast? = u.getLast? := by
  have hcons : ∀ {x y : List Path} (s : Path), x.getLast? = y.getLast? →
      (s :: x).getLast? = (s :: y).getLast? := by
    intro x y s hxy
    rw [List.getLast?_cons, List.getLast?_cons, hxy]
  induction p using replaceDouble.induct sep with
  | case1 a b rest h ih =>
      obtain ⟨s, t, u, ht, hu, hsame, hlast⟩ := ih
      rw [Bool.and_eq_true, beq_iff_eq, beq_iff_eq] at h
      obtain ⟨rfl, rfl⟩ := h
      refine ⟨[], s :: t, [] :: s :: u, ?_, ?_, ?_, ?_⟩
      · rw [replaceDouble, if_pos (by simp), splitAt, if_pos rfl, ht]
      · rw [splitAt, if_pos rfl, splitAt, if_pos rfl, hu]
      · simp only [List.filter_cons, hsame]
        simp
      · rw [List.getLast?_cons_cons]
        exact hcons s hlast
  | case2 a b rest h ih =>
      obtain ⟨s, t, u, ht, hu, hsame, hlast⟩ := ih
      rw [replaceDouble, if_neg h, splitAt, splitAt, ht, hu]
      by_cases ha : a = sep
      · rw [if_pos ha, if_pos ha]
        exact ⟨[], s :: t, s :: u, rfl, rfl, by simp only [List.filter_cons, hsame], hcons s hlast⟩
      · rw [if_neg ha, if_neg ha]
        exact ⟨a :: s, t, u, rfl, rfl, hsame, hlast⟩
  | case3 p h =>
      rw [replaceDouble]
      · obtain ⟨s, t, hp⟩ := splitAt_eq_cons sep p
        exact ⟨s, t, t, hp, hp, rfl, rfl⟩
      · exact h

theorem names_replaceDouble (sep : Char) (p : Path) : names sep (replaceDouble sep p) = names sep p := by
  obtain ⟨s, t, u, ht, hu, hsame, -⟩ := splitAt_replaceDouble sep p
  rw [names, names, ht, hu, List.filter_cons, List.filter_cons, hsame]

theorem lastSegment_replaceDouble (sep : Char) (p : Path) :
    (splitAt sep (replaceDouble sep p)).getLast? = (splitAt sep p).getLast? := by
  obtain ⟨s, t, u, ht, hu, -, hlast⟩ := splitAt_replaceDouble sep p
  rw [ht, hu, List.getLast?_cons, List.getLast?_cons, hlast]

theorem mem_replaceDouble {sep c : Char} {p : Path} : c ∈ replaceDouble sep p ↔ c ∈ p := by
  induction p using replaceDouble.induct sep with
  | case1 a b rest h ih =>
      rw [Bool.and_eq_true, beq_iff_eq, beq_iff_eq] at h
      obtain ⟨rfl, rfl⟩ := h
      rw [replaceDouble, if_pos (by simp), List.mem_cons, List.mem_cons, List.mem_cons, ih, or_self_left]
  | case2 a b rest h ih => rw [replaceDouble, if_neg h, List.mem_cons, ih, ← List.mem_cons]
  | case3 p h =>
      rw [replaceDouble]
      exact h

theorem replaceDouble_first (sep : Char) (p : Path) : (replaceDouble sep p)[0]? = p[0]? := by
  induction p using replaceDouble.induct sep with
  | case1 a b rest h _ =>
      rw [Bool.and_eq_true, beq_iff_eq, beq_iff_eq] at h
      rw [replaceDouble, if_pos (by simp [h.1, h.2]), h.1]
      rfl
  | case2 a b rest h _ =>
      rw [replaceDouble, if_neg h]
      rfl
  | case3 p h =>
      rw [replaceDouble]
      exact h

theorem replaceDouble_last (sep : Char) (p : Path) : (replaceDouble sep p).getLast? = p.getLast? := by
  induction p using replaceDouble.induct sep with
  | case1 a b rest h ih =>
      rw [Bool.and_eq_true, beq_iff_eq, beq_iff_eq] at h
      obtain ⟨rfl, rfl⟩ := h
      rw [replaceDouble, if_pos (by simp), List.getLast?_cons, ih, List.getLast?_cons_cons,
        List.getLast?_cons]
  | case2 a b rest h ih =>
      rw [replaceDouble, if_neg h, List.getLast?_cons, ih, List.getLast?_cons_cons, List.getLast?_cons]
      rfl
  | case3 p h =>
      rw [replaceDouble]
      exact h

/-- What a collapsed path has in common with the path. -/
structure Collapsed (sep : Char) (p q : Path) : Prop where
  chars : ∀ c, c ∈ q ↔ c ∈ p
  first : q[0]? = p[0]?
  second : ¬(p[0]? = some sep ∧ p[1]? = some sep) → q[1]? = p[1]?
  last : q.getLast? = p.getLast?
  lastSegment : (splitAt sep q).getLast? = (splitAt sep p).getLast?
  segments : names sep q = names sep p
  behindDrive : p[1]? = some ':' → names sep (q.drop 2) = names sep (p.drop 2)

theorem Collapsed.refl (sep : Char) (p : Path) : Collapsed sep p p :=
  ⟨fun _ => Iff.rfl, rfl, fun _ => rfl, rfl, rfl, rfl, fun _ => rfl⟩

theorem Collapsed.trans {sep : Char} {p q r : Path} (hcolon : ':' ≠ sep) (h : Collapsed sep p q)
    (h' : Collapsed sep q r) : Collapsed sep p r := by
  have hsecond : ¬(p[0]? = some sep ∧ p[1]? = some sep) → r[1]? = p[1]? := by
    intro hp
    have hq := h.second hp
    exact (h'.second (by rwa [h.first, hq])).trans hq
  refine ⟨fun c => (h'.chars c).trans (h.chars c), h'.first.trans h.first, hsecond, h'.last.trans h.last,
    h'.lastSegment.trans h.lastSegment, h'.segments.trans h.segments, fun hp => ?_⟩
  have hp' : ¬(p[0]? = some sep ∧ p[1]? = some sep) := fun hd =>
    hcolon (Option.some.inj (hp.symm.trans hd.2))
  exact (h'.behindDrive ((h.second hp').trans hp)).trans (h.behindDrive hp)

theorem collapsed_replaceDouble {sep : Char} (hcolon : ':' ≠ sep) (p : Path) :
    Collapsed sep p (replaceDouble sep p) where
  chars _ := mem_replaceDouble
  first := replaceDouble_first sep p
  second hp := by
    rcases p with _ | ⟨a, _ | ⟨b, rest⟩⟩
    · rfl
    · rfl
    · have hab : ¬(a == sep && b == sep) = true := by
          rw [Bool.and_eq_true, beq_iff_eq, beq_iff_eq]
          exact fun h => hp ⟨congrArg some h.1, congrArg some h.2⟩
      rw [replaceDouble, if_neg hab]
      exact replaceDouble_first sep (b :: rest)
  last := replaceDouble_last sep p
  lastSegment := lastSegment_replaceDouble sep p
  segments := names_replaceDouble sep p
  behindDrive hp := by
    rcases p with _ | ⟨a, _ | ⟨b, rest⟩⟩
    · rfl
    · rfl
    · obtain rfl : b = ':' := Option.some.inj hp
      have hstep : ∀ x : Path, replaceDouble sep (':' :: x) = ':' :: replaceDouble sep x := by
        intro x
        cases x with
        | nil => rfl
        | cons c x => rw [replaceDouble, if_neg (by simp [hcolon])]
      rw [replaceDouble, if_neg (by simp [hcolon]), hstep]
      exact names_replaceDouble sep rest

theorem collapsed_collapseLoop (pl : Platform) (p : Path) : Collapsed pl.sep p (collapseLoop pl p) := by
  induction p using collapseLoop.induct pl with
  | case1 p hdouble hstop =>
      rw [collapseLoop, dif_pos hdouble, if_pos hstop]
      exact Collapsed.refl _ _
  | case2 p hdouble hstop ih =>
      rw [collapseLoop, dif_pos hdouble, if_neg hstop]
      exact (collapsed_replaceDouble (sep_ne_colon pl) p).trans (sep_ne_colon pl) ih
  | case3 p hdouble =>
      rw [collapseLoop, dif_neg hdouble]
      exact Collapsed.refl _ _

/-- A path of a network share. -/
def Network (pl : Platform) (p : Path) : Prop := pl = .windows ∧ startsNetwork p = true

theorem startsNetwork_iff (p : Path) : startsNetwork p = true ↔ p[0]? = some '\\' ∧ p[1]? = some '\\' := by
  rcases p with _ | ⟨a, _ | ⟨b, rest⟩⟩ <;> simp [startsNetwork]

/-- The loop ends without a doubled separator, but for a path of a network share. -/
theorem hasDouble_collapseLoop {pl : Platform} {p : Path} (hp : ¬Network pl p) :
    hasDouble pl.sep (collapseLoop pl p) = false := by
  induction p using collapseLoop.induct pl with
  | case1 p hdouble hstop =>
      simp only [Bool.and_eq_true, beq_iff_eq] at hstop
      exact absurd ⟨hstop.1.2, hstop.1.1⟩ hp
  | case2 p hdouble hstop ih =>
      rw [collapseLoop, dif_pos hdouble, if_neg hstop]
      refine ih fun hnet => hp ⟨hnet.1, ?_⟩
      obtain ⟨rfl, hnet⟩ := hnet
      have hkeep := collapsed_replaceDouble (sep_ne_colon .windows) p
      rw [startsNetwork_iff] at hnet ⊢
      by_contra hfirst
      have hsecond := hkeep.second hfirst
      exact hfirst ⟨hkeep.first.symm.trans hnet.1, hsecond.symm.trans hnet.2⟩
  | case3 p hdouble =>
      rw [collapseLoop, dif_neg hdouble]
      exact Bool.eq_false_iff.mpr hdouble

theorem collapsed_collapseSeparators (pl : Platform) (p : Path) :
    Collapsed pl.sep (normalizeSeparators pl p) (collapseSeparators pl p) :=
  collapsed_collapseLoop pl _

theorem normal_collapseSeparators (pl : Platform) (p : Path) : Normal pl (collapseSeparators pl p) :=
  fun c hc => normal_normalizeSeparators pl p c (((collapsed_collapseSeparators pl p).chars c).mp hc)

/-- A path with the separators of the platform, none of them doubled, is left as it is. -/
theorem collapseSeparators_of_single {pl : Platform} {p : Path} (hnormal : Normal pl p)
    (hsingle : hasDouble pl.sep p = false) : collapseSeparators pl p = p := by
  rw [collapseSeparators, normalizeSeparators_of_normal hnormal, collapseLoop,
    dif_neg (Bool.eq_false_iff.mp hsingle)]

/-! ### The beginning of a path -/

/-- A drive in front. -/
def HasDrive (pl : Platform) (p : Path) : Prop := pl = .windows ∧ p[1]? = some ':'

instance (pl : Platform) (p : Path) : Decidable (HasDrive pl p) := by unfold HasDrive; infer_instance

theorem length_of_second {p : Path} {c : Char} (h : p[1]? = some c) : 2 ≤ p.length :=
  (List.getElem?_eq_some_iff.mp h).1

theorem splitDrive_eq (pl : Platform) (p : Path) :
    splitDrive pl p = if HasDrive pl p then (p.take 2, p.drop 2) else ([], p) := by
  unfold splitDrive
  refine if_congr ?_ rfl rfl
  exact ⟨fun h => ⟨h.1, h.2.2⟩, fun h => ⟨h.1, length_of_second h.2, h.2⟩⟩

theorem head?_eq_first (p : Path) : p.head? = p[0]? := by cases p <;> rfl

/-- A path is absolute where it begins with a separator or with a drive. -/
theorem isAbsolute_iff {pl : Platform} {p : Path} (hp : Normal pl p) :
    isAbsolute pl p = true ↔ p[0]? = some pl.sep ∨ HasDrive pl p := by
  cases pl with
  | posix => simp [isAbsolute, HasDrive, Platform.sep, head?_eq_first]
  | windows =>
      have hslash : p[0]? ≠ some '/' := by
        intro h
        have := hp '/' (List.mem_of_getElem? h) rfl
        exact absurd this (by decide)
      have hnet : startsNetwork p = true → p[0]? = some '\\' := fun h => ((startsNetwork_iff p).mp h).1
      simp only [isAbsolute, HasDrive, Platform.sep, head?_eq_first, hslash, false_or, true_and]
      constructor
      · intro h
        split at h
        case isTrue hdrive => exact .inr hdrive.2
        case isFalse =>
            split at h
            case isTrue hn => exact .inl (hnet hn)
            case isFalse =>
                split at h
                case isTrue hroot => exact .inl hroot
                case isFalse => cases h
      · rintro (hroot | hdrive)
        · split
          · rfl
          · split
            · rfl
            · rfl
        · rw [if_pos ⟨length_of_second hdrive, hdrive⟩]

/-- Two paths that agree in the first two places begin alike. -/
theorem beginning_congr {pl : Platform} {p q : Path} (hp : Normal pl p) (hq : Normal pl q)
    (hfirst : q[0]? = p[0]?) (hsecond : q[1]? = p[1]?) :
    (HasDrive pl q ↔ HasDrive pl p) ∧ isAbsolute pl q = isAbsolute pl p := by
  have hdrive : HasDrive pl q ↔ HasDrive pl p := by rw [HasDrive, HasDrive, hsecond]
  refine ⟨hdrive, Bool.eq_iff_iff.mpr ?_⟩
  rw [isAbsolute_iff hp, isAbsolute_iff hq, hfirst, hdrive]

theorem take_two_eq {p q : Path} (hfirst : q[0]? = p[0]?) (hsecond : q[1]? = p[1]?) :
    q.take 2 = p.take 2 := by
  refine List.ext_getElem? fun i => ?_
  rw [List.getElem?_take, List.getElem?_take]
  rcases i with _ | _ | i
  · simpa using hfirst
  · simpa using hsecond
  · rw [if_neg (by omega), if_neg (by omega)]

end OSPath

end EZLanguage
