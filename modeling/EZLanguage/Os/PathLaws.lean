import EZLanguage.Os.Path

/-!
# The laws of paths

`normalize` gives a path that is read back as it was put together: its drive, its root and the names on its
stack. From this the laws follow, and the places where they fail: a network share loses its prefix, a name
with a colon at its second place passes for a drive, and a name with its only dot in front has neither a
stem nor an extension.
-/

namespace EZLanguage

namespace OSPath

/-! ### `normalize` in parts -/

def drive (pl : Platform) (p : Path) : Path := if HasDrive pl p then p.take 2 else []

def behindDrive (pl : Platform) (p : Path) : Path := if HasDrive pl p then p.drop 2 else p

theorem drive_append (pl : Platform) (p : Path) : drive pl p ++ behindDrive pl p = p := by
  unfold drive behindDrive
  split
  · exact List.take_append_drop 2 p
  · exact List.nil_append p

/-- A path put together from its parts. -/
def render (pl : Platform) (isAbs : Bool) (front : Path) (stack : List Path) : Path :=
  if isAbs then front ++ pl.sep :: joinWith pl.sep stack
  else if joinWith pl.sep stack = [] then dot
  else front ++ joinWith pl.sep stack

theorem normalize_eq (pl : Platform) (p : Path) :
    normalize pl p = render pl (isAbsolute pl (collapseSeparators pl p)) (drive pl (collapseSeparators pl p))
      (resolve (isAbsolute pl (collapseSeparators pl p))
        (splitAt pl.sep (behindDrive pl (collapseSeparators pl p)))) := by
  have hparts : splitDrive pl (collapseSeparators pl p) =
      (drive pl (collapseSeparators pl p), behindDrive pl (collapseSeparators pl p)) := by
    rw [splitDrive_eq, drive, behindDrive]
    split <;> rfl
  unfold normalize
  simp only [hparts]
  generalize collapseSeparators pl p = q
  by_cases hq : q = []
  · subst hq
    rw [if_pos rfl]
    cases pl <;> rfl
  · rw [if_neg hq]
    unfold render resolve
    split
    case isTrue =>
        split
        case isTrue hjoined => rw [hjoined]
        case isFalse => rfl
    case isFalse => rfl

/-! ### Where a path leads -/

/-- Where a path leads from a directory: the drive and the root are left behind first. -/
def locate (pl : Platform) (p : Path) (base : List Path) : List Path :=
  (splitAt pl.sep (behindDrive pl p)).foldl follow (if isAbsolute pl p then [] else base)

/-- Empty segments lead nowhere. -/
theorem foldl_follow_filter (segs base : List Path) :
    (segs.filter (· ≠ [])).foldl follow base = segs.foldl follow base := by
  induction segs generalizing base with
  | nil => rfl
  | cons s segs ih =>
      rw [List.filter_cons]
      by_cases hs : s = []
      · rw [if_neg (by simpa using hs), ih, List.foldl_cons, follow, if_pos (.inl hs)]
      · rw [if_pos (by simpa using hs), List.foldl_cons, ih, List.foldl_cons]

theorem locate_names (pl : Platform) (p : Path) (base : List Path) :
    locate pl p base =
      (names pl.sep (behindDrive pl p)).foldl follow (if isAbsolute pl p then [] else base) :=
  (foldl_follow_filter _ _).symm

/-- What `normalize` reads of a path is the same after the collapse. -/
theorem collapsed_beginning {pl : Platform} {p : Path} (hnet : ¬Network pl (normalizeSeparators pl p)) :
    drive pl (collapseSeparators pl p) = drive pl (normalizeSeparators pl p) ∧
      isAbsolute pl (collapseSeparators pl p) = isAbsolute pl (normalizeSeparators pl p) ∧
      names pl.sep (behindDrive pl (collapseSeparators pl p)) =
        names pl.sep (behindDrive pl (normalizeSeparators pl p)) := by
  have hkeep := collapsed_collapseSeparators pl p
  have hp := normal_normalizeSeparators pl p
  have hq := normal_collapseSeparators pl p
  generalize collapseSeparators pl p = q at *
  generalize normalizeSeparators pl p = n at *
  cases pl with
  | posix =>
      have hdrive : ∀ x, ¬HasDrive .posix x := fun x h => by cases h.1
      refine ⟨by rw [drive, drive, if_neg (hdrive q), if_neg (hdrive n)], ?_, ?_⟩
      · rw [Bool.eq_iff_iff, isAbsolute_iff hp, isAbsolute_iff hq, hkeep.first]
        simp only [hdrive]
      · rw [behindDrive, behindDrive, if_neg (hdrive q), if_neg (hdrive n)]
        exact hkeep.segments
  | windows =>
      have hsecond : q[1]? = n[1]? :=
        hkeep.second fun h => hnet ⟨rfl, (startsNetwork_iff n).mpr h⟩
      obtain ⟨hdrive, habs⟩ := beginning_congr hp hq hkeep.first hsecond
      refine ⟨?_, habs, ?_⟩
      · unfold drive
        rw [take_two_eq hkeep.first hsecond]
        exact if_congr hdrive rfl rfl
      · by_cases h : HasDrive .windows n
        · rw [behindDrive, behindDrive, if_pos h, if_pos (hdrive.mpr h)]
          exact hkeep.behindDrive h.2
        · rw [behindDrive, behindDrive, if_neg h, if_neg fun hx => h (hdrive.mp hx)]
          exact hkeep.segments

theorem locate_collapse {pl : Platform} {p : Path} (hnet : ¬Network pl (normalizeSeparators pl p)) :
    locate pl (collapseSeparators pl p) = locate pl (normalizeSeparators pl p) := by
  obtain ⟨-, habs, hnames⟩ := collapsed_beginning hnet
  funext base
  rw [locate_names, locate_names, habs, hnames]

/-! ### The stack as a text -/

/-- Segments as they stand between single separators. -/
def Clean (sep : Char) (stack : List Path) : Prop := ∀ s ∈ stack, s ≠ [] ∧ sep ∉ s

theorem hasDouble_cons_of_ne {sep c : Char} (hc : c ≠ sep) (p : Path) :
    hasDouble sep (c :: p) = hasDouble sep p := by
  cases p with
  | nil => rfl
  | cons d p => rw [hasDouble, beq_false_of_ne hc, Bool.false_and, Bool.false_or]

theorem hasDouble_sep_cons {sep : Char} {p : Path} (hp : p[0]? ≠ some sep) :
    hasDouble sep (sep :: p) = hasDouble sep p := by
  cases p with
  | nil => rfl
  | cons d p =>
      have hd : d ≠ sep := fun h => hp (congrArg some h)
      rw [hasDouble, beq_false_of_ne hd, Bool.and_false, Bool.false_or]

theorem hasDouble_append {sep : Char} {s : Path} (hs : sep ∉ s) (p : Path) :
    hasDouble sep (s ++ p) = hasDouble sep p := by
  induction s with
  | nil => rfl
  | cons c s ih =>
      have hc : c ≠ sep := fun h => hs (h ▸ List.mem_cons_self)
      rw [List.cons_append, hasDouble_cons_of_ne hc, ih fun h => hs (List.mem_cons_of_mem c h)]

theorem hasDouble_of_not_mem {sep : Char} {s : Path} (hs : sep ∉ s) : hasDouble sep s = false := by
  rw [← List.append_nil s, hasDouble_append hs]
  rfl

theorem Clean.first {sep : Char} {stack : List Path} (h : Clean sep stack) :
    (joinWith sep stack)[0]? ≠ some sep := by
  cases stack with
  | nil => exact fun h => by cases h
  | cons s stack =>
      obtain ⟨hne, hsep⟩ := h s List.mem_cons_self
      obtain ⟨c, s, rfl⟩ := List.exists_cons_of_ne_nil hne
      have hc : c ≠ sep := fun h => hsep (h ▸ List.mem_cons_self)
      cases stack <;> exact fun h => hc (Option.some.inj h)

theorem Clean.single {sep : Char} {stack : List Path} (h : Clean sep stack) :
    hasDouble sep (joinWith sep stack) = false := by
  induction stack with
  | nil => rfl
  | cons s stack ih =>
      have hsep := (h s List.mem_cons_self).2
      have hrest : Clean sep stack := fun t ht => h t (List.mem_cons_of_mem s ht)
      cases stack with
      | nil => exact hasDouble_of_not_mem hsep
      | cons t stack => rw [joinWith, hasDouble_append hsep, hasDouble_sep_cons hrest.first, ih hrest]

theorem Clean.splitAt_joinWith {sep : Char} {stack : List Path} (h : Clean sep stack) :
    (splitAt sep (joinWith sep stack)).filter (· ≠ []) = stack := by
  cases stack with
  | nil => rfl
  | cons s stack =>
      rw [OSPath.splitAt_joinWith (List.cons_ne_nil s stack) fun t ht => (h t ht).2]
      exact List.filter_eq_self.mpr fun t ht => by simpa using (h t ht).1

theorem Clean.joinWith_eq_nil {sep : Char} {stack : List Path} (h : Clean sep stack) :
    joinWith sep stack = [] ↔ stack = [] := by
  cases stack with
  | nil => simp [joinWith]
  | cons s stack =>
      have hne := (h s List.mem_cons_self).1
      cases stack <;> simp [joinWith, hne]

theorem mem_joinWith {sep c : Char} {stack : List Path} (hc : c ∈ joinWith sep stack) :
    c = sep ∨ ∃ s ∈ stack, c ∈ s := by
  induction stack with
  | nil => cases hc
  | cons s stack ih =>
      cases stack with
      | nil => exact .inr ⟨s, List.mem_cons_self, hc⟩
      | cons t stack =>
          rw [joinWith, List.mem_append, List.mem_cons] at hc
          rcases hc with hc | rfl | hc
          · exact .inr ⟨s, List.mem_cons_self, hc⟩
          · exact .inl rfl
          · rcases ih hc with rfl | ⟨u, hu, hcu⟩
            · exact .inl rfl
            · exact .inr ⟨u, List.mem_cons_of_mem s hu, hcu⟩

/-- Empty segments do not reach the stack. -/
theorem resolve_filter (isAbs : Bool) (segs : List Path) :
    resolve isAbs (segs.filter (· ≠ [])) = resolve isAbs segs := by
  have hfold : ∀ (segs stack : List Path), (segs.filter (· ≠ [])).foldl (resolveSegment isAbs) stack =
      segs.foldl (resolveSegment isAbs) stack := by
    intro segs
    induction segs with
    | nil => exact fun _ => rfl
    | cons s segs ih =>
        intro stack
        rw [List.filter_cons]
        by_cases hs : s = []
        · rw [if_neg (by simpa using hs), ih, List.foldl_cons, resolveSegment, if_pos (.inl hs)]
        · rw [if_pos (by simpa using hs), List.foldl_cons, ih, List.foldl_cons]
  exact hfold segs []

theorem mem_resolve {isAbs : Bool} {segs : List Path} {s : Path} (hs : s ∈ resolve isAbs segs) :
    s ∈ segs := by
  have hfold : ∀ (segs stack : List Path), s ∈ segs.foldl (resolveSegment isAbs) stack →
      s ∈ stack ∨ s ∈ segs := by
    intro segs
    induction segs with
    | nil => exact fun _ h => .inl h
    | cons seg segs ih =>
        intro stack h
        rcases ih _ h with h | h
        · have hstep : s ∈ stack ∨ s = seg := by
            unfold resolveSegment at h
            split at h
            · exact .inl h
            · split at h
              · split at h
                · exact .inl (List.mem_of_mem_dropLast h)
                · split at h
                  · exact .inl h
                  · simpa using h
              · simpa using h
          exact hstep.elim .inl fun h => .inr (by rw [h]; exact List.mem_cons_self)
        · exact .inr (List.mem_cons_of_mem seg h)
  exact (hfold segs [] hs).resolve_left List.not_mem_nil

theorem Stacked.ne_nil {isAbs : Bool} {stack : List Path} (h : Stacked isAbs stack) {s : Path}
    (hs : s ∈ stack) : s ≠ [] ∧ s ≠ dot := by
  obtain ⟨-, k, names, rfl, hnames⟩ := h
  rcases List.mem_append.mp hs with hs | hs
  · rw [List.eq_of_mem_replicate hs]
    exact ⟨by decide, by decide⟩
  · exact ⟨(hnames s hs).1, (hnames s hs).2.1⟩

/-- The segments that `normalize` leaves. -/
theorem resolve_clean (sep : Char) (isAbs : Bool) (p : Path) : Clean sep (resolve isAbs (splitAt sep p)) :=
  fun s hs => ⟨((resolve_stacked isAbs _).ne_nil hs).1, not_mem_splitAt sep p s (mem_resolve hs)⟩

/-! ### A path that is put together is read back -/

/-- The parts of a path that `render` shows as they are. -/
structure Standing (pl : Platform) (isAbs : Bool) (front : Path) (stack : List Path) : Prop where
  stacked : Stacked isAbs stack
  clean : Clean pl.sep stack
  normal : Normal pl (joinWith pl.sep stack)
  front_eq : front = [] ∨
    pl = .windows ∧ isAbs = true ∧ Normal pl front ∧ ∃ letter, front = [letter, ':']
  noDrive : pl = .windows → front = [] →
    (if isAbs then (joinWith pl.sep stack)[0]? else (joinWith pl.sep stack)[1]?) ≠ some ':'

theorem normal_cons_sep {pl : Platform} {p : Path} (hp : Normal pl p) : Normal pl (pl.sep :: p) := by
  intro c hc hsep
  rcases List.mem_cons.mp hc with rfl | hc
  · rfl
  · exact hp c hc hsep

theorem normal_append {pl : Platform} {p q : Path} (hp : Normal pl p) (hq : Normal pl q) :
    Normal pl (p ++ q) :=
  fun c hc hsep => (List.mem_append.mp hc).elim (fun h => hp c h hsep) fun h => hq c h hsep

theorem normal_dot (pl : Platform) : Normal pl dot := by
  intro c hc hsep
  obtain rfl := List.mem_singleton.mp hc
  exact absurd hsep (by decide)

theorem resolve_joinWith {sep : Char} {isAbs : Bool} {stack : List Path} (hstacked : Stacked isAbs stack)
    (hclean : Clean sep stack) : resolve isAbs (splitAt sep (joinWith sep stack)) = stack := by
  rw [← resolve_filter, hclean.splitAt_joinWith, resolve_self hstacked]

theorem follow_joinWith {sep : Char} {stack : List Path} (hclean : Clean sep stack) (base : List Path) :
    (splitAt sep (joinWith sep stack)).foldl follow base = stack.foldl follow base := by
  rw [← foldl_follow_filter, hclean.splitAt_joinWith]

/-- What is read back from a path that was put together. -/
structure ReadBack (pl : Platform) (isAbs : Bool) (front : Path) (stack : List Path) (r : Path) : Prop where
  normal : Normal pl r
  single : hasDouble pl.sep r = false
  drive : OSPath.drive pl r = front
  absolute : isAbsolute pl r = isAbs
  resolved : resolve isAbs (splitAt pl.sep (behindDrive pl r)) = stack
  leads : ∀ base, (splitAt pl.sep (behindDrive pl r)).foldl follow base = stack.foldl follow base

section

variable {pl : Platform} {front : Path} {stack : List Path}

theorem splitAt_sep_cons (sep : Char) (p : Path) : splitAt sep (sep :: p) = [] :: splitAt sep p := by
  rw [splitAt, if_pos rfl]

/-- A path with a drive. -/
theorem Standing.readBack_drive (h : Standing pl true front stack) (hfront : front ≠ []) :
    ReadBack pl true front stack (render pl true front stack) := by
  obtain ⟨hpl, -, hnormal, letter, rfl⟩ := h.front_eq.resolve_left hfront
  have hr : Normal pl (render pl true [letter, ':'] stack) :=
    normal_append hnormal (normal_cons_sep h.normal)
  have hdrive : HasDrive pl (render pl true [letter, ':'] stack) := ⟨hpl, rfl⟩
  have hbehind : behindDrive pl (render pl true [letter, ':'] stack) =
      pl.sep :: joinWith pl.sep stack := if_pos hdrive
  have hnil : ∀ segs, resolve true ([] :: segs) = resolve true segs := fun _ => rfl
  have hcolon : ':' ≠ pl.sep := sep_ne_colon pl
  refine ⟨hr, ?_, if_pos hdrive, (isAbsolute_iff hr).mpr (.inr hdrive), ?_, fun base => ?_⟩
  · have htail : hasDouble pl.sep (':' :: pl.sep :: joinWith pl.sep stack) = false := by
      rw [hasDouble_cons_of_ne hcolon, hasDouble_sep_cons h.clean.first]
      exact h.clean.single
    change hasDouble pl.sep (letter :: ':' :: pl.sep :: joinWith pl.sep stack) = false
    rw [hasDouble, htail, Bool.or_false, beq_false_of_ne hcolon, Bool.and_false]
  · rw [hbehind, splitAt_sep_cons, hnil]
    exact resolve_joinWith h.stacked h.clean
  · rw [hbehind, splitAt_sep_cons, List.foldl_cons]
    exact follow_joinWith h.clean base

theorem Standing.not_hasDrive {isAbs : Bool} (h : Standing pl isAbs [] stack) :
    ¬HasDrive pl (render pl isAbs [] stack) := by
  rintro ⟨rfl, hcolon⟩
  have hno := h.noDrive rfl rfl
  cases isAbs with
  | true => exact hno hcolon
  | false =>
      rw [render, if_neg Bool.false_ne_true] at hcolon
      split at hcolon
      · cases hcolon
      · exact hno hcolon

/-- A path from the root. -/
theorem Standing.readBack_root (h : Standing pl true [] stack) :
    ReadBack pl true [] stack (render pl true [] stack) := by
  have hdrive := h.not_hasDrive
  have hrender : render pl true [] stack = pl.sep :: joinWith pl.sep stack := rfl
  have hr : Normal pl (render pl true [] stack) := normal_cons_sep h.normal
  have hbehind : behindDrive pl (render pl true [] stack) = pl.sep :: joinWith pl.sep stack := if_neg hdrive
  have hnil : ∀ segs, resolve true ([] :: segs) = resolve true segs := fun _ => rfl
  refine ⟨hr, ?_, if_neg hdrive, (isAbsolute_iff hr).mpr (.inl rfl), ?_, fun base => ?_⟩
  · rw [hrender, hasDouble_sep_cons h.clean.first]
    exact h.clean.single
  · rw [hbehind, splitAt_sep_cons, hnil]
    exact resolve_joinWith h.stacked h.clean
  · rw [hbehind, splitAt_sep_cons, List.foldl_cons]
    exact follow_joinWith h.clean base

/-- A relative path. -/
theorem Standing.readBack_relative (h : Standing pl false [] stack) :
    ReadBack pl false [] stack (render pl false [] stack) := by
  have hdrive := h.not_hasDrive
  have hbehind : behindDrive pl (render pl false [] stack) = render pl false [] stack := if_neg hdrive
  have habs : ∀ {r : Path}, Normal pl r → ¬HasDrive pl r → r[0]? ≠ some pl.sep →
      isAbsolute pl r = false := by
    intro r hr hno hfirst
    rw [← Bool.not_eq_true, isAbsolute_iff hr]
    exact fun hx => hx.elim hfirst hno
  by_cases hjoined : joinWith pl.sep stack = []
  · obtain rfl := h.clean.joinWith_eq_nil.mp hjoined
    have hrender : render pl false [] [] = dot := rfl
    have hsplit : splitAt pl.sep dot = [dot] :=
      splitAt_of_not_mem (by cases pl <;> decide)
    rw [hrender] at hdrive hbehind ⊢
    refine ⟨normal_dot pl, rfl, if_neg hdrive, habs (normal_dot pl) hdrive ?_, ?_, fun base => ?_⟩
    · cases pl <;> decide
    · rw [hbehind, hsplit]
      rfl
    · rw [hbehind, hsplit]
      rfl
  · have hrender : render pl false [] stack = joinWith pl.sep stack := by
      rw [render, if_neg Bool.false_ne_true, if_neg hjoined, List.nil_append]
    rw [hrender] at hdrive hbehind ⊢
    refine ⟨h.normal, h.clean.single, if_neg hdrive, habs h.normal hdrive h.clean.first, ?_, fun base => ?_⟩
    · rw [hbehind]
      exact resolve_joinWith h.stacked h.clean
    · rw [hbehind]
      exact follow_joinWith h.clean base

theorem Standing.readBack {isAbs : Bool} (h : Standing pl isAbs front stack) :
    ReadBack pl isAbs front stack (render pl isAbs front stack) := by
  cases isAbs with
  | true =>
      by_cases hfront : front = []
      · subst hfront
        exact h.readBack_root
      · exact h.readBack_drive hfront
  | false =>
      have hfront : front = [] := h.front_eq.resolve_right fun hx => absurd hx.2.1 Bool.false_ne_true
      subst hfront
      exact h.readBack_relative

end

/-- A path that is read back is in its normal form. -/
theorem ReadBack.normalize_eq {pl : Platform} {isAbs : Bool} {front : Path} {stack : List Path} {r : Path}
    (h : ReadBack pl isAbs front stack r) : normalize pl r = render pl isAbs front stack := by
  rw [OSPath.normalize_eq, collapseSeparators_of_single h.normal h.single, h.absolute, h.drive, h.resolved]

/-! ### A name that looks like a drive -/

/-- The first name of the place a path leads to, seen from where the path begins. -/
def FirstName (pl : Platform) (p name : Path) : Prop :=
  ∃ names, ∀ base, locate pl p base = (if isAbsolute pl p then [] else base) ++ name :: names

/-- The path has no drive, but the name where its way begins reads like one. -/
def Disguised (pl : Platform) (p : Path) : Prop :=
  pl = .windows ∧ ¬HasDrive pl p ∧
    ∃ name, FirstName pl p name ∧ (if isAbsolute pl p then name[0]? else name[1]?) = some ':'

theorem follow_names {names : List Path} (hnames : ∀ s ∈ names, Proper s) (base : List Path) :
    names.foldl follow base = base ++ names := by
  induction names generalizing base with
  | nil => exact (List.append_nil base).symm
  | cons name names ih =>
      obtain ⟨hname, hrest⟩ := List.forall_mem_cons.mp hnames
      rw [List.foldl_cons, follow_proper hname, ih hrest, List.append_assoc, List.singleton_append]

theorem follow_ups (k : Nat) (base : List Path) :
    (List.replicate k dotdot).foldl follow base = base.take (base.length - k) := by
  induction k generalizing base with
  | zero => rw [Nat.sub_zero, List.take_length]; rfl
  | succ k ih =>
      rw [List.replicate_succ, List.foldl_cons, follow_dotdot, ih, List.dropLast_eq_take, List.take_take,
        List.length_take]
      congr 1
      omega

/-- Only a stack of names leads down from every directory. -/
theorem Stacked.follow_iff {isAbs : Bool} {stack : List Path} (h : Stacked isAbs stack) {names : List Path}
    (hne : names ≠ []) :
    (∀ base, stack.foldl follow (if isAbs then [] else base) = (if isAbs then [] else base) ++ names) ↔
      stack = names ∧ ∀ s ∈ stack, Proper s := by
  constructor
  · intro hfollow
    cases isAbs with
    | true =>
        have hproper := h.proper rfl
        have hbase := hfollow []
        rw [follow_names hproper] at hbase
        exact ⟨by simpa using hbase, hproper⟩
    | false =>
        obtain ⟨-, k, tail, rfl, hproper⟩ := h
        have hdown : ∀ base : List Path, base.take (base.length - k) ++ tail = base ++ names := by
          intro base
          have hbase := hfollow base
          rwa [if_neg Bool.false_ne_true, List.foldl_append, follow_ups, follow_names hproper] at hbase
        obtain rfl : tail = names := by simpa using hdown []
        have hzero : k = 0 := by
          have hlength := congrArg List.length (hdown [dot])
          simp at hlength
          omega
        subst hzero
        exact ⟨rfl, hproper⟩
  · rintro ⟨rfl, hproper⟩ base
    exact follow_names hproper _

theorem joinWith_first (sep : Char) {s : Path} (hs : s ≠ []) (stack : List Path) :
    (joinWith sep (s :: stack))[0]? = s[0]? := by
  obtain ⟨c, s, rfl⟩ := List.exists_cons_of_ne_nil hs
  cases stack <;> rfl

theorem joinWith_second {sep c : Char} (hc : c ≠ sep) {s : Path} (hs : s ≠ []) (stack : List Path) :
    (joinWith sep (s :: stack))[1]? = some c ↔ s[1]? = some c := by
  rcases s with _ | ⟨a, _ | ⟨b, s⟩⟩
  · exact absurd rfl hs
  · cases stack with
    | nil => rfl
    | cons t stack => exact ⟨fun h => absurd (Option.some.inj h).symm hc, fun h => by cases h⟩
  · cases stack <;> rfl

/-- The text of the stack begins like a drive exactly where its first name does. -/
theorem Stacked.colon_iff {sep : Char} {isAbs : Bool} {stack : List Path} (h : Stacked isAbs stack)
    (hclean : Clean sep stack) (hsep : ':' ≠ sep) :
    (if isAbs then (joinWith sep stack)[0]? else (joinWith sep stack)[1]?) = some ':' ↔
      ∃ name, (∃ names, ∀ base, stack.foldl follow (if isAbs then [] else base) =
        (if isAbs then [] else base) ++ name :: names) ∧
          (if isAbs then name[0]? else name[1]?) = some ':' := by
  have hjoin : ∀ {s : Path} {rest : List Path}, stack = s :: rest →
      ((if isAbs then (joinWith sep stack)[0]? else (joinWith sep stack)[1]?) = some ':' ↔
        (if isAbs then s[0]? else s[1]?) = some ':') := by
    rintro s rest rfl
    have hs := (hclean s List.mem_cons_self).1
    cases isAbs with
    | true =>
        simp only [if_true]
        rw [joinWith_first sep hs]
    | false =>
        simp only [Bool.false_eq_true, if_false]
        exact joinWith_second hsep hs rest
  constructor
  · intro hcolon
    cases hstack : stack with
    | nil =>
        rw [hstack] at hcolon
        cases isAbs <;> cases hcolon
    | cons s rest =>
        have hs := (hjoin hstack).mp hcolon
        have hproper : ∀ t ∈ stack, Proper t := by
          cases isAbs with
          | true => exact h.proper rfl
          | false =>
              obtain ⟨-, k, tail, hup, htail⟩ := h
              cases k with
              | zero => exact hup ▸ htail
              | succ k =>
                  rw [hstack, List.replicate_succ, List.cons_append, List.cons.injEq] at hup
                  rw [hup.1] at hs
                  cases hs
        refine ⟨s, ⟨rest, ?_⟩, hs⟩
        rw [← hstack]
        exact (h.follow_iff (hstack ▸ List.cons_ne_nil s rest)).mpr ⟨rfl, hproper⟩
  · rintro ⟨name, ⟨names, hfollow⟩, hname⟩
    have hstack := ((h.follow_iff (List.cons_ne_nil name names)).mp hfollow).1
    exact (hjoin hstack).mpr hname

/-! ### The laws -/

/-- One pass of the loop of `collapseSeparators`, if there is one. -/
def collapseTurn (pl : Platform) (p : Path) : Option Path :=
  if hasDouble pl.sep p then
    if startsNetwork p && pl == .windows && !hasDouble '\\' (p.drop 2) then none
    else some (replaceDouble pl.sep p)
  else none

/-- The loop ends with `q`, after finitely many passes. -/
inductive CollapseRun (pl : Platform) : Path → Path → Prop where
  | done {p : Path} : collapseTurn pl p = none → CollapseRun pl p p
  | turn {p q r : Path} : collapseTurn pl p = some q → CollapseRun pl q r → CollapseRun pl p r

theorem collapseRun_collapseLoop (pl : Platform) (p : Path) : CollapseRun pl p (collapseLoop pl p) := by
  induction p using collapseLoop.induct pl with
  | case1 p hdouble hstop =>
      rw [collapseLoop, dif_pos hdouble, if_pos hstop]
      exact .done (by rw [collapseTurn, if_pos hdouble, if_pos hstop])
  | case2 p hdouble hstop ih =>
      rw [collapseLoop, dif_pos hdouble, if_neg hstop]
      exact .turn (by rw [collapseTurn, if_pos hdouble, if_neg hstop]) ih
  | case3 p hdouble =>
      rw [collapseLoop, dif_neg hdouble]
      exact .done (by rw [collapseTurn, if_neg hdouble])

/-- A normal form: single separators between segments that are no dots, steps up at the beginning of a
relative path only. -/
def InNormalForm (pl : Platform) (r : Path) : Prop :=
  ∃ stack, Stacked (isAbsolute pl r) stack ∧ Clean pl.sep stack ∧
    r = render pl (isAbsolute pl r) (drive pl r) stack

/-- The laws of a path. What a path says is read with the separators of the platform. -/
structure Laws (pl : Platform) (p : Path) : Prop where
  settles : CollapseRun pl (normalizeSeparators pl p) (collapseSeparators pl p)
  idempotent : normalize pl (normalize pl p) = normalize pl p
  form : InNormalForm pl (normalize pl p)
  network : Network pl (normalize pl p) ↔ Network pl (normalizeSeparators pl p)
  front : drive pl (normalize pl p) = drive pl (normalizeSeparators pl p)
  absolute : isAbsolute pl (normalize pl p) = isAbsolute pl (normalizeSeparators pl p)
  place : ∀ base, locate pl (normalize pl p) base = locate pl (normalizeSeparators pl p) base
  name : stem pl p ++ extname pl p = basename pl p
  parent : (∀ c, p.getLast? = some c → isSeparator c = false) →
    normalize pl (join pl (dirname pl p) (basename pl p)) = normalize pl p
  discards : isAbsolute pl (normalizeSeparators pl p) = true → ∀ first before after,
    joinAll pl (first :: before ++ p :: after) = joinAll pl (p :: after)

/-- The segment behind the last separator. -/
def lastSegment (pl : Platform) (p : Path) : Path := (splitAt pl.sep p).getLastD []

/-- No network share, no name that passes for a drive. -/
structure Plain (pl : Platform) (p : Path) : Prop where
  network : ¬Network pl p
  beginning : ¬Disguised pl p
  ending : ¬(pl.sep ∈ p ∧ HasDrive pl (lastSegment pl p))

theorem lastSegment_collapse (pl : Platform) (p : Path) :
    lastSegment pl (collapseSeparators pl p) = lastSegment pl (normalizeSeparators pl p) := by
  rw [lastSegment, lastSegment, List.getLastD_eq_getLast?, List.getLastD_eq_getLast?,
    (collapsed_collapseSeparators pl p).lastSegment]

theorem basename_eq (pl : Platform) (p : Path) :
    basename pl p = lastSegment pl (normalizeSeparators pl p) :=
  lastSegment_collapse pl p

/-! ### Normal forms -/

theorem drive_cases {pl : Platform} {p : Path} (hp : Normal pl p) :
    drive pl p = [] ∧ ¬HasDrive pl p ∨
      pl = .windows ∧ isAbsolute pl p = true ∧ Normal pl (drive pl p) ∧
        ∃ letter, drive pl p = [letter, ':'] := by
  by_cases h : HasDrive pl p
  · refine .inr ⟨h.1, (isAbsolute_iff hp).mpr (.inr h), ?_, ?_⟩
    · intro c hc
      rw [drive, if_pos h] at hc
      exact hp c (List.mem_of_mem_take hc)
    · rw [drive, if_pos h]
      rcases p with _ | ⟨a, _ | ⟨b, rest⟩⟩
      · cases h.2
      · cases h.2
      · obtain rfl : b = ':' := Option.some.inj h.2
        exact ⟨a, rfl⟩
  · exact .inl ⟨if_neg h, h⟩

/-- The stack of `normalize`. -/
def stackOf (pl : Platform) (p : Path) : List Path :=
  resolve (isAbsolute pl p) (splitAt pl.sep (behindDrive pl p))

theorem stackOf_leads (pl : Platform) (p : Path) (base : List Path) :
    (stackOf pl p).foldl follow (if isAbsolute pl p then [] else base) = locate pl p base :=
  follow_resolve _ fun habs => if_pos habs

theorem normal_stackOf {pl : Platform} {p : Path} (hp : Normal pl p) :
    Normal pl (joinWith pl.sep (stackOf pl p)) := by
  intro c hc hsep
  rcases mem_joinWith hc with rfl | ⟨s, hs, hcs⟩
  · rfl
  · have hmem : c ∈ behindDrive pl p := mem_of_mem_splitAt (mem_resolve hs) hcs
    refine hp c ?_ hsep
    rw [← drive_append pl p]
    exact List.mem_append_right _ hmem

/-- The text of the stack begins like a drive where the place begins with such a name. -/
theorem stackOf_colon {pl : Platform} {p : Path} (hnet : ¬Network pl (normalizeSeparators pl p)) :
    (if isAbsolute pl (collapseSeparators pl p) then
        (joinWith pl.sep (stackOf pl (collapseSeparators pl p)))[0]?
      else (joinWith pl.sep (stackOf pl (collapseSeparators pl p)))[1]?) = some ':' ↔
      ∃ name, FirstName pl (normalizeSeparators pl p) name ∧
        (if isAbsolute pl (normalizeSeparators pl p) then name[0]? else name[1]?) = some ':' := by
  have hcolon := (resolve_stacked (isAbsolute pl (collapseSeparators pl p))
    (splitAt pl.sep (behindDrive pl (collapseSeparators pl p)))).colon_iff
      (resolve_clean pl.sep _ _) (sep_ne_colon pl)
  refine hcolon.trans ?_
  have habs := (collapsed_beginning hnet).2.1
  have hplace : ∀ base, (stackOf pl (collapseSeparators pl p)).foldl follow
      (if isAbsolute pl (collapseSeparators pl p) then [] else base) =
        locate pl (normalizeSeparators pl p) base := by
    intro base
    rw [stackOf_leads, locate_collapse hnet]
  unfold FirstName
  rw [← habs]
  simp only [← hplace]
  rfl

theorem standing_of_plain {pl : Platform} {p : Path} (hnet : ¬Network pl (normalizeSeparators pl p))
    (hbeginning : ¬Disguised pl (normalizeSeparators pl p)) :
    Standing pl (isAbsolute pl (collapseSeparators pl p)) (drive pl (collapseSeparators pl p))
      (stackOf pl (collapseSeparators pl p)) where
  stacked := resolve_stacked _ _
  clean := resolve_clean _ _ _
  normal := normal_stackOf (normal_collapseSeparators pl p)
  front_eq := (drive_cases (normal_collapseSeparators pl p)).imp_left fun h => h.1
  noDrive hpl hfront hcolon := by
    refine hbeginning ⟨hpl, fun hdrive => ?_, (stackOf_colon hnet).mp hcolon⟩
    rw [(collapsed_beginning hnet).1] at hfront
    rcases drive_cases (normal_normalizeSeparators pl p) with h | ⟨-, -, -, letter, h⟩
    · exact h.2 hdrive
    · rw [h] at hfront
      cases hfront

theorem normalize_readBack {pl : Platform} {p : Path} (hnet : ¬Network pl (normalizeSeparators pl p))
    (hbeginning : ¬Disguised pl (normalizeSeparators pl p)) :
    ReadBack pl (isAbsolute pl (collapseSeparators pl p)) (drive pl (collapseSeparators pl p))
      (stackOf pl (collapseSeparators pl p)) (normalize pl p) := by
  rw [normalize_eq]
  exact (standing_of_plain hnet hbeginning).readBack

/-- A network share is lost. -/
theorem not_network_normalize (pl : Platform) (p : Path) : ¬Network pl (normalize pl p) := by
  rintro ⟨rfl, hnet⟩
  obtain ⟨hfirst, hsecond⟩ := (startsNetwork_iff _).mp hnet
  have hclean := resolve_clean '\\' (isAbsolute .windows (collapseSeparators .windows p))
    (behindDrive .windows (collapseSeparators .windows p))
  have hjoin := hclean.first
  rw [normalize_eq] at hfirst hsecond
  rcases drive_cases (normal_collapseSeparators .windows p) with hfront | ⟨-, habs, -, letter, hfront⟩
  · rw [hfront.1, render] at hfirst hsecond
    split at hfirst
    case isTrue habs =>
        rw [if_pos habs] at hsecond
        exact hjoin hsecond
    case isFalse habs =>
        split at hfirst
        · exact absurd hfirst (by decide)
        · exact hjoin hfirst
  · rw [hfront, render, if_pos habs] at hsecond
    have hcolon : some ':' = some '\\' := hsecond
    exact absurd hcolon (by decide)

/-! ### Names -/

theorem stem_append_extname (pl : Platform) (p : Path) :
    stem pl p ++ extname pl p = basename pl p ↔ lastDot (basename pl p) ≠ some 0 := by
  rw [stem, extname]
  generalize basename pl p = base
  cases hdot : lastDot base with
  | none => simp
  | some i =>
      cases i with
      | zero =>
          refine ⟨fun h => ?_, fun h => absurd rfl h⟩
          have hbase : base = [] := by simpa using h.symm
          rw [hbase] at hdot
          cases hdot
      | succ i => simp

/-! ### Joining -/

theorem isAbsolute_ne_nil {pl : Platform} {p : Path} (h : isAbsolute pl p = true) : p ≠ [] := by
  rintro rfl
  cases pl <;> cases h

theorem joinPart_absolute {pl : Platform} {part : Path}
    (h : isAbsolute pl (normalizeSeparators pl part) = true) (res : Path) :
    joinPart pl res part = normalizeSeparators pl part := by
  rw [joinPart, if_pos (isAbsolute_ne_nil h), if_pos h]

theorem joinAll_discards {pl : Platform} {p : Path}
    (h : isAbsolute pl (normalizeSeparators pl p) = true) (first : Path) (before after : List Path) :
    joinAll pl (first :: before ++ p :: after) = joinAll pl (p :: after) := by
  rw [List.cons_append, joinAll, joinAll, List.foldl_append, List.foldl_cons, joinPart_absolute h]

/-- A path with single separators is taken apart as it is. -/
theorem normalize_of_single {pl : Platform} {q : Path} (hnormal : Normal pl q)
    (hsingle : hasDouble pl.sep q = false) :
    normalize pl q = render pl (isAbsolute pl q) (drive pl q) (stackOf pl q) := by
  rw [normalize_eq, collapseSeparators_of_single hnormal hsingle]
  rfl

/-- Collapsing first makes no difference. -/
theorem normalize_collapse {pl : Platform} {p : Path} (hnet : ¬Network pl (normalizeSeparators pl p)) :
    normalize pl p = normalize pl (collapseSeparators pl p) := by
  rw [normalize_eq, normalize_of_single (normal_collapseSeparators pl p) (hasDouble_collapseLoop hnet)]
  rfl

/-! ### The parent and the name -/

theorem lastSegment_of_split {pl : Platform} {q b : Path} {init : List Path}
    (hsplit : splitAt pl.sep q = init ++ [b]) : lastSegment pl q = b := by
  rw [lastSegment, hsplit, List.getLastD_eq_getLast?, List.getLast?_concat]
  rfl

theorem joinWith_concat (sep : Char) {init : List Path} (hinit : init ≠ []) (b : Path) :
    joinWith sep (init ++ [b]) = joinWith sep init ++ sep :: b := by
  induction init with
  | nil => exact absurd rfl hinit
  | cons s init ih =>
      cases init with
      | nil => rfl
      | cons t init =>
          rw [List.cons_append, List.cons_append, joinWith, ← List.cons_append, ih (List.cons_ne_nil t init),
            joinWith, List.append_assoc, List.cons_append]

theorem hasDouble_of_append (sep : Char) (p q : Path) : hasDouble sep (p ++ sep :: sep :: q) = true := by
  induction p with
  | nil => simp [hasDouble]
  | cons c p ih =>
      cases p with
      | nil => simp [hasDouble]
      | cons d p =>
          rw [List.cons_append, List.cons_append, hasDouble, ← List.cons_append, ih, Bool.or_true]

/-- A path with a separator, cut at the last one. -/
theorem exists_cut {sep : Char} {q : Path} (hq : sep ∈ q) :
    ∃ init b, init ≠ [] ∧ sep ∉ b ∧ splitAt sep q = init ++ [b] ∧
      q = joinWith sep init ++ sep :: b := by
  rcases List.eq_nil_or_concat (splitAt sep q) with hnil | ⟨init, b, hsplit⟩
  · exact absurd hnil (splitAt_ne_nil sep q)
  · rw [List.concat_eq_append] at hsplit
    have hb : sep ∉ b := not_mem_splitAt sep q b (hsplit ▸ List.mem_append_right _ List.mem_cons_self)
    have hq' := joinWith_splitAt sep q
    rw [hsplit] at hq'
    have hinit : init ≠ [] := by
      rintro rfl
      have hwhole : b = q := hq'
      exact hb (hwhole ▸ hq)
    exact ⟨init, b, hinit, hb, hsplit, by rw [← joinWith_concat sep hinit, hq']⟩

theorem normalizeSeparators_last {pl : Platform} {p : Path}
    (hend : ∀ c, p.getLast? = some c → isSeparator c = false) :
    (normalizeSeparators pl p).getLast? ≠ some pl.sep := by
  rw [normalizeSeparators, List.getLast?_map]
  cases hlast : p.getLast? with
  | none => simp
  | some c =>
      have hc := hend c hlast
      rw [Option.map_some, if_neg (by rw [hc]; exact Bool.false_ne_true)]
      intro h
      rw [Option.some.inj h, isSeparator_sep] at hc
      cases hc

section

variable {pl : Platform} {p q : Path}

theorem isAbsolute_of_hasDrive (hq : Normal pl q) (h : HasDrive pl q) : isAbsolute pl q = true :=
  (isAbsolute_iff hq).mpr (.inr h)

theorem isAbsolute_of_not_mem (hq : Normal pl q) (hsep : pl.sep ∉ q) :
    isAbsolute pl q = true ↔ HasDrive pl q := by
  rw [isAbsolute_iff hq]
  exact or_iff_right fun h => hsep (List.mem_of_getElem? h)

/-- A path without separators, behind a dot. -/
theorem normalize_dot_cons (hnormal : Normal pl q) (hsep : pl.sep ∉ q)
    (habs : isAbsolute pl q = false) : normalize pl ('.' :: pl.sep :: q) = normalize pl q := by
  have hfirst : q[0]? ≠ some pl.sep := fun h => hsep (List.mem_of_getElem? h)
  have hsingle : hasDouble pl.sep q = false := hasDouble_of_not_mem hsep
  have hdotSep : '.' ≠ pl.sep := by cases pl <;> decide
  have hdot : Normal pl ('.' :: pl.sep :: q) := normal_append (normal_dot pl) (normal_cons_sep hnormal)
  have hno : ¬HasDrive pl ('.' :: pl.sep :: q) := fun h =>
    sep_ne_colon pl (Option.some.inj h.2).symm
  have hnoq : ¬HasDrive pl q := fun h => by
    rw [isAbsolute_of_hasDrive hnormal h] at habs
    cases habs
  have habsDot : isAbsolute pl ('.' :: pl.sep :: q) = false := by
    rw [← Bool.not_eq_true, isAbsolute_iff hdot]
    exact fun h => h.elim (fun h => hdotSep (Option.some.inj h)) hno
  have hsplit : splitAt pl.sep ('.' :: pl.sep :: q) = dot :: splitAt pl.sep q :=
    splitAt_append (s := dot) (by cases pl <;> decide) q
  rw [normalize_of_single hdot (by rw [hasDouble_cons_of_ne hdotSep, hasDouble_sep_cons hfirst, hsingle]),
    normalize_of_single hnormal hsingle, stackOf, stackOf, habsDot, habs, drive, drive, if_neg hno,
    if_neg hnoq, behindDrive, behindDrive, if_neg hno, if_neg hnoq, hsplit]
  rfl

/-- The parent and the name put together lead to the path again. -/
theorem normalize_join (hnet : ¬Network pl (normalizeSeparators pl p))
    (hending : ¬(pl.sep ∈ normalizeSeparators pl p ∧
      HasDrive pl (lastSegment pl (normalizeSeparators pl p))))
    (hend : ∀ c, p.getLast? = some c → isSeparator c = false) :
    normalize pl (join pl (dirname pl p) (basename pl p)) = normalize pl p := by
  have hkeep := collapsed_collapseSeparators pl p
  have hnormal := normal_collapseSeparators pl p
  have hsingle : hasDouble pl.sep (collapseSeparators pl p) = false := hasDouble_collapseLoop hnet
  have hlast : (collapseSeparators pl p).getLast? ≠ some pl.sep := by
    rw [hkeep.last]
    exact normalizeSeparators_last hend
  have hp := normalize_collapse hnet
  rw [← lastSegment_collapse, ← hkeep.chars] at hending
  rw [hp, dirname, basename]
  change normalize pl (join pl _ (lastSegment pl (collapseSeparators pl p))) = _
  generalize collapseSeparators pl p = q at *
  dsimp only
  rw [if_neg fun h : 1 < q.length ∧ q.getLast? = some pl.sep => hlast h.2]
  have hjoin : ∀ {first second : Path},
      joinPart pl (normalizeSeparators pl first) second = q → join pl first second = q := by
    intro first second h
    rw [join, joinAll, List.foldl_cons, List.foldl_nil, h, collapseSeparators_of_single hnormal hsingle]
  by_cases hmem : pl.sep ∈ q
  · obtain ⟨init, b, hinit, hb, hsplit, hcut⟩ := exists_cut hmem
    have hq : q ≠ [] := List.ne_nil_of_mem hmem
    have hname : lastSegment pl q = b := lastSegment_of_split hsplit
    have hbNormal : Normal pl b := fun c hc => hnormal c (by rw [hcut]; simp [hc])
    have hbSeparators : normalizeSeparators pl b = b := normalizeSeparators_of_normal hbNormal
    have hbNe : b ≠ [] := by
      rintro rfl
      exact hlast (by rw [hcut, List.getLast?_concat])
    have hbRelative : ¬isAbsolute pl b = true := by
      rw [isAbsolute_of_not_mem hbNormal hb, ← hname]
      exact fun h => hending ⟨hmem, h⟩
    have hlength : ¬(splitAt pl.sep q).length ≤ 1 := by
      have := List.length_pos_iff.mpr hinit
      rw [hsplit, List.length_append, List.length_singleton]
      omega
    rw [if_neg hq, if_neg hlength, hsplit, List.dropLast_concat, hname]
    congr 1
    by_cases hres : joinWith pl.sep init = []
    · rw [hres] at hcut ⊢
      have habs : isAbsolute pl q = true := (isAbsolute_iff hnormal).mpr (.inl (by rw [hcut]; rfl))
      rw [if_pos ⟨rfl, habs⟩]
      refine hjoin ?_
      rw [normalizeSeparators_of_normal (normal_cons_sep fun c hc => absurd hc List.not_mem_nil), joinPart,
        hbSeparators, if_pos hbNe, if_neg hbRelative,
        if_pos (show [pl.sep].getLast? = some pl.sep from rfl), hcut]
      rfl
    · rw [if_neg fun h => hres h.1]
      refine hjoin ?_
      have hresNormal : Normal pl (joinWith pl.sep init) := fun c hc =>
        hnormal c (by rw [hcut]; exact List.mem_append_left _ hc)
      have hresLast : (joinWith pl.sep init).getLast? ≠ some pl.sep := by
        intro h
        obtain ⟨y, hy⟩ := List.getLast?_eq_some_iff.mp h
        rw [hcut, hy, List.append_assoc, List.singleton_append, hasDouble_of_append] at hsingle
        cases hsingle
      rw [normalizeSeparators_of_normal hresNormal, joinPart, hbSeparators, if_pos hbNe, if_neg hbRelative,
        if_neg hresLast, ite_self, hcut]
  · have hsplit := splitAt_of_not_mem hmem
    have hname : lastSegment pl q = q := by
      rw [lastSegment, hsplit]
      rfl
    rw [hname, hsplit]
    by_cases hq : q = []
    · subst hq
      rw [if_pos rfl]
      have hjoined : join pl dot [] = dot := by
        rw [join, joinAll, List.foldl_cons, List.foldl_nil, normalizeSeparators_of_normal (normal_dot pl)]
        exact collapseSeparators_of_single (normal_dot pl) rfl
      change normalize pl (join pl dot []) = _
      rw [hjoined, normalize_of_single (normal_dot pl) rfl, normalize_of_single hnormal rfl]
      cases pl <;> rfl
    · rw [if_neg hq, if_pos (show [q].length ≤ 1 from Nat.le_refl 1)]
      have hseparators := normalizeSeparators_of_normal hnormal
      by_cases habs : isAbsolute pl q = true
      · rw [if_pos habs]
        congr 1
        refine hjoin ?_
        rw [joinPart_absolute (by rwa [hseparators]), hseparators]
      · rw [if_neg habs]
        have hjoined : join pl dot q = '.' :: pl.sep :: q := by
          have hdotSep : '.' ≠ pl.sep := by cases pl <;> decide
          have hfirst : q[0]? ≠ some pl.sep := fun h => hmem (List.mem_of_getElem? h)
          rw [join, joinAll, List.foldl_cons, List.foldl_nil, normalizeSeparators_of_normal (normal_dot pl),
            joinPart, hseparators, if_pos hq, if_neg habs,
            if_neg (show dot.getLast? ≠ some pl.sep from fun h => hdotSep (Option.some.inj h)), ite_self]
          exact collapseSeparators_of_single (normal_append (normal_dot pl) (normal_cons_sep hnormal))
            (by change hasDouble pl.sep ('.' :: pl.sep :: q) = false
                rw [hasDouble_cons_of_ne hdotSep,
                  hasDouble_sep_cons hfirst, hsingle])
        change normalize pl (join pl dot q) = _
        rw [hjoined]
        exact normalize_dot_cons hnormal hmem (Bool.eq_false_iff.mpr habs)

end

/-- The laws of a path hold where it is plain and its name has no dot in front that is the last one. -/
theorem laws_of_plain {pl : Platform} {p : Path} (hplain : Plain pl (normalizeSeparators pl p))
    (hdot : lastDot (basename pl p) ≠ some 0) : Laws pl p := by
  obtain ⟨hnet, hbeginning, hending⟩ := hplain
  have hback := normalize_readBack hnet hbeginning
  obtain ⟨hfront, habs, -⟩ := collapsed_beginning hnet
  have hstack : Stacked (isAbsolute pl (collapseSeparators pl p))
      (stackOf pl (collapseSeparators pl p)) := resolve_stacked _ _
  refine ⟨collapseRun_collapseLoop pl _, ?_, ?_, ?_, hback.drive.trans hfront, hback.absolute.trans habs, ?_,
    (stem_append_extname pl p).mpr hdot, normalize_join hnet hending, joinAll_discards⟩
  · exact hback.normalize_eq.trans (normalize_eq pl p).symm
  · refine ⟨stackOf pl (collapseSeparators pl p), ?_, resolve_clean _ _ _, ?_⟩
    · rw [hback.absolute]
      exact hstack
    · rw [hback.absolute, hback.drive]
      exact normalize_eq pl p
  · exact iff_of_false (not_network_normalize pl p) hnet
  · intro base
    rw [locate, hback.leads, hback.absolute, stackOf_leads, locate_collapse hnet]

/-! ### Where a law fails -/

/-- A name that begins like a drive leaves the stack as a drive. -/
theorem drive_of_disguised {pl : Platform} {p : Path} (hnet : ¬Network pl (normalizeSeparators pl p))
    (h : Disguised pl (normalizeSeparators pl p)) : HasDrive pl (normalize pl p) := by
  obtain ⟨hpl, hno, hname⟩ := h
  have hcolon := (stackOf_colon hnet).mpr hname
  have hfront : drive pl (collapseSeparators pl p) = [] := by
    rw [(collapsed_beginning hnet).1]
    exact if_neg hno
  refine ⟨hpl, ?_⟩
  rw [normalize_eq, hfront, render]
  change (if isAbsolute pl (collapseSeparators pl p) = true then
    pl.sep :: joinWith pl.sep (stackOf pl (collapseSeparators pl p))
    else if joinWith pl.sep (stackOf pl (collapseSeparators pl p)) = [] then dot
    else joinWith pl.sep (stackOf pl (collapseSeparators pl p)))[1]? = some ':'
  split
  case isTrue habs =>
      rw [if_pos habs] at hcolon
      exact hcolon
  case isFalse habs =>
      rw [if_neg habs] at hcolon
      split
      case isTrue hnil =>
          rw [hnil] at hcolon
          cases hcolon
      case isFalse => exact hcolon

/-- The last segment that is a name is the last of the stack. -/
theorem resolve_concat {isAbs : Bool} {s : Path} (hs : Proper s) (segs : List Path) :
    resolve isAbs (segs ++ [s]) = resolve isAbs segs ++ [s] := by
  rw [resolve, List.foldl_append, List.foldl_cons, List.foldl_nil, resolveSegment,
    if_neg fun h => h.elim hs.1 hs.2.1, if_neg hs.2.2]
  rfl

theorem proper_of_hasDrive {pl : Platform} {s : Path} (h : HasDrive pl s) : Proper s := by
  obtain ⟨-, hcolon⟩ := h
  refine ⟨?_, ?_, ?_⟩ <;> rintro rfl <;> cases hcolon

theorem length_le_joinWith {sep : Char} {stack : List Path} {s : Path} (hs : s ∈ stack) :
    s.length ≤ (joinWith sep stack).length := by
  induction stack with
  | nil => exact absurd hs List.not_mem_nil
  | cons t stack ih =>
      cases stack with
      | nil =>
          obtain rfl := List.mem_singleton.mp hs
          exact Nat.le_refl _
      | cons u stack =>
          rw [joinWith, List.length_append, List.length_cons]
          rcases List.mem_cons.mp hs with rfl | hs
          · omega
          · have := ih hs
            omega

/-- There is one place to cut a path at its last separator. -/
theorem cut_unique {sep : Char} {x y b c : Path} (hb : sep ∉ b) (hc : sep ∉ c)
    (h : x ++ sep :: b = y ++ sep :: c) : b = c := by
  have hshift : ∀ {a u v : Path}, sep ∉ u → sep :: u = a ++ sep :: v → u = v := by
    intro a u v hu hcut
    cases a with
    | nil => exact (List.cons.inj hcut).2
    | cons d a =>
        obtain ⟨-, rfl⟩ := List.cons.inj hcut
        exact absurd (List.mem_append_right a List.mem_cons_self) hu
  rcases List.append_eq_append_iff.mp h with ⟨a, -, hcut⟩ | ⟨a, -, hcut⟩
  · exact hshift hb hcut
  · exact (hshift hc hcut).symm

/-- A name that reads like a drive is taken for one when it is joined to its parent. -/
theorem normalize_join_ne {pl : Platform} {p : Path} (hnet : ¬Network pl (normalizeSeparators pl p))
    (hbeginning : ¬Disguised pl (normalizeSeparators pl p)) (hmem : pl.sep ∈ normalizeSeparators pl p)
    (hname : HasDrive pl (lastSegment pl (normalizeSeparators pl p))) :
    (∀ c, p.getLast? = some c → isSeparator c = false) ∧
      normalize pl (join pl (dirname pl p) (basename pl p)) ≠ normalize pl p := by
  have hkeep := collapsed_collapseSeparators pl p
  have hnormal := normal_collapseSeparators pl p
  have hsingle : hasDouble pl.sep (collapseSeparators pl p) = false := hasDouble_collapseLoop hnet
  have hp := normalize_collapse hnet
  have hback := (normalize_readBack hnet hbeginning).drive
  have hbase : basename pl p = lastSegment pl (collapseSeparators pl p) := rfl
  have hlast := hkeep.last
  rw [← hkeep.chars] at hmem
  rw [← lastSegment_collapse] at hname
  rw [hp] at hback
  rw [hp, hbase]
  generalize dirname pl p = parent
  generalize collapseSeparators pl p = q at *
  obtain ⟨init, b, hinit, hb, hsplit, hcut⟩ := exists_cut hmem
  have hlastSegment : lastSegment pl q = b := lastSegment_of_split hsplit
  rw [hlastSegment] at hname ⊢
  have hbNormal : Normal pl b := fun c hc => hnormal c (by rw [hcut]; simp [hc])
  have hbSeparators : normalizeSeparators pl b = b := normalizeSeparators_of_normal hbNormal
  have hbAbs : isAbsolute pl b = true := isAbsolute_of_hasDrive hbNormal hname
  have hbSingle : hasDouble pl.sep b = false := hasDouble_of_not_mem hb
  have hbLength := length_of_second hname.2
  constructor
  · intro c hc
    rw [normalizeSeparators, List.getLast?_map, hc, Option.map_some, hcut] at hlast
    rw [← Bool.not_eq_true]
    intro hsep
    rw [if_pos hsep] at hlast
    have hbNe : b ≠ [] := List.ne_nil_of_length_pos (by omega)
    have hbLast : b.getLast? = some pl.sep := by
      rw [← hlast, List.getLast?_append, List.getLast?_cons, List.getLast?_eq_some_getLast hbNe]
      rfl
    exact hb (List.mem_of_getLast? hbLast)
  · have hjoined : join pl parent b = b := by
      rw [join, joinAll, List.foldl_cons, List.foldl_nil, joinPart_absolute (by rwa [hbSeparators]),
        hbSeparators]
      exact collapseSeparators_of_single hbNormal hbSingle
    rw [hjoined, normalize_of_single hbNormal hbSingle, normalize_of_single hnormal hsingle, hbAbs]
    intro heq
    have hbFront : drive pl b = b.take 2 := if_pos hname
    have hbBehind : behindDrive pl b = b.drop 2 := if_pos hname
    have hdrop : pl.sep ∉ b.drop 2 := fun h => hb (List.mem_of_mem_drop h)
    -- what is left of the name behind its drive is shorter than the name
    have hshort : (render pl true (drive pl b) (stackOf pl b)).length ≤ b.length + 1 := by
      have hstack : stackOf pl b = resolve true [b.drop 2] := by
        rw [stackOf, hbAbs, hbBehind, splitAt_of_not_mem hdrop]
      have hstackLength : (joinWith pl.sep (resolve true [b.drop 2])).length ≤ b.length - 2 := by
        rw [resolve, List.foldl_cons, List.foldl_nil, resolveSegment]
        split_ifs <;> simp [joinWith]
      rw [render, if_pos rfl, hstack, hbFront, List.length_append, List.length_cons, List.length_take]
      omega
    have hfirst : b[0]? ≠ some pl.sep := fun h => hb (List.mem_of_getElem? h)
    obtain ⟨letter, tail, rfl⟩ : ∃ letter tail, b = letter :: ':' :: tail := by
      rcases b with _ | ⟨a, _ | ⟨c, tail⟩⟩
      · cases hname.2
      · cases hname.2
      · exact ⟨a, tail, by rw [Option.some.inj hname.2]⟩
    rw [normalize_of_single hnormal hsingle, ← heq] at hback
    have hshown : HasDrive pl (render pl true (drive pl (letter :: ':' :: tail))
        (stackOf pl (letter :: ':' :: tail))) := ⟨hname.1, by rw [hbFront]; rfl⟩
    have hfront : drive pl q = [letter, ':'] := by
      rw [← hback, drive, if_pos hshown, hbFront]
      rfl
    have hdrive : HasDrive pl q := by
      by_contra hno
      rw [drive, if_neg hno] at hfront
      cases hfront
    have hqAbs : isAbsolute pl q = true := isAbsolute_of_hasDrive hnormal hdrive
    have hparts := drive_append pl q
    rw [hfront] at hparts
    have hletter : letter ≠ pl.sep := fun h => hfirst (congrArg some h)
    have hrest : pl.sep ∈ behindDrive pl q := by
      rw [← hparts] at hmem
      simpa [hletter.symm, (sep_ne_colon pl).symm] using hmem
    obtain ⟨init', b', hinit', hb', hsplit', hcut'⟩ := exists_cut hrest
    -- the name is the last segment behind the drive as well, and stays on the stack
    obtain rfl : letter :: ':' :: tail = b' := by
      refine cut_unique hb hb' (x := joinWith pl.sep init) (y := [letter, ':'] ++ joinWith pl.sep init') ?_
      rw [← hcut, List.append_assoc, ← hcut', hparts]
    have hstack : letter :: ':' :: tail ∈ stackOf pl q := by
      rw [stackOf, hsplit', resolve_concat (proper_of_hasDrive hname)]
      exact List.mem_append_right _ List.mem_cons_self
    have hlong := @length_le_joinWith pl.sep _ _ hstack
    rw [heq, render, hqAbs, if_pos rfl, hfront, List.length_append, List.length_cons] at hshort
    simp only [List.length_cons] at hshort hlong
    omega

/-- The laws of a path hold exactly where it is no network share, no name in it passes for a drive, and
the last dot of its name is not in front. -/
theorem path_laws_iff (pl : Platform) (p : Path) :
    Laws pl p ↔ Plain pl (normalizeSeparators pl p) ∧
      lastDot (lastSegment pl (normalizeSeparators pl p)) ≠ some 0 := by
  rw [← basename_eq]
  refine ⟨fun h => ?_, fun h => laws_of_plain h.1 h.2⟩
  have hnet : ¬Network pl (normalizeSeparators pl p) := fun hx =>
    not_network_normalize pl p (h.network.mpr hx)
  have hbeginning : ¬Disguised pl (normalizeSeparators pl p) := by
    intro hx
    have hdrive := drive_of_disguised hnet hx
    have hfront := h.front
    rw [drive, drive, if_pos hdrive, if_neg hx.2.1] at hfront
    have hlength := congrArg List.length hfront
    rw [List.length_take, List.length_nil] at hlength
    have := length_of_second hdrive.2
    omega
  refine ⟨⟨hnet, hbeginning, fun hx => ?_⟩, (stem_append_extname pl p).mp h.name⟩
  obtain ⟨hend, hne⟩ := normalize_join_ne hnet hbeginning hx.1 hx.2
  exact hne (h.parent hend)

/-- A name that begins with its only dot is lost to `stem` and to `extname`. -/
theorem not_laws_bashrc : ¬Laws .posix ".bashrc".toList := by
  intro h
  have hname := (stem_append_extname _ _).mp h.name
  rw [basename_eq] at hname
  exact hname (by decide)

end OSPath

end EZLanguage
