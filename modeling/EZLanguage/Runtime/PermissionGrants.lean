import EZLanguage.Runtime.SecurityPolicy
import Mathlib.Data.List.Infix
import Mathlib.Data.List.TakeWhile
import Mathlib.Tactic.Common

/-!
# What an answer changes

The answer always adds the text of the request to the lists the later checks read. A check for the
network compares hosts, so a text that is more than a host is never matched. The first entry in the list
of readable paths takes the place of the current directory, which an empty list stands for.
-/

namespace EZLanguage

namespace SecurityPolicy

/-! ### Paths -/

theorem startsWith_iff {base target : List CString} :
    startsWith base target = true ↔ base <+: target := by
  induction base generalizing target with
  | nil => simp [startsWith]
  | cons b base ih =>
      cases target with
      | nil => simp [startsWith]
      | cons t target => simp [startsWith, ih, List.cons_prefix_cons]

theorem isSubpathOrEqual_iff {sys : System} {base target : CString} :
    isSubpathOrEqual sys base target = true ↔
      ∃ b t, sys.weaklyCanonical base = some b ∧ sys.weaklyCanonical target = some t ∧
        b.map (fun p => if sys.windows then p.map toLower else p) <+:
          t.map (fun p => if sys.windows then p.map toLower else p) := by
  rw [isSubpathOrEqual]
  cases hbase : sys.weaklyCanonical base with
  | none => simp
  | some b =>
      cases htarget : sys.weaklyCanonical target with
      | none => simp
      | some t => simp [startsWith_iff]

theorem isSubpathOrEqual_trans {sys : System} {base middle target : CString}
    (hbase : isSubpathOrEqual sys base middle = true)
    (htarget : isSubpathOrEqual sys middle target = true) :
    isSubpathOrEqual sys base target = true := by
  rw [isSubpathOrEqual_iff] at hbase htarget ⊢
  obtain ⟨b, m, hb, hm, hbm⟩ := hbase
  obtain ⟨m', t, hm', ht, hmt⟩ := htarget
  obtain rfl := Option.some.inj (hm.symm.trans hm')
  exact ⟨b, t, hb, ht, hbm.trans hmt⟩

theorem isSubpathOrEqual_self {sys : System} {path : CString} :
    isSubpathOrEqual sys path path = true ↔ (sys.weaklyCanonical path).isSome = true := by
  rw [isSubpathOrEqual_iff, Option.isSome_iff_exists]
  constructor
  · intro h
    obtain ⟨b, -, hb, -⟩ := h
    exact ⟨b, hb⟩
  · intro h
    obtain ⟨b, hb⟩ := h
    exact ⟨b, b, hb, hb, List.prefix_rfl⟩

theorem pathMatches_self {sys : System} {path : CString} :
    pathMatches sys path path = true ↔
      path = lit "*" ∨ (sys.weaklyCanonical path).isSome = true := by
  rw [pathMatches, Bool.or_eq_true, decide_eq_true_eq, isSubpathOrEqual_self]

/-! ### Hosts -/

/-- A text without any of the separators of a URL. -/
def isBareHost (s : CString) : Bool := s.all fun c => !(lit "/?#@:").contains c

theorem substrAfter_length {mark s rest : CString} (hmark : mark ≠ [])
    (hrest : substrAfter mark s = some rest) : rest.length < s.length := by
  induction s with
  | nil => cases hrest
  | cons c s ih =>
      rw [substrAfter] at hrest
      split at hrest
      · obtain rfl := Option.some.inj hrest
        have hpos : 0 < mark.length := List.length_pos_iff.mpr hmark
        simp only [List.length_drop, List.length_cons]
        omega
      · have := ih hrest
        simp only [List.length_cons]
        omega

theorem substrAfter_isSome {c : UInt8} {s : CString} (hc : c ∈ s) :
    (substrAfter [c] s).isSome = true := by
  induction s with
  | nil => cases hc
  | cons d s ih =>
      rw [substrAfter]
      split
      · rfl
      · rename_i hnot
        obtain rfl | hmem := List.mem_cons.mp hc
        · simp [List.isPrefixOf] at hnot
        · exact ih hmem

theorem getD_substrAfter_length (mark s : CString) :
    ((substrAfter mark s).getD s).length ≤ s.length := by
  cases hrest : substrAfter mark s with
  | none => simp
  | some rest =>
      by_cases hmark : mark = []
      · subst hmark
        cases s with
        | nil => cases hrest
        | cons c s =>
            simp only [substrAfter, List.isPrefixOf, if_true, Option.some.injEq] at hrest
            simp [← hrest]
      · have := substrAfter_length hmark hrest
        simp only [Option.getD_some]
        omega

theorem substrBefore_length (marks s : CString) : (substrBefore marks s).length ≤ s.length :=
  (List.takeWhile_prefix _).length_le

/-- Cutting at one of the marks leaves a text as it is where none of them occurs. -/
theorem substrBefore_eq_self {marks s : CString} (hs : ∀ c ∈ s, c ∉ marks) :
    substrBefore marks s = s := by
  apply List.takeWhile_eq_self_iff.mpr
  intro c hc
  simpa using hs c hc

theorem forall_of_substrBefore_length {marks s : CString}
    (hlength : s.length ≤ (substrBefore marks s).length) : ∀ c ∈ s, c ∉ marks := by
  have heq : substrBefore marks s = s :=
    (List.takeWhile_prefix _).eq_of_length_le hlength
  intro c hc
  have := List.takeWhile_eq_self_iff.mp heq c hc
  simpa using this

theorem substrAfter_eq_none (mark : CString) {s : CString} {c : UInt8} (hmark : c ∈ mark) (hs : c ∉ s) :
    substrAfter mark s = none := by
  induction s with
  | nil => rfl
  | cons d s ih =>
      have hprefix : mark.isPrefixOf (d :: s) = false := by
        by_contra h
        rw [Bool.not_eq_false, List.isPrefixOf_iff_prefix] at h
        exact hs (h.subset hmark)
      rw [substrAfter, hprefix]
      exact ih fun h => hs (List.mem_cons_of_mem d h)

theorem isBareHost_iff {s : CString} :
    isBareHost s = true ↔
      (∀ c ∈ s, c ∉ lit "/?#") ∧ (64 : UInt8) ∉ s ∧ ∀ c ∈ s, c ∉ lit ":" := by
  have hmarks : lit "/?#@:" = lit "/?#" ++ 64 :: lit ":" := by decide
  simp only [isBareHost, hmarks, List.all_eq_true, Bool.not_eq_eq_eq_not, Bool.not_true,
    List.contains_eq_mem, decide_eq_false_iff_not, List.mem_append, List.mem_cons, not_or]
  constructor
  · intro h
    exact ⟨fun c hc => (h c hc).1, fun hat => (h 64 hat).2.1 rfl, fun c hc => (h c hc).2.2⟩
  · intro h c hc
    exact ⟨h.1 c hc, fun hat => h.2.1 (hat ▸ hc), h.2.2 c hc⟩

/-- The extracted host has the length of the text only where the text is a bare host. -/
theorem bare_of_actualHost_length {s : CString} (hlength : s.length ≤ (actualHost s).length) :
    isBareHost s = true := by
  have hscheme := getD_substrAfter_length (lit "://") s
  simp only [actualHost, List.length_map] at hlength
  generalize hrest : (substrAfter (lit "://") s).getD s = rest at hlength hscheme
  have hpath := substrBefore_length (lit "/?#") rest
  have hat := getD_substrAfter_length (lit "@") (substrBefore (lit "/?#") rest)
  generalize hauthority : substrBefore (lit "/?#") rest = authority at hlength hpath hat
  generalize hhost : (substrAfter (lit "@") authority).getD authority = host at hlength hat
  have hport := substrBefore_length (lit ":") host
  have hs : rest = s := by
    cases hafter : substrAfter (lit "://") s with
    | none => rw [← hrest, hafter, Option.getD_none]
    | some after =>
        have := substrAfter_length (by decide) hafter
        rw [hafter, Option.getD_some] at hrest
        subst hrest
        omega
  subst hs
  have hnoPath : ∀ c ∈ rest, c ∉ lit "/?#" :=
    forall_of_substrBefore_length (by rw [hauthority]; omega)
  rw [substrBefore_eq_self hnoPath] at hauthority
  subst hauthority
  have hnoAt : (64 : UInt8) ∉ rest := by
    intro hmem
    obtain ⟨after, hafter⟩ := Option.isSome_iff_exists.mp (substrAfter_isSome hmem)
    have := substrAfter_length (by decide) hafter
    rw [show lit "@" = [64] from rfl, hafter, Option.getD_some] at hhost
    subst hhost
    omega
  rw [substrAfter_eq_none (lit "@") (by decide) hnoAt, Option.getD_none] at hhost
  subst hhost
  exact isBareHost_iff.mpr ⟨hnoPath, hnoAt, forall_of_substrBefore_length (by omega)⟩

theorem actualHost_of_bare {s : CString} (hbare : isBareHost s = true) :
    actualHost s = s.map toLower := by
  obtain ⟨hpath, hat, hport⟩ := isBareHost_iff.mp hbare
  have hcolon : (58 : UInt8) ∉ s := fun hmem => hport 58 hmem (by decide)
  simp only [actualHost]
  rw [substrAfter_eq_none (lit "://") (by decide) hcolon, Option.getD_none,
    substrBefore_eq_self hpath, substrAfter_eq_none (lit "@") (by decide) hat,
    Option.getD_none, substrBefore_eq_self hport]

theorem actualHost_length (s : CString) : (actualHost s).length ≤ s.length := by
  simp only [actualHost, List.length_map]
  calc (substrBefore (lit ":") _).length
      ≤ ((substrAfter (lit "@") _).getD _).length := substrBefore_length _ _
    _ ≤ (substrBefore (lit "/?#") _).length := getD_substrAfter_length _ _
    _ ≤ ((substrAfter (lit "://") s).getD s).length := substrBefore_length _ _
    _ ≤ s.length := getD_substrAfter_length _ _

/-- A text matches itself as an entry of the list exactly where it is a bare host or the wildcard. -/
theorem hostMatches_self {s : CString} :
    hostMatches (actualHost s) s = true ↔ s = lit "*" ∨ isBareHost s = true := by
  have hlength := actualHost_length s
  rw [hostMatches]
  simp only [Bool.or_eq_true, decide_eq_true_eq, List.isSuffixOf_iff_suffix]
  constructor
  · intro h
    obtain (hwild | hhost) | hsuffix := h
    · exact .inl hwild
    · exact .inr (bare_of_actualHost_length (by rw [hhost, List.length_map]))
    · have hlong := hsuffix.length_le
      simp only [List.length_append, List.length_map] at hlong
      have hdot : (lit ".").length = 1 := rfl
      omega
  · intro h
    obtain hwild | hbare := h
    · exact .inl (.inl hwild)
    · exact .inl (.inr (actualHost_of_bare hbare))

/-! ### One grant -/

/-- What the answer always to a request has to find for the grant to last: a target that its own entry
in the list matches, and for a read either a list with entries already or a target that takes in the
current directory. -/
def Lasting (sys : System) (p : Policy) (r : Request) : Prop :=
  match r.capability with
  | .ffi | .process => True
  | .net => r.target = [] ∨ r.target = lit "*" ∨ isBareHost r.target = true
  | .write =>
      r.target = [] ∨ r.target = lit "*" ∨ (sys.weaklyCanonical r.target).isSome = true
  | .read =>
      r.target = [] ∨
        (r.target = lit "*" ∨ (sys.weaklyCanonical r.target).isSome = true) ∧
          (p.allowedReadPaths ≠ [] ∨ (sys.weaklyCanonical sys.currentPath).isSome = false ∨
            r.target = lit "*" ∨ isSubpathOrEqual sys r.target sys.currentPath = true)

/-- The grant of a request covers the request. -/
def Covers (sys : System) (p : Policy) (r : Request) : Prop :=
  isAllowed sys (grant p r.capability r.target) r.capability r.target = true

/-- The grant of a request keeps what the policy allowed. -/
def KeepsAllowed (sys : System) (p p' : Policy) : Prop :=
  ∀ capability target, isAllowed sys p capability target = true →
    isAllowed sys p' capability target = true

theorem any_append_singleton {α : Type} (f : α → Bool) (l : List α) (a : α) :
    (l ++ [a]).any f = (l.any f || f a) := by
  simp

theorem covers_net {sys : System} {p : Policy} {target : CString} {line : Option CString}
    (hnot : netAllowed p target = false) :
    Covers sys p ⟨.net, target, line⟩ ↔
      target = [] ∨ target = lit "*" ∨ isBareHost target = true := by
  simp only [netAllowed, Bool.or_eq_false_iff] at hnot
  obtain ⟨⟨⟨hsafe, hall⟩, hnet⟩, hhosts⟩ := hnot
  by_cases htarget : target = []
  · simp [Covers, isAllowed, netAllowed, grant, htarget]
  · have hany : p.allowedNetHosts.any (hostMatches (actualHost target)) = false := by
      cases hlist : p.allowedNetHosts with
      | nil => rfl
      | cons h t => simpa [hlist, htarget] using hhosts
    simp only [Covers, isAllowed, netAllowed, grant, htarget, ne_eq, not_false_eq_true, if_true,
      hsafe, hall, hnet, any_append_singleton, hany]
    simp [htarget, hostMatches_self]

theorem covers_write {sys : System} {p : Policy} {target : CString} {line : Option CString}
    (hnot : writeAllowed sys p target = false) :
    Covers sys p ⟨.write, target, line⟩ ↔
      target = [] ∨ target = lit "*" ∨ (sys.weaklyCanonical target).isSome = true := by
  simp only [writeAllowed, Bool.or_eq_false_iff] at hnot
  obtain ⟨⟨⟨hsafe, hall⟩, hwrite⟩, hpaths⟩ := hnot
  by_cases htarget : target = []
  · simp [Covers, isAllowed, writeAllowed, grant, htarget]
  · have hany : p.allowedWritePaths.any (pathMatches sys target) = false := by
      cases hlist : p.allowedWritePaths with
      | nil => rfl
      | cons h t => simpa [hlist] using hpaths
    simp only [Covers, isAllowed, writeAllowed, grant, htarget, ne_eq, not_false_eq_true, if_true,
      hsafe, hall, hwrite, any_append_singleton, hany, false_or]
    simp [pathMatches_self]

theorem covers_read {sys : System} {p : Policy} {target : CString} {line : Option CString}
    (hnot : readAllowed sys p target = false) :
    Covers sys p ⟨.read, target, line⟩ ↔
      target = [] ∨ target = lit "*" ∨ (sys.weaklyCanonical target).isSome = true := by
  simp only [readAllowed, Bool.or_eq_false_iff] at hnot
  obtain ⟨⟨⟨hsafe, hall⟩, hread⟩, hpaths⟩ := hnot
  by_cases htarget : target = []
  · simp [Covers, isAllowed, readAllowed, grant, htarget]
  · have hany : p.allowedReadPaths.any (pathMatches sys target) = false := by
      cases hlist : p.allowedReadPaths with
      | nil => rfl
      | cons h t => simpa [hlist] using hpaths
    simp only [Covers, isAllowed, readAllowed, grant, htarget, ne_eq, not_false_eq_true, if_true,
      hsafe, hall, hread, any_append_singleton, hany, false_or]
    simp [pathMatches_self]

/-- A grant for another capability than reading keeps everything allowed. -/
theorem keepsAllowed_grant {sys : System} {p : Policy} {capability : Capability} {target : CString}
    (hread : capability ≠ .read) : KeepsAllowed sys p (grant p capability target) := by
  intro capability' target' hallowed
  cases capability with
  | read => exact absurd rfl hread
  | ffi | process =>
      cases capability' <;>
        simp_all [isAllowed, grant, ffiAllowed, processAllowed, netAllowed, readAllowed,
          writeAllowed]
  | net | write =>
      by_cases htarget : target = []
      · cases capability' <;>
          simp_all [isAllowed, grant, ffiAllowed, processAllowed, netAllowed, readAllowed,
            writeAllowed]
      · cases capability' <;>
          simp_all [isAllowed, grant, ffiAllowed, processAllowed, netAllowed, readAllowed,
            writeAllowed]
        all_goals grind

/-- A grant for reading keeps everything allowed exactly where it takes in what an empty list allows. -/
theorem keepsAllowed_read {sys : System} {p : Policy} {target : CString} (htarget : target ≠ [])
    (hnot : readAllowed sys p target = false) :
    KeepsAllowed sys p (grant p .read target) ↔
      p.allowedReadPaths ≠ [] ∨ (sys.weaklyCanonical sys.currentPath).isSome = false ∨
        target = lit "*" ∨ isSubpathOrEqual sys target sys.currentPath = true := by
  simp only [readAllowed, Bool.or_eq_false_iff] at hnot
  obtain ⟨⟨⟨hsafe, hall⟩, hread⟩, -⟩ := hnot
  have hgrant : ∀ path, readAllowed sys (grant p .read target) path =
      (p.allowedReadPaths.any (pathMatches sys path) || pathMatches sys path target) := by
    intro path
    simp [readAllowed, grant, htarget, hsafe, hall, hread]
  have hbefore : ∀ path, readAllowed sys p path =
      if p.allowedReadPaths.isEmpty then isSubpathOrEqual sys sys.currentPath path
      else p.allowedReadPaths.any (pathMatches sys path) := by
    intro path
    simp [readAllowed, hsafe, hall, hread]
  constructor
  · intro hkeeps
    by_cases hempty : p.allowedReadPaths = []
    · right
      by_cases hcanonical : (sys.weaklyCanonical sys.currentPath).isSome = true
      · right
        have hcurrent : readAllowed sys p sys.currentPath = true := by
          rw [hbefore, hempty]
          exact isSubpathOrEqual_self.mpr hcanonical
        have := hkeeps .read sys.currentPath hcurrent
        simp only [isAllowed] at this
        rw [hgrant, hempty, List.any_nil, Bool.false_or, pathMatches] at this
        simpa using this
      · exact .inl (by simpa using hcanonical)
    · exact .inl hempty
  · intro h capability path hallowed
    cases capability with
    | read =>
        simp only [isAllowed] at hallowed ⊢
        rw [hbefore] at hallowed
        rw [hgrant]
        by_cases hempty : p.allowedReadPaths = []
        · rw [hempty] at hallowed
          have hcurrent : isSubpathOrEqual sys sys.currentPath path = true := hallowed
          have hcanonical : (sys.weaklyCanonical sys.currentPath).isSome = true := by
            obtain ⟨b, -, hb, -⟩ := isSubpathOrEqual_iff.mp hcurrent
            rw [hb]
            rfl
          obtain h | h | h | h := h
          · exact absurd hempty h
          · rw [hcanonical] at h
            cases h
          · simp [pathMatches, h]
          · simp [pathMatches, isSubpathOrEqual_trans h hcurrent]
        · have hnonempty : p.allowedReadPaths.isEmpty = false := by simpa using hempty
          rw [hnonempty] at hallowed
          rw [Bool.or_eq_true]
          exact .inl hallowed
    | _ => simpa [isAllowed, grant, htarget, ffiAllowed, processAllowed, netAllowed, writeAllowed]
        using hallowed

/-- The answer always lasts exactly where the grant covers the request and keeps what was allowed. -/
theorem lasting_iff {sys : System} {p : Policy} {r : Request}
    (hnot : isAllowed sys p r.capability r.target = false) :
    Lasting sys p r ↔
      Covers sys p r ∧ KeepsAllowed sys p (grant p r.capability r.target) := by
  obtain ⟨capability, target, line⟩ := r
  cases capability with
  | ffi =>
      exact ⟨fun _ => ⟨by simp [Covers, isAllowed, grant, ffiAllowed],
        keepsAllowed_grant (by simp)⟩, fun _ => trivial⟩
  | process =>
      exact ⟨fun _ => ⟨by simp [Covers, isAllowed, grant, processAllowed],
        keepsAllowed_grant (by simp)⟩, fun _ => trivial⟩
  | net =>
      rw [covers_net hnot]
      exact (and_iff_left (keepsAllowed_grant (by simp))).symm
  | write =>
      rw [covers_write hnot]
      exact (and_iff_left (keepsAllowed_grant (by simp))).symm
  | read =>
      rw [covers_read hnot]
      by_cases htarget : target = []
      · have hkeeps : KeepsAllowed sys p (grant p .read target) := by
          intro capability path hallowed
          cases capability <;>
            simp_all [isAllowed, grant, ffiAllowed, processAllowed, netAllowed, readAllowed,
              writeAllowed]
        exact ⟨fun _ => ⟨.inl htarget, hkeeps⟩, fun _ => .inl htarget⟩
      · rw [keepsAllowed_read htarget hnot]
        simp only [Lasting, htarget, false_or]

/-! ### Runs of requests -/

/-- Once answered with always, a request is accepted without a prompt; what was accepted without a prompt
still is; and no other answer changes how a later request ends. -/
def Monotone (sys : System) (start : Policy) (requests : List Request) : Prop :=
  ∀ before r after rest, requests = before ++ r :: after ++ rest →
    ((check sys (policyAfter sys start before) r).1 = .granted .always → ∀ line,
      (check sys (policyAfter sys start (before ++ r :: after)) { r with line := line }).1 =
        .allowed) ∧
    (∀ q, (check sys (policyAfter sys start before) q).1 = .allowed → ∀ line,
      (check sys (policyAfter sys start (before ++ r :: after)) { q with line := line }).1 =
        .allowed) ∧
    ((check sys (policyAfter sys start before) r).1 ≠ .granted .always → ∀ q,
      (check sys (policyAfter sys start (before ++ r :: after)) q).1 =
        (check sys (policyAfter sys start (before ++ after)) q).1)

/-- Every prompt of a run that is answered with always meets the condition. -/
def AllLasting (sys : System) (start : Policy) (requests : List Request) : Prop :=
  ∀ before r after, requests = before ++ r :: after →
    isAsked sys (policyAfter sys start before) r = true → readAnswer r.line = .always →
      Lasting sys (policyAfter sys start before) r

theorem policyAfter_append (sys : System) (p : Policy) (before after : List Request) :
    policyAfter sys p (before ++ after) = policyAfter sys (policyAfter sys p before) after :=
  List.foldl_append

theorem policyAfter_cons (sys : System) (p : Policy) (r : Request) (after : List Request) :
    policyAfter sys p (r :: after) = policyAfter sys (check sys p r).2 after :=
  rfl

theorem isAllowed_of_isAsked {sys : System} {p : Policy} {r : Request}
    (hasked : isAsked sys p r = true) : isAllowed sys p r.capability r.target = false := by
  simp only [isAsked, Bool.and_eq_true, Bool.not_eq_eq_eq_not, Bool.not_true] at hasked
  exact hasked.1.1

theorem check_always {sys : System} {p : Policy} {r : Request} (hasked : isAsked sys p r = true)
    (halways : readAnswer r.line = .always) :
    check sys p r = (.granted .always, grant p r.capability r.target) := by
  obtain ⟨message, hcheck⟩ := check_of_asked hasked
  rw [hcheck, halways]

theorem check_not_always {sys : System} {p : Policy} {r : Request}
    (hnot : isAsked sys p r = false ∨ readAnswer r.line ≠ .always) :
    (check sys p r).2 = p ∧ (check sys p r).1 ≠ .granted .always := by
  by_cases hasked : isAsked sys p r = true
  · obtain ⟨message, hcheck⟩ := check_of_asked hasked
    have hanswer : readAnswer r.line ≠ .always := by
      obtain h | h := hnot
      · rw [hasked] at h
        cases h
      · exact h
    rw [hcheck]
    cases hread : readAnswer r.line with
    | always => exact absurd hread hanswer
    | _ => simp
  · exact check_of_not_asked (by simpa using hasked)

/-- A request was answered with always exactly where it reached a prompt with that answer. -/
theorem granted_always_iff {sys : System} {p : Policy} {r : Request} :
    (check sys p r).1 = .granted .always ↔
      isAsked sys p r = true ∧ readAnswer r.line = .always := by
  constructor
  · intro hgranted
    by_contra hnot
    rw [not_and_or, Bool.not_eq_true] at hnot
    exact (check_not_always hnot).2 hgranted
  · intro h
    rw [check_always h.1 h.2]

theorem keepsAllowed_check {sys : System} {p : Policy} {r : Request}
    (hlasting : isAsked sys p r = true → readAnswer r.line = .always → Lasting sys p r) :
    KeepsAllowed sys p (check sys p r).2 := by
  by_cases halways : isAsked sys p r = true ∧ readAnswer r.line = .always
  · rw [check_always halways.1 halways.2]
    exact ((lasting_iff (isAllowed_of_isAsked halways.1)).mp (hlasting halways.1 halways.2)).2
  · rw [not_and_or, Bool.not_eq_true] at halways
    rw [(check_not_always halways).1]
    exact fun _ _ hallowed => hallowed

theorem AllLasting.after {sys : System} {start : Policy} {before after : List Request}
    (hall : AllLasting sys start (before ++ after)) :
    AllLasting sys (policyAfter sys start before) after := by
  intro middle r rest hafter
  have := hall (before ++ middle) r rest (by rw [hafter, List.append_assoc])
  rwa [policyAfter_append] at this

theorem AllLasting.before {sys : System} {start : Policy} {before after : List Request}
    (hall : AllLasting sys start (before ++ after)) : AllLasting sys start before := by
  intro first r middle hbefore
  exact hall first r (middle ++ after) (by rw [hbefore, List.append_assoc, List.cons_append])

/-- A run whose grants last keeps everything allowed. -/
theorem AllLasting.keepsAllowed {sys : System} {start : Policy} {requests : List Request}
    (hall : AllLasting sys start requests) :
    KeepsAllowed sys start (policyAfter sys start requests) := by
  induction requests generalizing start with
  | nil => exact fun _ _ hallowed => hallowed
  | cons r requests ih =>
      have hfirst : KeepsAllowed sys start (check sys start r).2 :=
        keepsAllowed_check (hall [] r requests rfl)
      have hall' : AllLasting sys start ([r] ++ requests) := hall
      have hrest := ih hall'.after
      intro capability target hallowed
      exact hrest capability target (hfirst capability target hallowed)

/-- The grants of a run are monotone exactly where every prompt answered with always has a target that
its own entry in the list matches, and the first readable path takes in the current directory. -/
theorem grants_monotone_iff {sys : System} {start : Policy} {requests : List Request} :
    Monotone sys start requests ↔ AllLasting sys start requests := by
  constructor
  · intro hmonotone before r after hrequests hasked halways
    obtain ⟨hcovers, hkeeps, -⟩ := hmonotone before r [] after (by simp [hrequests])
    have hnext : policyAfter sys start (before ++ [r]) =
        grant (policyAfter sys start before) r.capability r.target := by
      rw [policyAfter_append, policyAfter_cons, check_always hasked halways]
      rfl
    rw [hnext] at hcovers hkeeps
    apply (lasting_iff (isAllowed_of_isAsked hasked)).mpr
    constructor
    · have := hcovers (granted_always_iff.mpr ⟨hasked, halways⟩) none
      exact (check_allowed_iff (r := { r with line := none })).mp this
    · intro capability target hallowed
      have := hkeeps ⟨capability, target, none⟩ (check_allowed_iff.mpr hallowed) none
      exact (check_allowed_iff (r := ⟨capability, target, none⟩)).mp this
  · intro hall before r after rest hrequests
    rw [hrequests, List.append_assoc] at hall
    have hafter := hall.after
    rw [List.cons_append] at hafter
    have hkeptAfter : KeepsAllowed sys (check sys (policyAfter sys start before) r).2
        (policyAfter sys start (before ++ r :: after)) := by
      rw [policyAfter_append, policyAfter_cons]
      have hafter' : AllLasting sys (policyAfter sys start before) ([r] ++ (after ++ rest)) := hafter
      exact hafter'.after.before.keepsAllowed
    have hlasting : isAsked sys (policyAfter sys start before) r = true →
        readAnswer r.line = .always → Lasting sys (policyAfter sys start before) r :=
      hafter [] r (after ++ rest) rfl
    refine ⟨fun hgranted line => ?_, fun q hq line => ?_, fun hnot q => ?_⟩
    · obtain ⟨hasked, halways⟩ := granted_always_iff.mp hgranted
      have hcovers := ((lasting_iff (isAllowed_of_isAsked hasked)).mp (hlasting hasked halways)).1
      apply check_allowed_iff.mpr
      apply hkeptAfter
      rw [check_always hasked halways]
      exact hcovers
    · have hbefore := check_allowed_iff.mp hq
      apply check_allowed_iff.mpr
      apply hkeptAfter
      exact keepsAllowed_check hlasting _ _ hbefore
    · rw [ne_eq, granted_always_iff, not_and_or, Bool.not_eq_true] at hnot
      rw [policyAfter_append, policyAfter_append, policyAfter_cons, (check_not_always hnot).1]

/-- Safe mode with nothing granted. -/
def safePolicy : Policy :=
  { safeMode := true, allowAll := false, allowFFI := false, allowProcess := false,
    allowNet := false, allowRead := false, allowWrite := false, noPrompt := false,
    allowedReadPaths := [], allowedWritePaths := [], allowedNetHosts := [] }

/-- A terminal in `/home`, and paths whose parts are their bytes. -/
def terminal : System :=
  { interactive := true, windows := false, currentPath := lit "/home",
    weaklyCanonical := fun path => some (path.map fun c => [c]) }

/-- The same URL twice, the first time answered with always. -/
def urlTwice : List Request :=
  [⟨.net, lit "https://api.github.com", some (lit "always")⟩,
    ⟨.net, lit "https://api.github.com", some (lit "n")⟩]

/-- A file outside the current directory, answered with always. -/
def outsideFile : List Request := [⟨.read, lit "/etc/hosts", some (lit "a")⟩]

theorem urlTwice_not_monotone :
    ¬Monotone terminal safePolicy urlTwice ∧ ¬Monotone terminal safePolicy outsideFile := by
  constructor
  · intro hmonotone
    have hgranted := (hmonotone [] _ [] _ rfl).1 (by decide) (some (lit "n"))
    revert hgranted
    decide
  · intro hmonotone
    have hkept := (hmonotone [] _ [] _ rfl).2.1 ⟨.read, lit "/home/a", none⟩ (by decide) none
    revert hkept
    decide

end SecurityPolicy

end EZLanguage
