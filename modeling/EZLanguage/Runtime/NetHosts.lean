import EZLanguage.Runtime.SecurityPolicy
import Mathlib.Data.List.TakeWhile

/-!
# The host of a URL

`checkNet` and the client that makes the request read the same text. The client takes a scheme only where
a legal name stands before the first `://`, and the user information up to the last `@`. The check takes
what follows the first `://`, whatever stands before it, and the user information up to the first `@`.
-/

namespace EZLanguage

namespace SecurityPolicy

/-! ### The host a client connects to -/

def isSchemeChar (c : UInt8) : Bool :=
  (97 ≤ c && c ≤ 122) || (65 ≤ c && c ≤ 90) || (48 ≤ c && c ≤ 57) || (lit "+-.").contains c

def isScheme (s : CString) : Bool := !s.isEmpty && s.all isSchemeChar

/-- What stands before the first occurrence of `mark` and after it, if there is one. -/
def splitAtMark (mark : CString) : CString → Option (CString × CString)
  | [] => none
  | c :: rest =>
      if mark.isPrefixOf (c :: rest) then some ([], (c :: rest).drop mark.length)
      else (splitAtMark mark rest).map fun parts => (c :: parts.1, parts.2)

/-- The URL without its scheme. -/
def withoutScheme (url : CString) : CString :=
  match splitAtMark (lit "://") url with
  | some (scheme, rest) => if isScheme scheme then rest else url
  | none => url

/-- What follows the last `@`. -/
def withoutUser (authority : CString) : CString :=
  (authority.reverse.takeWhile fun c => c != 64).reverse

/-- The host without its port. An address in brackets has its own colons. -/
def withoutPort (host : CString) : CString :=
  match host with
  | 91 :: _ => host.take ((host.takeWhile fun c => c != 93).length + 1)
  | _ => host.takeWhile fun c => c != 58

/-- The host that a client connects to, in lower case. -/
def clientHost (url : CString) : CString :=
  let authority := (withoutScheme url).takeWhile fun c => !(lit "/?#").contains c
  (withoutPort (withoutUser authority)).map toLower

/-- A host is the other host, or a subdomain of it. -/
def SameOrSubdomain (host domain : CString) : Prop := host = domain ∨ (lit "." ++ domain) <:+ host

instance (host domain : CString) : Decidable (SameOrSubdomain host domain) :=
  inferInstanceAs (Decidable (_ ∨ _))

/-- Every policy that does not allow the network as a whole accepts the URL only for a host it allows. -/
def HostChecked (url : CString) : Prop :=
  ∀ (sys : System) (p : Policy) (line : Option CString), p.safeMode = true → p.allowAll = false →
    p.allowNet = false → lit "*" ∉ p.allowedNetHosts → (checkNet sys p url line).1 = .allowed →
      ∃ allowed ∈ p.allowedNetHosts, SameOrSubdomain (clientHost url) (allowed.map toLower)

/-! ### The host the check reads -/

/-- `rest` follows the first occurrence of `mark`, or is all where there is none. -/
def Follows (mark s rest : CString) : Prop :=
  (∃ before, s = before ++ mark ++ rest ∧
      ∀ sooner later, s = sooner ++ mark ++ later → before.length ≤ sooner.length) ∨
    ((∀ before after, s ≠ before ++ mark ++ after) ∧ rest = s)

/-- `text` is what comes before the first of `marks`, or all where there is none. -/
def Precedes (marks s text : CString) : Prop :=
  ∃ tail, s = text ++ tail ∧ (∀ c ∈ text, c ∉ marks) ∧ ∀ c ∈ tail.head?, c ∈ marks

/-- `name` is the first name of the URL: it stands after the first `://`, then before any of `/?#` and
after the first `@`, and before the next colon, each where there is one. -/
def FirstName (url name : CString) : Prop :=
  ∃ rest authority host, Follows (lit "://") url rest ∧ Precedes (lit "/?#") rest authority ∧
    Follows (lit "@") authority host ∧ Precedes (lit ":") host name

theorem Follows.unique {mark s rest other : CString} (hrest : Follows mark s rest)
    (hother : Follows mark s other) : rest = other := by
  obtain ⟨before, hs, hfirst⟩ | ⟨hnone, rfl⟩ := hrest
  · obtain ⟨before', hs', hfirst'⟩ | ⟨hnone, -⟩ := hother
    · have hlength : before.length = before'.length :=
        Nat.le_antisymm (hfirst _ _ hs') (hfirst' _ _ hs)
      rw [hs, List.append_assoc, List.append_assoc] at hs'
      exact List.append_cancel_left (List.append_inj_right hs' hlength)
    · exact absurd hs (hnone _ _)
  · obtain ⟨before', hs', -⟩ | ⟨-, rfl⟩ := hother
    · exact absurd hs' (hnone _ _)
    · rfl

/-- What `substrAfter` returns follows the first occurrence. -/
theorem first_of_substrAfter {mark s rest : CString}
    (hrest : substrAfter mark s = some rest) :
    ∃ before, s = before ++ mark ++ rest ∧
      ∀ sooner later, s = sooner ++ mark ++ later → before.length ≤ sooner.length := by
  induction s with
  | nil => cases hrest
  | cons c s ih =>
      rw [substrAfter] at hrest
      split at hrest
      · rename_i hprefix
        obtain ⟨tail, htail⟩ := List.isPrefixOf_iff_prefix.mp hprefix
        obtain rfl := Option.some.inj hrest
        refine ⟨[], ?_, fun _ _ _ => Nat.zero_le _⟩
        rw [← htail, List.drop_left, List.nil_append]
      · rename_i hprefix
        obtain ⟨before, hs, hfirst⟩ := ih hrest
        refine ⟨c :: before, by rw [hs]; rfl, fun sooner later hsplit => ?_⟩
        cases sooner with
        | nil =>
            refine absurd (List.isPrefixOf_iff_prefix.mpr ⟨later, ?_⟩) hprefix
            rw [hsplit, List.nil_append]
        | cons d sooner =>
            have htail := (List.cons.inj hsplit).2
            exact Nat.succ_le_succ (hfirst sooner later htail)

theorem absent_of_substrAfter {mark : CString} (hmark : mark ≠ []) {s : CString}
    (hnone : substrAfter mark s = none) (before after : CString) : s ≠ before ++ mark ++ after := by
  induction s generalizing before with
  | nil =>
      intro hs
      have hnil := List.append_eq_nil_iff.mp hs.symm
      exact hmark (List.append_eq_nil_iff.mp hnil.1).2
  | cons c s ih =>
      rw [substrAfter] at hnone
      split at hnone
      · cases hnone
      · rename_i hprefix
        intro hs
        cases before with
        | nil =>
            refine hprefix (List.isPrefixOf_iff_prefix.mpr ⟨after, ?_⟩)
            rw [hs, List.nil_append]
        | cons d before => exact ih hnone before (List.cons.inj hs).2

theorem follows_substrAfter {mark : CString} (hmark : mark ≠ []) (s : CString) :
    Follows mark s ((substrAfter mark s).getD s) := by
  cases hafter : substrAfter mark s with
  | some rest => exact .inl (first_of_substrAfter hafter)
  | none => exact .inr ⟨absent_of_substrAfter hmark hafter, rfl⟩

theorem Precedes.eq_substrBefore {marks s text : CString} (htext : Precedes marks s text) :
    text = substrBefore marks s := by
  obtain ⟨tail, hs, hclear, hmark⟩ := htext
  have htail : tail.takeWhile (fun c => !marks.contains c) = [] := by
    cases tail with
    | nil => rfl
    | cons c tail =>
        have hc : c ∈ marks := hmark c rfl
        simp [hc]
  rw [substrBefore, hs, List.takeWhile_append_of_pos (by simpa using hclear), htail, List.append_nil]

theorem precedes_substrBefore (marks s : CString) : Precedes marks s (substrBefore marks s) := by
  refine ⟨s.dropWhile fun c => !marks.contains c, List.takeWhile_append_dropWhile.symm, ?_, ?_⟩
  · intro c hc
    have hall := List.all_eq_true.mp (List.all_takeWhile (l := s)) c hc
    simpa using hall
  · intro c hc
    have hhead := List.head?_dropWhile_not (fun c => !marks.contains c) s
    rw [Option.mem_def.mp hc] at hhead
    simpa using hhead

/-- A URL has one first name, and the check compares it in lower case. -/
theorem firstName_iff {url name : CString} (hname : FirstName url name) :
    name.map toLower = actualHost url := by
  obtain ⟨rest, authority, host, hrest, hauthority, hhost, hname⟩ := hname
  rw [actualHost, ← hrest.unique (follows_substrAfter (by decide) url),
    ← hauthority.eq_substrBefore, ← hhost.unique (follows_substrAfter (by decide) authority),
    ← hname.eq_substrBefore]

theorem exists_firstName (url : CString) : ∃ name, FirstName url name :=
  ⟨_, _, _, _, follows_substrAfter (by decide) _, precedes_substrBefore _ _,
    follows_substrAfter (by decide) _, precedes_substrBefore _ _⟩

/-! ### Accepted hosts -/

theorem toLower_toLower (c : UInt8) : toLower (toLower c) = toLower c := by
  by_cases hc : 65 ≤ c ∧ c ≤ 90
  · have hsmall : ¬(65 ≤ c + 32 ∧ c + 32 ≤ 90) := by
      simp only [UInt8.le_iff_toNat_le, UInt8.toNat_add] at hc ⊢
      simp at hc ⊢
      omega
    rw [toLower, toLower, if_pos hc, if_neg hsmall]
  · rw [toLower, toLower, if_neg hc, if_neg hc]

theorem toLower_eq_star {c : UInt8} (hc : toLower c = 42) : c = 42 := by
  rw [toLower] at hc
  split at hc
  · rename_i hcase
    have hnat := congrArg UInt8.toNat hc
    simp only [UInt8.le_iff_toNat_le, UInt8.toNat_add] at hcase hnat
    simp at hcase hnat
    omega
  · exact hc

theorem map_toLower_eq_star {s : CString} (hs : s.map toLower = lit "*") : s = lit "*" := by
  obtain ⟨c, hs, hc⟩ := List.map_eq_singleton_iff.mp hs
  rw [hs, toLower_eq_star hc]
  rfl

theorem map_toLower_map_toLower (s : CString) : (s.map toLower).map toLower = s.map toLower := by
  rw [List.map_map]
  exact List.map_congr_left fun c _ => toLower_toLower c

theorem hostMatches_iff {host allowed : CString} (hallowed : allowed ≠ lit "*") :
    hostMatches host allowed = true ↔ SameOrSubdomain host (allowed.map toLower) := by
  simp [hostMatches, hallowed, SameOrSubdomain]

theorem SameOrSubdomain.trans {host domain parent : CString} (hhost : SameOrSubdomain host domain)
    (hdomain : SameOrSubdomain domain parent) : SameOrSubdomain host parent := by
  obtain rfl | hhost := hhost
  · exact hdomain
  · obtain rfl | hdomain := hdomain
    · exact .inr hhost
    · exact .inr ((hdomain.trans (List.suffix_append _ _)).trans hhost)

/-- Without the network as a whole, `checkNet` accepts a URL for an entry of the list only. -/
theorem checkNet_allowed_iff {sys : System} {p : Policy} {url : CString} {line : Option CString}
    (hsafe : p.safeMode = true) (hall : p.allowAll = false) (hnet : p.allowNet = false)
    (hstar : lit "*" ∉ p.allowedNetHosts) :
    (checkNet sys p url line).1 = .allowed ↔
      url ≠ [] ∧ ∃ allowed ∈ p.allowedNetHosts,
        SameOrSubdomain (actualHost url) (allowed.map toLower) := by
  have hcheck : (checkNet sys p url line).1 = .allowed ↔ netAllowed p url = true :=
    @check_allowed_iff sys p ⟨.net, url, line⟩
  have hentries : p.allowedNetHosts.any (hostMatches (actualHost url)) = true ↔
      ∃ allowed ∈ p.allowedNetHosts, SameOrSubdomain (actualHost url) (allowed.map toLower) := by
    rw [List.any_eq_true]
    apply exists_congr
    intro allowed
    apply and_congr_right
    intro hin
    exact hostMatches_iff fun h => hstar (h ▸ hin)
  rw [hcheck, netAllowed, hsafe, hall, hnet, ← hentries]
  cases p.allowedNetHosts <;> cases url <;> simp

/-- The empty URL, which is never accepted, or a URL with a first name that is `*`, which is never
accepted either, or that the client connects to, itself or a subdomain. -/
def HostKept (url : CString) : Prop :=
  url = [] ∨ ∃ name, FirstName url name ∧
    (name = lit "*" ∨ SameOrSubdomain (clientHost url) (name.map toLower))

/-- Only the entry `*` accepts the host `*`. -/
theorem star_of_sameOrSubdomain {domain : CString} (hdomain : SameOrSubdomain (lit "*") domain) :
    domain = lit "*" := by
  obtain hsame | hsub := hdomain
  · exact hsame.symm
  · have hlength := hsub.length_le
    have hnil : domain = [] := by
      simp [lit] at hlength
      exact hlength
    rw [hnil] at hsub
    exact absurd hsub (by decide)

/-- Safe mode with one entry in the list of hosts. -/
def onlyHost (host : CString) : Policy :=
  { safeMode := true, allowAll := false, allowFFI := false, allowProcess := false,
    allowNet := false, allowRead := false, allowWrite := false, noPrompt := false,
    allowedReadPaths := [], allowedWritePaths := [], allowedNetHosts := [host] }

/-- A URL is accepted for allowed hosts only, exactly when the first name in it, if it is a host at all,
is the host that the client connects to or a domain that host belongs to. -/
theorem hostChecked_iff (url : CString) : HostChecked url ↔ HostKept url := by
  obtain ⟨name, hname⟩ := exists_firstName url
  constructor
  · intro hchecked
    by_cases hurl : url = []
    · exact .inl hurl
    refine .inr ⟨name, hname, ?_⟩
    by_cases hstar : name = lit "*"
    · exact .inl hstar
    right
    have hentry : lit "*" ∉ (onlyHost (name.map toLower)).allowedNetHosts := by
      intro hin
      exact hstar (map_toLower_eq_star (List.mem_singleton.mp hin).symm)
    have haccepted : (checkNet ⟨false, false, [], fun _ => none⟩ (onlyHost (name.map toLower)) url
        none).1 = .allowed := by
      rw [checkNet_allowed_iff rfl rfl rfl hentry]
      refine ⟨hurl, _, List.mem_singleton.mpr rfl, ?_⟩
      rw [map_toLower_map_toLower, firstName_iff hname]
      exact .inl rfl
    obtain ⟨allowed, hin, hhost⟩ := hchecked _ _ _ rfl rfl rfl hentry haccepted
    rwa [List.mem_singleton.mp hin, map_toLower_map_toLower] at hhost
  · intro hkept sys p line hsafe hall hnet hstar haccepted
    rw [checkNet_allowed_iff hsafe hall hnet hstar] at haccepted
    obtain ⟨hurl, allowed, hin, hallowed⟩ := haccepted
    refine ⟨allowed, hin, ?_⟩
    obtain ⟨other, hother, hcases⟩ := hkept.resolve_left hurl
    rw [← firstName_iff hother] at hallowed
    obtain hother | hclient := hcases
    · rw [hother] at hallowed
      have hentry := map_toLower_eq_star (star_of_sameOrSubdomain hallowed)
      exact absurd (hentry ▸ hin) hstar
    · exact hclient.trans hallowed

/-- A URL with a second `://` in its query. -/
def redirected : CString := lit "evil.com/?next=x://allowed.com"

/-- The client connects to `evil.com`, and a policy for `allowed.com` accepts. -/
theorem redirected_not_checked : ¬HostChecked redirected := by
  intro hchecked
  obtain ⟨allowed, hin, hhost⟩ := hchecked ⟨false, false, [], fun _ => none⟩
    (onlyHost (lit "allowed.com")) none rfl rfl rfl (by decide) (by decide)
  rw [List.mem_singleton.mp hin] at hhost
  revert hhost
  decide

/-! ### Plain URLs -/

theorem splitAtMark_snd (mark s : CString) :
    (splitAtMark mark s).map Prod.snd = substrAfter mark s := by
  induction s with
  | nil => rfl
  | cons c s ih =>
      rw [splitAtMark, substrAfter]
      split
      · rfl
      · rw [Option.map_map, ← ih]
        rfl

theorem withoutUser_of_count {authority : CString} (hcount : authority.count 64 ≤ 1) :
    withoutUser authority = (substrAfter (lit "@") authority).getD authority := by
  obtain ⟨before, hauthority, -⟩ | ⟨hnone, hrest⟩ := follows_substrAfter
    (show lit "@" ≠ [] by decide) authority
  · generalize (substrAfter (lit "@") authority).getD authority = rest at hauthority ⊢
    have hclear : ∀ c ∈ rest.reverse, (c != 64) = true := by
      intro c hc
      rw [bne_iff_ne]
      intro hat
      have hpos : 0 < rest.count 64 := by
        rw [List.count_pos_iff, ← hat]
        exact List.mem_reverse.mp hc
      rw [hauthority, List.count_append, List.count_append, show (lit "@").count 64 = 1 from rfl]
        at hcount
      omega
    rw [withoutUser, hauthority, List.reverse_append, List.reverse_append,
      List.takeWhile_append_of_pos hclear, show (lit "@").reverse = [64] from rfl,
      List.singleton_append, List.takeWhile_cons_of_neg (by decide), List.append_nil,
      List.reverse_reverse]
  · have hclear : ∀ c ∈ authority.reverse, (c != 64) = true := by
      intro c hc
      rw [bne_iff_ne]
      intro hat
      obtain ⟨before, after, hsplit⟩ := List.append_of_mem (List.mem_reverse.mp hc)
      rw [hat] at hsplit
      exact hnone before after (by rw [hsplit, List.append_assoc]; rfl)
    rw [hrest, withoutUser, List.takeWhile_eq_self_iff.mpr hclear, List.reverse_reverse]

theorem withoutPort_of_head {host : CString} (hhost : host.head? ≠ some 91) :
    withoutPort host = substrBefore (lit ":") host := by
  have hcolon : (fun c : UInt8 => c != 58) = fun c => !(lit ":").contains c := by
    funext c
    by_cases hc : c = 58 <;> simp [lit, hc]
  rw [substrBefore, ← hcolon]
  unfold withoutPort
  split
  · exact absurd rfl hhost
  · rfl

/-- A URL with a legal scheme or none, at most one `@` in its authority and no address in brackets. -/
structure Plain (url : CString) : Prop where
  scheme : ∀ parts, splitAtMark (lit "://") url = some parts → isScheme parts.1 = true
  user : (substrBefore (lit "/?#") (withoutScheme url)).count 64 ≤ 1
  bracket : (withoutUser (substrBefore (lit "/?#") (withoutScheme url))).head? ≠ some 91

/-- The check reads the host of a plain URL as a client does. -/
theorem clientHost_of_plain {url : CString} (hplain : Plain url) :
    clientHost url = actualHost url := by
  have hscheme : withoutScheme url = (substrAfter (lit "://") url).getD url := by
    rw [withoutScheme, ← splitAtMark_snd]
    cases hsplit : splitAtMark (lit "://") url with
    | none => rfl
    | some parts =>
        simp only [hplain.scheme parts hsplit, if_true]
        rfl
  have hbracket := hplain.bracket
  rw [withoutUser_of_count hplain.user] at hbracket
  calc clientHost url
      = (withoutPort (withoutUser (substrBefore (lit "/?#") (withoutScheme url)))).map toLower := rfl
    _ = (substrBefore (lit ":") ((substrAfter (lit "@") (substrBefore (lit "/?#")
          (withoutScheme url))).getD (substrBefore (lit "/?#") (withoutScheme url)))).map toLower := by
        rw [withoutUser_of_count hplain.user, withoutPort_of_head hbracket]
    _ = actualHost url := by
        rw [hscheme]
        rfl

/-- No plain URL is accepted for another host than the one a client connects to. -/
theorem hostChecked_of_plain {url : CString} (hplain : Plain url) : HostChecked url := by
  intro sys p line hsafe hall hnet hstar haccepted
  rw [checkNet_allowed_iff hsafe hall hnet hstar] at haccepted
  rw [clientHost_of_plain hplain]
  exact haccepted.2

end SecurityPolicy

end EZLanguage
