import EZLanguage.Bytecode.Chunk

/-!
# The security policy

In safe mode a check accepts a request for a capability where the flags or the lists of the policy allow
it, and asks the user otherwise. The answer to a prompt is the line the user types. The file system and
the terminal stay as they are while a program runs.
-/

namespace EZLanguage

namespace SecurityPolicy

/-- `::tolower`. -/
def toLower (c : UInt8) : UInt8 := if 65 ≤ c ∧ c ≤ 90 then c + 32 else c

/-- `isspace`. -/
def isSpace (c : UInt8) : Bool := c == 32 || (9 ≤ c && c ≤ 13)

inductive Capability where
  | ffi | process | net | read | write
  deriving DecidableEq

/-- The static members of the class. -/
structure Policy where
  safeMode : Bool
  allowAll : Bool
  allowFFI : Bool
  allowProcess : Bool
  allowNet : Bool
  allowRead : Bool
  allowWrite : Bool
  noPrompt : Bool
  allowedReadPaths : List CString
  allowedWritePaths : List CString
  allowedNetHosts : List CString
  deriving DecidableEq

/-- The system a program runs on: `isInteractiveTerminal`, the current path, and the parts of a path as
`weakly_canonical` returns them, or none where it throws. -/
structure System where
  interactive : Bool
  windows : Bool
  currentPath : CString
  weaklyCanonical : CString → Option (List CString)

/-! ### The prompt -/

/-- What the user said. -/
inductive Answer where
  | notAsked | no | yes | always
  deriving DecidableEq

/-- The response without the spaces around it, in lower case. -/
def trimResponse (response : CString) : CString :=
  (((response.dropWhile isSpace).reverse.dropWhile isSpace).reverse).map toLower

/-- The line typed at a prompt, or none at the end of the input. -/
def readAnswer : Option CString → Answer
  | none => .no
  | some line =>
      let response := trimResponse line
      if response = lit "y" ∨ response = lit "yes" then .yes
      else if response = lit "a" ∨ response = lit "always" then .always
      else .no

/-- What the answer always adds to the policy. -/
def grant (p : Policy) (capability : Capability) (detail : CString) : Policy :=
  match capability with
  | .ffi => { p with allowFFI := true }
  | .process => { p with allowProcess := true }
  | .net =>
      if detail ≠ [] then { p with allowedNetHosts := p.allowedNetHosts ++ [detail] }
      else { p with allowNet := true }
  | .read =>
      if detail ≠ [] then { p with allowedReadPaths := p.allowedReadPaths ++ [detail] }
      else { p with allowRead := true }
  | .write =>
      if detail ≠ [] then { p with allowedWritePaths := p.allowedWritePaths ++ [detail] }
      else { p with allowWrite := true }

def promptUser (sys : System) (p : Policy) (capability : Capability) (detail : CString)
    (line : Option CString) : Answer × Policy :=
  if p.noPrompt || !sys.interactive then (.notAsked, p)
  else
    match readAnswer line with
    | .always => (.always, grant p capability detail)
    | answer => (answer, p)

/-! ### Paths and hosts -/

/-- The loop of `isSubpathOrEqual` over the parts of both paths. -/
def startsWith : List CString → List CString → Bool
  | b :: base, t :: target => b = t && startsWith base target
  | [], _ => true
  | _ :: _, [] => false

def isSubpathOrEqual (sys : System) (base target : CString) : Bool :=
  match sys.weaklyCanonical base, sys.weaklyCanonical target with
  | some normBase, some normTarget =>
      let part : CString → CString := fun p => if sys.windows then p.map toLower else p
      startsWith (normBase.map part) (normTarget.map part)
  | _, _ => false

/-- What follows the first occurrence of `mark`, if there is one. -/
def substrAfter (mark : CString) : CString → Option CString
  | [] => none
  | c :: rest =>
      if mark.isPrefixOf (c :: rest) then some ((c :: rest).drop mark.length)
      else substrAfter mark rest

/-- What precedes the first of the bytes of `marks`. -/
def substrBefore (marks : CString) (s : CString) : CString := s.takeWhile fun c => !marks.contains c

/-- The host of a URL as `checkNet` extracts it. -/
def actualHost (targetHostOrUrl : CString) : CString :=
  let rest := (substrAfter (lit "://") targetHostOrUrl).getD targetHostOrUrl
  let authority := substrBefore (lit "/?#") rest
  let host := (substrAfter (lit "@") authority).getD authority
  (substrBefore (lit ":") host).map toLower

/-- An entry of `allowedNetHosts` accepts a host. -/
def hostMatches (host allowed : CString) : Bool :=
  let lowerAllowed := allowed.map toLower
  allowed = lit "*" || host = lowerAllowed || (lit "." ++ lowerAllowed).isSuffixOf host

/-! ### The checks -/

def ffiAllowed (p : Policy) : Bool := !p.safeMode || p.allowAll || p.allowFFI

def processAllowed (p : Policy) : Bool := !p.safeMode || p.allowAll || p.allowProcess

def netAllowed (p : Policy) (targetHostOrUrl : CString) : Bool :=
  !p.safeMode || p.allowAll || p.allowNet ||
    (!p.allowedNetHosts.isEmpty && !targetHostOrUrl.isEmpty &&
      p.allowedNetHosts.any (hostMatches (actualHost targetHostOrUrl)))

/-- An entry of a path list accepts a path. -/
def pathMatches (sys : System) (targetPath allowed : CString) : Bool :=
  allowed = lit "*" || isSubpathOrEqual sys allowed targetPath

def readAllowed (sys : System) (p : Policy) (targetPath : CString) : Bool :=
  !p.safeMode || p.allowAll || p.allowRead ||
    if p.allowedReadPaths.isEmpty then isSubpathOrEqual sys sys.currentPath targetPath
    else p.allowedReadPaths.any (pathMatches sys targetPath)

def writeAllowed (sys : System) (p : Policy) (targetPath : CString) : Bool :=
  !p.safeMode || p.allowAll || p.allowWrite ||
    (!p.allowedWritePaths.isEmpty && p.allowedWritePaths.any (pathMatches sys targetPath))

/-- How a check ends: accepted without a prompt, accepted at a prompt, or with a `PermissionError`. -/
inductive Outcome where
  | allowed
  | granted (answer : Answer)
  | denied (message : CString)
  deriving DecidableEq

/-- The end of every check: the prompt, and the error if it does not grant the request. -/
def ask (sys : System) (p : Policy) (capability : Capability) (detail : CString)
    (line : Option CString) (message : CString) : Outcome × Policy :=
  match promptUser sys p capability detail line with
  | (.yes, p) => (.granted .yes, p)
  | (.always, p) => (.granted .always, p)
  | (_, p) => (.denied message, p)

def checkFFI (sys : System) (p : Policy) (libraryName : CString) (line : Option CString) :
    Outcome × Policy :=
  if ffiAllowed p then (.allowed, p)
  else
    ask sys p .ffi libraryName line
      (lit "Native FFI is disabled in --safe mode." ++
        (if libraryName ≠ [] then lit " Blocked attempt to load '" ++ libraryName ++ lit "'."
          else []) ++
        lit " Grant permission with --allow-ffi or --allow-all.")

def checkProcess (sys : System) (p : Policy) (command : CString) (line : Option CString) :
    Outcome × Policy :=
  if processAllowed p then (.allowed, p)
  else
    ask sys p .process command line
      (lit "Process execution (system/exec) is disabled in --safe mode." ++
        (if command ≠ [] then lit " Blocked command '" ++ command ++ lit "'." else []) ++
        lit " Grant permission with --allow-process or --allow-all.")

def checkNet (sys : System) (p : Policy) (targetHostOrUrl : CString) (line : Option CString) :
    Outcome × Policy :=
  if netAllowed p targetHostOrUrl then (.allowed, p)
  else
    ask sys p .net targetHostOrUrl line
      (lit "Network access is disabled in --safe mode." ++
        (if targetHostOrUrl ≠ [] then
          lit " Blocked request to '" ++ targetHostOrUrl ++ lit "'." else []) ++
        lit " Grant permission with --allow-net or --allow-all.")

def checkRead (sys : System) (p : Policy) (targetPath : CString) (line : Option CString) :
    Outcome × Policy :=
  if readAllowed sys p targetPath then (.allowed, p)
  else
    ask sys p .read targetPath line
      (lit "File read access to '" ++ targetPath ++
        lit "' is denied in --safe mode. Grant permission with --allow-read=" ++ targetPath ++
        lit " or --allow-all.")

def checkWrite (sys : System) (p : Policy) (targetPath : CString) (line : Option CString) :
    Outcome × Policy :=
  if writeAllowed sys p targetPath then (.allowed, p)
  else
    ask sys p .write targetPath line
      (lit "File write access to '" ++ targetPath ++
        lit "' is denied in --safe mode. Grant permission with --allow-write=" ++ targetPath ++
        lit " or --allow-all.")

/-! ### Requests -/

/-- A check of the program, and the line the user would answer a prompt with. -/
structure Request where
  capability : Capability
  target : CString
  line : Option CString
  deriving DecidableEq

def check (sys : System) (p : Policy) (r : Request) : Outcome × Policy :=
  match r.capability with
  | .ffi => checkFFI sys p r.target r.line
  | .process => checkProcess sys p r.target r.line
  | .net => checkNet sys p r.target r.line
  | .read => checkRead sys p r.target r.line
  | .write => checkWrite sys p r.target r.line

/-- The policy after the checks of a program, one after the other. -/
def policyAfter (sys : System) (p : Policy) (requests : List Request) : Policy :=
  requests.foldl (fun p r => (check sys p r).2) p

/-- A request is accepted without a prompt. -/
def isAllowed (sys : System) (p : Policy) (capability : Capability) (target : CString) : Bool :=
  match capability with
  | .ffi => ffiAllowed p
  | .process => processAllowed p
  | .net => netAllowed p target
  | .read => readAllowed sys p target
  | .write => writeAllowed sys p target

/-- A request reaches a prompt. -/
def isAsked (sys : System) (p : Policy) (r : Request) : Bool :=
  !isAllowed sys p r.capability r.target && !p.noPrompt && sys.interactive

/-! ### What a check does -/

theorem check_of_allowed {sys : System} {p : Policy} {r : Request}
    (hallowed : isAllowed sys p r.capability r.target = true) :
    check sys p r = (.allowed, p) := by
  cases hcapability : r.capability <;> rw [hcapability] at hallowed <;>
    simp only [isAllowed] at hallowed <;>
    simp [check, hcapability, checkFFI, checkProcess, checkNet, checkRead, checkWrite, hallowed]

theorem check_of_not_allowed {sys : System} {p : Policy} {r : Request}
    (hallowed : isAllowed sys p r.capability r.target = false) :
    ∃ message, check sys p r = ask sys p r.capability r.target r.line message := by
  cases hcapability : r.capability <;> rw [hcapability] at hallowed <;>
    simp only [isAllowed] at hallowed <;>
    exact ⟨_, by
      simp only [check, hcapability, checkFFI, checkProcess, checkNet, checkRead, checkWrite,
        hallowed, Bool.false_eq_true, if_false]
      rfl⟩

/-- A check is accepted without a prompt exactly where the policy allows its request. -/
theorem check_allowed_iff {sys : System} {p : Policy} {r : Request} :
    (check sys p r).1 = .allowed ↔ isAllowed sys p r.capability r.target = true := by
  constructor
  · intro hcheck
    by_contra hnot
    rw [Bool.not_eq_true] at hnot
    obtain ⟨message, hask⟩ := check_of_not_allowed hnot
    rw [hask, ask] at hcheck
    split at hcheck <;> cases hcheck
  · intro hallowed
    rw [check_of_allowed hallowed]

/-- A check that asks ends as the user answers. -/
theorem check_of_asked {sys : System} {p : Policy} {r : Request} (hasked : isAsked sys p r = true) :
    ∃ message, check sys p r =
      match readAnswer r.line with
      | .always => (.granted .always, grant p r.capability r.target)
      | .yes => (.granted .yes, p)
      | _ => (.denied message, p) := by
  simp only [isAsked, Bool.and_eq_true, Bool.not_eq_eq_eq_not, Bool.not_true] at hasked
  obtain ⟨⟨hallowed, hprompt⟩, hterminal⟩ := hasked
  obtain ⟨message, hask⟩ := check_of_not_allowed hallowed
  refine ⟨message, ?_⟩
  rw [hask, ask, promptUser, hprompt, hterminal]
  cases readAnswer r.line <;> rfl

/-- A check that does not ask leaves the policy as it is. -/
theorem check_of_not_asked {sys : System} {p : Policy} {r : Request}
    (hasked : isAsked sys p r = false) :
    (check sys p r).2 = p ∧ (check sys p r).1 ≠ .granted .always := by
  by_cases hallowed : isAllowed sys p r.capability r.target = true
  · rw [check_of_allowed hallowed]
    exact ⟨rfl, by simp⟩
  · rw [Bool.not_eq_true] at hallowed
    obtain ⟨message, hask⟩ := check_of_not_allowed hallowed
    have hclosed : (p.noPrompt || !sys.interactive) = true := by
      simpa [isAsked, hallowed, Bool.or_comm, imp_iff_not_or] using hasked
    rw [hask, ask, promptUser, hclosed]
    exact ⟨rfl, by simp⟩

end SecurityPolicy

end EZLanguage
