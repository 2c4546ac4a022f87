import EZLanguage.Cli.PackageManager
import Mathlib.Data.List.Infix

/-!
# The files the package manager touches

Names of packages and of their directories become paths of the file system, with the separators and the dots
they have. `uninstall` removes whatever is at the path of the name. `install` asks the lock about the name
and empties the path of the directory.
-/

namespace EZLanguage

namespace PackageManager

abbrev Path := List CString

inductive Node where
  | directory
  | file (content : CString)
  deriving DecidableEq

/-! ### Paths of names -/

/-- The parts of a name between its separators. -/
def components : CString → List CString
  | [] => [[]]
  | c :: rest =>
      if c = 47 then [] :: components rest
      else
        match components rest with
        | [] => [[c]]
        | part :: parts => (c :: part) :: parts

/-- One step along a path. -/
def enter (path : Path) (part : CString) : Path :=
  if part = [] ∨ part = lit "." then path
  else if part = lit ".." then path.dropLast
  else path ++ [part]

/-- `operator/` of a path and a name, an absolute name in the place of the path. -/
def join (path : Path) (name : CString) : Path :=
  (components name).foldl enter (if name.head? = some 47 then [] else path)

/-- A name that is one directory of the library root, and is not the lock. -/
structure PlainName (name : CString) : Prop where
  separator : 47 ∉ name
  nonempty : name ≠ []
  dot : name ≠ lit "."
  dots : name ≠ lit ".."
  lock : name ≠ lit "ez.lock"

theorem components_plain {name : CString} (hseparator : 47 ∉ name) : components name = [name] := by
  induction name with
  | nil => rfl
  | cons c rest ih =>
      obtain ⟨hc, hrest⟩ := not_or.mp (List.mem_cons.not.mp hseparator)
      rw [components, if_neg (fun h => hc h.symm), ih hrest]

theorem join_plain {path : Path} {name : CString} (hname : PlainName name) :
    join path name = path ++ [name] := by
  have habsolute : name.head? ≠ some 47 := by
    intro h
    cases name with
    | nil => exact hname.nonempty rfl
    | cons c rest =>
        cases h
        exact hname.separator (List.mem_cons_self ..)
  have hpart : ¬ (name = [] ∨ name = lit ".") := by
    intro h
    obtain h | h := h
    · exact hname.nonempty h
    · exact hname.dot h
  rw [join, if_neg habsolute, components_plain hname.separator, List.foldl_cons, List.foldl_nil,
    enter, if_neg hpart, if_neg hname.dots]

/-! ### Files -/

/-- Where the library root, the cache of tarballs and the manifest of the project are. The project and the
cache lie outside the library root. -/
structure Layout where
  base : Path
  cache : Path
  manifest : Path
  cache_apart : ¬ cache <+: base ∧ ¬ base <+: cache
  manifest_apart : ¬ base <+: manifest ∧ ¬ manifest <+: base

/-- The files, but for the lock, and the lock. -/
structure Disk where
  files : Path → Option Node
  lock : CString → Option LockEntry

/-- `fs::remove_all`. -/
def removeAll (files : Path → Option Node) (target : Path) : Path → Option Node :=
  fun q => if target <+: q then none else files q

/-- `fs::create_directories`. -/
def createDirectories (files : Path → Option Node) (target : Path) : Path → Option Node :=
  fun q => if q <+: target ∧ files q = none then some .directory else files q

/-- The entries of a tarball, each under the directory it is unpacked in. -/
def unpack (files : Path → Option Node) (target : Path) (entries : List (Path × Node)) :
    Path → Option Node :=
  entries.foldl (fun files entry => Function.update files (target ++ entry.1) (some entry.2)) files

variable (layout : Layout)

/-- The manifest is written when it exists and the command has something to write. -/
def writeManifest (text : Option CString) (files : Path → Option Node) : Path → Option Node :=
  match text with
  | none => files
  | some text =>
      if files layout.manifest = none then files
      else Function.update files layout.manifest (some (.file text))

def uninstall (name : CString) (manifest : Option CString) (s : Disk) : Disk :=
  let dir := join layout.base name
  let files := if s.files dir = none then s.files else removeAll s.files dir
  { files := writeManifest layout manifest files, lock := Function.update s.lock name none }

/-- How the steps for one package come out, with what a download leaves in the cache and the entries that
are unpacked. -/
structure Delivery where
  attempt : Attempt
  tarball : Option Node
  entries : List (Path × Node)

def tarballName (p : PlannedPackage) : CString := p.name ++ lit "-" ++ p.version ++ lit ".tgz"

/-- What `installPlanned` does to the cache. A tarball with a wrong checksum is removed. -/
def fetchFiles (p : PlannedPackage) (x : Delivery) (files : Path → Option Node) :
    Path → Option Node :=
  if x.attempt.cached = some p.shasum ∧ p.shasum ≠ [] then files
  else
    Function.update files (join layout.cache (tarballName p))
      (if fetch p x.attempt = some .checksum then none else x.tarball)

/-- `installPlanned` without `--force`: whether the package is in place, and the files. -/
def placePackage (p : PlannedPackage) (x : Delivery) (s : Disk) : Bool × Disk :=
  let fetched := fetchFiles layout p x s.files
  let target := join layout.base p.installDir
  if fetch p x.attempt ≠ none then (false, { s with files := fetched })
  else if fetched target ≠ none ∧ (s.lock p.name).isNone then (false, { s with files := fetched })
  else if x.attempt.created = false then (false, { s with files := removeAll fetched target })
  else
    (x.attempt.unpacked,
      { s with
        files := unpack (createDirectories (removeAll fetched target) target) target x.entries })

def placeEach : List (PlannedPackage × Delivery) → Disk → Bool × Disk
  | [], s => (true, s)
  | (p, x) :: rest, s =>
      match placePackage layout p x s with
      | (false, s') => (false, s')
      | (true, s') => placeEach rest s'

/-- `installResolved` without `--force`. -/
def install (plan : List (PlannedPackage × Delivery)) (manifest : Option CString) (s : Disk) :
    Disk :=
  match placeEach layout plan s with
  | (false, s') => s'
  | (true, s') =>
      { files := writeManifest layout manifest s'.files
        lock := (plan.map Prod.fst).foldl lockPackage s'.lock }

/-- A command without `--force`, with what the registry and the network answer. -/
inductive Command where
  | install (plan : List (PlannedPackage × Delivery)) (manifest : Option CString)
  | uninstall (name : CString) (manifest : Option CString)

def exec : Command → Disk → Disk
  | .install plan manifest => install layout plan manifest
  | .uninstall name manifest => uninstall layout name manifest

/-! ### What is not the package manager's -/

/-- A path of neither the cache nor the manifest that is outside the directories of the library root, or in
one that exists and that the lock does not have. -/
def Foreign (s : Disk) (q : Path) : Prop :=
  (¬ layout.cache <+: q ∧ q ≠ layout.manifest) ∧
    ∀ dir, layout.base ++ [dir] <+: q → s.files (layout.base ++ [dir]) ≠ none ∧ s.lock dir = none

/-- A command leaves what is not the package manager's. -/
def LeavesForeign (c : Command) (s : Disk) : Prop :=
  ∀ q, Foreign layout s q → (exec layout c s).files q = s.files q

/-- A command that names directories of the library root, and only what it may remove. -/
def Careful (s : Disk) : Command → Prop
  | .uninstall name _ =>
      PlainName name ∧ (s.lock name ≠ none ∨ s.files (layout.base ++ [name]) = none)
  | .install plan _ =>
      ∀ x ∈ plan, PlainName x.1.installDir ∧ PlainName (tarballName x.1) ∧
        (x.1.installDir = x.1.name ∨ s.files (layout.base ++ [x.1.installDir]) = none)

/-- The library root exists. -/
def Rooted (s : Disk) : Prop := ∀ q, q <+: layout.base → s.files q ≠ none

end PackageManager

end EZLanguage
