import EZLanguage.Bytecode.Chunk
import Mathlib.Data.List.Nodup
import Mathlib.Logic.Function.Basic
import Mathlib.Tactic.Common

/-!
# Installing packages

A plan is installed package by package, each into a directory of its own that is emptied first. The lock is
written when the last package is in place, so that it knows nothing of a plan that stopped half way.
-/

namespace EZLanguage

namespace PackageManager

/-- A package of the plan, with what the installer reads of it after the download. -/
structure PlannedPackage where
  name : CString
  version : CString
  installDir : CString
  shasum : CString
  direct : Bool

structure LockEntry where
  version : CString
  sha256 : CString
  direct : Bool

/-- What a directory of the library root holds. -/
inductive Holding where
  | byHand
  | unpacked (name version : CString)
  | unfinished
  deriving DecidableEq

/-- The library root by its directories, and the lock by its packages. -/
structure Library where
  root : CString → Option Holding
  lock : CString → Option LockEntry

/-- How the steps for one package come out: the checksum of the tarball in the cache, that of the one that
is downloaded, and whether the directory can be made and the tarball unpacked. -/
structure Attempt where
  cached : Option CString
  downloaded : Option CString
  created : Bool
  unpacked : Bool

/-- Why `installPlanned` gives up. -/
inductive Cause where
  | download
  | checksum
  | refused
  | create
  | unpack
  deriving DecidableEq

/-- A tarball with the right checksum comes from the cache or from the registry. -/
def fetch (p : PlannedPackage) (a : Attempt) : Option Cause :=
  if a.cached = some p.shasum ∧ p.shasum ≠ [] then none
  else
    match a.downloaded with
    | none => some .download
    | some actual => if p.shasum ≠ [] ∧ actual ≠ p.shasum then some .checksum else none

def Library.setDir (s : Library) (dir : CString) (holding : Option Holding) : Library :=
  { s with root := Function.update s.root dir holding }

def installPlanned (force : Bool) (p : PlannedPackage) (a : Attempt) (s : Library) :
    Option Cause × Library :=
  match fetch p a with
  | some cause => (some cause, s)
  | none =>
      if s.root p.installDir ≠ none ∧ (s.lock p.name).isNone ∧ force = false then
        (some .refused, s)
      else if a.created = false then (some .create, s.setDir p.installDir none)
      else if a.unpacked = false then (some .unpack, s.setDir p.installDir (some .unfinished))
      else (none, s.setDir p.installDir (some (.unpacked p.name p.version)))

/-- The packages of the plan in order, up to the first that fails. -/
def installEach (force : Bool) :
    List (PlannedPackage × Attempt) → Library → Option Cause × Library
  | [], s => (none, s)
  | (p, a) :: rest, s =>
      match installPlanned force p a s with
      | (some cause, s') => (some cause, s')
      | (none, s') => installEach force rest s'

/-- One package of the plan in `writeLock`. A package that was wanted directly stays so. -/
def lockPackage (lock : CString → Option LockEntry) (p : PlannedPackage) :
    CString → Option LockEntry :=
  Function.update lock p.name
    (some
      { version := p.version
        sha256 := p.shasum
        direct := p.direct || (lock p.name).any (·.direct) })

def writeLock (plan : List PlannedPackage) (s : Library) : Library :=
  { s with lock := plan.foldl lockPackage s.lock }

/-- `installResolved` for a plan that was resolved. -/
def installResolved (force : Bool) (plan : List (PlannedPackage × Attempt)) (s : Library) :
    Option Cause × Library :=
  match installEach force plan s with
  | (some cause, s') => (some cause, s')
  | (none, s') => (none, writeLock (plan.map Prod.fst) s')

/-! ### What one package changes -/

section Step

variable {force : Bool} {p : PlannedPackage} {a : Attempt} {s : Library}

@[simp] theorem setDir_self (dir : CString) (holding : Option Holding) :
    (s.setDir dir holding).root dir = holding := by
  simp [Library.setDir]

theorem setDir_ne {dir d : CString} (hne : d ≠ dir) (holding : Option Holding) :
    (s.setDir dir holding).root d = s.root d := by
  simp [Library.setDir, hne]

theorem fetch_cause {cause : Cause} (hfetch : fetch p a = some cause) :
    cause = .download ∨ cause = .checksum := by
  rw [fetch] at hfetch
  split at hfetch
  · cases hfetch
  split at hfetch
  · cases hfetch
    exact Or.inl rfl
  · split at hfetch
    · cases hfetch
      exact Or.inr rfl
    · cases hfetch

/-- What `installPlanned` can do: nothing, or something to the directory of the package. -/
theorem installPlanned_cases :
    (∃ cause, installPlanned force p a s = (some cause, s) ∧
      (cause = .download ∨ cause = .checksum ∨ cause = .refused)) ∨
    installPlanned force p a s = (some .create, s.setDir p.installDir none) ∨
    installPlanned force p a s = (some .unpack, s.setDir p.installDir (some .unfinished)) ∨
    installPlanned force p a s =
      (none, s.setDir p.installDir (some (.unpacked p.name p.version))) := by
  rw [installPlanned]
  cases hfetch : fetch p a with
  | some cause =>
      left
      refine ⟨cause, rfl, ?_⟩
      obtain h | h := fetch_cause hfetch
      · exact Or.inl h
      · exact Or.inr (Or.inl h)
  | none =>
      dsimp only
      split
      · exact Or.inl ⟨.refused, rfl, Or.inr (Or.inr rfl)⟩
      split
      · exact Or.inr (Or.inl rfl)
      split
      · exact Or.inr (Or.inr (Or.inl rfl))
      · exact Or.inr (Or.inr (Or.inr rfl))

theorem installPlanned_lock : (installPlanned force p a s).2.lock = s.lock := by
  obtain ⟨cause, heq, _⟩ | heq | heq | heq := @installPlanned_cases force p a s <;> rw [heq] <;> rfl

theorem installPlanned_root_ne {d : CString} (hne : d ≠ p.installDir) :
    (installPlanned force p a s).2.root d = s.root d := by
  obtain ⟨cause, heq, _⟩ | heq | heq | heq := @installPlanned_cases force p a s <;> rw [heq]
  · exact setDir_ne hne none
  · exact setDir_ne hne _
  · exact setDir_ne hne _

theorem installPlanned_root_self (hok : (installPlanned force p a s).1 = none) :
    (installPlanned force p a s).2.root p.installDir = some (.unpacked p.name p.version) := by
  obtain ⟨cause, heq, _⟩ | heq | heq | heq := @installPlanned_cases force p a s <;> rw [heq] at hok ⊢
  · cases hok
  · cases hok
  · cases hok
  · exact setDir_self _ _

end Step

/-! ### What a run over packages changes -/

/-- The directories of a plan. -/
def dirs (plan : List (PlannedPackage × Attempt)) : List CString :=
  plan.map fun x => x.1.installDir

theorem mem_dirs {plan : List (PlannedPackage × Attempt)} {x : PlannedPackage × Attempt}
    (hx : x ∈ plan) : x.1.installDir ∈ dirs plan :=
  List.mem_map_of_mem hx

section Run

variable {force : Bool} {s : Library}

theorem installEach_cons {p : PlannedPackage} {a : Attempt}
    {rest : List (PlannedPackage × Attempt)} (hok : (installPlanned force p a s).1 = none) :
    installEach force ((p, a) :: rest) s =
      installEach force rest (installPlanned force p a s).2 := by
  rw [installEach]
  split
  · next cause s' heq =>
      rw [heq] at hok
      cases hok
  · next s' heq => rw [heq]

theorem installEach_stop {p : PlannedPackage} {a : Attempt}
    {rest : List (PlannedPackage × Attempt)} {cause : Cause}
    (hfail : (installPlanned force p a s).1 = some cause) :
    installEach force ((p, a) :: rest) s = (some cause, (installPlanned force p a s).2) := by
  rw [installEach]
  split
  · next cause' s' heq =>
      rw [heq] at hfail ⊢
      cases hfail
      rfl
  · next s' heq =>
      rw [heq] at hfail
      cases hfail

theorem ok_of_installEach_cons {p : PlannedPackage} {a : Attempt}
    {rest : List (PlannedPackage × Attempt)}
    (hrun : (installEach force ((p, a) :: rest) s).1 = none) :
    (installPlanned force p a s).1 = none := by
  cases hstep : (installPlanned force p a s).1 with
  | none => rfl
  | some cause =>
      rw [installEach_stop hstep] at hrun
      cases hrun

theorem installEach_append {done rest : List (PlannedPackage × Attempt)}
    (hdone : (installEach force done s).1 = none) :
    installEach force (done ++ rest) s = installEach force rest (installEach force done s).2 := by
  induction done generalizing s with
  | nil => rfl
  | cons x done ih =>
      obtain ⟨p, a⟩ := x
      have hok := ok_of_installEach_cons hdone
      rw [List.cons_append, installEach_cons hok, installEach_cons hok]
      rw [installEach_cons hok] at hdone
      exact ih hdone

theorem installEach_lock {done : List (PlannedPackage × Attempt)}
    (hdone : (installEach force done s).1 = none) : (installEach force done s).2.lock = s.lock := by
  induction done generalizing s with
  | nil => rfl
  | cons x done ih =>
      obtain ⟨p, a⟩ := x
      have hok := ok_of_installEach_cons hdone
      rw [installEach_cons hok] at hdone ⊢
      rw [ih hdone, installPlanned_lock]

theorem installEach_root_ne {done : List (PlannedPackage × Attempt)} {d : CString}
    (hdone : (installEach force done s).1 = none) (hne : d ∉ dirs done) :
    (installEach force done s).2.root d = s.root d := by
  induction done generalizing s with
  | nil => rfl
  | cons x done ih =>
      obtain ⟨p, a⟩ := x
      have hok := ok_of_installEach_cons hdone
      obtain ⟨hd, hrest⟩ := not_or.mp (List.mem_cons.not.mp hne)
      rw [installEach_cons hok] at hdone ⊢
      rw [ih hdone hrest, installPlanned_root_ne hd]

theorem installEach_root_mem {done : List (PlannedPackage × Attempt)}
    {x : PlannedPackage × Attempt} (hdone : (installEach force done s).1 = none)
    (hdistinct : (dirs done).Nodup) (hx : x ∈ done) :
    (installEach force done s).2.root x.1.installDir =
      some (.unpacked x.1.name x.1.version) := by
  induction done generalizing s with
  | nil => cases hx
  | cons y done ih =>
      obtain ⟨p, a⟩ := y
      have hok := ok_of_installEach_cons hdone
      obtain ⟨hfresh, hdistinct'⟩ := List.nodup_cons.mp hdistinct
      rw [installEach_cons hok] at hdone ⊢
      rcases List.mem_cons.mp hx with rfl | hmem
      · rw [installEach_root_ne hdone hfresh, installPlanned_root_self hok]
      · exact ih hdone hdistinct' hmem

end Run

end PackageManager

end EZLanguage
