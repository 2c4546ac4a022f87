import EZLanguage.Cli.PackageManager

/-!
# An install that stops half way

The packages before the one that fails are in place and are not in the lock. The lock and the library root
agree afterwards only if the lock already had these packages at these versions.
-/

namespace EZLanguage

namespace PackageManager

/-- The lock and the library root agree. -/
structure Agrees (s : Library) : Prop where
  recorded : ∀ d name version, s.root d = some (.unpacked name version) →
    ∃ e, s.lock name = some e ∧ e.version = version
  finished : ∀ d, s.root d ≠ some .unfinished
  present : ∀ name e, s.lock name = some e → ∃ d, s.root d = some (.unpacked name e.version)

/-- Nothing outside the library fails for a package. -/
def Good (x : PlannedPackage × Attempt) : Prop :=
  fetch x.1 x.2 = none ∧ x.2.created = true ∧ x.2.unpacked = true

/-- The plan can be installed without `--force`. -/
def Installs (plan : List PlannedPackage) (s : Library) : Prop :=
  ∀ again : List (PlannedPackage × Attempt), again.map Prod.fst = plan → (∀ x ∈ again, Good x) →
    (installResolved false again s).1 = none

/-- What an install that stops at a package has to leave. -/
structure Survives (plan : List PlannedPackage) (p : PlannedPackage) (s s' : Library) : Prop where
  agrees : Agrees s'
  kept : s'.root p.installDir = s.root p.installDir
  again : Installs plan s'

/-- The packages before the one that fails were recorded as they are, and nothing was removed. -/
structure Harmless (plan done : List PlannedPackage) (p : PlannedPackage) (cause : Cause)
    (s : Library) : Prop where
  recorded : ∀ q ∈ done, ∃ e, s.lock q.name = some e ∧ e.version = q.version
  early : cause = .download ∨ cause = .checksum ∨ cause = .create ∧ s.root p.installDir = none
  present : ∀ name e, s.lock name = some e → (∃ q ∈ done, q.name = name) ∨
    ∃ d, s.root d = some (.unpacked name e.version) ∧ ∀ q ∈ done, q.installDir ≠ d
  admitted : ∀ q ∈ plan, s.root q.installDir ≠ none → s.lock q.name ≠ none

/-! ### Installing again -/

theorem installPlanned_good {x : PlannedPackage × Attempt} {s : Library} (hgood : Good x) :
    (installPlanned false x.1 x.2 s).1 = none ↔
      (s.root x.1.installDir ≠ none → s.lock x.1.name ≠ none) := by
  rw [installPlanned, hgood.1]
  dsimp only
  split
  next hrefused =>
      have hlock : s.lock x.1.name = none := Option.isNone_iff_eq_none.mp hrefused.2.1
      simp [hlock, hrefused.1]
  next hadmitted =>
      rw [if_neg (by simp [hgood.2.1]), if_neg (by simp [hgood.2.2])]
      constructor
      · intro _ hroot hlock
        exact hadmitted ⟨hroot, Option.isNone_iff_eq_none.mpr hlock, rfl⟩
      · intro _
        rfl

theorem installEach_good {again : List (PlannedPackage × Attempt)} {s : Library}
    (hgood : ∀ x ∈ again, Good x) (hdistinct : (dirs again).Nodup) :
    (installEach false again s).1 = none ↔
      ∀ x ∈ again, s.root x.1.installDir ≠ none → s.lock x.1.name ≠ none := by
  induction again generalizing s with
  | nil => simp [installEach]
  | cons x rest ih =>
      obtain ⟨p, a⟩ := x
      have hfresh : p.installDir ∉ dirs rest := (List.nodup_cons.mp hdistinct).1
      have hdistinct' : (dirs rest).Nodup := (List.nodup_cons.mp hdistinct).2
      have hhead := installPlanned_good (s := s) (hgood (p, a) (List.mem_cons_self ..))
      have hrest : ∀ x ∈ rest, Good x := fun x hx => hgood x (List.mem_cons_of_mem _ hx)
      have hsame : ∀ x ∈ rest,
          (installPlanned false p a s).2.root x.1.installDir = s.root x.1.installDir := by
        intro x hx
        apply installPlanned_root_ne
        intro heq
        exact hfresh (heq ▸ mem_dirs hx)
      have htail : (∀ x ∈ rest, (installPlanned false p a s).2.root x.1.installDir ≠ none →
          (installPlanned false p a s).2.lock x.1.name ≠ none) ↔
          ∀ x ∈ rest, s.root x.1.installDir ≠ none → s.lock x.1.name ≠ none := by
        rw [installPlanned_lock]
        constructor
        · intro h x hx
          rw [← hsame x hx]
          exact h x hx
        · intro h x hx
          rw [hsame x hx]
          exact h x hx
      constructor
      · intro hrun
        have hok := ok_of_installEach_cons hrun
        rw [installEach_cons hok] at hrun
        exact List.forall_mem_cons.mpr ⟨hhead.mp hok, htail.mp ((ih hrest hdistinct').mp hrun)⟩
      · intro hall
        obtain ⟨hfirst, hothers⟩ := List.forall_mem_cons.mp hall
        have hok := hhead.mpr hfirst
        rw [installEach_cons hok]
        exact (ih hrest hdistinct').mpr (htail.mpr hothers)

theorem installResolved_fst (force : Bool) (plan : List (PlannedPackage × Attempt)) (s : Library) :
    (installResolved force plan s).1 = (installEach force plan s).1 := by
  rw [installResolved]
  split <;> next heq => rw [heq]

/-- An attempt at which nothing fails. -/
def goodAttempt (p : PlannedPackage) : Attempt :=
  { cached := none, downloaded := some p.shasum, created := true, unpacked := true }

theorem good_goodAttempt (p : PlannedPackage) : Good (p, goodAttempt p) := by
  refine ⟨?_, rfl, rfl⟩
  simp [fetch, goodAttempt]

theorem installs_iff {plan : List PlannedPackage} {s : Library}
    (hdistinct : (plan.map PlannedPackage.installDir).Nodup) :
    Installs plan s ↔ ∀ q ∈ plan, s.root q.installDir ≠ none → s.lock q.name ≠ none := by
  have hdirs : ∀ again : List (PlannedPackage × Attempt), again.map Prod.fst = plan →
      (dirs again).Nodup := by
    intro again hplan
    rw [← hplan, List.map_map] at hdistinct
    exact hdistinct
  constructor
  · intro hinstalls q hq
    have hplan : (plan.map fun p => (p, goodAttempt p)).map Prod.fst = plan := by
      simp [Function.comp_def]
    have hgood : ∀ x ∈ plan.map fun p => (p, goodAttempt p), Good x := by
      intro x hx
      obtain ⟨p, _, rfl⟩ := List.mem_map.mp hx
      exact good_goodAttempt p
    have hrun := hinstalls _ hplan hgood
    rw [installResolved_fst] at hrun
    exact (installEach_good hgood (hdirs _ hplan)).mp hrun (q, goodAttempt q)
      (List.mem_map.mpr ⟨q, hq, rfl⟩)
  · intro hadmitted again hplan hgood
    rw [installResolved_fst]
    apply (installEach_good hgood (hdirs again hplan)).mpr
    intro x hx
    exact hadmitted x.1 (hplan ▸ List.mem_map_of_mem hx)

/-! ### The library after the failure -/

section Stopped

variable {force : Bool} {done rest : List (PlannedPackage × Attempt)} {p : PlannedPackage}
  {a : Attempt} {s : Library} {cause : Cause}

/-- The run stops at `p`, and the lock is as it was. -/
theorem stopped_eq (hdone : (installEach force done s).1 = none)
    (hfail : (installPlanned force p a (installEach force done s).2).1 = some cause) :
    installResolved force (done ++ (p, a) :: rest) s =
      (some cause, (installPlanned force p a (installEach force done s).2).2) := by
  rw [installResolved, installEach_append hdone, installEach_stop hfail]

variable {s' : Library}

/-- The library after the failure: the packages before are in place, and nothing else but the directory of
`p` has changed. -/
structure After (done : List (PlannedPackage × Attempt)) (p : PlannedPackage) (cause : Cause)
    (s s' : Library) : Prop where
  lock : s'.lock = s.lock
  other : ∀ d, d ∉ dirs done → d ≠ p.installDir → s'.root d = s.root d
  placed : ∀ x ∈ done, s'.root x.1.installDir = some (.unpacked x.1.name x.1.version)
  own : (cause = .download ∨ cause = .checksum) ∧ s'.root p.installDir = s.root p.installDir ∨
    cause = .create ∧ s'.root p.installDir = none ∨
    cause = .unpack ∧ s'.root p.installDir = some .unfinished

theorem after_stopped (hdone : (installEach force done s).1 = none)
    (hfail : (installPlanned force p a (installEach force done s).2).1 = some cause)
    (hcause : cause ≠ .refused) (hdistinct : (dirs done).Nodup) (hp : p.installDir ∉ dirs done) :
    After done p cause s (installPlanned force p a (installEach force done s).2).2 where
  lock := by rw [installPlanned_lock, installEach_lock hdone]
  other d hd hne := by rw [installPlanned_root_ne hne, installEach_root_ne hdone hd]
  placed x hx := by
    have hne : x.1.installDir ≠ p.installDir := fun heq =>
      hp (heq ▸ mem_dirs hx)
    rw [installPlanned_root_ne hne, installEach_root_mem hdone hdistinct hx]
  own := by
    obtain ⟨cause', heq, hcases⟩ | heq | heq | heq :=
      @installPlanned_cases force p a (installEach force done s).2 <;>
      rw [heq] at hfail ⊢ <;> cases hfail
    · left
      refine ⟨?_, installEach_root_ne hdone hp⟩
      obtain h | h | h := hcases
      · exact Or.inl h
      · exact Or.inr h
      · exact absurd h hcause
    · exact Or.inr (Or.inl ⟨rfl, setDir_self _ _⟩)
    · exact Or.inr (Or.inr ⟨rfl, setDir_self _ _⟩)

/-- A directory is that of a package before the failure, that of the package that failed, or another. -/
theorem dir_cases (done : List (PlannedPackage × Attempt)) (p : PlannedPackage) (d : CString) :
    (∃ x ∈ done, x.1.installDir = d) ∨ d = p.installDir ∨ d ∉ dirs done ∧ d ≠ p.installDir := by
  by_cases hd : d ∈ dirs done
  · exact Or.inl (List.mem_map.mp hd)
  · by_cases heq : d = p.installDir
    · exact Or.inr (Or.inl heq)
    · exact Or.inr (Or.inr ⟨hd, heq⟩)

theorem harmless_of_survives {plan : List PlannedPackage} (hafter : After done p cause s s')
    (hp : p.installDir ∉ dirs done) (hplan : (plan.map PlannedPackage.installDir).Nodup)
    (hsurvives : Survives plan p s s') : Harmless plan (done.map Prod.fst) p cause s where
  recorded q hq := by
    obtain ⟨x, hx, rfl⟩ := List.mem_map.mp hq
    rw [← hafter.lock]
    exact hsurvives.agrees.recorded _ _ _ (hafter.placed x hx)
  early := by
    obtain ⟨h | h, _⟩ | ⟨h, hnone⟩ | ⟨_, hunfinished⟩ := hafter.own
    · exact Or.inl h
    · exact Or.inr (Or.inl h)
    · exact Or.inr (Or.inr ⟨h, hsurvives.kept.symm.trans hnone⟩)
    · exact absurd hunfinished (hsurvives.agrees.finished _)
  present name e he := by
    obtain ⟨d, hd⟩ := hsurvives.agrees.present name e (hafter.lock ▸ he)
    obtain ⟨x, hx, hdir⟩ | heq | ⟨hd', hne⟩ := dir_cases done p d
    · left
      rw [← hdir, hafter.placed x hx] at hd
      exact ⟨x.1, List.mem_map_of_mem hx, (Holding.unpacked.inj (Option.some.inj hd)).1⟩
    · right
      refine ⟨d, ?_, ?_⟩
      · rw [← hd, heq]
        exact hsurvives.kept.symm
      · intro q hq hqd
        obtain ⟨x, hx, rfl⟩ := List.mem_map.mp hq
        exact hp (heq ▸ hqd ▸ mem_dirs hx)
    · right
      refine ⟨d, (hafter.other d hd' hne).symm.trans hd, ?_⟩
      intro q hq hqd
      obtain ⟨x, hx, rfl⟩ := List.mem_map.mp hq
      exact hd' (hqd ▸ mem_dirs hx)
  admitted q hq hroot := by
    have hagain := (installs_iff hplan).mp hsurvives.again q hq
    rw [hafter.lock] at hagain
    apply hagain
    obtain ⟨x, hx, hdir⟩ | heq | ⟨hd, hne⟩ := dir_cases done p q.installDir
    · rw [← hdir, hafter.placed x hx]
      nofun
    · rw [heq] at hroot ⊢
      rwa [hsurvives.kept]
    · rwa [hafter.other _ hd hne]

theorem survives_of_harmless {plan : List PlannedPackage} (hafter : After done p cause s s')
    (hplan : (plan.map PlannedPackage.installDir).Nodup)
    (hdoneplan : ∀ x ∈ done, x.1 ∈ plan) (hagrees : Agrees s)
    (hharmless : Harmless plan (done.map Prod.fst) p cause s) : Survives plan p s s' := by
  have hrecorded : ∀ x ∈ done, ∃ e, s.lock x.1.name = some e ∧ e.version = x.1.version :=
    fun x hx => hharmless.recorded x.1 (List.mem_map_of_mem hx)
  have hkept : s'.root p.installDir = s.root p.installDir := by
    obtain ⟨_, hsame⟩ | ⟨hcreate, hnone⟩ | ⟨hunpack, _⟩ := hafter.own
    · exact hsame
    · obtain h | h | ⟨_, h⟩ := hharmless.early
      · rw [hcreate] at h
        cases h
      · rw [hcreate] at h
        cases h
      · rw [hnone, h]
    · rw [hunpack] at hharmless
      obtain h | h | ⟨h, _⟩ := hharmless.early <;> cases h
  have hother : ∀ d, d ∉ dirs done → s'.root d = s.root d := by
    intro d hd
    by_cases heq : d = p.installDir
    · rw [heq, hkept]
    · exact hafter.other d hd heq
  refine { agrees := ?_, kept := hkept, again := ?_ }
  · constructor
    · intro d name version hd
      rw [hafter.lock]
      by_cases hmem : d ∈ dirs done
      · obtain ⟨x, hx, rfl⟩ := List.mem_map.mp hmem
        rw [hafter.placed x hx] at hd
        obtain ⟨rfl, rfl⟩ := Holding.unpacked.inj (Option.some.inj hd)
        exact hrecorded x hx
      · rw [hother d hmem] at hd
        exact hagrees.recorded d name version hd
    · intro d hd
      by_cases hmem : d ∈ dirs done
      · obtain ⟨x, hx, rfl⟩ := List.mem_map.mp hmem
        rw [hafter.placed x hx] at hd
        cases hd
      · rw [hother d hmem] at hd
        exact hagrees.finished d hd
    · intro name e he
      rw [hafter.lock] at he
      obtain ⟨q, hq, rfl⟩ | ⟨d, hd, hfree⟩ := hharmless.present name e he
      · obtain ⟨x, hx, rfl⟩ := List.mem_map.mp hq
        obtain ⟨e', he', hversion⟩ := hrecorded x hx
        obtain rfl := Option.some.inj (he'.symm.trans he)
        exact ⟨_, by rw [hafter.placed x hx, hversion]⟩
      · refine ⟨d, (hother d ?_).trans hd⟩
        intro hmem
        obtain ⟨x, hx, hxd⟩ := List.mem_map.mp hmem
        exact hfree x.1 (List.mem_map_of_mem hx) hxd
  · apply (installs_iff hplan).mpr
    intro q hq hroot
    rw [hafter.lock]
    by_cases hmem : q.installDir ∈ dirs done
    · obtain ⟨x, hx, hxq⟩ := List.mem_map.mp hmem
      have heq : x.1 = q := List.inj_on_of_nodup_map hplan (hdoneplan x hx) hq hxq
      obtain ⟨e, he, _⟩ := hrecorded x hx
      rw [← heq, he]
      nofun
    · rw [hother _ hmem] at hroot
      exact hharmless.admitted q hq hroot

end Stopped

def packageA : PlannedPackage :=
  { name := lit "a", version := lit "1", installDir := lit "a", shasum := lit "5d", direct := true }

def packageB : PlannedPackage :=
  { name := lit "b", version := lit "1", installDir := lit "b", shasum := lit "9c", direct := false }

/-- The registry does not answer. -/
def noAnswer : Attempt := { cached := none, downloaded := none, created := true, unpacked := true }

def emptyLibrary : Library := { root := fun _ => none, lock := fun _ => none }

/-- A library with the first package. -/
def libraryA : Library where
  root d := if d = lit "a" then some (.unpacked (lit "a") (lit "1")) else none
  lock name :=
    if name = lit "a" then some { version := lit "1", sha256 := lit "5d", direct := true } else none

theorem agrees_libraryA : Agrees libraryA where
  recorded d name version hd := by
    simp only [libraryA] at hd
    split at hd
    · obtain ⟨rfl, rfl⟩ := Holding.unpacked.inj (Option.some.inj hd)
      exact ⟨_, rfl, rfl⟩
    · cases hd
  finished d hd := by
    simp only [libraryA] at hd
    split at hd <;> cases hd
  present name e he := by
    simp only [libraryA] at he
    split at he
    · next heq =>
        cases he
        exact ⟨lit "a", by rw [heq]; rfl⟩
    · cases he

end PackageManager

end EZLanguage
