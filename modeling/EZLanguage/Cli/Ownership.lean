import EZLanguage.Cli.LibraryFiles
import EZLanguage.Support.Runs

/-!
# What a run of commands leaves alone

A careful command touches the directories it may touch, the cache and the manifest. The guard of `install`
stands between the plan and a directory of that name which the lock does not have. `uninstall` has no guard.
-/

namespace EZLanguage

namespace PackageManager

open Runs

variable {layout : Layout} {s t : Disk}

/-! ### Paths that are not the package manager's -/

theorem dir_eq_of_prefix {base : Path} {dir dir' : CString} {q : Path} (hdir : base ++ [dir] <+: q)
    (hdir' : base ++ [dir'] <+: q) : dir = dir' := by
  have hprefix : base ++ [dir] <+: base ++ [dir'] :=
    List.prefix_of_prefix_length_le hdir hdir' (by simp)
  have heq : base ++ [dir] = base ++ [dir'] := hprefix.eq_of_length (by simp)
  exact List.singleton_inj.mp (List.append_cancel_left heq)

theorem apart_of_base {q : Path} (hbase : layout.base <+: q) :
    ¬ layout.cache <+: q ∧ q ≠ layout.manifest := by
  constructor
  · intro hcache
    obtain h | h := List.prefix_or_prefix_of_prefix hcache hbase
    · exact layout.cache_apart.1 h
    · exact layout.cache_apart.2 h
  · intro heq
    exact layout.manifest_apart.1 (heq ▸ hbase)

/-- The directory a foreign path is in is foreign. -/
theorem Foreign.dir {q : Path} (hforeign : Foreign layout s q) {dir : CString}
    (hdir : layout.base ++ [dir] <+: q) : Foreign layout s (layout.base ++ [dir]) :=
  ⟨apart_of_base (List.prefix_append _ _), fun _ hdir' => hforeign.2 _ (hdir'.trans hdir)⟩

theorem foreign_above {q : Path} (hq : q <+: layout.base) : Foreign layout s q := by
  refine ⟨⟨?_, ?_⟩, ?_⟩
  · intro hcache
    exact layout.cache_apart.1 (hcache.trans hq)
  · intro heq
    exact layout.manifest_apart.2 (heq ▸ hq)
  · intro dir hdir
    have hle := (hdir.trans hq).length_le
    rw [List.length_append, List.length_singleton] at hle
    omega

/-! ### What the parts of a command leave alone -/

theorem removeAll_ne {files : Path → Option Node} {target q : Path} (hq : ¬ target <+: q) :
    removeAll files target q = files q := by
  simp [removeAll, hq]

theorem unpack_ne {target q : Path} (hq : ¬ target <+: q) (entries : List (Path × Node))
    (files : Path → Option Node) : unpack files target entries q = files q := by
  induction entries generalizing files with
  | nil => rfl
  | cons entry rest ih =>
      have hne : q ≠ target ++ entry.1 := fun heq => hq (heq ▸ List.prefix_append _ _)
      rw [unpack, List.foldl_cons]
      exact (ih _).trans (Function.update_of_ne hne _ _)

theorem createDirectories_ne {files : Path → Option Node} {target q : Path}
    (hq : q <+: target → files q ≠ none) : createDirectories files target q = files q := by
  rw [createDirectories, if_neg]
  intro h
  exact hq h.1 h.2

theorem writeManifest_ne {q : Path} (hq : q ≠ layout.manifest) (text : Option CString)
    (files : Path → Option Node) : writeManifest layout text files q = files q := by
  unfold writeManifest
  split
  · rfl
  split
  · rfl
  · exact Function.update_of_ne hq _ _

theorem fetchFiles_ne {p : PlannedPackage} (hp : PlainName (tarballName p)) (x : Delivery)
    {q : Path} (hq : ¬ layout.cache <+: q) (files : Path → Option Node) :
    fetchFiles layout p x files q = files q := by
  have hne : q ≠ join layout.cache (tarballName p) := by
    rw [join_plain hp]
    intro heq
    exact hq (heq ▸ List.prefix_append _ _)
  rw [fetchFiles]
  split
  · rfl
  · exact Function.update_of_ne hne _ _

/-- So far a command has left everything alone. -/
structure Untouched (layout : Layout) (s t : Disk) : Prop where
  lock : t.lock = s.lock
  files : ∀ q, Foreign layout s q → t.files q = s.files q

/-- A package that is placed in a foreign directory is refused. -/
theorem placePackage_untouched {p : PlannedPackage} {x : Delivery} (hrooted : Rooted layout s)
    (huntouched : Untouched layout s t) (hdir : PlainName p.installDir)
    (htarball : PlainName (tarballName p))
    (hown : p.installDir = p.name ∨ s.files (layout.base ++ [p.installDir]) = none) :
    Untouched layout s (placePackage layout p x t).2 := by
  have hfetched : ∀ q, Foreign layout s q → fetchFiles layout p x t.files q = s.files q := by
    intro q hq
    rw [fetchFiles_ne htarball x hq.1.1, huntouched.files q hq]
  have htarget : join layout.base p.installDir = layout.base ++ [p.installDir] := join_plain hdir
  constructor
  · rw [placePackage, ← huntouched.lock]
    split
    · rfl
    split
    · rfl
    split <;> rfl
  · intro q hq
    rw [placePackage, htarget]
    by_cases hin : layout.base ++ [p.installDir] <+: q
    · obtain ⟨hexists, hfree⟩ := hq.2 _ hin
      have hname : p.installDir = p.name := hown.resolve_right hexists
      have hthere : fetchFiles layout p x t.files (layout.base ++ [p.installDir]) ≠ none := by
        rw [hfetched _ (hq.dir hin)]
        exact hexists
      have hunlocked : (t.lock p.name).isNone = true := by
        rw [huntouched.lock, ← hname, hfree]
        rfl
      rw [if_pos (And.intro hthere hunlocked)]
      split <;> exact hfetched q hq
    · split
      · exact hfetched q hq
      split
      · exact hfetched q hq
      split
      · exact (removeAll_ne hin).trans (hfetched q hq)
      · have habove : q <+: layout.base ++ [p.installDir] →
            removeAll (fetchFiles layout p x t.files) (layout.base ++ [p.installDir]) q ≠ none := by
          intro hprefix
          rw [removeAll_ne hin, hfetched q hq]
          rcases List.prefix_concat_iff.mp hprefix with heq | hbase
          · exact absurd (heq ▸ List.prefix_rfl) hin
          · exact hrooted q hbase
        exact (unpack_ne hin _ _).trans ((createDirectories_ne habove).trans
          ((removeAll_ne hin).trans (hfetched q hq)))

theorem placeEach_untouched {plan : List (PlannedPackage × Delivery)} (hrooted : Rooted layout s)
    (hplan : ∀ x ∈ plan, PlainName x.1.installDir ∧ PlainName (tarballName x.1) ∧
      (x.1.installDir = x.1.name ∨ s.files (layout.base ++ [x.1.installDir]) = none))
    (huntouched : Untouched layout s t) : Untouched layout s (placeEach layout plan t).2 := by
  induction plan generalizing t with
  | nil => exact huntouched
  | cons y rest ih =>
      obtain ⟨p, x⟩ := y
      obtain ⟨hdir, htarball, hown⟩ := hplan (p, x) (List.mem_cons_self ..)
      have hstep := placePackage_untouched (x := x) hrooted huntouched hdir htarball hown
      rw [placeEach]
      split
      · next s' heq =>
          rw [heq] at hstep
          exact hstep
      · next s' heq =>
          rw [heq] at hstep
          exact ih (fun y hy => hplan y (List.mem_cons_of_mem _ hy)) hstep

/-- A careful command leaves what is not the package manager's. -/
theorem leavesForeign_of_careful {c : Command} (hrooted : Rooted layout s)
    (hcareful : Careful layout s c) : LeavesForeign layout c s := by
  intro q hq
  cases c with
  | install plan manifest =>
      have hplaced := placeEach_untouched hrooted hcareful ⟨rfl, fun _ _ => rfl⟩
      rw [exec, install]
      split
      · next s' heq =>
          rw [heq] at hplaced
          exact hplaced.files q hq
      · next s' heq =>
          rw [heq] at hplaced
          exact (writeManifest_ne hq.1.2 _ _).trans (hplaced.files q hq)
  | uninstall name manifest =>
      obtain ⟨hname, hown⟩ := hcareful
      rw [exec, uninstall, join_plain hname]
      dsimp only
      rw [writeManifest_ne hq.1.2]
      split
      · rfl
      · next hexists =>
          apply removeAll_ne
          intro hin
          obtain hlocked | habsent := hown
          · exact hlocked (hq.2 name hin).2
          · exact hexists habsent

/-! ### Runs -/

/-- A command that is careful in the state it is given in. -/
def CarefulStep (layout : Layout) (c : Command) (s s' : Disk) : Prop :=
  Careful layout s c ∧ exec layout c s = s'

theorem rooted_step {c : Command} {s' : Disk} (hrooted : Rooted layout s)
    (hstep : CarefulStep layout c s s') : Rooted layout s' := by
  obtain ⟨hcareful, rfl⟩ := hstep
  intro q hq
  rw [leavesForeign_of_careful hrooted hcareful q (foreign_above hq)]
  exact hrooted q hq

def sampleLayout : Layout where
  base := [lit "lib"]
  cache := [lit "cache"]
  manifest := [lit "package.ez"]
  cache_apart := by decide
  manifest_apart := by decide

/-- The directory `mine` was made by hand, and `a` was installed. -/
def sampleDisk : Disk where
  files q :=
    if q = [] ∨ q = [lit "lib"] ∨ q = [lit "lib", lit "mine"] ∨ q = [lit "lib", lit "a"] then
      some .directory
    else none
  lock name :=
    if name = lit "a" then some { version := lit "1", sha256 := lit "5d", direct := true } else none

theorem rooted_sampleDisk : Rooted sampleLayout sampleDisk := by
  intro q hq
  rcases List.prefix_concat_iff.mp (show q <+: [] ++ [lit "lib"] from hq) with rfl | hnil
  · nofun
  · obtain rfl := List.prefix_nil.mp hnil
    nofun

theorem plainName_a : PlainName (lit "a") where
  separator := by decide
  nonempty := by decide
  dot := by decide
  dots := by decide
  lock := by decide

end PackageManager

end EZLanguage
