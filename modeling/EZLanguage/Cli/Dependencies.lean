import EZLanguage.Lexer.Totality
import EZLanguage.Support.DepthFirst

/-!
# The files of a bundled program

The packager follows the `use` statements of the entry script through the files on the disk. A file is
known by its path, with slashes for backslashes, and is packed when it is met first and can be read. Where
a path leads to no file it may lead to a directory, all of whose sources are packed.

When finitely many paths can be met, every file that can be reached is packed once, under whatever circle
of imports.
-/

namespace EZLanguage

namespace Packager

open DepthFirst Lexer

/-- What the packager asks of the disk. -/
structure Disk where
  /-- The bytes of a file, if it opens. -/
  content : CString → Option CString
  /-- `exists` and not `is_directory`. -/
  isFile : CString → Bool
  isDirectory : CString → Bool
  /-- The regular files below a directory whose extension is `.ez`, in the order of the iterator. -/
  sources : CString → List CString

/-- `std::replace` of the backslashes. -/
def slashes (path : CString) : CString := path.map fun c => if c = 92 then 47 else c

/-- The path up to its last slash, or `.`. -/
def directoryOf (path : CString) : CString :=
  if 47 ∈ path then ((path.reverse.dropWhile fun c => c != 47).drop 1).reverse else lit "."

/-- The texts behind `use` among the tokens. -/
def usePaths : List Token → List CString
  | a :: b :: rest =>
      (match a.type, b.type, b.literal with
        | .USE, .STRING, .string usePath => [usePath]
        | _, _, _ => []) ++ usePaths (b :: rest)
  | _ => []

def searchPaths (ezlibBase fileDir usePath : CString) : List CString :=
  [fileDir ++ lit "/" ++ usePath, fileDir ++ lit "/" ++ usePath ++ lit ".ez", usePath,
    usePath ++ lit ".ez", ezlibBase ++ usePath, ezlibBase ++ usePath ++ lit ".ez",
    ezlibBase ++ usePath ++ lit "/" ++ usePath ++ lit ".ez", ezlibBase ++ usePath ++ lit "/main.ez"]

def dirCandidates (ezlibBase fileDir usePath : CString) : List CString :=
  [fileDir ++ lit "/" ++ usePath, usePath, ezlibBase ++ usePath]

variable (stod : CString → Option UInt64) (disk : Disk) (ezlibBase : CString)

/-- The paths one `use` leads to: the first candidate that is a file, or else the sources of the first
that is a directory. -/
def targets (fileDir usePath : CString) : List CString :=
  match (searchPaths ezlibBase fileDir usePath).find? disk.isFile with
  | some path => [path]
  | none =>
      match (dirCandidates ezlibBase fileDir usePath).find? disk.isDirectory with
      | some directory => (disk.sources directory).map slashes
      | none => []

/-- The paths a source leads to. An exception of the lexer ends the packaging. -/
def sourceDependencies (path content : CString) : Except String (List CString) :=
  match tokenizeAll stod content with
  | .error exception => .error exception
  | .ok (tokens, _) =>
      .ok ((usePaths tokens).flatMap fun usePath => targets disk ezlibBase (directoryOf path) usePath)

/-- The paths a file leads to. A file that does not open leads nowhere. -/
def dependencies (path : CString) : Except String (List CString) :=
  match disk.content path with
  | none => .ok []
  | some content => sourceDependencies stod disk ezlibBase path content

/-- The name of a file in the bundle: its path below the base directory, or its path. -/
def vfsName (baseDir path : CString) : CString :=
  if slashes baseDir <+: path then path.drop ((slashes baseDir).length + 1) else path

/-- What is packed for a path. -/
def packed (baseDir path : CString) : Option (CString × CString) :=
  match disk.content path with
  | none => none
  | some content =>
      if vfsName baseDir path = lit "__main_skip__" then none
      else some (vfsName baseDir path, content)

/-- The paths that were visited, and the files to pack. -/
abbrev Found := List CString × List (CString × CString)

def findDependencies (baseDir : CString) : Nat → CString → Found → Except (Option String) Found
  | 0, _, _ => .error none
  | fuel + 1, filePath, (visited, filesToPack) =>
      if visited.contains (slashes filePath) then .ok (visited, filesToPack)
      else
        match dependencies stod disk ezlibBase (slashes filePath) with
        | .error exception => .error (some exception)
        | .ok paths =>
            paths.foldlM (fun state path => findDependencies baseDir fuel path state)
              (visited ++ [slashes filePath],
                filesToPack ++ (packed disk baseDir (slashes filePath)).toList)

/-- `bundleFile` up to the blob: the entry script under its own name, and what its `use` statements lead
to. -/
def filesToPack (baseDir : CString) (fuel : Nat) (entryScript content : CString) :
    Except (Option String) Found :=
  match sourceDependencies stod disk ezlibBase (slashes entryScript) content with
  | .error exception => .error (some exception)
  | .ok paths =>
      paths.foldlM (fun state path => findDependencies stod disk ezlibBase baseDir fuel path state)
        ([slashes entryScript], [(lit "__main__.ez", content)])

/-! ### The traversal behind it -/

/-- The graph of the paths. The entry script is what was read first. -/
def imports (root content : CString) (path : CString) : Except String (List CString) :=
  if path = root then (sourceDependencies stod disk ezlibBase root content).map (List.map slashes)
  else (dependencies stod disk ezlibBase path).map (List.map slashes)

variable {stod disk ezlibBase}

theorem map_ok {ε α β : Type} (f : α → β) (a : α) : (Except.ok a : Except ε α).map f = .ok (f a) := rfl

theorem map_error {ε α β : Type} (f : α → β) (e : ε) : (Except.error e : Except ε α).map f = .error e :=
  rfl

/-- What was packed, from what was marked. -/
def state (disk : Disk) (baseDir : CString) (marked : List CString) (done : List (CString × CString))
    (marked' : List CString) : Found :=
  (marked', done ++ (marked'.drop marked.length).filterMap (packed disk baseDir))

theorem filterMap_singleton {α β : Type} (f : α → Option β) (a : α) :
    [a].filterMap f = (f a).toList := by
  cases h : f a <;> simp [h]

/-- A run of the packager marks what a traversal marks, behind what is marked, and packs what can be read
of it, in the same order. -/
def Marks (disk : Disk) (baseDir : CString) (marked : List CString) (done : List (CString × CString))
    (run : Except (Option String) Found)
    (visited : Except (Option String) (List CString)) : Prop :=
  run = visited.map (state disk baseDir marked done) ∧
    ∀ marked', visited = .ok marked' → ∃ added, marked' = marked ++ added

theorem Marks.refl (baseDir : CString) (marked : List CString) (done : List (CString × CString)) :
    Marks disk baseDir marked done (.ok (marked, done)) (.ok marked) := by
  refine ⟨?_, fun _ h => ⟨[], by cases h; exact (List.append_nil _).symm⟩⟩
  rw [map_ok, state, List.drop_length, List.filterMap_nil, List.append_nil]

/-- A run after some paths were added already. -/
theorem Marks.extend {baseDir : CString} {marked added : List CString} {done : List (CString × CString)}
    {run : Except (Option String) Found}
    {visited : Except (Option String) (List CString)}
    (h : Marks disk baseDir (marked ++ added)
      (done ++ added.filterMap (packed disk baseDir)) run visited) :
    Marks disk baseDir marked done run visited := by
  obtain ⟨heq, hmore⟩ := h
  constructor
  · rw [heq]
    cases hlast : visited with
    | error e => rfl
    | ok marked' =>
        obtain ⟨more, rfl⟩ := hmore marked' hlast
        rw [map_ok, map_ok, state, state, List.drop_left, List.append_assoc marked, List.drop_left,
          List.filterMap_append, List.append_assoc]
  · intro marked' hlast
    obtain ⟨more, rfl⟩ := hmore marked' hlast
    exact ⟨added ++ more, List.append_assoc ..⟩

theorem foldlM_marks {baseDir root content : CString} {fuel : Nat}
    (hpath : ∀ p marked done, root ∈ marked →
      Marks disk baseDir marked done
        (findDependencies stod disk ezlibBase baseDir fuel p (marked, done))
        (visit (imports stod disk ezlibBase root content) fuel (slashes p) marked))
    (paths marked : List CString) (done : List (CString × CString)) (hroot : root ∈ marked) :
    Marks disk baseDir marked done
      (paths.foldlM (fun state path => findDependencies stod disk ezlibBase baseDir fuel path state)
        (marked, done))
      (visitAll (imports stod disk ezlibBase root content) fuel (paths.map slashes) marked) := by
  induction paths generalizing marked done with
  | nil => exact Marks.refl baseDir marked done
  | cons path paths ih =>
      obtain ⟨hvisit, hadded⟩ := hpath path marked done hroot
      rw [visitAll, List.map_cons, List.foldlM_cons, List.foldlM_cons, hvisit]
      cases hfirst : visit (imports stod disk ezlibBase root content) fuel (slashes path) marked with
      | error e => exact ⟨rfl, fun _ h => by cases h⟩
      | ok between =>
          obtain ⟨added, rfl⟩ := hadded between hfirst
          have hrest := ih (marked ++ added) (done ++ added.filterMap (packed disk baseDir))
            (List.mem_append_left _ hroot)
          have hstate : state disk baseDir marked done (marked ++ added) =
              (marked ++ added, done ++ added.filterMap (packed disk baseDir)) := by
            rw [state, List.drop_left]
          rw [map_ok, hstate]
          exact hrest.extend

theorem findDependencies_marks (baseDir root content : CString) (fuel : Nat) :
    ∀ (p : CString) (marked : List CString) (done : List (CString × CString)), root ∈ marked →
      Marks disk baseDir marked done
        (findDependencies stod disk ezlibBase baseDir fuel p (marked, done))
        (visit (imports stod disk ezlibBase root content) fuel (slashes p) marked) := by
  induction fuel with
  | zero => exact fun _ _ _ _ => ⟨rfl, fun _ h => by cases h⟩
  | succ fuel ih =>
      intro p marked done hroot
      by_cases hmem : slashes p ∈ marked
      · have hrun : findDependencies stod disk ezlibBase baseDir (fuel + 1) p (marked, done) =
            .ok (marked, done) := if_pos (List.contains_iff_mem.mpr hmem)
        rw [visit_marked hmem, hrun]
        exact Marks.refl baseDir marked done
      · have hne : slashes p ≠ root := fun heq => hmem (heq ▸ hroot)
        have himports : imports stod disk ezlibBase root content (slashes p) =
            (dependencies stod disk ezlibBase (slashes p)).map (List.map slashes) := if_neg hne
        have hnew : ¬marked.contains (slashes p) = true := fun h => hmem (List.contains_iff_mem.mp h)
        cases hdep : dependencies stod disk ezlibBase (slashes p) with
        | error e =>
            rw [hdep, map_error] at himports
            rw [visit_error hmem himports]
            exact ⟨(if_neg hnew).trans (by rw [hdep]; rfl), fun _ h => by cases h⟩
        | ok paths =>
            rw [hdep, map_ok] at himports
            have hall := foldlM_marks ih paths (marked ++ [slashes p])
              (done ++ (packed disk baseDir (slashes p)).toList) (List.mem_append_left _ hroot)
            rw [← filterMap_singleton] at hall
            have hrun : findDependencies stod disk ezlibBase baseDir (fuel + 1) p (marked, done) =
                paths.foldlM (fun state path => findDependencies stod disk ezlibBase baseDir fuel path state)
                  (marked ++ [slashes p], done ++ [slashes p].filterMap (packed disk baseDir)) := by
              rw [filterMap_singleton]
              exact (if_neg hnew).trans (by rw [hdep])
            rw [visit_ok hmem himports, hrun]
            exact hall.extend

/-- A bundle with the entry script and everything that can be reached and read, each path once. -/
structure Complete (disk : Disk) (graph : CString → Except String (List CString))
    (baseDir root content : CString) (visited : List CString) (files : List (CString × CString)) : Prop where
  first : ∃ rest, visited = root :: rest ∧
    files = (lit "__main__.ez", content) :: rest.filterMap (packed disk baseDir)
  once : visited.Nodup
  reached : ∀ p, p ∈ visited ↔ Reachable graph root p

/-- Two scripts that use each other. -/
def circle : Disk where
  content path :=
    if path = lit "main.ez" then some (lit "use \"b\"")
    else if path = lit "./b.ez" then some (lit "use \"main.ez\"") else none
  isFile path := path == lit "main.ez" || path == lit "./b.ez"
  isDirectory _ := false
  sources _ := []

theorem ok_of_toOption {ε α : Type} {x : Except ε α} {a : α} (h : x.toOption = some a) : x = .ok a := by
  cases x with
  | error e => cases h
  | ok b => cases h; rfl

theorem circle_closed : ∀ x ∈ [lit "main.ez", lit "./b.ez"], ∀ y,
    Edge (imports (fun _ => none) circle (lit "/lib/") (lit "main.ez") (lit "use \"b\"")) x y →
      y ∈ [lit "main.ez", lit "./b.ez"] := by
  have hmain : imports (fun _ => none) circle (lit "/lib/") (lit "main.ez") (lit "use \"b\"")
      (lit "main.ez") = .ok [lit "./b.ez"] := ok_of_toOption (by decide)
  have hb : imports (fun _ => none) circle (lit "/lib/") (lit "main.ez") (lit "use \"b\"")
      (lit "./b.ez") = .ok [lit "main.ez"] := ok_of_toOption (by decide)
  intro x hx y hedge
  obtain ⟨targets, htargets, hy⟩ := hedge
  rcases List.mem_cons.mp hx with rfl | hx
  · rw [hmain] at htargets
    cases htargets
    exact List.mem_cons_of_mem _ hy
  · rw [List.mem_singleton.mp hx, hb] at htargets
    cases htargets
    rw [List.mem_singleton.mp hy]
    exact List.mem_cons_self

end Packager

end EZLanguage
