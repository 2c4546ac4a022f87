import EZLanguage.Bytecode.Chunk
import EZLanguage.Support.LittleEndian

/-!
# Bundled programs

`bundleFile` appends the files of a program to a copy of the interpreter: their number, then each name
and content behind its length, then the size of all that and a magic marker. At its start the interpreter
looks for the marker at the end of its own image and loads the files. It reads them through an `ifstream`:
a read at the end of the image takes what there is and leaves the stream failed, and a failed stream
leaves the buffers as they are.
-/

namespace EZLanguage

namespace VirtualFiles

open Support

/-! ### The packager -/

/-- A file in the blob. -/
def entry (f : CString × CString) : CString :=
  leBytes 4 f.1.length ++ f.1 ++ (leBytes 4 f.2.length ++ f.2)

/-- `vfsBlob`. -/
def vfsBlob (filesToPack : List (CString × CString)) : CString :=
  leBytes 4 filesToPack.length ++ filesToPack.flatMap entry

/-- What is appended to the image: the blob, its size and the marker. -/
def payload (filesToPack : List (CString × CString)) : CString :=
  vfsBlob filesToPack ++ leBytes 4 (vfsBlob filesToPack).length ++ lit "EZPKV1"

def bundleFile (exe : CString) (filesToPack : List (CString × CString)) : CString :=
  exe ++ payload filesToPack

/-! ### The loader -/

/-- An `ifstream` on the image. -/
structure Ifstream where
  bytes : CString
  pos : Nat
  good : Bool
  deriving DecidableEq

namespace Ifstream

/-- `seekg(-back, std::ios::end)`. -/
def seekEnd (s : Ifstream) (back : Nat) : Ifstream :=
  if s.good then
    if back ≤ s.bytes.length then { s with pos := s.bytes.length - back }
    else { s with good := false }
  else s

/-- `read`, into a buffer of its size. -/
def read (s : Ifstream) (buffer : CString) : CString × Ifstream :=
  if s.good then
    let got := (s.bytes.drop s.pos).take buffer.length
    (got ++ buffer.drop got.length,
      { s with pos := s.pos + got.length, good := got.length = buffer.length })
  else (buffer, s)

/-- A `uint32_t` that was 0 before. -/
def read32 (s : Ifstream) : Nat × Ifstream :=
  let (bytes, s) := s.read (List.replicate 4 0)
  (ofLE bytes, s)

/-- A string of zeros as long as the number before it says, read over. -/
def readString (s : Ifstream) : CString × Ifstream :=
  let (length, s) := s.read32
  s.read (List.replicate length 0)

end Ifstream

/-- The loop over the files. -/
def loadFiles : Nat → Ifstream → List (CString × CString) × Ifstream
  | 0, s => ([], s)
  | numFiles + 1, s =>
      let (name, s) := s.readString
      let (content, s) := s.readString
      let (files, s) := loadFiles numFiles s
      ((name, content) :: files, s)

def loadBlob (s : Ifstream) : List (CString × CString) × Ifstream :=
  let (numFiles, s) := s.read32
  loadFiles numFiles s

/-- The size that stands before the marker, and the stream behind both, if the marker is there. -/
def readTrailer (image : CString) : Option (Nat × Ifstream) :=
  if 10 < image.length then
    let s := Ifstream.seekEnd ⟨image, image.length, true⟩ 10
    let (vfsSize, s) := s.read32
    let (magic, s) := s.read (List.replicate 6 0)
    if magic = lit "EZPKV1" then some (vfsSize, s) else none
  else none

/-- The stream where the loader looks for the blob. -/
def seekBlob (vfsSize : Nat) (s : Ifstream) : Ifstream := s.seekEnd (10 + vfsSize)

/-- The assignments to `virtualFileSystem` at the start, in order. -/
def installed (image : CString) : List (CString × CString) :=
  match readTrailer image with
  | some (vfsSize, s) => (loadBlob (seekBlob vfsSize s)).1
  | none => []

/-- `virtualFileSystem[name] = content`. -/
def assign (table : CString → Option CString) (f : CString × CString) : CString → Option CString :=
  Function.update table f.1 (some f.2)

/-- `BytecodeCompiler::virtualFileSystem` after some assignments. -/
def virtualFileSystem (files : List (CString × CString)) : CString → Option CString :=
  files.foldl assign fun _ => none

/-- The source that is run in place of the command line. -/
def bundledMain (image : CString) : Option CString :=
  virtualFileSystem (installed image) (lit "__main__.ez")

/-! ### What the trailer describes -/

/-- The bytes before the trailer that its size makes the blob. -/
def blob (image : CString) (vfsSize : Nat) : CString :=
  (image.drop (image.length - 10 - vfsSize)).take vfsSize

/-- The blob is as large as its size says, and its counts and lengths stay within it. -/
def WellFormed (image : CString) (vfsSize : Nat) : Prop :=
  vfsSize ≤ image.length - 10 ∧ ∃ files, vfsBlob files <+: blob image vfsSize

/-- The loader installs nothing and reads nothing behind the blob. -/
def Stopped (image : CString) (vfsSize : Nat) (s : Ifstream) : Prop :=
  (loadBlob (seekBlob vfsSize s)).1 = [] ∧
    ((loadBlob (seekBlob vfsSize s)).2.pos = (seekBlob vfsSize s).pos ∨
      (loadBlob (seekBlob vfsSize s)).2.pos ≤ image.length - 10)

/-- What the loader should make of an image: the files of one that was bundled, and nothing of one whose
trailer does not describe a blob. -/
structure LoadedRight (image : CString) : Prop where
  rebuilds : ∀ exe files, (vfsBlob files).length < 2 ^ 32 → image = bundleFile exe files →
    installed image = files
  stops : ∀ vfsSize s, readTrailer image = some (vfsSize, s) → ¬WellFormed image vfsSize →
    Stopped image vfsSize s

/-! ### Reads -/

namespace Ifstream

theorem read_bytes (s : Ifstream) (buffer : CString) : (s.read buffer).2.bytes = s.bytes := by
  rw [read]
  split <;> rfl

theorem read_pos_le (s : Ifstream) (buffer : CString) : s.pos ≤ (s.read buffer).2.pos := by
  rw [read]
  split
  · exact Nat.le_add_right _ _
  · exact Nat.le_refl _

theorem read_of_not_good {s : Ifstream} (hs : s.good = false) (buffer : CString) :
    s.read buffer = (buffer, s) := by
  rw [read, hs]
  rfl

/-- A read of as many bytes as the next part of the image has. -/
theorem read_of_append {s : Ifstream} (hs : s.good = true) {part rest buffer : CString}
    (hbytes : s.bytes.drop s.pos = part ++ rest) (hlength : buffer.length = part.length) :
    s.read buffer = (part, { s with pos := s.pos + part.length }) := by
  have hgot : (s.bytes.drop s.pos).take buffer.length = part := by
    rw [hbytes, hlength, List.take_left]
  have hdone : buffer.drop part.length = [] := List.drop_eq_nil_of_le (Nat.le_of_eq hlength)
  rw [read, if_pos hs, hgot]
  simp [hdone, hlength, hs]

theorem drop_of_append {s : Ifstream} {part rest : CString}
    (hbytes : s.bytes.drop s.pos = part ++ rest) :
    s.bytes.drop (s.pos + part.length) = rest := by
  rw [← List.drop_drop, hbytes, List.drop_left]

/-- A read that stops before the end of the image has taken all it was to take. -/
theorem read_of_pos_lt {s : Ifstream} (hs : s.good = true) {buffer : CString}
    (hpos : (s.read buffer).2.pos < s.bytes.length) :
    ∃ part rest, s.bytes.drop s.pos = part ++ rest ∧ buffer.length = part.length := by
  refine ⟨(s.bytes.drop s.pos).take buffer.length, (s.bytes.drop s.pos).drop buffer.length,
    (List.take_append_drop _ _).symm, ?_⟩
  rw [read, hs] at hpos
  simp only [if_true, List.length_take, List.length_drop] at hpos ⊢
  omega

theorem readString_bytes (s : Ifstream) : s.readString.2.bytes = s.bytes := by
  rw [readString, read_bytes]
  exact s.read_bytes _

theorem readString_pos_le (s : Ifstream) : s.pos ≤ s.readString.2.pos := by
  rw [readString]
  exact (s.read_pos_le _).trans (read_pos_le _ _)

theorem read32_of_append {s : Ifstream} (hs : s.good = true) {n : Nat} {rest : CString}
    (hn : n < 2 ^ 32) (hbytes : s.bytes.drop s.pos = leBytes 4 n ++ rest) :
    s.read32 = (n, { s with pos := s.pos + 4 }) := by
  rw [read32, read_of_append hs hbytes (by simp)]
  simp only [ofLE_leBytes, length_leBytes, Prod.mk.injEq, and_true]
  exact Nat.mod_eq_of_lt hn

/-- A string behind its length. -/
theorem readString_of_append {s : Ifstream} (hs : s.good = true) {text rest : CString}
    (hlength : text.length < 2 ^ 32)
    (hbytes : s.bytes.drop s.pos = leBytes 4 text.length ++ text ++ rest) :
    s.readString = (text, { s with pos := s.pos + (4 + text.length) }) := by
  rw [List.append_assoc] at hbytes
  have hrest := drop_of_append hbytes
  rw [length_leBytes] at hrest
  have hread := @read_of_append { s with pos := s.pos + 4 } hs text rest
    (List.replicate text.length 0) hrest List.length_replicate
  rw [readString, read32_of_append hs hlength hbytes, ← Nat.add_assoc]
  exact hread

theorem read32_of_pos_lt {s : Ifstream} (hs : s.good = true)
    (hpos : s.read32.2.pos < s.bytes.length) :
    ∃ n rest, n < 2 ^ 32 ∧ s.bytes.drop s.pos = leBytes 4 n ++ rest := by
  obtain ⟨part, rest, hbytes, hlength⟩ := @read_of_pos_lt s hs (List.replicate 4 0) hpos
  rw [List.length_replicate] at hlength
  refine ⟨ofLE part, rest, ?_, ?_⟩
  · have hbound := ofLE_lt part
    rw [← hlength] at hbound
    exact hbound
  · rw [hlength, leBytes_ofLE, hbytes]

theorem readString_of_pos_lt {s : Ifstream} (hs : s.good = true)
    (hpos : s.readString.2.pos < s.bytes.length) :
    ∃ text rest, text.length < 2 ^ 32 ∧
      s.bytes.drop s.pos = leBytes 4 text.length ++ text ++ rest := by
  have hfirst : s.read32.2.pos < s.bytes.length :=
    Nat.lt_of_le_of_lt (read_pos_le _ _) hpos
  obtain ⟨n, rest, hn, hbytes⟩ := read32_of_pos_lt hs hfirst
  rw [readString, read32_of_append hs hn hbytes] at hpos
  obtain ⟨text, tail, htext, hlength⟩ := @read_of_pos_lt { s with pos := s.pos + 4 } hs _ hpos
  have hrest := drop_of_append hbytes
  rw [length_leBytes] at hrest
  rw [List.length_replicate] at hlength
  refine ⟨text, tail, hlength ▸ hn, ?_⟩
  rw [hbytes, ← hrest, ← hlength, List.append_assoc]
  exact congrArg _ htext

end Ifstream

/-! ### The files -/

open Ifstream

theorem loadFiles_pos_le (n : Nat) (s : Ifstream) : s.pos ≤ (loadFiles n s).2.pos := by
  induction n generalizing s with
  | zero => exact Nat.le_refl _
  | succ n ih =>
      rw [loadFiles]
      exact (readString_pos_le s).trans ((readString_pos_le _).trans (ih _))

/-- Files whose lengths fit into their fields. -/
def Fits (files : List (CString × CString)) : Prop :=
  ∀ f ∈ files, f.1.length < 2 ^ 32 ∧ f.2.length < 2 ^ 32

theorem length_entry (f : CString × CString) :
    (entry f).length = 4 + f.1.length + (4 + f.2.length) := by
  simp only [entry, List.length_append, length_leBytes]

theorem loadFiles_succ {n : Nat} {s s' s'' final : Ifstream} {name content : CString}
    {files : List (CString × CString)} (hname : s.readString = (name, s'))
    (hcontent : s'.readString = (content, s'')) (hrest : loadFiles n s'' = (files, final)) :
    loadFiles (n + 1) s = ((name, content) :: files, final) := by
  rw [loadFiles, hname]
  simp only [hcontent, hrest]

/-- The loop reads back the files that the image has where the stream stands. -/
theorem loadFiles_of_append {files : List (CString × CString)} {s : Ifstream} (hs : s.good = true)
    {rest : CString} (hfits : Fits files) (hbytes : s.bytes.drop s.pos = files.flatMap entry ++ rest) :
    loadFiles files.length s =
      (files, { s with pos := s.pos + (files.flatMap entry).length }) := by
  induction files generalizing s with
  | nil => rfl
  | cons f files ih =>
      obtain ⟨name, content⟩ := f
      have hf := hfits _ List.mem_cons_self
      rw [List.flatMap_cons, entry, List.append_assoc, List.append_assoc] at hbytes
      have hname := readString_of_append hs hf.1 hbytes
      have hafter := drop_of_append hbytes
      rw [List.length_append, length_leBytes] at hafter
      have hcontent := @readString_of_append { s with pos := s.pos + (4 + name.length) } hs content _
        hf.2 hafter
      have hlast := @drop_of_append { s with pos := s.pos + (4 + name.length) } _ _ hafter
      rw [List.length_append, length_leBytes] at hlast
      have hrest := @ih { s with pos := s.pos + (4 + name.length) + (4 + content.length) } hs
        (fun g hg => hfits g (List.mem_cons_of_mem _ hg)) hlast
      rw [List.length_cons, loadFiles_succ hname hcontent hrest, List.flatMap_cons,
        List.length_append, length_entry]
      simp only [Nat.add_assoc]

/-- Where the loop stops before the end of the image, it has read files that are there. -/
theorem loadFiles_of_pos_lt {n : Nat} {s : Ifstream} (hs : s.good = true)
    (hpos : (loadFiles n s).2.pos < s.bytes.length) :
    ∃ files rest, files.length = n ∧ Fits files ∧
      s.bytes.drop s.pos = files.flatMap entry ++ rest := by
  induction n generalizing s with
  | zero => exact ⟨[], _, rfl, fun f hf => absurd hf List.not_mem_nil, rfl⟩
  | succ n ih =>
      have hlast : (loadFiles n s.readString.2.readString.2).2.pos < s.bytes.length := hpos
      have hsecond := Nat.lt_of_le_of_lt (loadFiles_pos_le _ _) hlast
      have hfirst := Nat.lt_of_le_of_lt (readString_pos_le _) hsecond
      obtain ⟨name, tail, hname, hbytes⟩ := readString_of_pos_lt hs hfirst
      rw [readString_of_append hs hname hbytes] at hlast hsecond
      have hafter := drop_of_append hbytes
      rw [List.length_append, length_leBytes] at hafter
      obtain ⟨content, tail', hcontent, hbytes'⟩ := @readString_of_pos_lt
        { s with pos := s.pos + (4 + name.length) } hs hsecond
      rw [@readString_of_append { s with pos := s.pos + (4 + name.length) } hs content tail' hcontent
        hbytes'] at hlast
      have hafter' := @drop_of_append { s with pos := s.pos + (4 + name.length) } _ _ hbytes'
      rw [List.length_append, length_leBytes] at hafter'
      obtain ⟨files, rest, hlength, hfits, hfiles⟩ := @ih
        { s with pos := s.pos + (4 + name.length) + (4 + content.length) } hs hlast
      refine ⟨(name, content) :: files, rest, by rw [List.length_cons, hlength], ?_, ?_⟩
      · intro f hf
        obtain rfl | hf := List.mem_cons.mp hf
        · exact ⟨hname, hcontent⟩
        · exact hfits f hf
      · rw [List.flatMap_cons, entry, List.append_assoc, List.append_assoc, ← hfiles, hbytes]
        rw [hafter'] at hfiles ⊢
        rw [← hbytes', hafter]

theorem loadBlob_of_append {files : List (CString × CString)} {s : Ifstream} (hs : s.good = true)
    {rest : CString} (hcount : files.length < 2 ^ 32) (hfits : Fits files)
    (hbytes : s.bytes.drop s.pos = vfsBlob files ++ rest) :
    loadBlob s = (files, { s with pos := s.pos + (vfsBlob files).length }) := by
  rw [vfsBlob, List.append_assoc] at hbytes
  have hafter := drop_of_append hbytes
  rw [length_leBytes] at hafter
  have hfiles := @loadFiles_of_append files { s with pos := s.pos + 4 } hs _ hfits hafter
  rw [loadBlob, read32_of_append hs hcount hbytes]
  simp only [hfiles, vfsBlob, List.length_append, length_leBytes, Nat.add_assoc]

theorem loadBlob_of_pos_lt {s : Ifstream} (hs : s.good = true)
    (hpos : (loadBlob s).2.pos < s.bytes.length) :
    ∃ files rest, files.length < 2 ^ 32 ∧ Fits files ∧
      s.bytes.drop s.pos = vfsBlob files ++ rest := by
  have hfirst : s.read32.2.pos < s.bytes.length :=
    Nat.lt_of_le_of_lt (loadFiles_pos_le _ _) hpos
  obtain ⟨n, rest, hn, hbytes⟩ := read32_of_pos_lt hs hfirst
  rw [loadBlob, read32_of_append hs hn hbytes] at hpos
  obtain ⟨files, tail, hlength, hfits, hfiles⟩ :=
    @loadFiles_of_pos_lt n { s with pos := s.pos + 4 } hs hpos
  have hafter := drop_of_append hbytes
  rw [length_leBytes] at hafter
  refine ⟨files, tail, hlength ▸ hn, hfits, ?_⟩
  rw [hbytes, vfsBlob, List.append_assoc, ← hfiles, hafter, hlength]

theorem loadFiles_of_not_good {s : Ifstream} (hs : s.good = false) : loadBlob s = ([], s) := by
  rw [loadBlob, read32, read_of_not_good hs]
  rfl

/-! ### The trailer -/

/-- An image that ends with a number and six more bytes. -/
theorem readTrailer_of_append {front magic : CString} {n : Nat} (hfront : front ≠ [])
    (hn : n < 2 ^ 32) (hmagic : magic.length = 6) :
    readTrailer (front ++ (leBytes 4 n ++ magic)) =
      if magic = lit "EZPKV1" then
        some (n, ⟨front ++ (leBytes 4 n ++ magic), (front ++ (leBytes 4 n ++ magic)).length, true⟩)
      else none := by
  have hlength : (front ++ (leBytes 4 n ++ magic)).length = front.length + 10 := by
    simp [hmagic]
  have hpos := List.length_pos_iff.mpr hfront
  generalize himage : front ++ (leBytes 4 n ++ magic) = image at hlength ⊢
  have hseek : Ifstream.seekEnd ⟨image, image.length, true⟩ 10 = ⟨image, front.length, true⟩ := by
    simp [seekEnd, hlength]
  have hdrop : image.drop front.length = leBytes 4 n ++ magic := by
    rw [← himage, List.drop_left]
  have hsize := @read32_of_append ⟨image, front.length, true⟩ rfl n magic hn hdrop
  have hafter := @drop_of_append ⟨image, front.length, true⟩ _ _ hdrop
  rw [length_leBytes, ← List.append_nil magic] at hafter
  have hread := @read_of_append ⟨image, front.length + 4, true⟩ rfl magic []
    (List.replicate 6 0) hafter (by rw [hmagic]; rfl)
  rw [readTrailer, if_pos (by omega), hseek]
  simp only [hsize, hread, hmagic, hlength]

/-- What a trailer says about its image, and where it leaves the stream. -/
theorem readTrailer_some {image : CString} {vfsSize : Nat} {s : Ifstream}
    (htrailer : readTrailer image = some (vfsSize, s)) :
    10 < image.length ∧ s = ⟨image, image.length, true⟩ := by
  have hlength : 10 < image.length := by
    by_contra hshort
    rw [readTrailer, if_neg hshort] at htrailer
    cases htrailer
  have htail : (image.drop (image.length - 10)).length = 10 := by
    rw [List.length_drop]
    omega
  obtain ⟨front, bytes, magic, himage, hfront, hbytes, hmagic⟩ : ∃ front bytes magic : CString,
      image = front ++ (bytes ++ magic) ∧ front ≠ [] ∧ bytes.length = 4 ∧ magic.length = 6 := by
    refine ⟨image.take (image.length - 10), (image.drop (image.length - 10)).take 4,
      (image.drop (image.length - 10)).drop 4, ?_, ?_, ?_, ?_⟩
    · rw [List.take_append_drop, List.take_append_drop]
    · apply List.length_pos_iff.mp
      rw [List.length_take]
      omega
    · rw [List.length_take]
      omega
    · rw [List.length_drop]
      omega
  have hn : ofLE bytes < 2 ^ 32 := by
    have hbound := ofLE_lt bytes
    rw [hbytes] at hbound
    exact hbound
  rw [← leBytes_ofLE bytes, hbytes] at himage
  refine ⟨hlength, ?_⟩
  rw [himage, readTrailer_of_append hfront hn hmagic] at htrailer
  split at htrailer
  · rw [himage]
    exact (Prod.mk.inj (Option.some.inj htrailer)).2.symm
  · cases htrailer

theorem vfsBlob_ne_nil (files : List (CString × CString)) : vfsBlob files ≠ [] := by
  apply List.length_pos_iff.mp
  rw [vfsBlob, List.length_append, length_leBytes]
  omega

theorem readTrailer_bundleFile (exe : CString) {files : List (CString × CString)}
    (hsize : (vfsBlob files).length < 2 ^ 32) :
    readTrailer (bundleFile exe files) =
      some ((vfsBlob files).length, ⟨bundleFile exe files, (bundleFile exe files).length, true⟩) := by
  have hsplit : bundleFile exe files =
      (exe ++ vfsBlob files) ++ (leBytes 4 (vfsBlob files).length ++ lit "EZPKV1") := by
    simp only [bundleFile, payload, List.append_assoc]
  have hfront : exe ++ vfsBlob files ≠ [] := by
    intro hnil
    exact vfsBlob_ne_nil files (List.append_eq_nil_iff.mp hnil).2
  rw [hsplit, readTrailer_of_append hfront hsize rfl, if_pos rfl]

/-- The entries take more room than there are files, and as much as each file. -/
theorem length_entries (files : List (CString × CString)) :
    files.length ≤ (files.flatMap entry).length ∧
      ∀ f ∈ files, (entry f).length ≤ (files.flatMap entry).length := by
  induction files with
  | nil => exact ⟨Nat.le_refl _, fun f hf => absurd hf List.not_mem_nil⟩
  | cons f files ih =>
      obtain ⟨hcount, hentries⟩ := ih
      have hf := length_entry f
      rw [List.flatMap_cons, List.length_append, List.length_cons]
      refine ⟨by omega, fun g hg => ?_⟩
      obtain rfl | hg := List.mem_cons.mp hg
      · omega
      · have := hentries g hg
        omega

theorem fits_of_length {files : List (CString × CString)} (hsize : (vfsBlob files).length < 2 ^ 32) :
    files.length < 2 ^ 32 ∧ Fits files := by
  obtain ⟨hcount, hentries⟩ := length_entries files
  rw [vfsBlob, List.length_append, length_leBytes] at hsize
  refine ⟨by omega, fun f hf => ?_⟩
  have hentry := hentries f hf
  rw [length_entry] at hentry
  omega

/-- Every bundled program is loaded as it was packed. -/
theorem installed_bundleFile (exe : CString) {files : List (CString × CString)}
    (hsize : (vfsBlob files).length < 2 ^ 32) : installed (bundleFile exe files) = files := by
  obtain ⟨hcount, hfits⟩ := fits_of_length hsize
  have hlength : (bundleFile exe files).length = exe.length + (vfsBlob files).length + 10 := by
    simp [bundleFile, payload, lit]
    omega
  have hseek : seekBlob (vfsBlob files).length
      ⟨bundleFile exe files, (bundleFile exe files).length, true⟩ =
        ⟨bundleFile exe files, exe.length, true⟩ := by
    simp only [seekBlob, seekEnd, if_true, hlength]
    rw [if_pos (by omega)]
    congr 1
    omega
  have hdrop : (bundleFile exe files).drop exe.length =
      vfsBlob files ++ (leBytes 4 (vfsBlob files).length ++ lit "EZPKV1") := by
    rw [bundleFile, List.drop_left, payload, List.append_assoc]
  rw [installed, readTrailer_bundleFile exe hsize]
  simp only [hseek]
  rw [@loadBlob_of_append files ⟨bundleFile exe files, exe.length, true⟩ rfl _ hcount hfits hdrop]

/-- A trailer whose size does not fit into the image, or whose blob is well formed. -/
def TrailerSafe (image : CString) : Prop :=
  ∀ vfsSize s, readTrailer image = some (vfsSize, s) →
    image.length - 10 < vfsSize ∨ WellFormed image vfsSize

/-- The loader makes of an image what it should, exactly when the size in the trailer is too large for
the image or the blob is well formed. -/
theorem loadedRight_iff (image : CString) : LoadedRight image ↔ TrailerSafe image := by
  constructor
  · intro hright vfsSize s htrailer
    by_contra hnot
    obtain ⟨hfits, hformed⟩ := not_or.mp hnot
    obtain ⟨-, hinside⟩ := hright.stops vfsSize s htrailer hformed
    obtain ⟨hlength, rfl⟩ := readTrailer_some htrailer
    have hsize : vfsSize ≤ image.length - 10 := Nat.not_lt.mp hfits
    have hseek : seekBlob vfsSize ⟨image, image.length, true⟩ =
        ⟨image, image.length - 10 - vfsSize, true⟩ := by
      simp only [seekBlob, seekEnd, if_true]
      rw [if_pos (by omega), Nat.sub_sub]
    rw [hseek] at hinside
    have hpos : (loadBlob ⟨image, image.length - 10 - vfsSize, true⟩).2.pos ≤ image.length - 10 := by
      obtain hsame | hle := hinside
      · rw [hsame]
        exact Nat.sub_le _ _
      · exact hle
    obtain ⟨files, rest, hcount, hfiles, hdrop⟩ :=
      @loadBlob_of_pos_lt ⟨image, image.length - 10 - vfsSize, true⟩ rfl
        (Nat.lt_of_le_of_lt hpos (by simp only; omega))
    rw [@loadBlob_of_append files ⟨image, image.length - 10 - vfsSize, true⟩ rfl rest hcount hfiles
      hdrop] at hpos
    refine hformed ⟨hsize, files, ?_⟩
    have hfront : vfsBlob files <+: image.drop (image.length - 10 - vfsSize) := ⟨rest, hdrop.symm⟩
    rw [blob, List.prefix_take_iff]
    refine ⟨hfront, ?_⟩
    simp only at hpos
    omega
  · intro hsafe
    constructor
    · intro exe files hsize himage
      rw [himage, installed_bundleFile exe hsize]
    · intro vfsSize s htrailer hformed
      have hlarge := (hsafe vfsSize s htrailer).resolve_right hformed
      obtain ⟨hlength, rfl⟩ := readTrailer_some htrailer
      have hbad : (seekBlob vfsSize ⟨image, image.length, true⟩).good = false := by
        simp only [seekBlob, seekEnd, if_true]
        rw [if_neg (by omega)]
      rw [Stopped, loadFiles_of_not_good hbad]
      exact ⟨rfl, .inl rfl⟩

/-- An image whose blob has the number of a file and the length of its name, and ends there. -/
def cutOff : CString :=
  [77, 90] ++ ([1, 0, 0, 0] ++ [20, 0, 0, 0]) ++ ([8, 0, 0, 0] ++ lit "EZPKV1")

/-- The loader reads the trailer as part of a name and installs a file of that name. -/
theorem cutOff_not_loadedRight : ¬LoadedRight cutOff := by
  intro hright
  have htrailer : readTrailer cutOff = some (8, ⟨cutOff, 20, true⟩) := by decide
  have hformed : ¬WellFormed cutOff 8 := by
    intro hwell
    obtain ⟨-, files, hprefix⟩ := hwell
    have hlength := hprefix.length_le
    cases files with
    | nil =>
        have hblob : ¬vfsBlob [] <+: blob cutOff 8 := by decide
        exact hblob hprefix
    | cons f files =>
        have hblob : (blob cutOff 8).length = 8 := by decide
        have hf := length_entry f
        rw [vfsBlob, List.length_append, length_leBytes, List.flatMap_cons, List.length_append]
          at hlength
        omega
  have hstopped := (hright.stops 8 _ htrailer hformed).1
  revert hstopped
  decide

/-! ### The file table -/

/-- A table filled with files of different names has them and no others. -/
theorem virtualFileSystem_eq_some {files : List (CString × CString)}
    (hnames : (files.map Prod.fst).Nodup) {name content : CString} :
    virtualFileSystem files name = some content ↔ (name, content) ∈ files := by
  suffices hfrom : ∀ table : CString → Option CString, (∀ f ∈ files, table f.1 = none) →
      (files.foldl assign table name = some content ↔
        (name, content) ∈ files ∨ table name = some content) by
    simpa [virtualFileSystem] using hfrom (fun _ => none) fun _ _ => rfl
  induction files with
  | nil => simp
  | cons f files ih =>
      intro table htable
      rw [List.map_cons, List.nodup_cons] at hnames
      have hother : ∀ g ∈ files, g.1 ≠ f.1 := by
        intro g hg hsame
        exact hnames.1 (List.mem_map.mpr ⟨g, hg, hsame⟩)
      have hafter : ∀ g ∈ files, assign table f g.1 = none := by
        intro g hg
        rw [assign, Function.update_of_ne (hother g hg)]
        exact htable g (List.mem_cons_of_mem _ hg)
      rw [List.foldl_cons, ih hnames.2 _ hafter, List.mem_cons, assign]
      by_cases hname : name = f.1
      · have hnotIn : (name, content) ∉ files := fun hg => hother _ hg hname
        have hnone := htable f List.mem_cons_self
        rw [← hname] at hnone
        subst hname
        simp [hnotIn, hnone, Prod.ext_iff, eq_comm]
      · have hne : (name, content) ≠ f := fun h => hname (congrArg Prod.fst h)
        rw [Function.update_of_ne hname, or_iff_right hne]

/-- A bundled program finds the files it was packed with, and runs its `__main__.ez`. -/
theorem bundled_table (exe : CString) {files : List (CString × CString)}
    (hsize : (vfsBlob files).length < 2 ^ 32) (hnames : (files.map Prod.fst).Nodup)
    {source : CString} (hmain : (lit "__main__.ez", source) ∈ files) :
    bundledMain (bundleFile exe files) = some source := by
  rw [bundledMain, installed_bundleFile exe hsize, virtualFileSystem_eq_some hnames]
  exact hmain

end VirtualFiles

end EZLanguage
