import EZLanguage.Runtime.ByteDelimiters
import EZLanguage.Runtime.StringPieces

/-!
# Header blocks

`formatHeaders` writes a dictionary of headers as lines, and `parseHeaders` reads a block of lines back
into a dictionary. Line breaks are stripped from the values but not from the names.
-/

namespace EZLanguage

namespace Httpx

open Utf8 Search StringPieces StringSearch

/-- A dictionary of headers, in the order of its keys. A value may be nil. -/
abbrev Headers := List (CString × Option CString)

/-- A parsed header: one value, or the values of a name that repeats. -/
inductive HeaderValue
  | one (value : CString)
  | many (values : List CString)
  deriving DecidableEq

def crlf : CString := [13, 10]

def stripBreaks (value : CString) : CString := replace (replace value [13] []) [10] []

/-- The line of a header. -/
def headerText (name value : CString) : CString := name ++ (58 :: 32 :: stripBreaks value)

/-- The entries that are not nil. -/
def kept (headers : Headers) : List (CString × CString) :=
  headers.filterMap fun entry => entry.2.map fun value => (entry.1, value)

def formatHeaders (headers : Headers) : CString :=
  join ((kept headers).map fun entry => headerText entry.1 entry.2) crlf

/-! ### Reading a block -/

def isBlank (c : UInt8) : Bool := c == 32 || c == 9 || c == 10 || c == 13

/-- `trim`. -/
def trim (s : CString) : CString := ((s.dropWhile isBlank).reverse.dropWhile isBlank).reverse

/-- `contains` on strings. -/
def contains (s t : CString) : Bool := (find t s 0).isSome

def HeaderValue.add : HeaderValue → CString → HeaderValue
  | .one first, value => .many [first, value]
  | .many values, value => .many (values ++ [value])

/-- The value of a line goes under its name, beside the values that are already there. -/
def record (result : List (CString × HeaderValue)) (name value : CString) :
    List (CString × HeaderValue) :=
  if result.any fun entry => entry.1 = name then
    result.map fun entry => if entry.1 = name then (entry.1, entry.2.add value) else entry
  else result ++ [(name, .one value)]

/-- The name and value of a line, if it has them. -/
def headerLine (o : Machine) (line : CString) : Option (CString × CString) :=
  if line ≠ [] ∧ contains line [58] = true then
    let place := (indexOfBytes o.toArithmetic line [58] none).run
    let name := lowerChars (trim (o.substr line 0 place))
    let value := trim (o.substr line (place + 1) (lengthChars line - place - 1))
    if name ≠ [] then some (name, value) else none
  else none

def parseHeaders (o : Machine) (raw : Option CString) : List (CString × HeaderValue) :=
  match raw with
  | none => []
  | some raw =>
      if raw = [] then []
      else ((split raw crlf).filterMap (headerLine o)).foldl
        (fun result entry => record result entry.1 entry.2) []

/-! ### The lines of a block -/

theorem crlf_ne_nil : crlf ≠ [] := List.cons_ne_nil _ _

/-- The lines of a block. An empty block has none. -/
def blockLines (block : CString) : List CString := if block = [] then [] else split block crlf

def Unbroken (s : CString) : Prop := 13 ∉ s ∧ 10 ∉ s

/-- There is one line for each entry that is not nil, and no line has a break inside. -/
structure OneLineEach (headers : Headers) : Prop where
  lines : blockLines (formatHeaders headers) =
    (kept headers).map fun entry => headerText entry.1 entry.2
  unbroken : ∀ line ∈ blockLines (formatHeaders headers), Unbroken line

theorem replace_byte (c : UInt8) (s : CString) : replace s [c] [] = s.filter (· ≠ c) := by
  rw [replace_of_ne_nil [] (List.cons_ne_nil c []), join_nil_pieces]

theorem stripBreaks_unbroken (value : CString) : Unbroken (stripBreaks value) := by
  rw [stripBreaks, replace_byte, replace_byte]
  constructor <;> simp [List.mem_filter]

theorem headerText_unbroken_iff (name value : CString) :
    Unbroken (headerText name value) ↔ Unbroken name := by
  have hvalue := stripBreaks_unbroken value
  unfold Unbroken headerText at *
  simp only [List.mem_append, List.mem_cons, not_or]
  constructor
  · intro h
    exact ⟨h.1.1, h.2.1⟩
  · intro h
    exact ⟨⟨h.1, by decide, by decide, hvalue.1⟩, ⟨h.2, by decide, by decide, hvalue.2⟩⟩

theorem headerText_ne_nil (name value : CString) : headerText name value ≠ [] :=
  List.append_ne_nil_of_right_ne_nil _ (List.cons_ne_nil _ _)

theorem formatHeaders_eq_nil_iff (headers : Headers) :
    formatHeaders headers = [] ↔ kept headers = [] := by
  rw [formatHeaders, StringPieces.join]
  cases kept headers with
  | nil => exact iff_of_true rfl rfl
  | cons entry rest =>
      apply iff_of_false _ (List.cons_ne_nil _ _)
      exact List.append_ne_nil_of_left_ne_nil (headerText_ne_nil _ _) _

/-- Lines without breaks are split apart again. -/
theorem blockLines_formatHeaders {headers : Headers}
    (hnames : ∀ entry ∈ kept headers, Unbroken entry.1) :
    blockLines (formatHeaders headers) =
      (kept headers).map fun entry => headerText entry.1 entry.2 := by
  rw [blockLines]
  by_cases hempty : kept headers = []
  · rw [if_pos ((formatHeaders_eq_nil_iff headers).mpr hempty), hempty, List.map_nil]
  · rw [if_neg (fun h => hempty ((formatHeaders_eq_nil_iff headers).mp h)),
      split_of_ne_nil crlf_ne_nil, formatHeaders, StringPieces.join]
    apply pieces_join
    · intro h
      exact hempty (List.map_eq_nil_iff.mp h)
    · intro line hmem x hx hhead
      obtain ⟨entry, hentry, rfl⟩ := List.mem_map.mp hmem
      have hline := (headerText_unbroken_iff entry.1 entry.2).mpr (hnames entry hentry)
      rw [crlf, List.head?_cons] at hhead
      obtain rfl := Option.some.inj hhead
      exact hline.1 hx

/-- Every entry has its line exactly when no name has a line break. -/
theorem oneLineEach_iff (headers : Headers) :
    OneLineEach headers ↔ ∀ entry ∈ kept headers, Unbroken entry.1 := by
  constructor
  · intro h entry hmem
    apply (headerText_unbroken_iff entry.1 entry.2).mp
    apply h.unbroken
    rw [h.lines]
    exact List.mem_map_of_mem hmem
  · intro hnames
    have hlines := blockLines_formatHeaders hnames
    refine ⟨hlines, ?_⟩
    intro line hmem
    rw [hlines] at hmem
    obtain ⟨entry, hentry, rfl⟩ := List.mem_map.mp hmem
    exact (headerText_unbroken_iff entry.1 entry.2).mpr (hnames entry hentry)

/-! ### Reading the lines back -/

/-- The key under which a name is read back. -/
def keyOf (name : CString) : CString := lowerChars (trim name)

/-- The names that the parser can tell apart, in lines that a machine can index. -/
structure Recoverable (headers : Headers) : Prop where
  distinct : ((kept headers).map fun entry => keyOf entry.1).Nodup
  colon : ∀ entry ∈ kept headers, 58 ∉ entry.1
  unbroken : ∀ entry ∈ kept headers, Unbroken entry.1
  short : ∀ entry ∈ kept headers, lengthChars (headerText entry.1 entry.2) < 2147483648

/-- Every entry is read back with its trimmed value. -/
def Recovered (o : Machine) (headers : Headers) : Prop :=
  parseHeaders o (some (formatHeaders headers)) =
    (kept headers).map fun entry => (keyOf entry.1, .one (trim (stripBreaks entry.2)))

theorem trim_space (value : CString) : trim (32 :: value) = trim value := by
  rw [trim, trim, List.dropWhile_cons_of_pos (by rfl)]

theorem headerLine_headerText (o : Machine) {name value : CString} (hname : 58 ∉ name)
    (hshort : lengthChars (headerText name value) < 2147483648) :
    headerLine o (headerText name value) =
      if keyOf name ≠ [] then some (keyOf name, trim (stripBreaks value)) else none := by
  have hascii : (58 : UInt8) < 0x80 := by decide
  have hfound : contains (headerText name value) [58] = true := by
    rw [contains, Option.isSome_iff_ne_none]
    intro hnone
    apply (find_eq_none_iff (Nat.zero_le _)).mp hnone name.length (Nat.zero_le _) (by simp [headerText])
    rw [headerText, List.drop_left]
    exact ⟨_, rfl⟩
  rw [headerLine, if_pos ⟨headerText_ne_nil name value, hfound⟩]
  dsimp only
  rw [headerText] at hshort ⊢
  rw [indexOfBytes_byte o hascii hname, substr_before o hascii hshort, substr_after o hascii hshort,
    trim_space]
  rfl

theorem foldl_record {entries : List (CString × CString)} {result : List (CString × HeaderValue)}
    (hdistinct : (entries.map Prod.fst).Nodup)
    (hfresh : ∀ entry ∈ entries, ∀ old ∈ result, old.1 ≠ entry.1) :
    entries.foldl (fun result entry => record result entry.1 entry.2) result =
      result ++ entries.map fun entry => (entry.1, .one entry.2) := by
  induction entries generalizing result with
  | nil => rw [List.foldl_nil, List.map_nil, List.append_nil]
  | cons entry entries ih =>
      rw [List.map_cons, List.nodup_cons] at hdistinct
      have hnew : (result.any fun old => old.1 = entry.1) = false := by
        apply List.any_eq_false.mpr
        intro old hold
        simpa using hfresh entry List.mem_cons_self old hold
      rw [List.foldl_cons, record, hnew, if_neg Bool.false_ne_true, ih hdistinct.2]
      · rw [List.append_assoc]
        rfl
      · intro later hlater old hold
        rcases List.mem_append.mp hold with hold | hhere
        · exact hfresh later (List.mem_cons_of_mem _ hlater) old hold
        · rw [List.mem_singleton.mp hhere]
          intro heq
          exact hdistinct.1 (heq ▸ List.mem_map_of_mem hlater)

theorem record_names {result : List (CString × HeaderValue)} (name value : CString)
    {entry : CString × HeaderValue} (hmem : entry ∈ record result name value) :
    entry.1 = name ∨ ∃ old ∈ result, old.1 = entry.1 := by
  rw [record] at hmem
  split_ifs at hmem with hany
  · obtain ⟨old, hold, rfl⟩ := List.mem_map.mp hmem
    refine Or.inr ⟨old, hold, ?_⟩
    split_ifs <;> rfl
  · rcases List.mem_append.mp hmem with hold | hnew
    · exact Or.inr ⟨entry, hold, rfl⟩
    · rw [List.mem_singleton.mp hnew]
      exact Or.inl rfl

/-- No header is read with an empty name. -/
theorem parseHeaders_name_ne_nil (o : Machine) (raw : Option CString) :
    ∀ entry ∈ parseHeaders o raw, entry.1 ≠ [] := by
  have hfold : ∀ (lines : List (CString × CString)) (result : List (CString × HeaderValue)),
      (∀ line ∈ lines, line.1 ≠ []) → (∀ entry ∈ result, entry.1 ≠ []) →
      ∀ entry ∈ lines.foldl (fun result entry => record result entry.1 entry.2) result,
        entry.1 ≠ [] := by
    intro lines
    induction lines with
    | nil =>
        intro result _ hresult
        exact hresult
    | cons line lines ih =>
        intro result hlines hresult
        apply ih _ fun later hlater => hlines later (List.mem_cons_of_mem _ hlater)
        intro entry hmem
        rcases record_names line.1 line.2 hmem with hname | ⟨old, hold, hname⟩
        · rw [hname]
          exact hlines line List.mem_cons_self
        · rw [← hname]
          exact hresult old hold
  cases raw with
  | none => simp [parseHeaders]
  | some raw =>
      rw [parseHeaders]
      split_ifs with hempty
      · simp
      · apply hfold
        · intro line hline
          obtain ⟨text, _, htext⟩ := List.mem_filterMap.mp hline
          rw [headerLine] at htext
          split_ifs at htext with hcolon
          dsimp only at htext
          split_ifs at htext with hname
          rw [← Option.some.inj htext]
          exact hname
        · simp

theorem recovered_iff (o : Machine) {headers : Headers} (hheaders : Recoverable headers) :
    Recovered o headers ↔ ∀ entry ∈ kept headers, keyOf entry.1 ≠ [] := by
  constructor
  · intro h entry hmem
    apply parseHeaders_name_ne_nil o (some (formatHeaders headers))
      (keyOf entry.1, .one (trim (stripBreaks entry.2)))
    rw [h]
    exact List.mem_map.mpr ⟨entry, hmem, rfl⟩
  · intro hnames
    have hlines := blockLines_formatHeaders hheaders.unbroken
    have hparsed : parseHeaders o (some (formatHeaders headers)) =
        ((blockLines (formatHeaders headers)).filterMap (headerLine o)).foldl
          (fun result entry => record result entry.1 entry.2) [] := by
      rw [parseHeaders, blockLines]
      split_ifs <;> rfl
    have hentries : ((kept headers).map fun entry => headerText entry.1 entry.2).filterMap
        (headerLine o) =
        (kept headers).map fun entry => (keyOf entry.1, trim (stripBreaks entry.2)) := by
      rw [List.filterMap_map, ← List.filterMap_eq_map]
      apply List.filterMap_congr
      intro entry hmem
      have hline := headerLine_headerText o (hheaders.colon entry hmem) (hheaders.short entry hmem)
      rw [if_pos (hnames entry hmem)] at hline
      exact hline
    rw [Recovered, hparsed, hlines, hentries, foldl_record, List.nil_append, List.map_map]
    · rfl
    · rw [List.map_map]
      exact hheaders.distinct
    · simp

/-- A block has one line for each entry exactly when no name has a line break in it, and it is read back
exactly when no name is blank. -/
theorem header_block (o : Machine) (headers : Headers) :
    (OneLineEach headers ↔ ∀ entry ∈ kept headers, Unbroken entry.1) ∧
    (Recoverable headers →
      (Recovered o headers ↔ ∀ entry ∈ kept headers, keyOf entry.1 ≠ [])) :=
  ⟨oneLineEach_iff headers, recovered_iff o⟩

/-- The name of a header that adds a second one. -/
def splitName : Headers := [(lit "A: b\r\nC", some (lit "d"))]

theorem header_block_split_name : ¬ OneLineEach splitName := by
  rw [oneLineEach_iff]
  intro h
  have hname := h (lit "A: b\r\nC", lit "d") (by decide)
  exact hname.1 (by decide)

end Httpx

end EZLanguage
