import EZLanguage.VM.NameTables
import Mathlib.Data.List.Forall2
import Mathlib.Logic.Function.Iterate

/-!
# Comma-separated values

`parse_csv` is a machine over the bytes of a text with the rows so far, the row and the field it is in and
whether it is between quotes. Its first row names the keys of the dictionaries that the other rows become.
`to_csv` takes the keys of the first dictionary, in the order its map is iterated in, and writes every
dictionary as a row in that order, with quotes where a field needs them.
-/

namespace EZLanguage

namespace CSV

/-! ### The parser -/

/-- The variables of the parser's loop. -/
structure Scan where
  rows : List (List CString)
  currentRow : List CString
  currentField : CString
  inQuotes : Bool
  deriving DecidableEq

namespace Scan

def start : Scan := ⟨[], [], [], false⟩

/-- `currentField += c`. -/
def append (s : Scan) (c : UInt8) : Scan := { s with currentField := s.currentField ++ [c] }

/-- `currentRow.push_back(currentField); currentField = ""`. -/
def endField (s : Scan) : Scan :=
  { s with currentRow := s.currentRow ++ [s.currentField], currentField := [] }

/-- `rows.push_back(currentRow); currentRow.clear()`, behind the last field. -/
def endRow (s : Scan) : Scan :=
  { s.endField with rows := s.rows ++ [s.endField.currentRow], currentRow := [] }

end Scan

/-- The loop's body on the byte `c`, with what is behind it: what is left of that afterwards is shorter by
one where a second quote is skipped. -/
def advance (s : Scan) (c : UInt8) (rest : CString) : Scan × CString :=
  if s.inQuotes then
    if c = 34 then
      if rest.head? = some 34 then (s.append 34, rest.tail)
      else ({ s with inQuotes := false }, rest)
    else (s.append c, rest)
  else if c = 34 then ({ s with inQuotes := true }, rest)
  else if c = 44 then (s.endField, rest)
  else if c = 13 then (s, rest)
  else if c = 10 then (s.endRow, rest)
  else (s.append c, rest)

theorem length_advance (s : Scan) (c : UInt8) (rest : CString) :
    (advance s c rest).2.length ≤ rest.length := by
  have htail : rest.tail.length ≤ rest.length := by
    rw [List.length_tail]
    omega
  unfold advance
  grind

/-- The loop. -/
def scan (s : Scan) : CString → Scan
  | [] => s
  | c :: rest => scan (advance s c rest).1 (advance s c rest).2
termination_by text => text.length
decreasing_by exact Nat.lt_succ_of_le (length_advance s c rest)

/-- The rows of a text. A last row without a newline counts when something is in it. -/
def rows (text : CString) : List (List CString) :=
  let s := scan Scan.start text
  if !s.currentField.isEmpty || !s.currentRow.isEmpty then s.endRow.rows else s.rows

/-- A value in a dictionary: nil, a string, or another value with its `toString()`. -/
inductive Cell where
  | nil
  | string (s : CString)
  | other (text : CString)
  deriving DecidableEq

/-- A map from names to values. Its keys are distinct. -/
structure Dictionary where
  entries : List (CString × Cell)
  distinct : (entries.map Prod.fst).Nodup

namespace Dictionary

def empty : Dictionary := ⟨[], List.nodup_nil⟩

def get (m : Dictionary) (key : CString) : Option Cell := lookup m.entries key

def keys (m : Dictionary) : List CString := m.entries.map Prod.fst

/-- `m[key] = value`. -/
def set (m : Dictionary) (key : CString) (value : Cell) : Dictionary where
  entries := assign m.entries key value
  distinct := nodup_assign m.distinct key value

end Dictionary

/-- The dictionary of a row, as far as both it and the headers go. -/
def dictionary (headers row : List CString) : Dictionary :=
  (headers.zip row).foldl (fun m entry => m.set entry.1 (.string entry.2)) Dictionary.empty

def parse_csv (text : CString) : List Dictionary :=
  match rows text with
  | [] => []
  | headers :: rows => rows.map (dictionary headers)

/-! ### The writer -/

/-- Whether a field holds a comma, a quote, a newline or a carriage return. -/
def quoted (s : CString) : Bool := s.contains 44 || s.contains 34 || s.contains 10 || s.contains 13

/-- A quote is written twice. -/
def escapeByte (c : UInt8) : CString := if c = 34 then [34, 34] else [c]

def escape (s : CString) : CString :=
  if quoted s then [34] ++ s.flatMap escapeByte ++ [34] else s

/-- The fields of a row with commas between them. -/
def joinFields : List CString → CString
  | [] => []
  | [field] => escape field
  | field :: field' :: fields => escape field ++ 44 :: joinFields (field' :: fields)

/-- What the writer puts into a field: nothing for nil and for a key that is missing. -/
def Cell.text : Cell → CString
  | .nil => []
  | .string s => s
  | .other text => text

def cell (m : Dictionary) (header : CString) : CString :=
  match m.get header with
  | some v => v.text
  | none => []

/-- An element of the array to be written. -/
inductive Element where
  | dictionary (m : Dictionary)
  | other

/-- The line of an element. One that is no dictionary has none. -/
def line (headers : List CString) : Element → CString
  | .dictionary m => joinFields (headers.map (cell m)) ++ [10]
  | .other => []

/-- The order in which a copy of a map is iterated: its keys, each of them once. -/
structure Iteration where
  keys : Dictionary → List CString
  perm : ∀ m : Dictionary, (keys m).Perm m.keys

def to_csv (iteration : Iteration) (arr : List Element) : CString :=
  match arr with
  | [] => []
  | .other :: _ => []
  | .dictionary m :: _ =>
      let headers := iteration.keys m
      joinFields headers ++ [10] ++ arr.flatMap (line headers)

/-! ### Reading back what was written -/

theorem scan_cons (s : Scan) (c : UInt8) (rest : CString) :
    scan s (c :: rest) = scan (advance s c rest).1 (advance s c rest).2 := by
  rw [scan]

/-- Between quotes the parser takes an escaped text up to the closing quote. -/
theorem scan_between_quotes (field : CString) (s : Scan) (hquotes : s.inQuotes = true) (d : UInt8)
    (hd : d ≠ 34) (rest : CString) :
    scan s (field.flatMap escapeByte ++ 34 :: d :: rest) =
      scan { s with currentField := s.currentField ++ field, inQuotes := false } (d :: rest) := by
  induction field generalizing s with
  | nil =>
      have hstep : advance s 34 (d :: rest) = ({ s with inQuotes := false }, d :: rest) := by
        simp [advance, hquotes, hd]
      rw [List.flatMap_nil, List.nil_append, scan_cons, hstep, List.append_nil]
  | cons c field ih =>
      have hnext : scan s (escapeByte c ++ (field.flatMap escapeByte ++ 34 :: d :: rest)) =
          scan (s.append c) (field.flatMap escapeByte ++ 34 :: d :: rest) := by
        unfold escapeByte
        by_cases hc : c = 34
        · subst hc
          rw [if_pos rfl, List.cons_append, List.singleton_append, scan_cons]
          simp [advance, hquotes]
        · rw [if_neg hc, List.singleton_append, scan_cons]
          simp [advance, hquotes, hc]
      rw [List.flatMap_cons, List.append_assoc, hnext, ih (s.append c) hquotes]
      simp [Scan.append]

/-- Outside quotes the parser takes a text without special bytes as it is. -/
theorem scan_plain (field : CString) (s : Scan) (hquotes : s.inQuotes = false)
    (hplain : quoted field = false) (rest : CString) :
    scan s (field ++ rest) = scan { s with currentField := s.currentField ++ field } rest := by
  induction field generalizing s with
  | nil => rw [List.nil_append, List.append_nil]
  | cons c field ih =>
      have hc : c ≠ 44 ∧ c ≠ 34 ∧ c ≠ 10 ∧ c ≠ 13 ∧ quoted field = false := by
        simp only [quoted, List.contains_cons, Bool.or_eq_false_iff, beq_eq_false_iff_ne] at hplain ⊢
        grind
      obtain ⟨hcomma, hquote, hnewline, hreturn, hfield⟩ := hc
      have hstep : advance s c (field ++ rest) = (s.append c, field ++ rest) := by
        simp [advance, hquotes, hcomma, hquote, hnewline, hreturn]
      rw [List.cons_append, scan_cons, hstep, ih (s.append c) hquotes hfield]
      simp [Scan.append]

/-- A field as it is written, up to the comma or newline behind it. -/
theorem scan_escape (field : CString) (s : Scan) (hquotes : s.inQuotes = false)
    (hempty : s.currentField = []) (d : UInt8) (hd : d ≠ 34) (rest : CString) :
    scan s (escape field ++ d :: rest) = scan { s with currentField := field } (d :: rest) := by
  unfold escape
  by_cases hspecial : quoted field = true
  · have hopen : advance s 34 (field.flatMap escapeByte ++ 34 :: d :: rest) =
        ({ s with inQuotes := true }, field.flatMap escapeByte ++ 34 :: d :: rest) := by
      simp [advance, hquotes]
    rw [if_pos hspecial, List.append_assoc, List.append_assoc, List.singleton_append,
      List.singleton_append, scan_cons, hopen, scan_between_quotes _ _ rfl d hd]
    simp [hempty, hquotes]
  · rw [if_neg hspecial, scan_plain field s hquotes (by simpa using hspecial), hempty,
      List.nil_append]

/-- A row as it is written is one row more. -/
theorem scan_joinFields (fields : List CString) (hfields : fields ≠ []) (s : Scan)
    (hquotes : s.inQuotes = false) (hempty : s.currentField = []) (rest : CString) :
    scan s (joinFields fields ++ 10 :: rest) =
      scan { s with rows := s.rows ++ [s.currentRow ++ fields], currentRow := [] } rest := by
  induction fields generalizing s with
  | nil => exact absurd rfl hfields
  | cons field fields ih =>
      cases fields with
      | nil =>
          rw [joinFields, scan_escape field s hquotes hempty 10 (by decide), scan_cons]
          simp [advance, hquotes, hempty, Scan.endRow, Scan.endField]
      | cons field' fields =>
          rw [joinFields, List.append_assoc, List.cons_append,
            scan_escape field s hquotes hempty 44 (by decide), scan_cons]
          have hstep : advance { s with currentField := field } 44
              (joinFields (field' :: fields) ++ 10 :: rest) =
              ({ s with currentRow := s.currentRow ++ [field] },
                joinFields (field' :: fields) ++ 10 :: rest) := by
            simp [advance, hquotes, hempty, Scan.endField]
          have hnext := ih (List.cons_ne_nil _ _) { s with currentRow := s.currentRow ++ [field] }
            hquotes hempty
          rw [List.append_assoc, List.singleton_append] at hnext
          rw [hstep]
          exact hnext

/-- Rows as they are written are rows more. -/
theorem scan_lines (table : List (List CString)) (htable : ∀ fields ∈ table, fields ≠ [])
    (s : Scan) (hquotes : s.inQuotes = false) (hrow : s.currentRow = []) (hempty : s.currentField = []) :
    scan s (table.flatMap fun fields => joinFields fields ++ [10]) =
      { s with rows := s.rows ++ table } := by
  induction table generalizing s with
  | nil => rw [List.flatMap_nil, scan, List.append_nil]
  | cons fields table ih =>
      have hnext := ih (fun fields' h => htable fields' (List.mem_cons_of_mem _ h))
        { s with rows := s.rows ++ [s.currentRow ++ fields], currentRow := [] } hquotes rfl hempty
      rw [List.flatMap_cons, List.append_assoc, List.singleton_append,
        scan_joinFields fields (htable fields List.mem_cons_self) s hquotes hempty, hnext]
      simp [hrow]

theorem rows_lines (table : List (List CString)) (htable : ∀ fields ∈ table, fields ≠ []) :
    rows (table.flatMap fun fields => joinFields fields ++ [10]) = table := by
  rw [rows, scan_lines table htable Scan.start rfl rfl rfl]
  simp [Scan.start]

/-! ### Dictionaries from rows -/

theorem get_set (m : Dictionary) (key key' : CString) (value : Cell) :
    (m.set key value).get key' = if key = key' then some value else m.get key' :=
  lookup_assign m.entries key key' value

/-- Distinct headers with the values of a map give back each header its value. -/
theorem get_foldl_set (headers : List CString) (hheaders : headers.Nodup) (value : CString → CString)
    (key : CString) (m : Dictionary) :
    ((headers.zip (headers.map value)).foldl (fun m entry => m.set entry.1 (.string entry.2)) m).get
        key = if key ∈ headers then some (.string (value key)) else m.get key := by
  induction headers generalizing m with
  | nil => rfl
  | cons header headers ih =>
      obtain ⟨hnew, hrest⟩ := List.nodup_cons.mp hheaders
      rw [List.map_cons, List.zip_cons_cons, List.foldl_cons, ih hrest, get_set]
      by_cases hkey : header = key
      · subst hkey
        simp [hnew]
      · have hother : ¬ key = header := fun h => hkey h.symm
        simp [hkey, hother]

theorem get_none_iff (m : Dictionary) (key : CString) : m.get key = none ↔ key ∉ m.keys :=
  lookup_none_iff

/-- The values of a map in the order of the headers are a row that gives the map back. -/
theorem get_dictionary {headers : List CString} (hheaders : headers.Nodup) {m : Dictionary}
    (hkeys : ∀ key, key ∈ headers ↔ key ∈ m.keys)
    (hstrings : ∀ entry ∈ m.entries, ∃ s, entry.2 = .string s) (key : CString) :
    (dictionary headers (headers.map (cell m))).get key = m.get key := by
  rw [dictionary, get_foldl_set headers hheaders]
  by_cases hkey : key ∈ headers
  · have hsome : m.get key ≠ none := by
      intro hnone
      exact (get_none_iff m key).mp hnone ((hkeys key).mp hkey)
    obtain ⟨v, hv⟩ := Option.ne_none_iff_exists'.mp hsome
    obtain ⟨s, hs⟩ := hstrings _ (mem_of_lookup hv)
    rw [if_pos hkey, cell, hv]
    simp only at hs
    rw [hs]
    rfl
  · have hnone : m.get key = none := (get_none_iff m key).mpr (fun h => hkey ((hkeys key).mpr h))
    rw [if_neg hkey, hnone]
    rfl

/-! ### Termination and the round trip -/

/-- One turn of the loop. -/
def step (s : Scan × CString) : Scan × CString :=
  match s.2 with
  | [] => s
  | c :: rest => advance s.1 c rest

/-- The loop comes to the end of every text, in no more turns than the text has bytes. -/
theorem scan_terminates (s : Scan) (text : CString) :
    ∃ n ≤ text.length, step^[n] (s, text) = (scan s text, []) := by
  induction s, text using scan.induct with
  | case1 s =>
      rw [scan]
      exact ⟨0, Nat.zero_le _, rfl⟩
  | case2 s c rest ih =>
      obtain ⟨n, hn, hend⟩ := ih
      refine ⟨n + 1, ?_, ?_⟩
      · have hlength := length_advance s c rest
        rw [List.length_cons]
        omega
      · rw [Function.iterate_succ_apply, scan_cons]
        exact hend

/-- Dictionaries of strings with the same keys come back row for row. -/
theorem parse_csv_to_csv (iteration : Iteration) (arr : List Dictionary) (hne : arr ≠ [])
    (keys : List CString) (hkeys : keys ≠ []) (hsame : ∀ m ∈ arr, ∀ key, key ∈ m.keys ↔ key ∈ keys)
    (hstrings : ∀ m ∈ arr, ∀ entry ∈ m.entries, ∃ s, entry.2 = .string s) :
    List.Forall₂ (fun read written => ∀ key, Dictionary.get read key = Dictionary.get written key)
      (parse_csv (to_csv iteration (arr.map .dictionary))) arr := by
  cases arr with
  | nil => exact absurd rfl hne
  | cons first arr =>
      have hperm := iteration.perm first
      have hfirst := hsame first List.mem_cons_self
      have hheaders : (iteration.keys first).Nodup := hperm.nodup_iff.mpr first.distinct
      have hmem : ∀ key, key ∈ iteration.keys first ↔ key ∈ keys := by
        intro key
        rw [hperm.mem_iff, hfirst]
      have hnonempty : iteration.keys first ≠ [] := by
        intro hnil
        obtain ⟨key, hkey⟩ := List.exists_mem_of_ne_nil keys hkeys
        rw [← hmem key, hnil] at hkey
        exact List.not_mem_nil hkey
      have htext : to_csv iteration ((first :: arr).map .dictionary) =
          (iteration.keys first :: (first :: arr).map fun m => (iteration.keys first).map (cell m)).flatMap
            fun fields => joinFields fields ++ [10] := by
        rw [List.map_cons, to_csv, ← List.map_cons, List.flatMap_cons, List.flatMap_map,
          List.flatMap_map]
        rfl
      have hrows := rows_lines
        (iteration.keys first :: (first :: arr).map fun m => (iteration.keys first).map (cell m)) (by
          intro fields hfields
          obtain rfl | hrow := List.mem_cons.mp hfields
          · exact hnonempty
          · obtain ⟨m, -, rfl⟩ := List.mem_map.mp hrow
            simpa using hnonempty)
      rw [htext, parse_csv, hrows]
      dsimp only
      rw [List.map_map, List.forall₂_map_left_iff, List.forall₂_same]
      intro m hm key
      exact get_dictionary hheaders
        (fun key => (hmem key).trans (hsame m hm key).symm) (hstrings m hm) key

/-- What the writer writes for dictionaries of strings with the same keys, the parser reads back row for
row, and it comes to the end of every text. -/
theorem csv_round_trip (iteration : Iteration) :
    (∀ (arr : List Dictionary) (keys : List CString), arr ≠ [] → keys ≠ [] →
      (∀ m ∈ arr, ∀ key, key ∈ m.keys ↔ key ∈ keys) →
      (∀ m ∈ arr, ∀ entry ∈ m.entries, ∃ s, entry.2 = .string s) →
      List.Forall₂ (fun read written => ∀ key, Dictionary.get read key = Dictionary.get written key)
        (parse_csv (to_csv iteration (arr.map .dictionary))) arr) ∧
      ∀ text, ∃ n ≤ text.length, step^[n] (Scan.start, text) = (scan Scan.start text, []) := by
  constructor
  · intro arr keys hne hkeys hsame hstrings
    exact parse_csv_to_csv iteration arr hne keys hkeys hsame hstrings
  · exact scan_terminates Scan.start

/-- A map with one key, `a,"`, and one value, a carriage return and a newline. -/
def oneEntry : Dictionary := Dictionary.empty.set [97, 44, 34] (.string [13, 10])

theorem csv_round_trip_oneEntry :
    List.Forall₂ (fun read written => ∀ key, Dictionary.get read key = Dictionary.get written key)
      (parse_csv (to_csv ⟨Dictionary.keys, fun _ => List.Perm.refl _⟩ [.dictionary oneEntry]))
      [oneEntry] := by
  apply (csv_round_trip ⟨Dictionary.keys, fun _ => List.Perm.refl _⟩).1 [oneEntry] oneEntry.keys
  · exact List.cons_ne_nil _ _
  · exact List.cons_ne_nil _ _
  · intro m hm key
    rw [List.mem_singleton.mp hm]
  · intro m hm entry hentry
    rw [List.mem_singleton.mp hm] at hentry
    exact ⟨[13, 10], by rw [List.mem_singleton.mp hentry]⟩

end CSV

end EZLanguage
