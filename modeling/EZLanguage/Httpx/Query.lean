import EZLanguage.Httpx.Url

/-!
# Query strings

`encodeQuery` writes a dictionary of parameters behind each other, `decodeQuery` reads them back, and
`addQuery` appends them to the text of a URL. The escaping itself is libcurl's.
-/

namespace EZLanguage

namespace Httpx

open Utf8 Segments Search StringPieces StringSearch

/-! ### The escaping -/

/-- Letters, digits and the four marks that are never escaped. -/
def unreserved (c : UInt8) : Bool :=
  48 ≤ c && c ≤ 57 || 65 ≤ c && c ≤ 90 || 97 ≤ c && c ≤ 122 || [45, 46, 95, 126].contains c

/-- What `curl_easy_escape` and `curl_easy_unescape` are documented to do. -/
structure Curl where
  escape : CString → CString
  unescape : CString → CString
  unescape_escape : ∀ s, unescape (escape s) = s
  escape_plain : ∀ s, ∀ c ∈ escape s, unreserved c = true ∨ c = 37

theorem Curl.not_mem_escape (curl : Curl) {c : UInt8} (hc : unreserved c = false) (hmark : c ≠ 37)
    (s : CString) : c ∉ curl.escape s := by
  intro hmem
  rcases curl.escape_plain s c hmem with h | h
  · rw [h] at hc
    cases hc
  · exact hmark h

/-! ### Percent signs -/

def hexDigit (n : Nat) : UInt8 := if n < 10 then UInt8.ofNat (48 + n) else UInt8.ofNat (55 + n)

def hexValue (c : UInt8) : Option Nat :=
  if 48 ≤ c ∧ c ≤ 57 then some (c.toNat - 48)
  else if 65 ≤ c ∧ c ≤ 70 then some (c.toNat - 55)
  else if 97 ≤ c ∧ c ≤ 102 then some (c.toNat - 87)
  else none

def percentEncode (s : CString) : CString :=
  s.flatMap fun c =>
    if unreserved c = true then [c] else [37, hexDigit (c.toNat / 16), hexDigit (c.toNat % 16)]

def percentDecode : CString → CString
  | [] => []
  | c :: rest =>
      match rest with
      | high :: low :: tail =>
          match c == 37, hexValue high, hexValue low with
          | true, some h, some l => UInt8.ofNat (16 * h + l) :: percentDecode tail
          | _, _, _ => c :: percentDecode (high :: low :: tail)
      | rest => c :: percentDecode rest

theorem hexDigit_spec : ∀ n < 16, hexValue (hexDigit n) = some n ∧ unreserved (hexDigit n) = true := by
  decide

theorem percentDecode_plain {c : UInt8} (hc : unreserved c = true) (rest : CString) :
    percentDecode (c :: rest) = c :: percentDecode rest := by
  have hmark : (c == 37) = false := by
    rw [beq_eq_false_iff_ne]
    rintro rfl
    exact absurd hc (by decide)
  match rest with
  | [] => rw [percentDecode.eq_def]
  | [_] => rw [percentDecode.eq_def]
  | _ :: _ :: _ =>
      rw [percentDecode.eq_def]
      dsimp only
      rw [hmark]

theorem percentDecode_percentEncode (s : CString) : percentDecode (percentEncode s) = s := by
  induction s with
  | nil => rfl
  | cons c s ih =>
      rw [percentEncode, List.flatMap_cons]
      rw [percentEncode] at ih
      split_ifs with hc
      · rw [List.singleton_append, percentDecode_plain hc, ih]
      · have hbyte := c.toNat_lt
        obtain ⟨hhigh, _⟩ := hexDigit_spec (c.toNat / 16) (by omega)
        obtain ⟨hlow, _⟩ := hexDigit_spec (c.toNat % 16) (by omega)
        have hvalue : 16 * (c.toNat / 16) + c.toNat % 16 = c.toNat := by omega
        rw [List.cons_append, List.cons_append, List.cons_append, List.nil_append,
          percentDecode.eq_def]
        dsimp only
        rw [hhigh, hlow, beq_self_eq_true]
        dsimp only
        rw [hvalue, ih, UInt8.ofNat_toNat]

/-- The escaping of RFC 3986, which is the one that is documented. -/
def percent : Curl where
  escape := percentEncode
  unescape := percentDecode
  unescape_escape := percentDecode_percentEncode
  escape_plain := by
    intro s c hc
    obtain ⟨b, _, hb⟩ := List.mem_flatMap.mp hc
    split_ifs at hb with hplain
    · rw [List.mem_singleton.mp hb]
      exact Or.inl hplain
    · have hbyte := b.toNat_lt
      rcases List.mem_cons.mp hb with rfl | hb
      · exact Or.inr rfl
      · rcases List.mem_cons.mp hb with rfl | hb
        · exact Or.inl (hexDigit_spec _ (by omega)).2
        · rw [List.mem_singleton.mp hb]
          exact Or.inl (hexDigit_spec _ (by omega)).2

/-! ### Writing and reading parameters -/

/-- The value of a parameter. A number is here as its text. -/
inductive Param
  | nil
  | text (value : CString)
  | word (value : Bool)
  | list (items : List (Option CString))
  deriving DecidableEq

def pairText (curl : Curl) (name value : CString) : CString := curl.escape name ++ 61 :: value

def paramPairs (curl : Curl) (name : CString) : Param → List CString
  | .nil => []
  | .list items => items.filterMap fun item => item.map fun item => pairText curl name (curl.escape item)
  | .word value => [pairText curl name (if value = true then lit "true" else lit "false")]
  | .text value => [pairText curl name (curl.escape value)]

def encodeQuery (curl : Curl) (params : Option (List (CString × Param))) : CString :=
  match params with
  | none => []
  | some params => join (params.flatMap fun entry => paramPairs curl entry.1 entry.2) [38]

/-- An assignment to a key. -/
def assign (result : List (CString × HeaderValue)) (name : CString) (value : HeaderValue) :
    List (CString × HeaderValue) :=
  if result.any fun entry => entry.1 = name then
    result.map fun entry => if entry.1 = name then (entry.1, value) else entry
  else result ++ [(name, value)]

def decodePair (o : Machine) (curl : Curl) (result : List (CString × HeaderValue)) (pair : CString) :
    List (CString × HeaderValue) :=
  let place := (indexOfBytes o.toArithmetic pair [61] none).run
  if place < 0 then assign result (curl.unescape pair) (.one [])
  else
    record result (curl.unescape (o.substr pair 0 place))
      (curl.unescape (o.substr pair (place + 1) (lengthChars pair - place - 1)))

/-- A whole URL is read from its first `?` on. -/
def queryBody (o : Machine) (text : CString) : CString :=
  match cutAt o text 63 with
  | some (_, body) => body
  | none => text

/-- The parameters of a query, each as it is written. -/
def queryPairs (body : CString) : List CString := (split body [38]).filter (· ≠ [])

def decodeQuery (o : Machine) (curl : Curl) (text : Option CString) : List (CString × HeaderValue) :=
  match text with
  | none => []
  | some text =>
      if text = [] then []
      else (queryPairs (queryBody o text)).foldl (decodePair o curl) []

/-! ### The round trip -/

/-- The texts of a value. -/
def HeaderValue.items : HeaderValue → List CString
  | .one value => [value]
  | .many values => values

/-- A value as a parameter. -/
def HeaderValue.param : HeaderValue → Param
  | .one value => .text value
  | .many values => .list (values.map some)

/-- One text, or an array of at least two. -/
def HeaderValue.Plain : HeaderValue → Prop
  | .one _ => True
  | .many values => 2 ≤ values.length

/-- The pairs of a dictionary of texts. -/
def pairsOf (curl : Curl) (p : List (CString × HeaderValue)) : List CString :=
  p.flatMap fun entry => entry.2.items.map fun item => pairText curl entry.1 (curl.escape item)

theorem paramPairs_param (curl : Curl) (name : CString) (value : HeaderValue) :
    paramPairs curl name value.param =
      value.items.map fun item => pairText curl name (curl.escape item) := by
  cases value with
  | one value => rfl
  | many values =>
      rw [HeaderValue.param, paramPairs, HeaderValue.items, List.filterMap_map]
      exact congrFun List.filterMap_eq_map _

theorem pairText_ne_nil (curl : Curl) (name value : CString) : pairText curl name value ≠ [] :=
  List.append_ne_nil_of_right_ne_nil _ (List.cons_ne_nil _ _)

theorem paramPairs_ne_nil {curl : Curl} {name pair : CString} {value : Param}
    (hpair : pair ∈ paramPairs curl name value) : pair ≠ [] := by
  cases value with
  | nil => cases hpair
  | text value =>
      rw [List.mem_singleton.mp hpair]
      exact pairText_ne_nil _ _ _
  | word value =>
      rw [List.mem_singleton.mp hpair]
      exact pairText_ne_nil _ _ _
  | list items =>
      obtain ⟨item, _, hitem⟩ := List.mem_filterMap.mp hpair
      obtain ⟨value, _, rfl⟩ := Option.map_eq_some_iff.mp hitem
      exact pairText_ne_nil _ _ _

/-- A pair is written with unreserved bytes, escapes and its equals sign. -/
theorem not_mem_pairText (curl : Curl) {c : UInt8} (hc : unreserved c = false) (hmark : c ≠ 37)
    (hequals : c ≠ 61) {name value : CString} (hvalue : c ∉ value) : c ∉ pairText curl name value := by
  intro hmem
  rcases List.mem_append.mp hmem with hname | htail
  · exact curl.not_mem_escape hc hmark name hname
  · rcases List.mem_cons.mp htail with heq | hvalue'
    · exact hequals heq
    · exact hvalue hvalue'

set_option maxRecDepth 4000 in
theorem not_mem_paramPairs (curl : Curl) {c : UInt8} (hc : unreserved c = false) (hmark : c ≠ 37)
    (hequals : c ≠ 61) {name pair : CString} {value : Param}
    (hpair : pair ∈ paramPairs curl name value) : c ∉ pair := by
  cases value with
  | nil => cases hpair
  | text value =>
      rw [List.mem_singleton.mp hpair]
      exact not_mem_pairText curl hc hmark hequals (curl.not_mem_escape hc hmark _)
  | word value =>
      rw [List.mem_singleton.mp hpair]
      apply not_mem_pairText curl hc hmark hequals
      intro hmem
      have hword : ∀ b ∈ (if value = true then lit "true" else lit "false"), unreserved b = true := by
        cases value with
        | true => decide
        | false => decide
      rw [hword c hmem] at hc
      cases hc
  | list items =>
      obtain ⟨item, _, hitem⟩ := List.mem_filterMap.mp hpair
      obtain ⟨value, _, rfl⟩ := Option.map_eq_some_iff.mp hitem
      exact not_mem_pairText curl hc hmark hequals (curl.not_mem_escape hc hmark _)

theorem mem_join {glue : List UInt8} {parts : List (List UInt8)} {x : UInt8}
    (hx : x ∈ Search.join glue parts) : x ∈ glue ∨ ∃ part ∈ parts, x ∈ part := by
  cases parts with
  | nil => cases hx
  | cons part parts =>
      rcases List.mem_append.mp hx with hhere | hlater
      · exact Or.inr ⟨part, List.mem_cons_self, hhere⟩
      · obtain ⟨later, hmem, hin⟩ := List.mem_flatMap.mp hlater
        rcases List.mem_append.mp hin with hglue | hpart
        · exact Or.inl hglue
        · exact Or.inr ⟨later, List.mem_cons_of_mem _ hmem, hpart⟩

theorem not_mem_encodeQuery (curl : Curl) {c : UInt8} (hc : unreserved c = false) (hmark : c ≠ 37)
    (hequals : c ≠ 61) (hand : c ≠ 38) (params : Option (List (CString × Param))) :
    c ∉ encodeQuery curl params := by
  cases params with
  | none => exact List.not_mem_nil
  | some params =>
      intro hmem
      rcases mem_join hmem with hglue | ⟨pair, hpair, hin⟩
      · exact hand (List.mem_singleton.mp hglue)
      · obtain ⟨entry, _, hentry⟩ := List.mem_flatMap.mp hpair
        exact not_mem_paramPairs curl hc hmark hequals hentry hin

/-- The pairs that are written are the ones that are read. -/
theorem queryPairs_encodeQuery (curl : Curl) (params : List (CString × Param)) :
    queryPairs (encodeQuery curl (some params)) =
      params.flatMap fun entry => paramPairs curl entry.1 entry.2 := by
  have hand : [38] ≠ ([] : CString) := List.cons_ne_nil _ _
  rw [queryPairs, encodeQuery, StringPieces.join, split_of_ne_nil hand]
  by_cases hempty : (params.flatMap fun entry => paramPairs curl entry.1 entry.2) = []
  · rw [hempty, Search.join, pieces_of_none hand (by decide)]
    rfl
  · rw [pieces_join hand hempty]
    · rw [List.filter_eq_self]
      intro pair hpair
      obtain ⟨entry, _, hentry⟩ := List.mem_flatMap.mp hpair
      simpa using paramPairs_ne_nil hentry
    · intro pair hpair x hx hhead
      obtain rfl : 38 = x := Option.some.inj hhead
      obtain ⟨entry, _, hentry⟩ := List.mem_flatMap.mp hpair
      exact not_mem_paramPairs curl (by decide) (by decide) (by decide) hentry hx

theorem decodePair_pairText (o : Machine) (curl : Curl) (result : List (CString × HeaderValue))
    {name value : CString}
    (hshort : (pairText curl name (curl.escape value)).length < 2147483648) :
    decodePair o curl result (pairText curl name (curl.escape value)) = record result name value := by
  have hequals : (61 : UInt8) < 0x80 := by decide
  have hname := curl.not_mem_escape (by decide : unreserved 61 = false) (by decide) name
  rw [pairText] at hshort ⊢
  have hchars := Nat.lt_of_le_of_lt (lengthChars_le _) hshort
  rw [decodePair]
  rw [indexOfBytes_byte o hequals hname, if_neg (by omega), substr_before o hequals hchars,
    substr_after o hequals hchars, curl.unescape_escape, curl.unescape_escape]

theorem record_fresh {result : List (CString × HeaderValue)} {name : CString}
    (hfresh : ∀ old ∈ result, old.1 ≠ name) (value : CString) :
    record result name value = result ++ [(name, .one value)] := by
  have hnew : (result.any fun old => old.1 = name) = false := by
    apply List.any_eq_false.mpr
    intro old hold
    simpa using hfresh old hold
  rw [record, hnew, if_neg Bool.false_ne_true]

theorem record_last {result : List (CString × HeaderValue)} {name : CString}
    (hfresh : ∀ old ∈ result, old.1 ≠ name) (old : HeaderValue) (value : CString) :
    record (result ++ [(name, old)]) name value = result ++ [(name, old.add value)] := by
  have hkept : (result.map fun entry => if entry.1 = name then (entry.1, entry.2.add value) else entry) =
      result := by
    rw [List.map_congr_left fun entry hentry => if_neg (hfresh entry hentry), List.map_id']
  rw [record, if_pos (by simp), List.map_append, hkept, List.map_cons, if_pos rfl, List.map_nil]

/-- The values of one name are collected under it. -/
theorem foldl_record_items {result : List (CString × HeaderValue)} {name : CString}
    (hfresh : ∀ old ∈ result, old.1 ≠ name) {value : HeaderValue} (hplain : value.Plain) :
    value.items.foldl (fun result item => record result name item) result =
      result ++ [(name, value)] := by
  have hmore : ∀ (values items : List CString),
      items.foldl (fun result item => record result name item) (result ++ [(name, .many values)]) =
        result ++ [(name, .many (values ++ items))] := by
    intro values items
    induction items generalizing values with
    | nil => rw [List.foldl_nil, List.append_nil]
    | cons item items ih =>
        rw [List.foldl_cons, record_last hfresh, HeaderValue.add, ih, List.append_assoc,
          List.singleton_append]
  cases value with
  | one value => exact record_fresh hfresh value
  | many values =>
      match values, hplain with
      | first :: second :: values, _ =>
          rw [HeaderValue.items, List.foldl_cons, List.foldl_cons, record_fresh hfresh,
            record_last hfresh, HeaderValue.add, hmore]
          rfl

theorem foldl_decodePair (o : Machine) (curl : Curl) {p result : List (CString × HeaderValue)}
    (hdistinct : (p.map Prod.fst).Nodup) (hplain : ∀ entry ∈ p, entry.2.Plain)
    (hshort : ∀ pair ∈ pairsOf curl p, pair.length < 2147483648)
    (hfresh : ∀ entry ∈ p, ∀ old ∈ result, old.1 ≠ entry.1) :
    (pairsOf curl p).foldl (decodePair o curl) result = result ++ p := by
  induction p generalizing result with
  | nil => exact (List.append_nil _).symm
  | cons entry p ih =>
      rw [List.map_cons, List.nodup_cons] at hdistinct
      rw [pairsOf, List.flatMap_cons] at hshort ⊢
      have hhere : (entry.2.items.map fun item => pairText curl entry.1 (curl.escape item)).foldl
          (decodePair o curl) result = result ++ [entry] := by
        rw [← @foldl_record_items result entry.1 (hfresh entry List.mem_cons_self) entry.2
          (hplain entry List.mem_cons_self), List.foldl_map]
        have hitem : ∀ item ∈ entry.2.items, ∀ sofar,
            decodePair o curl sofar (pairText curl entry.1 (curl.escape item)) =
              record sofar entry.1 item := by
          intro item hitem sofar
          apply decodePair_pairText
          exact hshort _ (List.mem_append_left _ (List.mem_map_of_mem hitem))
        exact List.foldl_ext _ _ _ fun sofar item hmem => hitem item hmem sofar
      rw [List.foldl_append, hhere]
      have hlater := @ih (result ++ [entry]) hdistinct.2
        (fun later hmem => hplain later (List.mem_cons_of_mem _ hmem))
        (fun pair hmem => hshort pair (List.mem_append_right _ hmem)) (by
          intro later hmem old hold
          rcases List.mem_append.mp hold with hold | hhere
          · exact hfresh later (List.mem_cons_of_mem _ hmem) old hold
          · rw [List.mem_singleton.mp hhere]
            intro heq
            exact hdistinct.1 (heq ▸ List.mem_map_of_mem hmem))
      rw [pairsOf] at hlater
      rw [hlater, List.append_assoc, List.singleton_append]

theorem length_le_join {glue : List UInt8} {parts : List (List UInt8)} {part : List UInt8}
    (hpart : part ∈ parts) : part.length ≤ (Search.join glue parts).length := by
  cases parts with
  | nil => cases hpart
  | cons here parts =>
      rw [Search.join, List.length_append]
      rcases List.mem_cons.mp hpart with rfl | hlater
      · omega
      · obtain ⟨front, back, rfl⟩ := List.append_of_mem hlater
        simp only [List.flatMap_append, List.flatMap_cons, List.length_append]
        omega

/-- A dictionary of texts and arrays of at least two is read back as it was. -/
theorem decodeQuery_encodeQuery (o : Machine) (curl : Curl) {p : List (CString × HeaderValue)}
    (hdistinct : (p.map Prod.fst).Nodup) (hplain : ∀ entry ∈ p, entry.2.Plain)
    (hshort : (encodeQuery curl (some (p.map fun entry => (entry.1, entry.2.param)))).length <
      2147483648) :
    decodeQuery o curl (some (encodeQuery curl (some (p.map fun entry => (entry.1, entry.2.param))))) =
      p := by
  have hpairs : ((p.map fun entry => (entry.1, entry.2.param)).flatMap fun entry =>
      paramPairs curl entry.1 entry.2) = pairsOf curl p := by
    rw [List.flatMap_map, pairsOf]
    congr 1
    funext entry
    exact paramPairs_param curl entry.1 entry.2
  have hread := queryPairs_encodeQuery curl (p.map fun entry => (entry.1, entry.2.param))
  rw [hpairs] at hread
  have hfold := @foldl_decodePair o curl p [] hdistinct hplain (by
    intro pair hpair
    have hle := @length_le_join [38] _ pair hpair
    rw [encodeQuery, hpairs] at hshort
    exact Nat.lt_of_le_of_lt hle hshort) (by simp)
  rw [List.nil_append] at hfold
  have hbody : queryBody o (encodeQuery curl (some (p.map fun entry => (entry.1, entry.2.param)))) =
      encodeQuery curl (some (p.map fun entry => (entry.1, entry.2.param))) := by
    rw [queryBody, cutAt_none o (not_mem_encodeQuery curl (by decide) (by decide) (by decide)
      (by decide) _)]
  rw [decodeQuery]
  by_cases hempty : encodeQuery curl (some (p.map fun entry => (entry.1, entry.2.param))) = []
  · rw [if_pos hempty]
    rw [hempty] at hread
    have hnone : pairsOf curl p = [] := by
      rw [← hread, queryPairs, split_of_ne_nil (List.cons_ne_nil _ _),
        pieces_of_none (List.cons_ne_nil _ _) (by decide)]
      rfl
    rw [hnone] at hfold
    exact hfold
  · rw [if_neg hempty, hbody, hread]
    exact hfold

/-! ### Appending to a URL -/

def addQuery (curl : Curl) (url : CString) (params : Option (List (CString × Param))) : CString :=
  match params with
  | none => url
  | some entries =>
      if entries = [] then url
      else
        let extra := encodeQuery curl (some entries)
        if extra = [] then url
        else url ++ (if contains url [63] = true then [38] else [63]) ++ extra

/-- The parameters stand behind the ones of the URL, whose host and path stay. -/
def AddsParameters (o : Machine) (curl : Curl) (url : CString)
    (params : Option (List (CString × Param))) (parts : Url) : Prop :=
  ∃ more, parseUrl o (some (addQuery curl url params)) = .ok more ∧
    more.host = parts.host ∧ more.path = parts.path ∧
    queryPairs more.query = queryPairs parts.query ++ queryPairs (encodeQuery curl params)

theorem addQuery_eq (curl : Curl) (url : CString) (params : Option (List (CString × Param))) :
    addQuery curl url params =
      if encodeQuery curl params = [] then url
      else url ++ (if 63 ∈ url then 38 else 63) :: encodeQuery curl params := by
  have hmark : url ++ (if contains url [63] = true then [38] else [63]) ++ encodeQuery curl params =
      url ++ (if 63 ∈ url then 38 else 63) :: encodeQuery curl params := by
    rw [List.append_assoc]
    by_cases hmem : 63 ∈ url
    · rw [if_pos hmem, if_pos ((contains_byte_iff url 63).mpr hmem)]
      rfl
    · rw [if_neg hmem, if_neg (fun h => hmem ((contains_byte_iff url 63).mp h))]
      rfl
  cases params with
  | none => rfl
  | some entries =>
      rw [addQuery]
      by_cases hentries : entries = []
      · rw [if_pos hentries, hentries]
        rfl
      · rw [if_neg hentries]
        dsimp only
        rw [hmark]

/-! The pairs of two queries behind each other are the pairs of both. -/

theorem pieces_byte {c : UInt8} (front after : CString) :
    pieces [c] (List.cons_ne_nil c []) (front ++ c :: after) =
      pieces [c] (List.cons_ne_nil c []) front ++ pieces [c] (List.cons_ne_nil c []) after := by
  have hone : ∀ s t : CString, c ∉ s → first [c] (s ++ c :: t) = some s.length := by
    intro s t hs
    apply first_append (List.cons_ne_nil c [])
    intro x hx hhead
    obtain rfl := Option.some.inj hhead
    exact hs hx
  have hcut : ∀ s t : CString, c ∉ s → pieces [c] (List.cons_ne_nil c []) (s ++ c :: t) =
      s :: pieces [c] (List.cons_ne_nil c []) t := by
    intro s t hs
    rw [pieces_of_some _ (hone s t hs), List.take_left, List.length_singleton,
      List.drop_length_add_append, List.drop_one, List.tail_cons]
  induction front using pieces_induction (List.cons_ne_nil c []) with
  | whole s h =>
      have hs : c ∉ s := by
        intro hmem
        obtain ⟨front, back, rfl⟩ := List.append_of_mem hmem
        apply (first_eq_none_iff _ _).mp h front.length (by simp)
        rw [List.drop_left]
        exact ⟨back, rfl⟩
      rw [pieces_of_none _ h, hcut s after hs]
      rfl
  | cut s i h ih =>
      obtain ⟨hle, hstarts, hleast⟩ := (first_eq_some_iff _ _ _).mp h
      have hmem : c ∈ s := List.mem_of_mem_drop (hstarts.subset List.mem_cons_self)
      obtain ⟨front, back, rfl, hfront⟩ := List.eq_append_cons_of_mem hmem
      rw [hone front back hfront] at h
      obtain rfl := Option.some.inj h
      rw [List.length_singleton, List.drop_length_add_append, List.drop_one, List.tail_cons] at ih
      rw [List.append_assoc, List.cons_append, hcut _ _ hfront, hcut _ _ hfront, ih, List.cons_append]

theorem queryPairs_append (query extra : CString) :
    queryPairs (query ++ 38 :: extra) = queryPairs query ++ queryPairs extra := by
  have hand : [38] ≠ ([] : CString) := List.cons_ne_nil _ _
  rw [queryPairs, queryPairs, queryPairs, split_of_ne_nil hand, split_of_ne_nil hand,
    split_of_ne_nil hand, pieces_byte, List.filter_append]

theorem queryPairs_nil : queryPairs [] = [] := by
  rw [queryPairs, split_of_ne_nil (List.cons_ne_nil _ _),
    pieces_of_none (List.cons_ne_nil _ _) (by decide)]
  rfl

/-! The text of a URL with something behind it is cut as before. -/

/-- What is put behind a URL: no colon, slash, fragment or blank. -/
structure Appended (more : CString) : Prop where
  ne_nil : more ≠ []
  plain : 58 ∉ more ∧ 47 ∉ more ∧ 35 ∉ more
  last : more.getLast?.any isBlank = false

theorem trim_append {url more : CString} (hmore : Appended more) (hurl : trim url ≠ [])
    (hlast : url.getLast?.any isBlank = false) : trim (url ++ more) = trim url ++ more := by
  have hstart : url.dropWhile isBlank ≠ [] := by
    intro h
    apply hurl
    rw [trim, h]
    rfl
  obtain ⟨blanks, hblanks⟩ := List.dropWhile_suffix (l := url) isBlank
  have hkept : trim url = url.dropWhile isBlank := by
    have hend := (trimEnd_eq_iff (url.dropWhile isBlank)).mpr (by
      rw [← hblanks, List.getLast?_append_of_ne_nil _ hstart] at hlast
      exact hlast)
    rw [trim, ← trimEnd]
    exact hend
  have hlong : (url ++ more).dropWhile isBlank = url.dropWhile isBlank ++ more := by
    rw [List.dropWhile_append, if_neg (by rw [List.isEmpty_iff]; exact hstart)]
  have hend := (trimEnd_eq_iff (url.dropWhile isBlank ++ more)).mpr (by
    rw [List.getLast?_append_of_ne_nil _ hmore.ne_nil]
    exact hmore.last)
  rw [hkept, trim, hlong, ← trimEnd]
  exact hend

theorem first_schemeMark_append {rest more : CString} (hslash : 47 ∉ more) :
    first schemeMark (rest ++ more) = first schemeMark rest := by
  -- a mark in the longer text ends with a slash, so it ends before the appended text
  have hstarts : ∀ i ≤ (rest ++ more).length,
      schemeMark <+: (rest ++ more).drop i → i ≤ rest.length ∧ schemeMark <+: rest.drop i := by
    intro i hi hstart
    have hinside : i + 3 ≤ rest.length := by
      by_contra hover
      obtain ⟨after, hafter⟩ := hstart
      have hget : (rest ++ more)[i + 2]? = some 47 := by
        rw [← List.getElem?_drop, ← hafter]
        rfl
      rw [List.getElem?_append_right (by omega)] at hget
      exact hslash (List.mem_of_getElem? hget)
    refine ⟨by omega, ?_⟩
    rw [List.drop_append_of_le_length (by omega)] at hstart
    apply List.prefix_of_prefix_length_le hstart (List.prefix_append _ _)
    rw [List.length_drop]
    show 3 ≤ _
    omega
  cases hfirst : first schemeMark rest with
  | none =>
      rw [first_eq_none_iff] at hfirst ⊢
      intro i hi hstart
      obtain ⟨hle, hinside⟩ := hstarts i hi hstart
      exact hfirst i hle hinside
  | some place =>
      rw [first_eq_some_iff] at hfirst ⊢
      obtain ⟨hle, hstart, hleast⟩ := hfirst
      refine ⟨by rw [List.length_append]; omega, ?_, ?_⟩
      · rw [List.drop_append_of_le_length hle]
        exact hstart.trans (List.prefix_append _ _)
      · intro j hj hbefore
        exact hleast j hj (hstarts j (by rw [List.length_append]; omega) hbefore).2

theorem substr_slashes (o : Machine) {rest : CString}
    (hshort : (47 :: 47 :: rest).length < 2147483648) :
    o.substr (47 :: 47 :: rest) 2 (lengthChars (47 :: 47 :: rest) - 2) = rest := by
  have hslash : (47 : UInt8) < 0x80 := by decide
  have hnil : characters [] = [] := by rw [characters, Cut.segments]
  have hparts : characters (47 :: 47 :: rest) = [47] :: [47] :: characters rest := by
    have houter := characters_append_ascii [] hslash (47 :: rest)
    have hinner := characters_append_ascii [] hslash rest
    rw [hnil, List.nil_append, List.nil_append] at houter hinner
    rw [houter, hinner]
  have hchars := Nat.lt_of_le_of_lt (lengthChars_le _) hshort
  have hlength : lengthChars (47 :: 47 :: rest) = lengthChars rest + 2 := by
    rw [lengthChars_eq, hparts, lengthChars_eq]
    rfl
  have hpart := @substr_eq o _ hchars 2 (lengthChars rest) (by omega)
  rw [hparts, List.drop_succ_cons, List.drop_succ_cons, List.drop_zero, lengthChars_eq rest,
    List.take_length, flatten_characters] at hpart
  have hcount : (lengthChars (47 :: 47 :: rest) : Int) - 2 = (lengthChars rest : Nat) := by omega
  rw [hcount, lengthChars_eq rest]
  exact hpart

theorem startsWith_slashes (rest : CString) :
    startsWith rest [47, 47] = true ↔ ∃ tail, rest = 47 :: 47 :: tail := by
  rw [startsWith, List.isPrefixOf_iff_prefix]
  constructor
  · intro h
    obtain ⟨tail, htail⟩ := h
    exact ⟨tail, htail.symm⟩
  · intro h
    obtain ⟨tail, rfl⟩ := h
    exact ⟨tail, rfl⟩

/-- A text without `://` is the rest, or has two slashes in front of it. -/
theorem splitSlashes_cases (o : Machine) {rest : CString} (hshort : rest.length < 2147483648) :
    (∃ tail, rest = 47 :: 47 :: tail ∧ splitSlashes o rest = (https, tail)) ∨
      (startsWith rest [47, 47] = false ∧ splitSlashes o rest = (https, rest)) := by
  cases hstart : startsWith rest [47, 47] with
  | true =>
      obtain ⟨tail, rfl⟩ := (startsWith_slashes rest).mp hstart
      exact Or.inl ⟨tail, rfl, by rw [splitSlashes, if_pos hstart, substr_slashes o hshort]⟩
  | false => exact Or.inr ⟨rfl, by rw [splitSlashes, hstart, if_neg Bool.false_ne_true]⟩

theorem splitSlashes_append (o : Machine) {rest more : CString} (hslash : 47 ∉ more)
    (hshort : (rest ++ more).length < 2147483648) :
    splitSlashes o (rest ++ more) = (https, (splitSlashes o rest).2 ++ more) := by
  have hrest : rest.length < 2147483648 := by
    rw [List.length_append] at hshort
    omega
  rcases splitSlashes_cases o hrest with ⟨tail, rfl, hsplit⟩ | ⟨hstart, hsplit⟩
  · rw [hsplit]
    rcases splitSlashes_cases o hshort with ⟨tail', htail, hsplit'⟩ | ⟨hnone, _⟩
    · rw [hsplit']
      have heq : 47 :: 47 :: (tail ++ more) = 47 :: 47 :: tail' := htail
      obtain rfl := (List.cons.inj (List.cons.inj heq).2).2
      rfl
    · rw [Bool.eq_false_iff] at hnone
      exact absurd ((startsWith_slashes _).mpr ⟨tail ++ more, rfl⟩) hnone
  · rw [hsplit]
    rcases splitSlashes_cases o hshort with ⟨tail', htail, _⟩ | ⟨_, hsplit'⟩
    · exfalso
      -- the two slashes would be the ones of the shorter text
      rw [Bool.eq_false_iff] at hstart
      apply hstart
      apply (startsWith_slashes rest).mpr
      match rest, htail with
      | [], htail =>
          apply absurd _ hslash
          rw [List.nil_append] at htail
          rw [htail]
          exact List.mem_cons_self
      | [_], htail =>
          apply absurd _ hslash
          have heq : more = 47 :: tail' := (List.cons.inj htail).2
          rw [heq]
          exact List.mem_cons_self
      | c :: d :: rest, htail =>
          obtain ⟨rfl, hnext⟩ := List.cons.inj htail
          obtain ⟨rfl, _⟩ := List.cons.inj hnext
          exact ⟨rest, rfl⟩
    · exact hsplit'

theorem splitScheme_append (o : Machine) {rest more : CString} (hslash : 47 ∉ more)
    (hshort : (rest ++ more).length < 2147483648) :
    splitScheme o (rest ++ more) = ((splitScheme o rest).1, (splitScheme o rest).2 ++ more) := by
  rw [splitScheme_eq, splitScheme_eq, first_schemeMark_append hslash]
  cases hfirst : first schemeMark rest with
  | none =>
      dsimp only
      rw [splitSlashes_append o hslash hshort, splitSlashes_scheme]
  | some place =>
      obtain ⟨hle, hstart, _⟩ := (first_eq_some_iff _ _ _).mp hfirst
      have hroom := hstart.length_le
      rw [List.length_drop] at hroom
      have hmark : 0 < schemeMark.length := by decide
      dsimp only
      rw [List.take_append_of_le_length hle, List.drop_append_of_le_length (by omega)]

/-- The text behind an accepted scheme has the question and number signs of the whole text. -/
theorem mem_splitScheme (o : Machine) {rest : CString} {c : UInt8} (hc : c = 63 ∨ c = 35)
    (hshort : rest.length < 2147483648)
    (hscheme : (splitScheme o rest).1 = http ∨ (splitScheme o rest).1 = https) :
    c ∈ (splitScheme o rest).2 ↔ c ∈ rest := by
  rw [splitScheme_eq] at hscheme ⊢
  cases hfirst : first schemeMark rest with
  | none =>
      dsimp only
      rcases splitSlashes_cases o hshort with ⟨tail, rfl, hsplit⟩ | ⟨_, hsplit⟩
      · rw [hsplit, List.mem_cons, List.mem_cons]
        rcases hc with rfl | rfl
        · simp
        · simp
      · rw [hsplit]
  | some place =>
      rw [hfirst] at hscheme
      dsimp only at hscheme ⊢
      obtain ⟨_, hstart, _⟩ := (first_eq_some_iff _ _ _).mp hfirst
      obtain ⟨tail, htail⟩ := hstart
      have hdrop : rest.drop (place + schemeMark.length) = tail := by
        rw [← List.drop_drop, ← htail, List.drop_left]
      have hfront : c ∉ rest.take place := by
        intro hmem
        have hlower := mem_lowerChars hc hmem
        rcases hscheme with h | h
        · rw [h] at hlower
          rcases hc with rfl | rfl
          · exact absurd hlower (by decide)
          · exact absurd hlower (by decide)
        · rw [h] at hlower
          rcases hc with rfl | rfl
          · exact absurd hlower (by decide)
          · exact absurd hlower (by decide)
      have hmark : c ∉ schemeMark := by
        rcases hc with rfl | rfl
        · decide
        · decide
      rw [hdrop]
      constructor
      · intro hmem
        apply List.mem_of_mem_drop (i := place)
        rw [← htail]
        exact List.mem_append_right _ hmem
      · intro hmem
        rw [← List.take_append_drop place rest, ← htail] at hmem
        rcases List.mem_append.mp hmem with hmem | hmem
        · exact absurd hmem hfront
        · rcases List.mem_append.mp hmem with hmem | hmem
          · exact absurd hmem hmark
          · exact hmem

theorem mem_trim {s : CString} {c : UInt8} (hc : isBlank c = false) : c ∈ trim s ↔ c ∈ s := by
  have hdrop : ∀ t : CString, c ∈ t.dropWhile isBlank ↔ c ∈ t := by
    intro t
    constructor
    · exact fun h => (List.dropWhile_sublist isBlank).subset h
    · intro h
      rw [← List.takeWhile_append_dropWhile (p := isBlank) (l := t)] at h
      rcases List.mem_append.mp h with hblank | hrest
      · have hall : (t.takeWhile isBlank).all isBlank = true := List.all_takeWhile
        have htrue := List.all_eq_true.mp hall c hblank
        rw [hc] at htrue
        cases htrue
      · exact hrest
  rw [trim, List.mem_reverse, hdrop, List.mem_reverse, hdrop]

theorem trim_length_le (s : CString) : (trim s).length ≤ s.length := by
  have hend := trimEnd_length_le (s.dropWhile isBlank)
  have hstart := (List.dropWhile_sublist (p := isBlank) (l := s)).length_le
  rw [trim, ← trimEnd]
  omega

theorem splitScheme_length_le (o : Machine) {rest : CString} (hshort : rest.length < 2147483648) :
    (splitScheme o rest).2.length ≤ rest.length := by
  rw [splitScheme_eq]
  cases hfirst : first schemeMark rest with
  | none =>
      dsimp only
      rcases splitSlashes_cases o hshort with ⟨tail, rfl, hsplit⟩ | ⟨_, hsplit⟩
      · rw [hsplit]
        show tail.length ≤ tail.length + 1 + 1
        omega
      · rw [hsplit]
  | some place =>
      dsimp only
      rw [List.length_drop]
      omega

/-- What an accepted text went through. -/
theorem parseUrl_ok (o : Machine) {url : CString} {parts : Url}
    (h : parseUrl o (some url) = .ok parts) :
    trim url ≠ [] ∧
      ((splitScheme o (trim url)).1 = http ∨ (splitScheme o (trim url)).1 = https) ∧
      parseRest o (splitScheme o (trim url)).1 (splitScheme o (trim url)).2 = .ok parts := by
  rw [parseUrl] at h
  by_cases hempty : trim url = []
  · rw [if_pos hempty] at h
    cases h
  · rw [if_neg hempty, parseScheme] at h
    by_cases hscheme : (splitScheme o (trim url)).1 ≠ http ∧ (splitScheme o (trim url)).1 ≠ https
    · rw [if_pos hscheme] at h
      cases h
    · rw [if_neg hscheme] at h
      exact ⟨hempty, by tauto, h⟩

/-- The parts of every accepted text are those of a URL. -/
theorem parsed_of_parseUrl (o : Machine) {url : CString} {parts : Url}
    (hshort : url.length < 2147483648) (h : parseUrl o (some url) = .ok parts) :
    (parts.scheme = http ∨ parts.scheme = https) ∧ Parsed parts := by
  obtain ⟨_, hscheme, hrest⟩ := parseUrl_ok o h
  have htrim := Nat.lt_of_le_of_lt (trim_length_le url) hshort
  have hlength := Nat.lt_of_le_of_lt (splitScheme_length_le o htrim) htrim
  obtain ⟨hsame, hparsed⟩ := parseRest_ok o hlength hrest
  rw [hsame]
  exact ⟨hscheme, hparsed⟩

/-- A URL without a fragment has only its query changed. -/
theorem parseRest_append (o : Machine) {scheme rest more : CString} {parts : Url} {mark : UInt8}
    (hmore : 35 ∉ mark :: more) (hmark : mark = if 63 ∈ rest then 38 else 63) (hrest : 35 ∉ rest)
    (hshort : (rest ++ mark :: more).length < 2147483648) (h : parseRest o scheme rest = .ok parts) :
    ∃ full, parseRest o scheme (rest ++ mark :: more) = .ok full ∧ full.host = parts.host ∧
      full.path = parts.path ∧
      full.query = if 63 ∈ rest then parts.query ++ 38 :: more else parts.query ++ more := by
  have hwhole : 35 ∉ rest ++ mark :: more := by
    rw [List.mem_append, not_or]
    exact ⟨hrest, hmore⟩
  have hfront : rest.length < 2147483648 := by
    rw [List.length_append] at hshort
    omega
  have hquery : splitQuery o (rest ++ mark :: more) = ((splitQuery o rest).1,
      if 63 ∈ rest then (splitQuery o rest).2 ++ 38 :: more else (splitQuery o rest).2 ++ more) := by
    have hquestion : (63 : UInt8) < 0x80 := by decide
    by_cases hmem : 63 ∈ rest
    · rw [if_pos hmem] at hmark ⊢
      obtain ⟨front, after, rfl, hbefore⟩ := List.eq_append_cons_of_mem hmem
      rw [hmark] at hshort ⊢
      rw [List.append_assoc, List.cons_append] at hshort ⊢
      rw [splitQuery, splitQuery, cutAt_append o hquestion hbefore hshort,
        cutAt_append o hquestion hbefore hfront]
    · rw [if_neg hmem] at hmark ⊢
      rw [hmark] at hshort ⊢
      rw [splitQuery, splitQuery, cutAt_append o hquestion hmem hshort, cutAt_none o hmem]
      rfl
  rw [parseRest, splitFragment, cutAt_none o hrest] at h
  obtain ⟨host, port, hhost, hempty, rfl⟩ := complete_ok o h
  rw [parseRest, splitFragment, cutAt_none o hwhole]
  dsimp only
  rw [hquery, complete]
  dsimp only at hhost ⊢
  rw [hhost]
  dsimp only
  rw [if_neg hempty]
  exact ⟨_, rfl, rfl, rfl, rfl⟩

/-- Behind a fragment nothing of the query changes. -/
theorem parseRest_append_fragment (o : Machine) {scheme rest more : CString} {parts full : Url}
    (hrest : 35 ∈ rest) (hshort : (rest ++ more).length < 2147483648)
    (h : parseRest o scheme rest = .ok parts) (hfull : parseRest o scheme (rest ++ more) = .ok full) :
    full.query = parts.query := by
  have hnumber : (35 : UInt8) < 0x80 := by decide
  have hfront : rest.length < 2147483648 := by
    rw [List.length_append] at hshort
    omega
  obtain ⟨front, after, rfl, hbefore⟩ := List.eq_append_cons_of_mem hrest
  rw [List.append_assoc, List.cons_append] at hshort hfull
  rw [parseRest, splitFragment, cutAt_append o hnumber hbefore hfront] at h
  rw [parseRest, splitFragment, cutAt_append o hnumber hbefore hshort] at hfull
  obtain ⟨_, _, _, _, rfl⟩ := complete_ok o h
  obtain ⟨_, _, _, _, rfl⟩ := complete_ok o hfull
  rfl

theorem appended_encodeQuery (curl : Curl) {mark : UInt8} (hmark : mark = 38 ∨ mark = 63)
    (params : Option (List (CString × Param))) : Appended (mark :: encodeQuery curl params) := by
  have hplain : ∀ c, unreserved c = false → c ≠ 37 → c ≠ 61 → c ≠ 38 → c ≠ 63 →
      c ∉ mark :: encodeQuery curl params := by
    intro c hc hpercent hequals hand hquestion hmem
    rcases List.mem_cons.mp hmem with rfl | hmem
    · rcases hmark with rfl | rfl
      · exact hand rfl
      · exact hquestion rfl
    · exact not_mem_encodeQuery curl hc hpercent hequals hand params hmem
  constructor
  · exact List.cons_ne_nil _ _
  · exact ⟨hplain 58 (by decide) (by decide) (by decide) (by decide) (by decide),
      hplain 47 (by decide) (by decide) (by decide) (by decide) (by decide),
      hplain 35 (by decide) (by decide) (by decide) (by decide) (by decide)⟩
  · cases hlast : (mark :: encodeQuery curl params).getLast? with
    | none => rfl
    | some c =>
        have hmem := List.mem_of_getLast? hlast
        cases hblank : isBlank c with
        | false => exact hblank
        | true =>
            exfalso
            rw [isBlank, Bool.or_eq_true, Bool.or_eq_true, Bool.or_eq_true, beq_iff_eq, beq_iff_eq,
              beq_iff_eq, beq_iff_eq] at hblank
            rcases hblank with ((rfl | rfl) | rfl) | rfl
            · exact hplain 32 (by decide) (by decide) (by decide) (by decide) (by decide) hmem
            · exact hplain 9 (by decide) (by decide) (by decide) (by decide) (by decide) hmem
            · exact hplain 10 (by decide) (by decide) (by decide) (by decide) (by decide) hmem
            · exact hplain 13 (by decide) (by decide) (by decide) (by decide) (by decide) hmem

/-- Parameters that are no text have no pair. -/
theorem queryPairs_ne_nil {curl : Curl} {params : Option (List (CString × Param))}
    (hextra : encodeQuery curl params ≠ []) : queryPairs (encodeQuery curl params) ≠ [] := by
  cases params with
  | none => exact absurd rfl hextra
  | some params =>
      rw [queryPairs_encodeQuery]
      intro hnone
      apply hextra
      rw [encodeQuery, hnone]
      rfl

/-- What is put behind an accepted text without blanks at its end goes to the text behind the scheme. -/
theorem parseUrl_append (o : Machine) {url more : CString} {parts : Url} (hmore : Appended more)
    (hlast : url.getLast?.any isBlank = false) (hshort : (url ++ more).length < 2147483648)
    (h : parseUrl o (some url) = .ok parts) :
    parseUrl o (some (url ++ more)) =
      parseRest o (splitScheme o (trim url)).1 ((splitScheme o (trim url)).2 ++ more) := by
  obtain ⟨hempty, hscheme, _⟩ := parseUrl_ok o h
  have htrim := trim_append hmore hempty hlast
  have hlength := trim_length_le (url ++ more)
  have hlong : trim (url ++ more) ≠ [] := by
    rw [htrim]
    exact List.append_ne_nil_of_left_ne_nil hempty _
  rw [parseUrl]
  rw [if_neg hlong, htrim, splitScheme_append o hmore.plain.2.1 (by
    rw [← htrim]
    exact Nat.lt_of_le_of_lt hlength hshort), parseScheme, if_neg fun hother => hscheme.elim hother.1 hother.2]

/-- Parameters are added exactly to the URLs without a fragment, when no blank stands at the end. -/
theorem addsParameters_iff (o : Machine) (curl : Curl) {url : CString}
    (params : Option (List (CString × Param))) {parts : Url}
    (hlast : url.getLast?.any isBlank = false)
    (hshort : (addQuery curl url params).length < 2147483648)
    (h : parseUrl o (some url) = .ok parts) :
    AddsParameters o curl url params parts ↔ encodeQuery curl params = [] ∨ 35 ∉ url := by
  rw [AddsParameters, addQuery_eq]
  rw [addQuery_eq] at hshort
  by_cases hextra : encodeQuery curl params = []
  · rw [if_pos hextra, hextra, queryPairs_nil]
    apply iff_of_true _ (Or.inl rfl)
    exact ⟨parts, h, rfl, rfl, (List.append_nil _).symm⟩
  · rw [if_neg hextra] at hshort ⊢
    obtain ⟨hempty, hscheme, hparts⟩ := parseUrl_ok o h
    have hmark : (if 63 ∈ url then (38 : UInt8) else 63) = 38 ∨
        (if 63 ∈ url then (38 : UInt8) else 63) = 63 := by
      split_ifs
      · exact Or.inl rfl
      · exact Or.inr rfl
    have hmore := appended_encodeQuery curl hmark params
    have hurl : url.length < 2147483648 := by
      rw [List.length_append] at hshort
      omega
    have htrim := Nat.lt_of_le_of_lt (trim_length_le url) hurl
    have hrest := splitScheme_length_le o htrim
    have hmem : ∀ c : UInt8, c = 63 ∨ c = 35 → (c ∈ (splitScheme o (trim url)).2 ↔ c ∈ url) := by
      intro c hc
      rw [mem_splitScheme o hc htrim hscheme, mem_trim (by rcases hc with rfl | rfl <;> decide)]
    have hlength : ((splitScheme o (trim url)).2 ++
        (if 63 ∈ url then 38 else 63) :: encodeQuery curl params).length < 2147483648 := by
      have hle := trim_length_le url
      rw [List.length_append] at hshort ⊢
      omega
    rw [parseUrl_append o hmore hlast hshort h]
    by_cases hnumber : 35 ∈ url
    · apply iff_of_false _ (not_or.mpr ⟨hextra, fun hplain => hplain hnumber⟩)
      intro hadds
      obtain ⟨full, hfull, _, _, hquery⟩ := hadds
      rw [parseRest_append_fragment o ((hmem 35 (Or.inr rfl)).mpr hnumber) hlength hparts hfull] at hquery
      have hcount := congrArg List.length hquery
      rw [List.length_append] at hcount
      have hpairs := List.length_pos_iff.mpr (queryPairs_ne_nil hextra)
      omega
    · apply iff_of_true _ (Or.inr hnumber)
      have hquestion := hmem 63 (Or.inl rfl)
      obtain ⟨full, hfull, hhost, hpath, hquery⟩ := parseRest_append o hmore.plain.2.2
        (by rw [if_congr hquestion rfl rfl]) (fun hin => hnumber ((hmem 35 (Or.inr rfl)).mp hin))
        hlength hparts
      refine ⟨full, hfull, hhost, hpath, ?_⟩
      rw [hquery]
      split_ifs with hin
      · exact queryPairs_append _ _
      · have hnone : parts.query = [] := by
          rw [parseRest, splitFragment,
            cutAt_none o (fun hin => hnumber ((hmem 35 (Or.inr rfl)).mp hin))] at hparts
          obtain ⟨_, _, _, _, rfl⟩ := complete_ok o hparts
          show (splitQuery o (splitScheme o (trim url)).2).2 = []
          rw [splitQuery, cutAt_none o hin]
        rw [hnone, queryPairs_nil, List.nil_append, List.nil_append]

/-! ### The laws together -/

/-- An accepted URL is rebuilt exactly when its host has no colon and no bracket in front and its target
no blank at the end; the delimiters are taken in their order exactly when no `?` and no `#` stands before
the first `://`; the texts of a query are read back; and parameters are added to a text without blanks at
its end exactly when it has no fragment. -/
theorem url_laws (o : Machine) (curl : Curl) (url : CString) (parts : Url)
    (params : Option (List (CString × Param))) (p : List (CString × HeaderValue)) :
    (url.length < 2147483648 → parseUrl o (some url) = .ok parts →
      (buildUrl parts).length < 2147483648 →
      (Rebuilt o parts ↔ 58 ∉ parts.host ∧ parts.host.head? ≠ some 91 ∧
        parts.target.getLast?.any isBlank = false)) ∧
    (trim url ≠ [] → (parseUrl o (some url) = parseOrdered o url ↔ SchemeFirst (trim url))) ∧
    ((p.map Prod.fst).Nodup → (∀ entry ∈ p, entry.2.Plain) →
      (encodeQuery curl (some (p.map fun entry => (entry.1, entry.2.param)))).length < 2147483648 →
      decodeQuery o curl
        (some (encodeQuery curl (some (p.map fun entry => (entry.1, entry.2.param))))) = p) ∧
    (url.getLast?.any isBlank = false → (addQuery curl url params).length < 2147483648 →
      parseUrl o (some url) = .ok parts →
      (AddsParameters o curl url params parts ↔ encodeQuery curl params = [] ∨ 35 ∉ url)) := by
  refine ⟨?_, ordered_iff o, decodeQuery_encodeQuery o curl, addsParameters_iff o curl params⟩
  intro hshort hparse hbuilt
  obtain ⟨hscheme, hparsed⟩ := parsed_of_parseUrl o hshort hparse
  exact rebuilt_iff o hscheme hparsed hbuilt

/-- A URL in a query is taken for the end of a scheme. -/
theorem url_laws_scheme :
    parseUrl twosComplement (some (lit "h?u=http://x")) ≠
      parseOrdered twosComplement (lit "h?u=http://x") := by
  intro h
  have hfirst := (ordered_iff twosComplement (by decide)).mp h
  exact (hfirst 8 (by decide)).1 (by decide)

end Httpx

end EZLanguage
