import EZLanguage.Email.Mime

/-!
# Reading a payload

A reader takes the lines up to the first empty one for the header and cuts the body at the boundary lines.
The lines it finds hold no line end, and the pieces hold no boundary line, whatever the payload is: so what it
finds can be the message's own lines and parts only where these have none either.
-/

namespace EZLanguage

namespace Email

/-! ### Reading the payload -/

/-- The lines before the first empty line. -/
def head (payload : CString) : List CString := (lines payload).takeWhile (· ≠ [])

/-- The lines behind it. -/
def body (payload : CString) : List CString := ((lines payload).dropWhile (· ≠ [])).drop 1

def isDelimiter (host : Host) (l : CString) : Bool := l = delimiter host ∨ l = delimiter host ++ lit "--"

/-- The body cut at the boundary lines. -/
def pieces (host : Host) (payload : CString) : List (List CString) :=
  (body payload).splitOnP (isDelimiter host)

/-- What stands behind the header lines of a part. -/
def partText (part : List CString) : List CString := (part.dropWhile (· ≠ [])).drop 1

/-- The texts of a message, each with the line that names its type. -/
def texts (host : Host) (payload : CString) : List (CString × List CString) :=
  if (head payload).getLast? = some (multipartLine host) then
    ((pieces host payload).drop 1).dropLast.map fun part => (part.headD [], partText part)
  else [((head payload).getLastD [], body payload)]

/-- What a reader of the payload finds. -/
structure Laws (host : Host) (m : Message) (payload : CString) : Prop where
  headers : head payload = headerLines host m
  body : m.attachments = [] → Email.body payload = lines (content m) ++ [[]]
  parts : m.attachments ≠ [] → pieces host payload =
    [] :: (contentType m :: [] :: lines (content m)) ::
      (m.attachments.map (fun f => attachmentHead f ++ [] :: fileLines host f) ++ [[[]]])
  files : m.attachments ≠ [] →
    ((pieces host payload).drop 2).dropLast.map (fun part => decodeBase64 (partText part)) =
      m.attachments.map host.readFile
  both : m.textBody ≠ [] → m.htmlBody ≠ [] →
    (∃ t, (plainType, t) ∈ texts host payload ∧ lines m.textBody <+: t) ∧
      ∃ t, (htmlType, t) ∈ texts host payload ∧ lines m.htmlBody <+: t
  hidden : ∀ bcc, buildPayload host { m with bcc := bcc } = .ok payload

/-- A message whose values are single lines, whose text has no boundary line in it, and that has one text. -/
structure Clean (host : Host) (m : Message) : Prop where
  headers : ∀ l ∈ headerLines host m, OneLine l
  names : ∀ f ∈ m.attachments, ∀ l ∈ attachmentHead f, OneLine l
  content : m.attachments ≠ [] → ∀ l ∈ lines (Email.content m), isDelimiter host l = false
  single : ¬(m.textBody ≠ [] ∧ m.htmlBody ≠ [])

theorem lines_crlf (rest : CString) : lines (crlf ++ rest) = [] :: lines rest := by
  rw [crlf, List.cons_append, List.cons_append, lines, List.nil_append]

/-! ### Header lines are not empty -/

theorem append_ne_nil_left {x : CString} (hx : x ≠ []) (y : CString) : x ++ y ≠ [] :=
  fun h => hx (List.append_eq_nil_iff.mp h).1

theorem forall_mem_ite {c : Prop} [Decidable c] {ls : List CString} {P : CString → Prop}
    (h : ∀ l ∈ ls, P l) : ∀ l ∈ (if c then ls else []), P l := by
  split
  · exact h
  · exact fun l hl => absurd hl List.not_mem_nil

theorem fieldLines_ne_nil (host : Host) (m : Message) : ∀ l ∈ fieldLines host m, l ≠ [] := by
  have hone : ∀ {x : CString} (y : CString), x ≠ [] → ∀ l ∈ [x ++ y], l ≠ [] := by
    intro x y hx l hl
    rw [List.mem_singleton.mp hl]
    exact append_ne_nil_left hx y
  have hfixed : ∀ {x : CString}, x ≠ [] → ∀ l ∈ [x], l ≠ [] := by
    intro x hx l hl
    rwa [List.mem_singleton.mp hl]
  unfold fieldLines
  refine List.forall_mem_append.mpr ⟨List.forall_mem_append.mpr ⟨List.forall_mem_append.mpr
    ⟨List.forall_mem_append.mpr ⟨List.forall_mem_append.mpr ⟨?_, ?_⟩, ?_⟩, ?_⟩, ?_⟩, ?_⟩
  · refine List.forall_mem_cons.mpr ⟨append_ne_nil_left (by decide) _,
      List.forall_mem_cons.mpr ⟨?_, List.forall_mem_cons.mpr ⟨append_ne_nil_left (by decide) _,
        hone _ (by decide)⟩⟩⟩
    exact append_ne_nil_left (append_ne_nil_left (append_ne_nil_left
      (append_ne_nil_left (by decide) _) _) _) _
  · exact forall_mem_ite (hone _ (by decide))
  · exact hone _ (by decide)
  · exact forall_mem_ite (hone _ (by decide))
  · refine forall_mem_ite (List.forall_mem_append.mpr ⟨List.forall_mem_append.mpr ⟨?_, ?_⟩, ?_⟩)
    · exact hone _ (by decide)
    · exact forall_mem_ite (hfixed (by decide))
    · exact forall_mem_ite (hfixed (by decide))
  · intro l hl
    obtain ⟨h, -, rfl⟩ := List.mem_map.mp hl
    intro hnil
    have hcolon := (List.append_eq_nil_iff.mp (List.append_eq_nil_iff.mp hnil).1).2
    exact absurd hcolon (by decide)

theorem typeLines_ne_nil (host : Host) (m : Message) : ∀ l ∈ typeLines host m, l ≠ [] := by
  have hmime : lit "MIME-Version: 1.0" ≠ [] := by decide
  have hmulti : multipartLine host ≠ [] :=
    append_ne_nil_left (append_ne_nil_left (by decide) _) _
  have hhtml : htmlType ≠ [] := by decide
  have hplain : plainType ≠ [] := by decide
  unfold typeLines
  split_ifs <;> simp [hmime, hmulti, hhtml, hplain]

theorem headerLines_ne_nil (host : Host) (m : Message) : ∀ l ∈ headerLines host m, l ≠ [] :=
  List.forall_mem_append.mpr ⟨fieldLines_ne_nil host m, typeLines_ne_nil host m⟩

theorem attachmentHead_ne_nil (f : CString) : ∀ l ∈ attachmentHead f, l ≠ [] := by
  have hname : nameLine f ≠ [] := append_ne_nil_left (append_ne_nil_left (by decide) _) _
  have hencoding : lit "Content-Transfer-Encoding: base64" ≠ [] := by decide
  have hdisposition : dispositionLine f ≠ [] := append_ne_nil_left (append_ne_nil_left (by decide) _) _
  unfold attachmentHead
  simp [hname, hencoding, hdisposition]

/-- Lines up to the first empty one. -/
theorem takeWhile_lines {x : List CString} (hx : ∀ l ∈ x, l ≠ []) (y : List CString) :
    (x ++ [] :: y).takeWhile (· ≠ []) = x := by
  rw [List.takeWhile_append_of_pos fun l hl => by simpa using hx l hl]
  simp

theorem dropWhile_lines {x : List CString} (hx : ∀ l ∈ x, l ≠ []) (y : List CString) :
    ((x ++ [] :: y).dropWhile (· ≠ [])).drop 1 = y := by
  rw [List.dropWhile_append_of_pos fun l hl => by simpa using hx l hl]
  simp

/-! ### Boundary lines -/

theorem head_of_isDelimiter {host : Host} {l : CString} (h : isDelimiter host l = true) :
    l.head? = some 45 := by
  rw [isDelimiter, decide_eq_true_eq] at h
  rcases h with rfl | rfl <;> rfl

theorem not_isDelimiter {host : Host} {l : CString} (h : l.head? ≠ some 45) : isDelimiter host l = false :=
  Bool.eq_false_iff.mpr fun hd => h (head_of_isDelimiter hd)

theorem attachmentHead_not_delimiter (host : Host) (f : CString) :
    ∀ l ∈ attachmentHead f, isDelimiter host l = false := by
  have hname : (nameLine f).head? ≠ some 45 := by
    change some (67 : UInt8) ≠ some 45
    decide
  have hencoding : (lit "Content-Transfer-Encoding: base64").head? ≠ some 45 := by decide
  have hdisposition : (dispositionLine f).head? ≠ some 45 := by
    change some (67 : UInt8) ≠ some 45
    decide
  unfold attachmentHead
  simp only [List.forall_mem_cons]
  exact ⟨not_isDelimiter hname, not_isDelimiter hencoding, not_isDelimiter hdisposition,
    fun l hl => absurd hl List.not_mem_nil⟩

theorem mem_fileLines {host : Host} {f l : CString} {c : UInt8} (hl : l ∈ fileLines host f) (hc : c ∈ l) :
    c ≠ 13 ∧ c ≠ 45 := by
  refine @base64Encode_letters ((host.readFile f).getD []) c ?_
  rw [← flatten_chunks (base64Encode _)]
  exact List.mem_flatten.mpr ⟨l, hl, hc⟩

theorem part_not_delimiter (host : Host) (f : CString) :
    ∀ l ∈ attachmentHead f ++ [] :: fileLines host f, isDelimiter host l = false := by
  refine List.forall_mem_append.mpr ⟨attachmentHead_not_delimiter host f, List.forall_mem_cons.mpr
    ⟨not_isDelimiter (by simp), fun l hl => not_isDelimiter fun h => ?_⟩⟩
  exact (mem_fileLines hl (List.mem_of_head? h)).2 rfl

theorem oneLine_delimiter (host : Host) : OneLine (delimiter host) ∧ OneLine (delimiter host ++ lit "--") := by
  have hdash : (13 : UInt8) ∉ lit "--" := by decide
  have hname : (13 : UInt8) ∉ lit "EZ_BOUNDARY_" := by decide
  have hclock : (13 : UInt8) ∉ host.clock := fun h => host.clock_plain 13 h rfl
  have hline : (13 : UInt8) ∉ delimiter host := by
    rw [delimiter, boundary]
    simp [hdash, hname, hclock]
  exact ⟨oneLine_of_not_mem hline, oneLine_of_not_mem (by simp [hline, hdash])⟩

/-- The pieces between boundary lines, where no piece has one in it. -/
theorem splitOnP_parts {host : Host} {P : CString → List CString}
    (hP : ∀ f, ∀ l ∈ P f, isDelimiter host l = false) (files : List CString) (x tail : List CString) :
    (x ++ (files.flatMap (fun f => delimiter host :: P f) ++
      (delimiter host ++ lit "--") :: tail)).splitOnP (isDelimiter host) =
      x.splitOnP (isDelimiter host) ++ (files.map P ++ tail.splitOnP (isDelimiter host)) := by
  have hopen : isDelimiter host (delimiter host) = true := by simp [isDelimiter]
  have hclose : isDelimiter host (delimiter host ++ lit "--") = true := by simp [isDelimiter]
  induction files generalizing x with
  | nil => exact List.splitOnP_append_cons x tail hclose
  | cons f files ih =>
      rw [List.flatMap_cons, List.cons_append, List.cons_append, List.append_assoc,
        List.splitOnP_append_cons x _ hopen, ih (P f), List.splitOnP_eq_singleton (hP f), List.map_cons]
      rfl

/-- No piece has a boundary line in it. -/
theorem not_mem_splitOnP {p : CString → Bool} {x : List CString} :
    ∀ piece ∈ x.splitOnP p, ∀ l ∈ piece, p l = false ∧ l ∈ x := by
  induction x with
  | nil =>
      intro piece hpiece l hl
      rw [List.splitOnP_nil, List.mem_singleton] at hpiece
      exact absurd (hpiece ▸ hl) List.not_mem_nil
  | cons c x ih =>
      intro piece hpiece l hl
      rw [List.splitOnP_cons_eq_if_modifyHead] at hpiece
      split at hpiece
      case isTrue =>
          rcases List.mem_cons.mp hpiece with rfl | hpiece
          · exact absurd hl List.not_mem_nil
          · exact ⟨(ih piece hpiece l hl).1, List.mem_cons_of_mem c (ih piece hpiece l hl).2⟩
      case isFalse hc =>
          obtain ⟨s, ss, hs⟩ := List.exists_cons_of_ne_nil (List.splitOnP_ne_nil p x)
          rw [hs, List.modifyHead_cons] at hpiece
          rw [hs] at ih
          rcases List.mem_cons.mp hpiece with rfl | hpiece
          · rcases List.mem_cons.mp hl with rfl | hl
            · exact ⟨Bool.eq_false_iff.mpr hc, List.mem_cons_self⟩
            · have := ih s List.mem_cons_self l hl
              exact ⟨this.1, List.mem_cons_of_mem c this.2⟩
          · have := ih piece (List.mem_cons_of_mem s hpiece) l hl
            exact ⟨this.1, List.mem_cons_of_mem c this.2⟩

/-! ### The laws -/

theorem lines_payload {host : Host} {m : Message} {payload : CString}
    (h : payload = unlines (headerLines host m) ++ (crlf ++ bodyText host m))
    (hheaders : ∀ l ∈ headerLines host m, OneLine l) :
    lines payload = headerLines host m ++ [] :: lines (bodyText host m) := by
  rw [h, lines_unlines, flatMap_lines hheaders, lines_crlf]

theorem head_eq {host : Host} {m : Message} {payload : CString}
    (h : payload = unlines (headerLines host m) ++ (crlf ++ bodyText host m))
    (hheaders : ∀ l ∈ headerLines host m, OneLine l) : head payload = headerLines host m := by
  rw [head, lines_payload h hheaders, takeWhile_lines (headerLines_ne_nil host m)]

theorem body_eq {host : Host} {m : Message} {payload : CString}
    (h : payload = unlines (headerLines host m) ++ (crlf ++ bodyText host m))
    (hheaders : ∀ l ∈ headerLines host m, OneLine l) : body payload = lines (bodyText host m) := by
  rw [body, lines_payload h hheaders, dropWhile_lines (headerLines_ne_nil host m)]

theorem lines_unlines_end (ls : List CString) : lines (unlines ls) = ls.flatMap lines ++ [[]] := by
  have h := lines_unlines ls []
  rw [List.append_nil] at h
  exact h

theorem oneLine_contentType (m : Message) : OneLine (contentType m) := by
  unfold contentType
  split <;> decide

/-- The lines of the body of a message with attachments. -/
theorem lines_bodyText {host : Host} {m : Message} (hattach : m.attachments ≠ [])
    (hnames : ∀ f ∈ m.attachments, ∀ l ∈ attachmentHead f, OneLine l) :
    lines (bodyText host m) =
      [] ++ (delimiter host :: (contentType m :: [] :: lines (content m)) ++
        (m.attachments.flatMap (fun f => delimiter host :: (attachmentHead f ++ [] :: fileLines host f)) ++
          (delimiter host ++ lit "--") :: [[]])) := by
  obtain ⟨hopen, hclose⟩ := oneLine_delimiter host
  have hparts : (m.attachments.flatMap fun f => delimiter host :: attachmentHead f ++
      [] :: fileLines host f).flatMap lines =
        m.attachments.flatMap fun f => delimiter host :: (attachmentHead f ++ [] :: fileLines host f) := by
    refine flatMap_lines fun l hl => ?_
    obtain ⟨f, hf, hl⟩ := List.mem_flatMap.mp hl
    rcases List.mem_append.mp hl with hl | hl
    · rcases List.mem_cons.mp hl with rfl | hl
      · exact hopen
      · exact hnames f hf l hl
    · rcases List.mem_cons.mp hl with rfl | hl
      · rfl
      · exact oneLine_of_not_mem fun hc => (mem_fileLines hl hc).1 rfl
  rw [bodyText, if_pos (List.length_pos_iff.mpr hattach), lines_unlines_end, List.flatMap_append,
    List.flatMap_append, hparts]
  simp only [List.flatMap_cons, List.flatMap_nil, List.append_nil, show lines (delimiter host) = _ from hopen,
    show lines (delimiter host ++ lit "--") = _ from hclose,
    show lines (contentType m) = _ from oneLine_contentType m, show lines [] = [[]] from rfl,
    List.append_assoc, List.cons_append, List.nil_append]

theorem pieces_eq {host : Host} {m : Message} {payload : CString}
    (h : payload = unlines (headerLines host m) ++ (crlf ++ bodyText host m)) (hclean : Clean host m)
    (hattach : m.attachments ≠ []) : pieces host payload =
      [] :: (contentType m :: [] :: lines (content m)) ::
        (m.attachments.map (fun f => attachmentHead f ++ [] :: fileLines host f) ++ [[[]]]) := by
  have hopen : isDelimiter host (delimiter host) = true := by simp [isDelimiter]
  have htype : isDelimiter host (contentType m) = false := by
    refine not_isDelimiter ?_
    unfold contentType
    split <;> decide
  have htext : ∀ l ∈ contentType m :: [] :: lines (content m), isDelimiter host l = false :=
    List.forall_mem_cons.mpr ⟨htype, List.forall_mem_cons.mpr
      ⟨not_isDelimiter (by simp), hclean.content hattach⟩⟩
  have hend : ([[]] : List CString).splitOnP (isDelimiter host) = [[[]]] :=
    List.splitOnP_eq_singleton fun l hl => by
      rw [List.mem_singleton.mp hl]
      exact not_isDelimiter (by simp)
  rw [pieces, body_eq h hclean.headers, lines_bodyText hattach hclean.names, List.cons_append,
    List.splitOnP_append_cons [] _ hopen, splitOnP_parts (part_not_delimiter host),
    List.splitOnP_eq_singleton htext, hend]
  rfl

theorem partText_attachment (host : Host) (f : CString) :
    partText (attachmentHead f ++ [] :: fileLines host f) = fileLines host f :=
  dropWhile_lines (attachmentHead_ne_nil f) _

theorem laws_of_clean {host : Host} {m : Message} {payload : CString}
    (hbuild : buildPayload host m = .ok payload) (hclean : Clean host m) : Laws host m payload := by
  obtain ⟨hfiles, h⟩ := buildPayload_eq hbuild
  have hpieces := pieces_eq h hclean
  refine ⟨head_eq h hclean.headers, fun hnone => ?_, hpieces, fun hattach => ?_,
    fun htext hhtml => absurd ⟨htext, hhtml⟩ hclean.single, fun _ => hbuild⟩
  · rw [body_eq h hclean.headers, bodyText, if_neg (by rw [hnone]; exact Nat.lt_irrefl 0), lines_unlines_end,
      List.flatMap_cons, List.flatMap_nil, List.append_nil]
  · rw [hpieces hattach, List.drop_succ_cons, List.drop_succ_cons, List.drop_zero, List.dropLast_concat,
      List.map_map]
    refine List.map_congr_left fun f hf => ?_
    obtain ⟨bytes, hread⟩ := hfiles f hf
    change decodeBase64 (partText (attachmentHead f ++ [] :: fileLines host f)) = host.readFile f
    rw [partText_attachment, fileLines, decodeBase64_chunks, hread, Option.getD_some]

theorem plainType_ne_nameLine (f : CString) : plainType ≠ nameLine f := by
  intro h
  have hplain : plainType[14]? = some 116 := by decide
  have hname : (nameLine f)[14]? = some 97 := rfl
  rw [h, hname] at hplain
  exact absurd hplain (by decide)

/-- A message with both texts shows the HTML text only. -/
theorem plainType_not_mem {host : Host} {m : Message} {payload : CString} (hlaws : Laws host m payload)
    (hhtml : m.htmlBody ≠ []) (t : List CString) : (plainType, t) ∉ texts host payload := by
  have hset : 0 < m.htmlBody.length := List.length_pos_iff.mpr hhtml
  have hne : plainType ≠ htmlType := by decide
  rw [texts, hlaws.headers, headerLines, typeLines]
  by_cases hattach : 0 < m.attachments.length
  · rw [if_pos hattach, if_pos (by simp), hlaws.parts (List.length_pos_iff.mp hattach), contentType,
      if_pos hset, List.drop_succ_cons, List.drop_zero, ← List.cons_append, List.dropLast_concat]
    intro hmem
    rw [List.map_cons, List.map_map] at hmem
    rcases List.mem_cons.mp hmem with heq | hmem
    · exact hne (congrArg Prod.fst heq)
    · obtain ⟨f, -, heq⟩ := List.mem_map.mp hmem
      exact plainType_ne_nameLine f (congrArg Prod.fst heq).symm
  · have hlast : htmlType ≠ multipartLine host := by
      intro h
      have hhtmlChar : htmlType[14]? = some 116 := by decide
      have hmulti : (multipartLine host)[14]? = some 109 := rfl
      rw [h, hmulti] at hhtmlChar
      exact absurd hhtmlChar (by decide)
    rw [if_neg hattach, if_pos hset, if_neg (by simpa using hlast)]
    intro hmem
    have heq := congrArg Prod.fst (List.mem_singleton.mp hmem)
    rw [List.getLastD_eq_getLast?] at heq
    exact hne (by simpa using heq)

/-- What a reader of the payload finds is the message exactly where its values are single lines, its text
has no boundary line in it, and it has one text only. -/
theorem payload_laws_iff {host : Host} {m : Message} {payload : CString}
    (hbuild : buildPayload host m = .ok payload) : Laws host m payload ↔ Clean host m := by
  refine ⟨fun hlaws => ⟨?_, ?_, ?_, ?_⟩, laws_of_clean hbuild⟩
  · intro l hl
    rw [← hlaws.headers] at hl
    exact oneLine_of_mem_lines ((List.takeWhile_sublist _).mem hl)
  · intro f hf l hl
    have hparts := hlaws.parts (List.ne_nil_of_mem hf)
    have hpiece : attachmentHead f ++ [] :: fileLines host f ∈ pieces host payload := by
      rw [hparts]
      simp only [List.mem_cons, List.mem_append, List.mem_map]
      exact .inr (.inr (.inl ⟨f, hf, rfl⟩))
    have hmem := (not_mem_splitOnP _ hpiece l (List.mem_append_left _ hl)).2
    exact oneLine_of_mem_lines ((List.dropWhile_sublist _).mem (List.mem_of_mem_drop hmem))
  · intro hattach l hl
    have hpiece : contentType m :: [] :: lines (content m) ∈ pieces host payload := by
      rw [hlaws.parts hattach]
      exact List.mem_cons_of_mem _ List.mem_cons_self
    exact (not_mem_splitOnP _ hpiece l (List.mem_cons_of_mem _ (List.mem_cons_of_mem _ hl))).1
  · rintro ⟨htext, hhtml⟩
    obtain ⟨⟨t, ht, -⟩, -⟩ := hlaws.both htext hhtml
    exact plainType_not_mem hlaws hhtml t ht

/-- A machine with one file. -/
def deskHost : Host where
  date := lit "Sat, 19 Jul 2026 17:05:50 +0500"
  stamp := lit "1784462750000"
  clock := lit "1784462750000"
  readFile filePath := if filePath = lit "a.txt" then some (lit "hi") else none
  clock_plain := by decide +kernel

def greeting (subject : CString) : Message where
  sender := lit "a@b.c"
  recipients := [lit "d@e.f"]
  cc := []
  bcc := []
  subject := subject
  textBody := lit "Hello"
  htmlBody := []
  attachments := []
  replyTo := []
  priority := []
  headers := []

theorem payload_laws_greeting : ∃ payload, buildPayload deskHost (greeting (lit "Hi")) = .ok payload ∧
    (Laws deskHost (greeting (lit "Hi")) payload ↔ Clean deskHost (greeting (lit "Hi"))) :=
  ⟨_, rfl, payload_laws_iff rfl⟩

/-- A subject with a line end in it adds a header line. -/
theorem not_laws_subject : (greeting (lit "Hi\r\nBcc: x@y.z")).validate = .ok () ∧
    ∃ payload, buildPayload deskHost (greeting (lit "Hi\r\nBcc: x@y.z")) = .ok payload ∧
      ¬Laws deskHost (greeting (lit "Hi\r\nBcc: x@y.z")) payload := by
  refine ⟨rfl, _, rfl, fun hlaws => ?_⟩
  have hsubject : lit "Subject: " ++ lit "Hi\r\nBcc: x@y.z" ∈
      headerLines deskHost (greeting (lit "Hi\r\nBcc: x@y.z")) := by decide
  rw [← hlaws.headers] at hsubject
  have hline := oneLine_of_mem_lines ((List.takeWhile_sublist _).mem hsubject)
  exact absurd hline (by decide)

end Email

end EZLanguage
