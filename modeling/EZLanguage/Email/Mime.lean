import Mathlib.Tactic.Common
import EZLanguage.Runtime.Encoding

/-!
# The text of a message

The payload of a mail message: header lines, an empty line and a body. With attachments the body is cut at
boundary lines, and a file stands in its part as base64 text in lines of 76 letters.

A line ends at a carriage return and a line feed. A value that holds these two bytes is two lines, and the
text of the message can be a boundary line; the laws hold for the messages without either. A message with
both texts sends the HTML text only.
-/

namespace EZLanguage

namespace Email

/-! ### The message -/

structure Message where
  sender : CString
  recipients : List CString
  cc : List CString
  bcc : List CString
  subject : CString
  textBody : CString
  htmlBody : CString
  attachments : List CString
  replyTo : CString
  priority : CString
  headers : List (CString × CString)

inductive EmailError where
  | invalid (message : CString)
  | attachment (path message : CString)

/-- `Message.validate`. -/
def Message.validate (m : Message) : Except EmailError Unit :=
  if m.sender = [] then .error (.invalid (lit "Message is missing a 'from' address."))
  else if m.recipients = [] then .error (.invalid (lit "Message is missing at least one 'to' recipient."))
  else if m.subject = [] then .error (.invalid (lit "Message is missing a 'subject'."))
  else if m.textBody = [] ∧ m.htmlBody = [] then
    .error (.invalid (lit "Message must have at least a text() or html() body."))
  else .ok ()

/-- What the payload takes from the machine: the date as it is written, the time stamp, the clock and the
files. The clock is a number, so it has no carriage return in it. -/
structure Host where
  date : CString
  stamp : CString
  clock : CString
  readFile : CString → Option CString
  clock_plain : ∀ c ∈ clock, c ≠ 13

/-! ### Pieces of the payload -/

def crlf : CString := [13, 10]

/-- `split` at one byte. -/
def split (sep : UInt8) : CString → List CString
  | [] => [[]]
  | c :: rest =>
      if c = sep then [] :: split sep rest
      else (c :: (split sep rest).headD []) :: (split sep rest).tail

/-- `__domain`. -/
def domain (email : CString) : CString :=
  match split 64 email with
  | _ :: part :: _ => part
  | _ => lit "localhost"

/-- `__addrList`. -/
def addrList (arr : List CString) : CString := (lit ", ").intercalate arr

/-- `__base64Encode`. -/
def base64Encode (data : CString) : CString :=
  let urlb64 := Encoding.b64url_encode data
  let standard := (urlb64.map fun c => if c = 45 then 43 else c).map fun c => if c = 95 then 47 else c
  let rem := standard.length % 4
  if rem = 2 then standard ++ lit "==" else if rem = 3 then standard ++ lit "=" else standard

/-- `__wrapBase64`, whose index moves on by 76. -/
def wrapBase64 (encoded : CString) : CString :=
  if _h : encoded = [] then [] else encoded.take 76 ++ crlf ++ wrapBase64 (encoded.drop 76)
termination_by encoded.length
decreasing_by
  have := List.length_pos_iff.mpr _h
  rw [List.length_drop]
  omega

def fileName (filePath : CString) : CString :=
  (split 47 ((split 92 filePath).getLastD [])).getLastD []

/-- `__buildAttachmentPart`. -/
def buildAttachmentPart (host : Host) (filePath boundary : CString) : Except EmailError CString :=
  match host.readFile filePath with
  | none => .error (.attachment filePath (lit "File not found or unreadable."))
  | some fileContent =>
      let fileName := fileName filePath
      let encoded := wrapBase64 (base64Encode fileContent)
      let part := lit "--" ++ boundary ++ crlf
      let part := part ++ lit "Content-Type: application/octet-stream; name=\"" ++ fileName ++ lit "\"" ++ crlf
      let part := part ++ lit "Content-Transfer-Encoding: base64" ++ crlf
      let part := part ++ lit "Content-Disposition: attachment; filename=\"" ++ fileName ++ lit "\"" ++ crlf
      let part := part ++ crlf
      .ok (part ++ encoded)

def boundary (host : Host) : CString := lit "EZ_BOUNDARY_" ++ host.clock

/-- The headers of `buildPayload`, up to the custom ones. The addresses of `bcc` stand in none of them. -/
def headerText (host : Host) (msg : Message) : CString :=
  let payload := lit "Date: " ++ host.date ++ crlf
  let payload := payload ++ lit "Message-ID: <" ++ host.stamp ++ lit "@" ++ domain msg.sender ++ lit ">" ++ crlf
  let payload := payload ++ lit "From: " ++ msg.sender ++ crlf
  let payload := payload ++ lit "To: " ++ addrList msg.recipients ++ crlf
  let payload := if 0 < msg.cc.length then payload ++ lit "Cc: " ++ addrList msg.cc ++ crlf else payload
  let payload := payload ++ lit "Subject: " ++ msg.subject ++ crlf
  let payload := if 0 < msg.replyTo.length then payload ++ lit "Reply-To: " ++ msg.replyTo ++ crlf else payload
  let payload :=
    if 0 < msg.priority.length then
      let payload := payload ++ lit "X-Priority: " ++ msg.priority ++ crlf
      let payload := if msg.priority = lit "1" then payload ++ lit "Importance: High" ++ crlf else payload
      if msg.priority = lit "5" then payload ++ lit "Importance: Low" ++ crlf else payload
    else payload
  msg.headers.foldl (fun payload h => payload ++ h.1 ++ lit ": " ++ h.2 ++ crlf) payload

def htmlType : CString := lit "Content-Type: text/html; charset=UTF-8"

def plainType : CString := lit "Content-Type: text/plain; charset=UTF-8"

def buildPayload (host : Host) (msg : Message) : Except EmailError CString :=
  let boundary := boundary host
  let hasAttach := 0 < msg.attachments.length
  let payload := headerText host msg
  if hasAttach then
    let payload := payload ++ lit "MIME-Version: 1.0" ++ crlf
    let payload := payload ++ lit "Content-Type: multipart/mixed; boundary=\"" ++ boundary ++ lit "\"" ++ crlf
    let payload := payload ++ crlf
    let payload := payload ++ lit "--" ++ boundary ++ crlf
    let payload :=
      if 0 < msg.htmlBody.length then payload ++ htmlType ++ crlf ++ crlf ++ msg.htmlBody ++ crlf
      else payload ++ plainType ++ crlf ++ crlf ++ msg.textBody ++ crlf
    (msg.attachments.foldlM (fun payload filePath =>
      (buildAttachmentPart host filePath boundary).map (payload ++ ·)) payload).map fun payload =>
        payload ++ lit "--" ++ boundary ++ lit "--" ++ crlf
  else if 0 < msg.htmlBody.length then
    let payload := payload ++ lit "MIME-Version: 1.0" ++ crlf
    let payload := payload ++ htmlType ++ crlf
    .ok (payload ++ crlf ++ msg.htmlBody ++ crlf)
  else
    let payload := payload ++ plainType ++ crlf
    .ok (payload ++ crlf ++ msg.textBody ++ crlf)

/-! ### Lines -/

/-- The lines of a text. -/
def lines : CString → List CString
  | [] => [[]]
  | 13 :: 10 :: rest => [] :: lines rest
  | c :: rest => (c :: (lines rest).headD []) :: (lines rest).tail

example : lines [72, 13, 10, 105] = [[72], [105]] := by simp [lines]

/-- A text without a line end in it. -/
def OneLine (l : CString) : Prop := lines l = [l]

instance (l : CString) : Decidable (OneLine l) := by unfold OneLine; infer_instance

/-- Lines with their ends. -/
def unlines (ls : List CString) : CString := ls.flatMap (· ++ crlf)

theorem lines_ne_nil (t : CString) : lines t ≠ [] := by
  fun_cases lines t <;> exact List.cons_ne_nil _ _

/-- Outside a line end a byte goes to the line it stands in. -/
theorem lines_cons {c : UInt8} {rest : CString} (h : ∀ rest', c = 13 → rest = 10 :: rest' → False) :
    lines (c :: rest) = (c :: (lines rest).headD []) :: (lines rest).tail := by
  rw [lines]
  exact fun rest' hc hrest => h rest' hc hrest

theorem lines_append (t rest : CString) : lines (t ++ crlf ++ rest) = lines t ++ lines rest := by
  induction t using lines.induct with
  | case1 => simp [crlf, lines]
  | case2 t ih =>
      rw [List.cons_append, List.cons_append, List.cons_append, List.cons_append, lines, lines, ih,
        List.cons_append]
  | case3 c t hne ih =>
      obtain ⟨s, ss, hs⟩ := List.exists_cons_of_ne_nil (lines_ne_nil t)
      have hne' : ∀ rest', c = 13 → t ++ crlf ++ rest = 10 :: rest' → False := by
        intro rest' hc h
        cases t with
        | nil => simp [crlf] at h
        | cons d t =>
            simp only [List.cons_append, List.cons.injEq] at h
            exact hne t hc (by rw [h.1])
      rw [List.cons_append, List.cons_append, lines_cons hne', lines_cons hne, ih, hs]
      rfl

theorem lines_unlines (ls : List CString) (rest : CString) :
    lines (unlines ls ++ rest) = ls.flatMap lines ++ lines rest := by
  induction ls with
  | nil => rfl
  | cons l ls ih =>
      rw [unlines, List.flatMap_cons, List.append_assoc, lines_append, ← unlines, ih, List.flatMap_cons,
        List.append_assoc]

theorem lines_head {t : CString} {d : UInt8} {s : CString} (h : (lines t).headD [] = d :: s) :
    ∃ rest, t = d :: rest := by
  fun_cases lines t with
  | case1 => cases h
  | case2 rest => cases h
  | case3 c rest hne =>
      rw [lines_cons hne] at h
      exact ⟨rest, by rw [(List.cons.inj h).1]⟩

/-- What stands on a line has no line end in it. -/
theorem oneLine_of_mem_lines {t l : CString} (h : l ∈ lines t) : OneLine l := by
  induction t using lines.induct generalizing l with
  | case1 =>
      obtain rfl := List.mem_singleton.mp h
      rfl
  | case2 t ih =>
      rw [lines] at h
      rcases List.mem_cons.mp h with rfl | h
      · rfl
      · exact ih h
  | case3 c t hne ih =>
      obtain ⟨s, ss, hs⟩ := List.exists_cons_of_ne_nil (lines_ne_nil t)
      rw [lines_cons hne, hs] at h
      rcases List.mem_cons.mp h with rfl | h
      · have hline : OneLine s := ih (hs ▸ List.mem_cons_self)
        have hbound : ∀ rest', c = 13 → s = 10 :: rest' → False := by
          intro rest' hc hrest
          obtain ⟨rest, ht⟩ := lines_head (t := t) (by rw [hs]; exact hrest)
          exact hne rest hc ht
        change lines (c :: s) = [c :: s]
        rw [lines_cons hbound, show lines s = [s] from hline]
        rfl
      · exact ih (hs ▸ List.mem_cons_of_mem s h)

/-- A text without carriage return is one line. -/
theorem oneLine_of_not_mem {l : CString} (h : (13 : UInt8) ∉ l) : OneLine l := by
  induction l with
  | nil => rfl
  | cons c l ih =>
      have hc : c ≠ 13 := fun hc => h (hc ▸ List.mem_cons_self)
      have hline := ih fun hl => h (List.mem_cons_of_mem c hl)
      rw [OneLine, lines_cons fun _ hcr _ => hc hcr, show lines l = [l] from hline]
      rfl

/-- Line by line texts, where each is one line. -/
theorem flatMap_lines {ls : List CString} (h : ∀ l ∈ ls, OneLine l) : ls.flatMap lines = ls := by
  induction ls with
  | nil => rfl
  | cons l ls ih =>
      obtain ⟨hl, hls⟩ := List.forall_mem_cons.mp h
      rw [List.flatMap_cons, ih hls, show lines l = [l] from hl, List.singleton_append]

/-! ### Base64 text -/

def chunks (encoded : CString) : List CString :=
  if _h : encoded = [] then [] else encoded.take 76 :: chunks (encoded.drop 76)
termination_by encoded.length
decreasing_by
  have := List.length_pos_iff.mpr _h
  rw [List.length_drop]
  omega

theorem wrapBase64_eq (encoded : CString) : wrapBase64 encoded = unlines (chunks encoded) := by
  induction encoded using chunks.induct with
  | case1 => rw [wrapBase64, chunks, dif_pos rfl, dif_pos rfl, unlines, List.flatMap_nil]
  | case2 encoded h ih =>
      rw [wrapBase64, chunks, dif_neg h, dif_neg h, unlines, List.flatMap_cons, ih, unlines]

theorem flatten_chunks (encoded : CString) : (chunks encoded).flatten = encoded := by
  induction encoded using chunks.induct with
  | case1 => rw [chunks, dif_pos rfl, List.flatten_nil]
  | case2 encoded h ih => rw [chunks, dif_neg h, List.flatten_cons, ih, List.take_append_drop]

/-- The base64 text of a part, read by the letters of the standard alphabet. -/
def decodeBase64 (ls : List CString) : Option CString :=
  Encoding.b64url_decode
    (((ls.flatten.filter (· ≠ 61)).map fun c => if c = 43 then 45 else c).map
      fun c => if c = 47 then 95 else c)

set_option maxRecDepth 4000

theorem letters (c : UInt8) (hc : c ∈ Encoding.b64_chars) :
    let d : UInt8 := if (if c = 45 then 43 else c) = 95 then 47 else if c = 45 then 43 else c
    d ≠ 61 ∧ d ≠ 13 ∧ d ≠ 45 ∧
      (if (if d = 43 then 45 else d) = 47 then 95 else if d = 43 then 45 else d) = c := by
  have hall : ∀ c ∈ Encoding.b64_chars,
      let d : UInt8 := if (if c = 45 then 43 else c) = 95 then 47 else if c = 45 then 43 else c
      d ≠ 61 ∧ d ≠ 13 ∧ d ≠ 45 ∧
        (if (if d = 43 then 45 else d) = 47 then 95 else if d = 43 then 45 else d) = c := by
    decide
  exact hall c hc

theorem mem_b64url_encode {data : CString} {c : UInt8} (hc : c ∈ Encoding.b64url_encode data) :
    c ∈ Encoding.b64_chars := Encoding.mem_encodeFrom hc

/-- The letters without their padding, and the padding. -/
theorem base64Encode_eq (data : CString) : ∃ pad : CString, (∀ c ∈ pad, c = 61) ∧
    base64Encode data = ((Encoding.b64url_encode data).map fun c => if c = 45 then 43 else c).map
      (fun c => if c = 95 then 47 else c) ++ pad := by
  rw [base64Encode]
  split
  · exact ⟨lit "==", by decide, rfl⟩
  · split
    · exact ⟨lit "=", by decide, rfl⟩
    · exact ⟨[], by simp, (List.append_nil _).symm⟩

theorem base64Encode_letters {data : CString} {c : UInt8} (hc : c ∈ base64Encode data) :
    c ≠ 13 ∧ c ≠ 45 := by
  obtain ⟨pad, hpad, heq⟩ := base64Encode_eq data
  rw [heq, List.mem_append, List.map_map] at hc
  rcases hc with hc | hc
  · obtain ⟨d, hd, rfl⟩ := List.mem_map.mp hc
    have := letters d (mem_b64url_encode hd)
    exact ⟨this.2.1, this.2.2.1⟩
  · rw [hpad c hc]
    decide

theorem decodeBase64_chunks (data : CString) : decodeBase64 (chunks (base64Encode data)) = some data := by
  obtain ⟨pad, hpad, heq⟩ := base64Encode_eq data
  have hpadding : pad.filter (· ≠ 61) = [] :=
    List.filter_eq_nil_iff.mpr fun c hc => by simp [hpad c hc]
  have hletters : (((Encoding.b64url_encode data).map fun c => if c = 45 then 43 else c).map
      fun c => if c = 95 then 47 else c).filter (· ≠ 61) =
        ((Encoding.b64url_encode data).map fun c => if c = 45 then 43 else c).map
          fun c => if c = 95 then 47 else c := by
    refine List.filter_eq_self.mpr fun c hc => ?_
    rw [List.map_map] at hc
    obtain ⟨d, hd, rfl⟩ := List.mem_map.mp hc
    simpa using (letters d (mem_b64url_encode hd)).1
  rw [decodeBase64, flatten_chunks, heq, List.filter_append, hpadding, List.append_nil, hletters,
    List.map_map, List.map_map, List.map_map]
  refine (congrArg Encoding.b64url_decode ?_).trans (Encoding.b64url_decode_encode data)
  exact (List.map_congr_left fun c hc => (letters c (mem_b64url_encode hc)).2.2.2).trans (List.map_id _)

/-! ### The payload line by line -/

/-- The header lines of a message, each with the message's own value. -/
def fieldLines (host : Host) (m : Message) : List CString :=
  [lit "Date: " ++ host.date,
    lit "Message-ID: <" ++ host.stamp ++ lit "@" ++ domain m.sender ++ lit ">",
    lit "From: " ++ m.sender,
    lit "To: " ++ addrList m.recipients] ++
  (if 0 < m.cc.length then [lit "Cc: " ++ addrList m.cc] else []) ++
  [lit "Subject: " ++ m.subject] ++
  (if 0 < m.replyTo.length then [lit "Reply-To: " ++ m.replyTo] else []) ++
  (if 0 < m.priority.length then
    [lit "X-Priority: " ++ m.priority] ++
      (if m.priority = lit "1" then [lit "Importance: High"] else []) ++
      (if m.priority = lit "5" then [lit "Importance: Low"] else [])
  else []) ++
  m.headers.map fun h => h.1 ++ lit ": " ++ h.2

def multipartLine (host : Host) : CString :=
  lit "Content-Type: multipart/mixed; boundary=\"" ++ boundary host ++ lit "\""

/-- The text that is sent, and its type. -/
def content (m : Message) : CString := if 0 < m.htmlBody.length then m.htmlBody else m.textBody

def contentType (m : Message) : CString := if 0 < m.htmlBody.length then htmlType else plainType

def typeLines (host : Host) (m : Message) : List CString :=
  if 0 < m.attachments.length then [lit "MIME-Version: 1.0", multipartLine host]
  else if 0 < m.htmlBody.length then [lit "MIME-Version: 1.0", htmlType]
  else [plainType]

def headerLines (host : Host) (m : Message) : List CString := fieldLines host m ++ typeLines host m

def delimiter (host : Host) : CString := lit "--" ++ boundary host

def nameLine (filePath : CString) : CString :=
  lit "Content-Type: application/octet-stream; name=\"" ++ fileName filePath ++ lit "\""

def dispositionLine (filePath : CString) : CString :=
  lit "Content-Disposition: attachment; filename=\"" ++ fileName filePath ++ lit "\""

def attachmentHead (filePath : CString) : List CString :=
  [nameLine filePath, lit "Content-Transfer-Encoding: base64", dispositionLine filePath]

def fileLines (host : Host) (filePath : CString) : List CString :=
  chunks (base64Encode ((host.readFile filePath).getD []))

/-- The text behind the empty line, in lines that have their ends. -/
def bodyText (host : Host) (m : Message) : CString :=
  if 0 < m.attachments.length then
    unlines ([delimiter host, contentType m, [], content m] ++
      m.attachments.flatMap (fun f => delimiter host :: attachmentHead f ++ [] :: fileLines host f) ++
      [delimiter host ++ lit "--"])
  else unlines [content m]

theorem unlines_append (x y : List CString) : unlines (x ++ y) = unlines x ++ unlines y :=
  List.flatMap_append

theorem unlines_cons (l : CString) (ls : List CString) : unlines (l :: ls) = l ++ crlf ++ unlines ls :=
  List.flatMap_cons

theorem foldl_headers (hs : List (CString × CString)) (payload : CString) :
    hs.foldl (fun payload h => payload ++ h.1 ++ lit ": " ++ h.2 ++ crlf) payload =
      payload ++ unlines (hs.map fun h => h.1 ++ lit ": " ++ h.2) := by
  induction hs generalizing payload with
  | nil => exact (List.append_nil payload).symm
  | cons h hs ih =>
      rw [List.foldl_cons, ih, List.map_cons, unlines_cons]
      simp only [List.append_assoc]

theorem headerText_eq (host : Host) (m : Message) : headerText host m = unlines (fieldLines host m) := by
  rw [headerText, foldl_headers, fieldLines]
  simp only [unlines_append, unlines_cons]
  congr 1
  split_ifs <;> simp only [unlines, List.flatMap_cons, List.flatMap_nil, List.cons_append,
    List.append_assoc, List.append_nil, List.nil_append]

/-- The parts of the attachments, all of which can be read. -/
theorem foldlM_parts {host : Host} {files : List CString} {payload result : CString}
    (h : files.foldlM (fun payload filePath =>
      (buildAttachmentPart host filePath (boundary host)).map (payload ++ ·)) payload = .ok result) :
    (∀ f ∈ files, ∃ bytes, host.readFile f = some bytes) ∧
      result = payload ++ unlines (files.flatMap fun f =>
        delimiter host :: attachmentHead f ++ [] :: fileLines host f) := by
  induction files generalizing payload with
  | nil =>
      cases h
      exact ⟨fun f hf => absurd hf List.not_mem_nil, (List.append_nil _).symm⟩
  | cons f files ih =>
      rw [List.foldlM_cons, buildAttachmentPart] at h
      cases hread : host.readFile f with
      | none =>
          rw [hread] at h
          cases h
      | some bytes =>
          rw [hread] at h
          obtain ⟨hfiles, rfl⟩ := ih h
          refine ⟨List.forall_mem_cons.mpr ⟨⟨bytes, hread⟩, hfiles⟩, ?_⟩
          rw [List.flatMap_cons, unlines_append, fileLines, hread, Option.getD_some, List.cons_append,
            unlines_cons, unlines_append, unlines_cons, ← wrapBase64_eq, attachmentHead, unlines_cons,
            unlines_cons, unlines_cons, delimiter, nameLine, dispositionLine]
          simp only [unlines, List.flatMap_nil, List.append_assoc, List.nil_append]

theorem buildPayload_eq {host : Host} {m : Message} {payload : CString}
    (h : buildPayload host m = .ok payload) :
    (∀ f ∈ m.attachments, ∃ bytes, host.readFile f = some bytes) ∧
      payload = unlines (headerLines host m) ++ (crlf ++ bodyText host m) := by
  rw [buildPayload, headerText_eq] at h
  rw [headerLines, typeLines, bodyText, contentType, content]
  by_cases hattach : 0 < m.attachments.length
  · simp only [if_pos hattach] at h ⊢
    cases hfold : m.attachments.foldlM (fun payload filePath =>
      (buildAttachmentPart host filePath (boundary host)).map (payload ++ ·)) _ with
    | error e =>
        rw [hfold] at h
        cases h
    | ok result =>
        rw [hfold] at h
        obtain ⟨hfiles, rfl⟩ := foldlM_parts hfold
        refine ⟨hfiles, ?_⟩
        rw [← Except.ok.inj h]
        split_ifs <;> simp only [multipartLine, delimiter, unlines, List.flatMap_append, List.flatMap_nil,
          List.flatMap_cons, List.cons_append, List.append_assoc, List.append_nil, List.nil_append]
  · simp only [if_neg hattach] at h ⊢
    have hnone : m.attachments = [] := by
      cases hlist : m.attachments with
      | nil => rfl
      | cons f fs => exact absurd (by rw [hlist]; exact Nat.succ_pos _) hattach
    refine ⟨fun f hf => absurd (hnone ▸ hf) List.not_mem_nil, ?_⟩
    split_ifs at h ⊢ <;> (rw [← Except.ok.inj h]; simp only [unlines, List.flatMap_append,
      List.flatMap_cons, List.flatMap_nil, List.append_assoc, List.append_nil])

end Email

end EZLanguage
