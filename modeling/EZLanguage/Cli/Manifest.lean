import EZLanguage.Runtime.Utf8
import EZLanguage.Support.Search
import Mathlib.Data.List.Infix
import Mathlib.Tactic.Common

/-!
# Rewriting a manifest

`writeManifestDependencies` edits the text of a `package.ez` without parsing it. It looks for the quoted
word and counts braces, or puts the member in front of the last brace. What a manifest is, the grammar of
JSON says.
-/

namespace EZLanguage

namespace PackageManager

open Utf8 Search

/-! ### JSON texts -/

def Blank (s : CString) : Prop := ∀ c ∈ s, c = 32 ∨ c = 9 ∨ c = 10 ∨ c = 13

/-- The letters behind a backslash with what they stand for. -/
def shortEscapes : List (UInt8 × UInt8) :=
  [(34, 34), (92, 92), (47, 47), (98, 8), (102, 12), (110, 10), (114, 13), (116, 9)]

def hexValue (c : UInt8) : Option Nat :=
  if 48 ≤ c ∧ c ≤ 57 then some (c.toNat - 48)
  else if 65 ≤ c ∧ c ≤ 70 then some (c.toNat - 55)
  else if 97 ≤ c ∧ c ≤ 102 then some (c.toNat - 87)
  else none

/-- The code unit of four digits. -/
def HexUnit (digits : CString) (unit : Nat) : Prop :=
  ∃ a b c d, digits.map hexValue = [some a, some b, some c, some d] ∧
    unit = 4096 * a + 256 * b + 16 * c + d

/-- The text between the quotes of a string, and the bytes that it stands for. -/
inductive JsonString : CString → CString → Prop
  | nil : JsonString [] []
  | plain {c : UInt8} {body s : CString} : 32 ≤ c → c ≠ 34 → c ≠ 92 → JsonString body s →
      JsonString (c :: body) (c :: s)
  | short {e c : UInt8} {body s : CString} : (e, c) ∈ shortEscapes → JsonString body s →
      JsonString (92 :: e :: body) (c :: s)
  | unit {digits chars body s : CString} {unit : Nat} : HexUnit digits unit →
      encode (UInt32.ofNat unit) = some chars → JsonString body s →
      JsonString (92 :: 117 :: (digits ++ body)) (chars ++ s)
  | pair {digits digits' chars body s : CString} {high low : Nat} : HexUnit digits (55296 + high) →
      high < 1024 → HexUnit digits' (56320 + low) → low < 1024 →
      encode (UInt32.ofNat (65536 + 1024 * high + low)) = some chars → JsonString body s →
      JsonString (92 :: 117 :: (digits ++ 92 :: 117 :: (digits' ++ body))) (chars ++ s)

def Digits (s : CString) : Prop := s ≠ [] ∧ ∀ c ∈ s, 48 ≤ c ∧ c ≤ 57

def JsonNumber (s : CString) : Prop :=
  ∃ sign whole fraction exponent, s = sign ++ (whole ++ (fraction ++ exponent)) ∧
    (sign = [] ∨ sign = [45]) ∧ Digits whole ∧ (whole = [48] ∨ whole.head? ≠ some 48) ∧
    (fraction = [] ∨ ∃ digits, fraction = 46 :: digits ∧ Digits digits) ∧
    (exponent = [] ∨ ∃ e plus digits, exponent = e :: (plus ++ digits) ∧ (e = 69 ∨ e = 101) ∧
      (plus = [] ∨ plus = [43] ∨ plus = [45]) ∧ Digits digits)

inductive Kind
  | value
  | element
  | member

/-- The texts of values, of array elements and of object members. -/
inductive Json : Kind → CString → Prop
  | word {s : CString} : s = lit "true" ∨ s = lit "false" ∨ s = lit "null" → Json .value s
  | number {s : CString} : JsonNumber s → Json .value s
  | string {body s : CString} : JsonString body s → Json .value (34 :: (body ++ [34]))
  | element {lead value trail : CString} : Blank lead → Json .value value → Blank trail →
      Json .element (lead ++ (value ++ trail))
  | member {lead key s left right value trail : CString} : Blank lead → JsonString key s → Blank left →
      Blank right → Json .value value → Blank trail →
      Json .member (lead ++ 34 :: (key ++ 34 :: ((left ++ 58 :: right) ++ (value ++ trail))))
  | noElements {inner : CString} : Blank inner → Json .value (91 :: (inner ++ [93]))
  | array {elements : List CString} : elements ≠ [] → (∀ text ∈ elements, Json .element text) →
      Json .value (91 :: (Search.join [44] elements ++ [93]))
  | noMembers {inner : CString} : Blank inner → Json .value (123 :: (inner ++ [125]))
  | object {members : List CString} : members ≠ [] → (∀ text ∈ members, Json .member text) →
      Json .value (123 :: (Search.join [44] members ++ [125]))

/-- A member by its parts: `mid` is the colon with the blanks around it. -/
structure Member where
  lead : CString
  key : CString
  mid : CString
  value : CString
  trail : CString
  deriving DecidableEq

namespace Member

def text (m : Member) : CString :=
  m.lead ++ 34 :: (m.key ++ 34 :: (m.mid ++ (m.value ++ m.trail)))

structure Valid (m : Member) : Prop where
  lead : Blank m.lead
  key : ∃ s, JsonString m.key s
  mid : ∃ left right, m.mid = left ++ 58 :: right ∧ Blank left ∧ Blank right
  value : Json .value m.value
  trail : Blank m.trail

theorem Valid.json {m : Member} (hm : m.Valid) : Json .member m.text := by
  obtain ⟨s, hkey⟩ := hm.key
  obtain ⟨left, right, hmid, hleft, hright⟩ := hm.mid
  rw [text, hmid]
  exact Json.member hm.lead hkey hleft hright hm.value hm.trail

end Member

/-- The text of an object. An object without members may have blanks inside. -/
def objectText (inner : CString) (members : List Member) : CString :=
  123 :: ((if members = [] then inner else Search.join [44] (members.map Member.text)) ++ [125])

/-- A manifest by its parts: blanks, an object and blanks. -/
structure Manifest where
  head : CString
  inner : CString
  members : List Member
  tail : CString

namespace Manifest

def text (m : Manifest) : CString := m.head ++ (objectText m.inner m.members ++ m.tail)

structure Valid (m : Manifest) : Prop where
  head : Blank m.head
  inner : Blank m.inner
  members : ∀ member ∈ m.members, member.Valid
  tail : Blank m.tail

end Manifest

theorem objectText_json {inner : CString} {members : List Member} (hinner : Blank inner)
    (hmembers : ∀ member ∈ members, member.Valid) : Json .value (objectText inner members) := by
  rw [objectText]
  split_ifs with hempty
  · exact Json.noMembers hinner
  · apply Json.object
    · exact fun h => hempty (List.map_eq_nil_iff.mp h)
    · intro text htext
      obtain ⟨member, hmem, rfl⟩ := List.mem_map.mp htext
      exact (hmembers member hmem).json

/-! ### The edit -/

def hexDigit (n : Nat) : UInt8 := if n < 10 then UInt8.ofNat (48 + n) else UInt8.ofNat (87 + n)

def jsonEscapeByte (c : UInt8) : CString :=
  if c = 34 then [92, 34]
  else if c = 92 then [92, 92]
  else if c = 10 then [92, 110]
  else if c = 13 then [92, 114]
  else if c = 9 then [92, 116]
  else if c < 32 then [92, 117, 48, 48, hexDigit (c.toNat / 16), hexDigit (c.toNat % 16)]
  else [c]

def jsonEscape (s : CString) : CString := s.flatMap jsonEscapeByte

/-- `"dependencies"` with its quotes. -/
def quotedWord : CString := 34 :: (lit "dependencies" ++ [34])

def blockEntries : Bool → List (CString × CString) → CString
  | _, [] => []
  | isFirst, (name, range) :: deps =>
      (if isFirst = true then [10] else [44, 10]) ++
        (lit "    \"" ++ (jsonEscape name ++ (lit "\": \"" ++ (jsonEscape range ++ [34])))) ++
        blockEntries false deps

/-- The object that is written for the dependencies. -/
def blockValue (deps : List (CString × CString)) : CString :=
  123 :: (blockEntries true deps ++ (if deps = [] then [125] else lit "\n  \x7d"))

def block (deps : List (CString × CString)) : CString := quotedWord ++ (lit ": " ++ blockValue deps)

/-- The loop over the braces: where the depth falls to zero. -/
def closeBrace : Int → Nat → CString → Option Nat
  | _, _, [] => none
  | depth, i, c :: rest =>
      if c = 123 then closeBrace (depth + 1) (i + 1) rest
      else if c = 125 then
        if depth - 1 = 0 then some i else closeBrace (depth - 1) (i + 1) rest
      else closeBrace depth (i + 1) rest

example : closeBrace 1 0 [125] = some 0 := by simp [closeBrace]

/-- `rfind`. -/
def lastPlace (c : UInt8) (text : CString) : Option Nat :=
  (text.reverse.findIdx? (· = c)).map fun i => text.length - 1 - i

def isBlankByte (c : UInt8) : Bool := c == 32 || c == 9 || c == 13 || c == 10

/-- The byte that `find_last_not_of` finds. -/
def lastNotBlank (text : CString) : Option UInt8 := (text.reverse.dropWhile isBlankByte).head?

/-- The text that is written, if there is one. -/
def writeManifestDependencies (text : CString) (deps : List (CString × CString)) : Option CString :=
  if text = [] then some (lit "\x7b\n  " ++ (block deps ++ lit "\n\x7d\n"))
  else
    match find quotedWord text 0 with
    | none =>
        match lastPlace 125 text with
        | none => none
        | some lastBrace =>
            -- in front of the first byte there is nothing to stop at, and the search goes through all
            let before := lastNotBlank (if lastBrace = 0 then text else text.take lastBrace)
            let sep := if before = some 123 then lit "\n  " else lit ",\n  "
            some (text.take lastBrace ++ (sep ++ (block deps ++ 10 :: text.drop lastBrace)))
    | some start =>
        match find [123] text start with
        | none => none
        | some opened =>
            let close := (closeBrace 0 opened (text.drop opened)).getD opened
            some (text.take start ++ (block deps ++ text.drop (close + 1)))

/-! ### What is written is JSON -/

theorem hexDigit_spec : ∀ n < 16, hexValue (hexDigit n) = some n ∧ hexDigit n ≠ 123 ∧
    hexDigit n ≠ 125 := by
  decide

theorem encode_control : ∀ n < 32, encode (UInt32.ofNat n) = some [UInt8.ofNat n] := by
  decide

theorem JsonString.escaped (s : CString) : JsonString (jsonEscape s) s := by
  induction s with
  | nil => exact JsonString.nil
  | cons c s ih =>
      rw [jsonEscape, List.flatMap_cons]
      rw [jsonEscape] at ih
      unfold jsonEscapeByte
      split_ifs with hquote hslash hfeed hreturn htab hcontrol
      · rw [hquote]
        exact JsonString.short (by decide) ih
      · rw [hslash]
        exact JsonString.short (by decide) ih
      · rw [hfeed]
        exact JsonString.short (by decide) ih
      · rw [hreturn]
        exact JsonString.short (by decide) ih
      · rw [htab]
        exact JsonString.short (by decide) ih
      · have hlow : c.toNat < 32 := hcontrol
        have hunit : HexUnit [48, 48, hexDigit (c.toNat / 16), hexDigit (c.toNat % 16)] c.toNat := by
          refine ⟨0, 0, c.toNat / 16, c.toNat % 16, ?_, by omega⟩
          rw [List.map_cons, List.map_cons, List.map_cons, List.map_cons, List.map_nil,
            (hexDigit_spec (c.toNat / 16) (by omega)).1, (hexDigit_spec (c.toNat % 16) (by omega)).1]
          rfl
        have hchars := encode_control c.toNat hlow
        rw [UInt8.ofNat_toNat] at hchars
        exact JsonString.unit hunit hchars ih
      · apply JsonString.plain _ hquote hslash ih
        rw [UInt8.le_iff_toNat_le]
        have hhigh : ¬ c.toNat < 32 := hcontrol
        show 32 ≤ c.toNat
        omega

/-- The members that stand in a block. -/
def blockMembers : List (CString × CString) → List Member
  | [] => []
  | (name, range) :: deps =>
      { lead := lit "\n    ", key := jsonEscape name, mid := lit ": "
        value := 34 :: (jsonEscape range ++ [34]), trail := if deps = [] then lit "\n  " else [] } ::
        blockMembers deps

example : blockMembers [] = [] := by rw [blockMembers]

theorem blank_of_all {s : CString} (hs : s.all isBlankByte = true) : Blank s := by
  intro c hc
  have hblank := List.all_eq_true.mp hs c hc
  rw [isBlankByte, Bool.or_eq_true, Bool.or_eq_true, Bool.or_eq_true, beq_iff_eq, beq_iff_eq,
    beq_iff_eq, beq_iff_eq] at hblank
  tauto

theorem colon_valid : ∃ left right, lit ": " = left ++ 58 :: right ∧ Blank left ∧ Blank right :=
  ⟨[], [32], rfl, blank_of_all rfl, blank_of_all rfl⟩

theorem blockMembers_valid (deps : List (CString × CString)) :
    ∀ member ∈ blockMembers deps, member.Valid := by
  induction deps with
  | nil => exact fun member hmem => absurd hmem List.not_mem_nil
  | cons entry deps ih =>
      intro member hmem
      rcases List.mem_cons.mp hmem with rfl | hlater
      · constructor
        · exact blank_of_all rfl
        · exact ⟨_, JsonString.escaped entry.1⟩
        · exact colon_valid
        · exact Json.string (JsonString.escaped entry.2)
        · dsimp only
          split_ifs
          · exact blank_of_all rfl
          · exact blank_of_all rfl
      · exact ih member hlater

theorem blockEntries_false {deps : List (CString × CString)} (hdeps : deps ≠ []) :
    blockEntries false deps = 44 :: blockEntries true deps := by
  cases deps with
  | nil => exact absurd rfl hdeps
  | cons entry deps => rfl

theorem blockMembers_ne_nil {deps : List (CString × CString)} (hdeps : deps ≠ []) :
    blockMembers deps ≠ [] := by
  cases deps with
  | nil => exact absurd rfl hdeps
  | cons entry deps => exact List.cons_ne_nil _ _

theorem join_blockMembers {deps : List (CString × CString)} (hdeps : deps ≠ []) :
    Search.join [44] ((blockMembers deps).map Member.text) = blockEntries true deps ++ lit "\n  " := by
  have hindent : lit "\n    " = 10 :: lit "    " := rfl
  have hcolon : lit "\": \"" = 34 :: (lit ": " ++ [34]) := rfl
  have hquote : lit "    \"" = lit "    " ++ [34] := rfl
  induction deps with
  | nil => exact absurd rfl hdeps
  | cons entry deps ih =>
      rw [blockMembers, List.map_cons, blockEntries, if_pos rfl, hcolon, hquote]
      by_cases hlast : deps = []
      · rw [if_pos hlast, hlast, blockMembers, List.map_nil, Search.join, List.flatMap_nil, blockEntries,
          Member.text, hindent]
        simp only [List.append_assoc, List.cons_append, List.nil_append, List.append_nil]
      · have hmore : (blockMembers deps).map Member.text ≠ [] :=
          fun h => blockMembers_ne_nil hlast (List.map_eq_nil_iff.mp h)
        rw [if_neg hlast, join_cons _ _ hmore, ih hlast, blockEntries_false hlast, Member.text, hindent]
        simp only [List.append_assoc, List.cons_append, List.nil_append, List.append_nil]

theorem blockValue_eq (deps : List (CString × CString)) :
    blockValue deps = objectText [] (blockMembers deps) := by
  rw [blockValue, objectText]
  by_cases hdeps : deps = []
  · rw [if_pos hdeps, hdeps]
    rfl
  · rw [if_neg hdeps, if_neg (blockMembers_ne_nil hdeps), join_blockMembers hdeps, List.append_assoc]
    rfl

/-- A member is the one of a name and its range. -/
def Stands (entry : CString × CString) (member : Member) : Prop :=
  JsonString member.key entry.1 ∧ ∃ body, member.value = 34 :: (body ++ [34]) ∧ JsonString body entry.2

/-- A value is the text of an object with these members, one for each entry of a map. -/
def HoldsMap (deps : List (CString × CString)) (value : CString) : Prop :=
  ∃ inner members, value = objectText inner members ∧ (∀ member ∈ members, member.Valid) ∧
    List.Forall₂ Stands deps members

theorem blockValue_holds (deps : List (CString × CString)) : HoldsMap deps (blockValue deps) := by
  refine ⟨[], blockMembers deps, blockValue_eq deps, blockMembers_valid deps, ?_⟩
  induction deps with
  | nil => exact List.Forall₂.nil
  | cons entry deps ih =>
      apply List.Forall₂.cons _ ih
      exact ⟨JsonString.escaped entry.1, _, rfl, JsonString.escaped entry.2⟩

theorem blockValue_json (deps : List (CString × CString)) : Json .value (blockValue deps) := by
  rw [blockValue_eq]
  exact objectText_json (blank_of_all rfl) (blockMembers_valid deps)

/-! ### Counting braces -/

theorem closeBrace_shift (depth : Int) (i k : Nat) (s : CString) :
    closeBrace depth (i + k) s = (closeBrace depth i s).map (· + k) := by
  induction s generalizing depth i with
  | nil => rfl
  | cons c s ih =>
      have hnext := fun depth => ih depth (i + 1)
      rw [closeBrace, closeBrace, Nat.add_right_comm]
      split_ifs
      · exact hnext _
      · rfl
      · exact hnext _
      · exact hnext _

theorem closeBrace_append {depth : Int} {i k : Nat} {s : CString} (t : CString)
    (h : closeBrace depth i s = some k) : closeBrace depth i (s ++ t) = some k := by
  induction s generalizing depth i with
  | nil => cases h
  | cons c s ih =>
      rw [List.cons_append, closeBrace]
      rw [closeBrace] at h
      split_ifs at h ⊢
      · exact ih h
      · exact h
      · exact ih h
      · exact ih h

/-- A text without braces is passed over. -/
theorem closeBrace_plain {s : CString} (hopen : 123 ∉ s) (hclose : 125 ∉ s) (depth : Int) (i : Nat)
    (t : CString) : closeBrace depth i (s ++ t) = closeBrace depth (i + s.length) t := by
  induction s generalizing i with
  | nil => rfl
  | cons c s ih =>
      rw [List.mem_cons, not_or] at hopen hclose
      rw [List.cons_append, closeBrace, if_neg (Ne.symm hopen.1), if_neg (Ne.symm hclose.1),
        ih hopen.2 hclose.2, List.length_cons, Nat.add_right_comm, Nat.add_assoc]

/-- The depth falls to zero at the end of a value and not before. -/
def Balanced (value : CString) : Prop :=
  value.head? = some 123 ∧ closeBrace 0 0 value = some (value.length - 1)

def Braceless (s : CString) : Prop := 123 ∉ s ∧ 125 ∉ s

theorem jsonEscape_braceless {s : CString} (hs : Braceless s) : Braceless (jsonEscape s) := by
  have hbyte : ∀ c : UInt8, c ≠ 123 → c ≠ 125 → Braceless (jsonEscapeByte c) := by
    intro c hopen hclose
    unfold jsonEscapeByte
    split_ifs with _ _ _ _ _ hcontrol
    · exact ⟨by decide, by decide⟩
    · exact ⟨by decide, by decide⟩
    · exact ⟨by decide, by decide⟩
    · exact ⟨by decide, by decide⟩
    · exact ⟨by decide, by decide⟩
    · have hlow : c.toNat < 32 := hcontrol
      obtain ⟨_, hhigh⟩ := hexDigit_spec (c.toNat / 16) (by omega)
      obtain ⟨_, hunit⟩ := hexDigit_spec (c.toNat % 16) (by omega)
      constructor
      · simp [hhigh.1.symm, hunit.1.symm]
      · simp [hhigh.2.symm, hunit.2.symm]
    · exact ⟨by simpa using Ne.symm hopen, by simpa using Ne.symm hclose⟩
  constructor
  · intro hmem
    obtain ⟨c, hc, hin⟩ := List.mem_flatMap.mp hmem
    exact (hbyte c (fun h => hs.1 (h ▸ hc)) (fun h => hs.2 (h ▸ hc))).1 hin
  · intro hmem
    obtain ⟨c, hc, hin⟩ := List.mem_flatMap.mp hmem
    exact (hbyte c (fun h => hs.1 (h ▸ hc)) (fun h => hs.2 (h ▸ hc))).2 hin

theorem Braceless.append {s t : CString} (hs : Braceless s) (ht : Braceless t) :
    Braceless (s ++ t) := by
  constructor
  · rw [List.mem_append, not_or]
    exact ⟨hs.1, ht.1⟩
  · rw [List.mem_append, not_or]
    exact ⟨hs.2, ht.2⟩

theorem blockEntries_braceless {deps : List (CString × CString)}
    (hdeps : ∀ entry ∈ deps, Braceless entry.1 ∧ Braceless entry.2) (isFirst : Bool) :
    Braceless (blockEntries isFirst deps) := by
  induction deps generalizing isFirst with
  | nil => exact ⟨List.not_mem_nil, List.not_mem_nil⟩
  | cons entry deps ih =>
      obtain ⟨hname, hrange⟩ := hdeps entry List.mem_cons_self
      rw [blockEntries]
      apply Braceless.append
      · apply Braceless.append
        · split_ifs
          · exact ⟨by decide, by decide⟩
          · exact ⟨by decide, by decide⟩
        · apply Braceless.append ⟨by decide, by decide⟩
          apply Braceless.append (jsonEscape_braceless hname)
          apply Braceless.append ⟨by decide, by decide⟩
          exact Braceless.append (jsonEscape_braceless hrange) ⟨by decide, by decide⟩
      · exact ih (fun later hlater => hdeps later (List.mem_cons_of_mem _ hlater)) false

theorem blockValue_balanced {deps : List (CString × CString)}
    (hdeps : ∀ entry ∈ deps, Braceless entry.1 ∧ Braceless entry.2) : Balanced (blockValue deps) := by
  have hentries := blockEntries_braceless hdeps true
  refine ⟨rfl, ?_⟩
  rw [blockValue, closeBrace, if_pos rfl]
  by_cases hempty : deps = []
  · rw [hempty]
    rfl
  · have hend : lit "\n  \x7d" = lit "\n  " ++ [125] := rfl
    have hall := hentries.append (t := lit "\n  ") ⟨by decide, by decide⟩
    have hlast : ∀ i, closeBrace (0 + 1) i [125] = some i := fun _ => rfl
    rw [if_neg hempty, hend, ← List.append_assoc, closeBrace_plain hall.1 hall.2, hlast]
    apply congrArg some
    simp only [List.length_cons, List.length_append, List.length_nil]
    omega

/-! ### Where the word stands -/

/-- What stands behind the first place of a part does not matter. -/
theorem first_transfer {front part back back' : CString}
    (h : first part (front ++ (part ++ back)) = some front.length) :
    first part (front ++ (part ++ back')) = some front.length := by
  obtain ⟨_, _, hleast⟩ := (first_eq_some_iff _ _ _).mp h
  apply (first_eq_some_iff _ _ _).mpr
  refine ⟨by simp, ?_, ?_⟩
  · rw [List.drop_left]
    exact List.prefix_append _ _
  · intro j hj hstart
    apply hleast j hj
    have hlong : ∀ t : CString, (front ++ (part ++ t)).drop j = (front ++ part).drop j ++ t := by
      intro t
      rw [← List.append_assoc, List.drop_append_of_le_length (by rw [List.length_append]; omega)]
    rw [hlong] at hstart ⊢
    have hinside : part <+: (front ++ part).drop j := by
      apply List.prefix_of_prefix_length_le hstart (List.prefix_append _ _)
      rw [List.length_drop, List.length_append]
      omega
    exact hinside.trans (List.prefix_append _ _)

/-- A part behind a separator whose bytes it does not have is found there first. -/
theorem first_separated {front sep part : CString} (hfront : ¬ part <:+: front) (hsep : sep ≠ [])
    (hplain : ∀ c ∈ sep, c ∉ part) (hpart : part ≠ []) (back : CString) :
    first part ((front ++ sep) ++ (part ++ back)) = some (front ++ sep).length := by
  apply (first_eq_some_iff _ _ _).mpr
  refine ⟨by simp, ?_, ?_⟩
  · rw [List.drop_left]
    exact List.prefix_append _ _
  · intro j hj hstart
    rw [List.append_assoc] at hstart
    rw [List.length_append] at hj
    by_cases hin : front.length ≤ j
    · -- the part would begin in the separator
      obtain ⟨k, rfl⟩ := Nat.exists_eq_add_of_le hin
      have hk : k < sep.length := by omega
      rw [List.drop_length_add_append, List.drop_append_of_le_length (Nat.le_of_lt hk),
        List.drop_eq_getElem_cons hk] at hstart
      obtain ⟨c, rest, rfl⟩ := List.exists_cons_of_ne_nil hpart
      rw [List.cons_append, List.cons_prefix_cons] at hstart
      apply hplain sep[k] (List.getElem_mem hk)
      rw [← hstart.1]
      exact List.mem_cons_self
    · rw [List.drop_append_of_le_length (by omega)] at hstart
      by_cases hshort : part.length ≤ (front.drop j).length
      · apply hfront
        have hinside := List.prefix_of_prefix_length_le hstart (List.prefix_append _ _) hshort
        exact hinside.isInfix.trans (List.drop_suffix j front).isInfix
      · -- the part would go on into the separator
        obtain ⟨c, rest, rfl⟩ := List.exists_cons_of_ne_nil hsep
        obtain ⟨after, hafter⟩ := hstart
        have hget : part[(front.drop j).length]? = some c := by
          have hboth := congrArg (fun l => l[(front.drop j).length]?) hafter
          rw [List.getElem?_append_left (by omega), List.getElem?_append_right (Nat.le_refl _),
            Nat.sub_self] at hboth
          exact hboth
        exact hplain c List.mem_cons_self (List.mem_of_getElem? hget)

theorem lastPlace_append {c : UInt8} (front : CString) {back : CString} (hback : c ∉ back) :
    lastPlace c (front ++ c :: back) = some front.length := by
  have hreverse : (front ++ c :: back).reverse = back.reverse ++ c :: front.reverse := by simp
  have hfound : (back.reverse ++ c :: front.reverse).findIdx? (· = c) = some back.length := by
    rw [List.findIdx?_append, List.findIdx?_eq_none_iff.mpr, List.findIdx?_cons, if_pos (by simp)]
    · simp
    · intro x hx
      rw [decide_eq_false_iff_not]
      rintro rfl
      exact hback (List.mem_reverse.mp hx)
  rw [lastPlace, hreverse, hfound, Option.map_some, List.length_append, List.length_cons]
  apply congrArg some
  omega

theorem lastNotBlank_append (front : CString) {c : UInt8} (hc : isBlankByte c = false)
    {back : CString} (hback : Blank back) : lastNotBlank (front ++ c :: back) = some c := by
  have hreverse : (front ++ c :: back).reverse = back.reverse ++ c :: front.reverse := by simp
  have hall : ∀ x ∈ back.reverse, isBlankByte x = true := by
    intro x hx
    rcases hback x (List.mem_reverse.mp hx) with rfl | rfl | rfl | rfl
    · rfl
    · rfl
    · rfl
    · rfl
  rw [lastNotBlank, hreverse, List.dropWhile_append_of_pos hall,
    List.dropWhile_cons_of_neg (by rw [hc]; exact Bool.false_ne_true)]
  rfl

/-- A text that ends in a byte that is no blank and opens no brace. -/
def Ends (s : CString) : Prop := ∃ front c, s = front ++ [c] ∧ isBlankByte c = false ∧ c ≠ 123

theorem Ends.append (front : CString) {s : CString} (hs : Ends s) : Ends (front ++ s) := by
  obtain ⟨start, c, rfl, hc⟩ := hs
  exact ⟨front ++ start, c, (List.append_assoc _ _ _).symm, hc⟩

theorem Digits.ends {s : CString} (hs : Digits s) : Ends s := by
  obtain ⟨hne, hdigit⟩ := hs
  refine ⟨s.dropLast, s.getLast hne, (List.dropLast_append_getLast hne).symm, ?_⟩
  have hlast := hdigit _ (List.getLast_mem hne)
  have hlow : 48 ≤ (s.getLast hne).toNat := hlast.1
  have hhigh : (s.getLast hne).toNat ≤ 57 := hlast.2
  have hother : ∀ c : UInt8, c.toNat < 48 ∨ 57 < c.toNat → s.getLast hne ≠ c := by
    intro c hc heq
    rw [heq] at hlow hhigh
    omega
  refine ⟨?_, hother 123 (by decide)⟩
  rw [isBlankByte, beq_eq_false_iff_ne.mpr (hother 32 (by decide)),
    beq_eq_false_iff_ne.mpr (hother 9 (by decide)), beq_eq_false_iff_ne.mpr (hother 13 (by decide)),
    beq_eq_false_iff_ne.mpr (hother 10 (by decide))]
  rfl

theorem JsonNumber.ends {s : CString} (hs : JsonNumber s) : Ends s := by
  obtain ⟨sign, whole, fraction, exponent, rfl, _, hwhole, _, hfraction, hexponent⟩ := hs
  apply Ends.append
  rcases hexponent with rfl | ⟨e, plus, digits, rfl, _, _, hdigits⟩
  · rw [List.append_nil]
    rcases hfraction with rfl | ⟨digits, rfl, hdigits⟩
    · rw [List.append_nil]
      exact hwhole.ends
    · exact (hdigits.ends.append [46]).append whole
  · exact (((hdigits.ends.append plus).append [e]).append fraction).append whole

theorem Json.value_ends {s : CString} (hs : Json .value s) : Ends s := by
  cases hs with
  | word h =>
      rcases h with rfl | rfl | rfl
      · exact ⟨lit "tru", 101, rfl, rfl, by decide⟩
      · exact ⟨lit "fals", 101, rfl, rfl, by decide⟩
      · exact ⟨lit "nul", 108, rfl, rfl, by decide⟩
  | number h => exact h.ends
  | string => exact ⟨34 :: _, 34, rfl, rfl, by decide⟩
  | noElements => exact ⟨91 :: _, 93, rfl, rfl, by decide⟩
  | array => exact ⟨91 :: _, 93, rfl, rfl, by decide⟩
  | noMembers => exact ⟨123 :: _, 125, rfl, rfl, by decide⟩
  | object => exact ⟨123 :: _, 125, rfl, rfl, by decide⟩

/-! ### The text that is written -/

theorem quotedWord_ne_nil : quotedWord ≠ [] := List.cons_ne_nil _ _

theorem find_zero (part s : CString) : find part s 0 = first part s := by
  rw [find, if_pos (Nat.zero_le _), List.drop_zero]
  cases first part s with
  | none => rfl
  | some i => exact congrArg some (Nat.zero_add i)

/-- With the word in front of an object, everything up to the closing brace is replaced. -/
theorem write_word {front mid value back : CString} (deps : List (CString × CString))
    (hfirst : first quotedWord (front ++ (quotedWord ++ (mid ++ (value ++ back)))) = some front.length)
    (hmid : 123 ∉ mid) (hvalue : value.head? = some 123) :
    writeManifestDependencies (front ++ (quotedWord ++ (mid ++ (value ++ back)))) deps =
      some (front ++ (block deps ++
        (value ++ back).drop (((closeBrace 0 0 (value ++ back)).getD 0) + 1))) := by
  obtain ⟨inner, rfl⟩ : ∃ inner, value = 123 :: inner := by
    cases value with
    | nil => cases hvalue
    | cons c inner => exact ⟨inner, by rw [Option.some.inj hvalue]⟩
  have hne : front ++ (quotedWord ++ (mid ++ (123 :: inner ++ back))) ≠ [] :=
    List.append_ne_nil_of_right_ne_nil _
      (List.append_ne_nil_of_left_ne_nil quotedWord_ne_nil _)
  have hopen : find [123] (front ++ (quotedWord ++ (mid ++ (123 :: inner ++ back)))) front.length =
      some ((quotedWord ++ mid).length + front.length) := by
    have hplain : ∀ x ∈ quotedWord ++ mid, ([123] : CString).head? ≠ some x := by
      intro x hx hhead
      obtain rfl : 123 = x := Option.some.inj hhead
      rcases List.mem_append.mp hx with hx | hx
      · exact absurd hx (by decide)
      · exact hmid hx
    have hplace := @first_append _ _ [123] (List.cons_ne_nil _ _) (quotedWord ++ mid) hplain
      (inner ++ back)
    rw [List.append_assoc] at hplace
    rw [find, if_pos (by simp), List.drop_left, Nat.add_comm (quotedWord ++ mid).length]
    exact congrArg (Option.map (front.length + ·)) hplace
  have hdrop : ∀ k, (front ++ (quotedWord ++ (mid ++ (123 :: inner ++ back)))).drop
      ((quotedWord ++ mid).length + front.length + k) = (123 :: inner ++ back).drop k := by
    intro k
    rw [Nat.add_comm (quotedWord ++ mid).length, Nat.add_assoc, List.drop_length_add_append,
      ← List.append_assoc quotedWord, List.drop_length_add_append]
  have hstart := hdrop 0
  rw [Nat.add_zero, List.drop_zero] at hstart
  have hcount := closeBrace_shift 0 0 ((quotedWord ++ mid).length + front.length) (123 :: inner ++ back)
  rw [Nat.zero_add] at hcount
  rw [writeManifestDependencies, if_neg hne, find_zero, hfirst]
  dsimp only
  rw [hopen]
  dsimp only
  rw [hstart, hcount, List.take_left]
  have hclose : ((closeBrace 0 0 (123 :: inner ++ back)).map
      (· + ((quotedWord ++ mid).length + front.length))).getD
        ((quotedWord ++ mid).length + front.length) + 1 =
      (quotedWord ++ mid).length + front.length +
        ((closeBrace 0 0 (123 :: inner ++ back)).getD 0 + 1) := by
    cases closeBrace 0 0 (123 :: inner ++ back) with
    | none =>
        rw [Option.map_none, Option.getD_none, Option.getD_none]
    | some k =>
        rw [Option.map_some, Option.getD_some, Option.getD_some]
        omega
  rw [hclose, hdrop]

theorem write_balanced {front mid value back : CString} (deps : List (CString × CString))
    (hfirst : first quotedWord (front ++ (quotedWord ++ (mid ++ (value ++ back)))) = some front.length)
    (hmid : 123 ∉ mid) (hvalue : Balanced value) :
    writeManifestDependencies (front ++ (quotedWord ++ (mid ++ (value ++ back)))) deps =
      some (front ++ (block deps ++ back)) := by
  have hpos : 0 < value.length := by
    apply List.length_pos_iff.mpr
    rintro rfl
    cases hvalue.1
  have hlast : value.length - 1 + 1 = value.length := by omega
  rw [write_word deps hfirst hmid hvalue.1, closeBrace_append back hvalue.2, Option.getD_some, hlast,
    List.drop_left]

theorem closeBrace_lt {depth : Int} {i k : Nat} {s : CString} (h : closeBrace depth i s = some k) :
    k < i + s.length := by
  induction s generalizing depth i with
  | nil => cases h
  | cons c s ih =>
      rw [closeBrace] at h
      rw [List.length_cons]
      split_ifs at h
      · have hlater := ih h
        omega
      · have heq := Option.some.inj h
        omega
      · have hlater := ih h
        omega
      · have hlater := ih h
        omega

/-- A brace that closes inside the first text closes there alone. -/
theorem closeBrace_of_append {depth : Int} {i k : Nat} {s t : CString}
    (h : closeBrace depth i (s ++ t) = some k) (hk : k < i + s.length) :
    closeBrace depth i s = some k := by
  have hafter : ∀ (u : CString) (depth : Int) (i k : Nat), closeBrace depth i u = some k → i ≤ k := by
    intro u
    induction u with
    | nil =>
        intro depth i k h
        cases h
    | cons c u ih =>
        intro depth i k h
        rw [closeBrace] at h
        split_ifs at h
        · exact Nat.le_of_succ_le (ih _ _ _ h)
        · rw [Option.some.inj h]
        · exact Nat.le_of_succ_le (ih _ _ _ h)
        · exact Nat.le_of_succ_le (ih _ _ _ h)
  induction s generalizing depth i with
  | nil =>
      have hle := hafter _ _ _ _ h
      rw [List.length_nil] at hk
      omega
  | cons c s ih =>
      rw [List.length_cons] at hk
      rw [List.cons_append, closeBrace] at h
      rw [closeBrace]
      split_ifs at h ⊢
      · exact ih h (by omega)
      · exact h
      · exact ih h (by omega)
      · exact ih h (by omega)

/-- Writing once more keeps the text exactly when the braces of the block balance. -/
theorem write_again_iff {front back : CString} (deps : List (CString × CString))
    (hfirst : first quotedWord (front ++ (block deps ++ back)) = some front.length) :
    writeManifestDependencies (front ++ (block deps ++ back)) deps =
      some (front ++ (block deps ++ back)) ↔ Balanced (blockValue deps) := by
  have hblock : block deps ++ back = quotedWord ++ (lit ": " ++ (blockValue deps ++ back)) := by
    rw [block, List.append_assoc, List.append_assoc]
  rw [hblock] at hfirst
  have hlong : 2 ≤ (blockValue deps).length := by
    rw [blockValue, List.length_cons, List.length_append]
    split_ifs
    · exact Nat.le_add_left 2 _
    · have hend : (lit "\n  \x7d").length = 4 := rfl
      omega
  constructor
  · intro h
    rw [hblock, write_word deps hfirst (by decide) rfl] at h
    have hsame := List.append_cancel_left (Option.some.inj h)
    have hdrop : (blockValue deps ++ back).drop
        ((closeBrace 0 0 (blockValue deps ++ back)).getD 0 + 1) = back := by
      rw [← hblock] at hsame
      exact List.append_cancel_left hsame
    have hlength := congrArg List.length hdrop
    rw [List.length_drop, List.length_append] at hlength
    refine ⟨rfl, ?_⟩
    cases hclose : closeBrace 0 0 (blockValue deps ++ back) with
    | none =>
        rw [hclose, Option.getD_none] at hlength
        omega
    | some k =>
        have hinside := closeBrace_lt hclose
        rw [List.length_append] at hinside
        rw [hclose, Option.getD_some] at hlength
        rw [closeBrace_of_append hclose (by omega)]
        apply congrArg some
        omega
  · intro h
    rw [hblock, write_balanced deps hfirst (by decide) h, hblock]

/-! ### The members of the written text -/

theorem join_middle (glue : CString) (pre : List CString) (text : CString) (post : List CString) :
    Search.join glue (pre ++ text :: post) =
      pre.flatMap (· ++ glue) ++ (text ++ post.flatMap (glue ++ ·)) := by
  induction pre with
  | nil => rfl
  | cons first pre ih =>
      have hne : pre ++ text :: post ≠ [] := List.append_ne_nil_of_right_ne_nil _ (List.cons_ne_nil _ _)
      rw [List.cons_append, join_cons _ _ hne, ih, List.flatMap_cons, List.append_assoc,
        List.append_assoc, List.append_assoc]

theorem join_snoc (glue : CString) {texts : List CString} (hne : texts ≠ []) (text : CString) :
    Search.join glue (texts ++ [text]) = Search.join glue texts ++ (glue ++ text) := by
  obtain ⟨first, rest, rfl⟩ := List.exists_cons_of_ne_nil hne
  rw [List.cons_append, Search.join, Search.join, List.flatMap_append, List.flatMap_cons, List.flatMap_nil,
    List.append_nil, List.append_assoc]

/-- The text in front of the word of a member, and behind its value. -/
def frontOf (m : Manifest) (pre : List Member) (d : Member) : CString :=
  m.head ++ 123 :: ((pre.map Member.text).flatMap (· ++ [44]) ++ d.lead)

def backOf (m : Manifest) (d : Member) (post : List Member) : CString :=
  d.trail ++ ((post.map Member.text).flatMap ([44] ++ ·) ++ ([125] ++ m.tail))

theorem text_middle {m : Manifest} {pre post : List Member} {d : Member}
    (hmembers : m.members = pre ++ d :: post) (hkey : d.key = lit "dependencies") :
    m.text = frontOf m pre d ++ (quotedWord ++ (d.mid ++ (d.value ++ backOf m d post))) := by
  have hne : m.members ≠ [] := by
    rw [hmembers]
    exact List.append_ne_nil_of_right_ne_nil _ (List.cons_ne_nil _ _)
  rw [Manifest.text, objectText, if_neg hne, hmembers, List.map_append, List.map_cons, join_middle,
    Member.text, hkey, frontOf, backOf, quotedWord]
  simp only [List.append_assoc, List.cons_append, List.nil_append]

/-- The key of a member stands for the word. -/
def Names (member : Member) : Prop := JsonString member.key (lit "dependencies")

/-- The manifest has one member for the dependencies, the map, and the other members and all the texts
around them are the ones of `m`. -/
def Rewritten (m : Manifest) (deps : List (CString × CString)) (result : CString) : Prop :=
  ∃ m' : Manifest, m'.Valid ∧ m'.text = result ∧ m'.head = m.head ∧ m'.tail = m.tail ∧
    ∃ pre d post, m'.members = pre ++ d :: post ∧ d.key = lit "dependencies" ∧ HoldsMap deps d.value ∧
      (∀ other ∈ pre ++ post, ¬ Names other) ∧
      (m.members = pre ++ post ∨ ∃ old, m.members = pre ++ old :: post ∧ old.key = d.key)

/-- The manifests that the search understands: the quoted word stands nowhere, or first as the key of a
member whose value is an object in which the braces balance. -/
inductive Safe (m : Manifest) : Prop
  | absent : ¬ quotedWord <:+: m.text → (∀ other ∈ m.members, ¬ Names other) → Safe m
  | present {pre post : List Member} {d : Member} : m.members = pre ++ d :: post →
      d.key = lit "dependencies" → (∀ other ∈ pre ++ post, ¬ Names other) →
      first quotedWord m.text = some (frontOf m pre d).length → Balanced d.value → Safe m

theorem Blank.not_mem {s : CString} (hs : Blank s) {c : UInt8}
    (hc : c ≠ 32 ∧ c ≠ 9 ∧ c ≠ 10 ∧ c ≠ 13) : c ∉ s := by
  intro hmem
  rcases hs c hmem with h | h | h | h
  · exact hc.1 h
  · exact hc.2.1 h
  · exact hc.2.2.1 h
  · exact hc.2.2.2 h

theorem Blank.append {s t : CString} (hs : Blank s) (ht : Blank t) : Blank (s ++ t) := by
  intro c hc
  rcases List.mem_append.mp hc with hc | hc
  · exact hs c hc
  · exact ht c hc

/-- The member that is written. -/
def written (deps : List (CString × CString)) (lead trail : CString) : Member where
  lead := lead
  key := lit "dependencies"
  mid := lit ": "
  value := blockValue deps
  trail := trail

theorem word_json : JsonString (lit "dependencies") (lit "dependencies") :=
  JsonString.escaped (lit "dependencies")

theorem written_valid (deps : List (CString × CString)) {lead trail : CString} (hlead : Blank lead)
    (htrail : Blank trail) : (written deps lead trail).Valid where
  lead := hlead
  key := ⟨_, word_json⟩
  mid := colon_valid
  value := blockValue_json deps
  trail := htrail

theorem written_text (deps : List (CString × CString)) (lead trail : CString) :
    (written deps lead trail).text = lead ++ (block deps ++ trail) := by
  rw [Member.text, written, block, quotedWord]
  simp only [List.append_assoc, List.cons_append, List.nil_append]

/-- What one run of the edit does and what the next one does. -/
def Edited (m : Manifest) (deps : List (CString × CString)) : Prop :=
  ∃ result, writeManifestDependencies m.text deps = some result ∧ Rewritten m deps result ∧
    (writeManifestDependencies result deps = some result ↔ Balanced (blockValue deps))

theorem edited_of_present {m : Manifest} (deps : List (CString × CString)) (hm : m.Valid)
    {pre post : List Member} {d : Member} (hmembers : m.members = pre ++ d :: post)
    (hkey : d.key = lit "dependencies") (hothers : ∀ other ∈ pre ++ post, ¬ Names other)
    (hfirst : first quotedWord m.text = some (frontOf m pre d).length) (hvalue : Balanced d.value) :
    Edited m deps := by
  have hd := hm.members d (by
    rw [hmembers]
    exact List.mem_append_right _ List.mem_cons_self)
  have hmid : 123 ∉ d.mid := by
    obtain ⟨left, right, hmid, hleft, hright⟩ := hd.mid
    rw [hmid, List.mem_append, List.mem_cons, not_or, not_or]
    exact ⟨hleft.not_mem (by decide), by decide, hright.not_mem (by decide)⟩
  rw [text_middle hmembers hkey] at hfirst
  have hagain : first quotedWord (frontOf m pre d ++ (block deps ++ backOf m d post)) =
      some (frontOf m pre d).length := by
    rw [block, List.append_assoc]
    exact first_transfer hfirst
  refine ⟨frontOf m pre d ++ (block deps ++ backOf m d post), ?_, ?_, write_again_iff deps hagain⟩
  · rw [text_middle hmembers hkey]
    exact write_balanced deps hfirst hmid hvalue
  · refine ⟨{ m with members := pre ++ written deps d.lead d.trail :: post }, ?_, ?_, rfl, rfl, pre,
      written deps d.lead d.trail, post, rfl, rfl, blockValue_holds deps, hothers,
      Or.inr ⟨d, hmembers, hkey⟩⟩
    · refine ⟨hm.head, hm.inner, ?_, hm.tail⟩
      intro member hmem
      rcases List.mem_append.mp hmem with hpre | hrest
      · exact hm.members member (by
          rw [hmembers]
          exact List.mem_append_left _ hpre)
      · rcases List.mem_cons.mp hrest with rfl | hpost
        · exact written_valid deps hd.lead hd.trail
        · exact hm.members member (by
            rw [hmembers]
            exact List.mem_append_right _ (List.mem_cons_of_mem _ hpost))
    · have hshape := @text_middle { m with members := pre ++ written deps d.lead d.trail :: post } pre
        post (written deps d.lead d.trail) rfl rfl
      rw [hshape, block, List.append_assoc, List.append_assoc]
      rfl

theorem first_of_not_infix {part s : CString} (h : ¬ part <:+: s) : first part s = none := by
  rw [first_eq_none_iff]
  intro i _ hstart
  exact h (hstart.isInfix.trans (List.drop_suffix i s).isInfix)

/-- Without the word the member is put in front of the last brace. -/
theorem write_absent {front back sep : CString} (deps : List (CString × CString))
    (habsent : ¬ quotedWord <:+: front ++ 125 :: back) (hfront : front ≠ []) (hback : 125 ∉ back)
    (hsep : sep = if lastNotBlank front = some 123 then lit "\n  " else lit ",\n  ") :
    writeManifestDependencies (front ++ 125 :: back) deps =
      some (front ++ (sep ++ (block deps ++ 10 :: 125 :: back))) := by
  have hne : front ++ 125 :: back ≠ [] := List.append_ne_nil_of_left_ne_nil hfront _
  have hpos : front.length ≠ 0 := fun h => hfront (List.length_eq_zero_iff.mp h)
  rw [writeManifestDependencies, if_neg hne, find_zero, first_of_not_infix habsent]
  dsimp only
  rw [lastPlace_append front hback]
  dsimp only
  rw [if_neg hpos, List.take_left, List.drop_left, hsep]

/-- The text of a manifest up to its last brace. -/
def bodyOf (m : Manifest) : CString :=
  m.head ++ 123 :: (if m.members = [] then m.inner else Search.join [44] (m.members.map Member.text))

theorem text_body (m : Manifest) : m.text = bodyOf m ++ 125 :: m.tail := by
  rw [Manifest.text, objectText, bodyOf]
  simp only [List.append_assoc, List.cons_append, List.nil_append]

theorem member_ends {member : Member} (hm : member.Valid) (front : CString) :
    lastNotBlank (front ++ member.text) ≠ some 123 := by
  obtain ⟨start, c, hvalue, hblank, hc⟩ := hm.value.value_ends
  have htext : front ++ member.text =
      (front ++ (member.lead ++ 34 :: (member.key ++ 34 :: (member.mid ++ start)))) ++
        c :: member.trail := by
    rw [Member.text, hvalue]
    simp only [List.append_assoc, List.cons_append, List.nil_append]
  rw [htext, lastNotBlank_append _ hblank hm.trail]
  intro heq
  exact hc (Option.some.inj heq)

/-- An opening brace is the last byte only in front of an empty object. -/
theorem lastNotBlank_body {m : Manifest} (hm : m.Valid) :
    lastNotBlank (bodyOf m) = some 123 ↔ m.members = [] := by
  rw [bodyOf]
  split_ifs with hempty
  · exact iff_of_true (lastNotBlank_append m.head rfl hm.inner) hempty
  · apply iff_of_false _ hempty
    have hlast := List.dropLast_append_getLast hempty
    have hvalid := hm.members _ (List.getLast_mem hempty)
    have hjoin := join_middle [44] (m.members.dropLast.map Member.text)
      (m.members.getLast hempty).text []
    have hmap : m.members.map Member.text =
        m.members.dropLast.map Member.text ++ [(m.members.getLast hempty).text] :=
      (congrArg (List.map Member.text) hlast.symm).trans List.map_append
    rw [hmap, hjoin, List.flatMap_nil, List.append_nil, ← List.cons_append, ← List.append_assoc]
    exact member_ends hvalid _

set_option maxRecDepth 4000 in
theorem edited_of_absent {m : Manifest} (deps : List (CString × CString)) (hm : m.Valid)
    (habsent : ¬ quotedWord <:+: m.text) (hothers : ∀ other ∈ m.members, ¬ Names other) :
    Edited m deps := by
  have hbraces : 125 ∉ m.tail := hm.tail.not_mem (by decide)
  have hbody : bodyOf m ≠ [] := List.append_ne_nil_of_right_ne_nil _ (List.cons_ne_nil _ _)
  have hinside : ¬ quotedWord <:+: bodyOf m := by
    intro h
    apply habsent
    rw [text_body]
    exact h.trans (List.prefix_append _ _).isInfix
  rw [text_body] at habsent
  obtain ⟨sep, hsep⟩ : ∃ sep, sep = if lastNotBlank (bodyOf m) = some 123 then lit "\n  "
      else lit ",\n  " := ⟨_, rfl⟩
  have hwrite := write_absent deps habsent hbody hbraces hsep
  have hplain : sep ≠ [] ∧ ∀ c ∈ sep, c ∉ quotedWord := by
    rw [hsep]
    split_ifs
    · exact ⟨by decide, by decide⟩
    · exact ⟨by decide, by decide⟩
  have hagain : first quotedWord ((bodyOf m ++ sep) ++ (block deps ++ 10 :: 125 :: m.tail)) =
      some (bodyOf m ++ sep).length := by
    rw [block, List.append_assoc quotedWord]
    exact first_separated hinside hplain.1 hplain.2 quotedWord_ne_nil _
  refine ⟨(bodyOf m ++ sep) ++ (block deps ++ 10 :: 125 :: m.tail), ?_, ?_,
    write_again_iff deps hagain⟩
  · rw [text_body, hwrite, List.append_assoc]
  · rw [Rewritten]
    have htrail : Blank [10] := blank_of_all rfl
    by_cases hempty : m.members = []
    · rw [if_pos ((lastNotBlank_body hm).mpr hempty)] at hsep
      refine ⟨{ m with members := [written deps (m.inner ++ lit "\n  ") [10]] }, ?_, ?_, rfl, rfl, [],
        written deps (m.inner ++ lit "\n  ") [10], [], rfl, rfl, blockValue_holds deps,
        fun other hmem => absurd hmem List.not_mem_nil, Or.inl hempty⟩
      · refine ⟨hm.head, hm.inner, ?_, hm.tail⟩
        intro member hmem
        rw [List.mem_singleton.mp hmem]
        exact written_valid deps (hm.inner.append (blank_of_all rfl)) htrail
      · rw [text_body, bodyOf, if_neg (List.cons_ne_nil _ _), bodyOf, if_pos hempty, hsep,
          List.map_singleton, Search.join, List.flatMap_nil, written_text]
        simp only [List.append_assoc, List.cons_append, List.nil_append, List.append_nil]
    · have hcomma : lit ",\n  " = [44] ++ lit "\n  " := rfl
      rw [if_neg (fun h => hempty ((lastNotBlank_body hm).mp h)), hcomma] at hsep
      refine ⟨{ m with members := m.members ++ [written deps (lit "\n  ") [10]] }, ?_, ?_, rfl, rfl,
        m.members, written deps (lit "\n  ") [10], [], rfl, rfl, blockValue_holds deps, ?_,
        Or.inl (List.append_nil _).symm⟩
      · refine ⟨hm.head, hm.inner, ?_, hm.tail⟩
        intro member hmem
        rcases List.mem_append.mp hmem with hold | hnew
        · exact hm.members member hold
        · rw [List.mem_singleton.mp hnew]
          exact written_valid deps (blank_of_all rfl) htrail
      · have htexts : m.members.map Member.text ≠ [] := fun h => hempty (List.map_eq_nil_iff.mp h)
        rw [text_body, bodyOf, if_neg (List.append_ne_nil_of_left_ne_nil hempty _), bodyOf,
          if_neg hempty, hsep, List.map_append, List.map_singleton, join_snoc [44] htexts, written_text]
        simp only [List.append_assoc, List.cons_append, List.nil_append]
      · intro other hmem
        rw [List.append_nil] at hmem
        exact hothers other hmem

/-- A manifest that the search understands keeps all its texts but the dependencies, which are the map,
and writing the map again changes nothing exactly when the braces of the block balance. -/
theorem manifest_rewrite (m : Manifest) (deps : List (CString × CString)) (hm : m.Valid)
    (hsafe : Safe m) : Edited m deps := by
  cases hsafe with
  | absent habsent hothers => exact edited_of_absent deps hm habsent hothers
  | present hmembers hkey hothers hfirst hvalue =>
      exact edited_of_present deps hm hmembers hkey hothers hfirst hvalue

/-- `{"dependencies": {}}`. -/
def emptyMap : Manifest where
  head := []
  inner := []
  members := [written [] [] []]
  tail := []

theorem manifest_rewrite_emptyMap : Edited emptyMap [(lit "a", lit "^1.0.0")] := by
  apply manifest_rewrite
  · refine ⟨blank_of_all rfl, blank_of_all rfl, ?_, blank_of_all rfl⟩
    intro member hmem
    rw [List.mem_singleton.mp hmem]
    exact written_valid [] (blank_of_all rfl) (blank_of_all rfl)
  · apply @Safe.present _ [] [] (written [] [] []) rfl rfl
    · intro other hmem
      exact absurd hmem List.not_mem_nil
    · decide
    · exact ⟨rfl, by decide⟩

/-- `{"keywords": ["dependencies"]}`. -/
def keywords : Manifest where
  head := []
  inner := []
  members := [
    { lead := [], key := lit "keywords", mid := lit ": "
      value := lit "[\"dependencies\"]", trail := [] }]
  tail := []

theorem keywords_valid : keywords.Valid := by
  refine ⟨blank_of_all rfl, blank_of_all rfl, ?_, blank_of_all rfl⟩
  intro member hmem
  rw [List.mem_singleton.mp hmem]
  have hnil : Blank [] := blank_of_all rfl
  have helement : Json .element ([] ++ (quotedWord ++ [])) := Json.element hnil (Json.string word_json) hnil
  rw [List.append_nil, List.nil_append] at helement
  constructor
  · exact hnil
  · exact ⟨_, JsonString.escaped (lit "keywords")⟩
  · exact colon_valid
  · apply @Json.array [quotedWord] (List.cons_ne_nil _ _)
    intro text htext
    rw [List.mem_singleton.mp htext]
    exact helement
  · exact hnil

/-- The word of a list is taken for the key, and nothing is written. -/
theorem manifest_rewrite_keywords : keywords.Valid ∧ ¬ Edited keywords [] := by
  refine ⟨keywords_valid, ?_⟩
  intro h
  obtain ⟨result, hwrite, _⟩ := h
  have hnone : writeManifestDependencies keywords.text [] = none := by decide
  rw [hnone] at hwrite
  cases hwrite

/-- Names and ranges without braces always balance. -/
theorem braceless_again {deps : List (CString × CString)}
    (hdeps : ∀ entry ∈ deps, Braceless entry.1 ∧ Braceless entry.2) {m : Manifest}
    (hedited : Edited m deps) :
    ∃ result, writeManifestDependencies m.text deps = some result ∧
      writeManifestDependencies result deps = some result := by
  obtain ⟨result, hwrite, _, hagain⟩ := hedited
  exact ⟨result, hwrite, hagain.mpr (blockValue_balanced hdeps)⟩

end PackageManager

end EZLanguage
