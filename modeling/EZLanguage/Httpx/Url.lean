import EZLanguage.Httpx.Headers
import Mathlib.Data.Nat.Digits.Lemmas

/-!
# Taking URLs apart and building them

`parseUrl` cuts a text at its delimiters one after the other, `buildUrl` writes the parts again, and
`addQuery` appends to the text that is not parsed. All cuts are at single bytes below 0x80, so each is
the cut of the text into what stands before a delimiter and behind it.
-/

namespace EZLanguage

namespace Httpx

open Utf8 Segments Search StringPieces StringSearch

/-! ### Cutting at a delimiter -/

/-- The texts before and behind the first `c`, as the searches for one delimiter cut them out. -/
def cutAt (o : Machine) (text : CString) (c : UInt8) : Option (CString × CString) :=
  if contains text [c] = true then
    let place := (indexOfBytes o.toArithmetic text [c] none).run
    some (o.substr text 0 place, o.substr text (place + 1) (lengthChars text - place - 1))
  else none

def startsWith (s start : CString) : Bool := start.isPrefixOf s

theorem contains_byte_iff (s : CString) (c : UInt8) : contains s [c] = true ↔ c ∈ s := by
  have hzero : find [c] s 0 = none ↔ c ∉ s := by
    rw [find_eq_none_iff (Nat.zero_le _)]
    constructor
    · intro h hmem
      obtain ⟨front, back, rfl⟩ := List.append_of_mem hmem
      apply h front.length (Nat.zero_le _) (by simp)
      rw [List.drop_left]
      exact ⟨back, rfl⟩
    · intro h i _ _ hstart
      exact h (List.mem_of_mem_drop (hstart.subset List.mem_cons_self))
  rw [contains, Option.isSome_iff_ne_none, ne_eq, hzero, not_not]

theorem cutAt_none (o : Machine) {text : CString} {c : UInt8} (h : c ∉ text) :
    cutAt o text c = none := by
  rw [cutAt, if_neg (fun hfound => h ((contains_byte_iff text c).mp hfound))]

theorem cutAt_append (o : Machine) {front after : CString} {c : UInt8} (hc : c < 0x80)
    (hfront : c ∉ front) (hshort : (front ++ c :: after).length < 2147483648) :
    cutAt o (front ++ c :: after) c = some (front, after) := by
  have hfound : contains (front ++ c :: after) [c] = true :=
    (contains_byte_iff _ c).mpr (List.mem_append_right _ List.mem_cons_self)
  have hchars := Nat.lt_of_le_of_lt (lengthChars_le _) hshort
  rw [cutAt, if_pos hfound]
  dsimp only
  rw [indexOfBytes_byte o hc hfront, substr_before o hc hchars, substr_after o hc hchars]

/-- A text is cut where the delimiter first stands, or nowhere. -/
theorem cutAt_cases (o : Machine) (text : CString) {c : UInt8} (hc : c < 0x80)
    (hshort : text.length < 2147483648) :
    (c ∉ text ∧ cutAt o text c = none) ∨
    ∃ front after, text = front ++ c :: after ∧ c ∉ front ∧ cutAt o text c = some (front, after) := by
  by_cases hmem : c ∈ text
  · obtain ⟨front, after, rfl, hfront⟩ := List.eq_append_cons_of_mem hmem
    exact Or.inr ⟨front, after, rfl, hfront, cutAt_append o hc hfront hshort⟩
  · exact Or.inl ⟨hmem, cutAt_none o hmem⟩

/-! ### The parts of a URL -/

structure Url where
  scheme : CString
  host : CString
  port : Nat
  path : CString
  query : CString
  target : CString
  fragment : Option CString
  user : Option CString
  password : Option CString
  secure : Bool
  deriving DecidableEq

inductive UrlError
  | noUrl
  | empty
  | badScheme (scheme : CString)
  | unclosed
  | invalidPort
  | portRange (value : Nat)
  | noHost
  deriving DecidableEq

/-- `str` of a port. -/
def portText (port : Nat) : CString := (Nat.toDigits 10 port).map fun c => UInt8.ofNat c.toNat

/-- The text of an error about a URL. -/
def UrlError.text (url : CString) : UrlError → CString
  | noUrl => lit "httpx: no URL given"
  | empty => lit "httpx: the URL is empty"
  | badScheme scheme => lit "httpx: '" ++ scheme ++
      lit "' is not a scheme this client speaks -- use http or https"
  | unclosed => lit "httpx: '" ++ url ++ lit "' has an unclosed IPv6 address"
  | invalidPort => lit "httpx: '" ++ url ++ lit "' has an invalid port"
  | portRange value => lit "httpx: port " ++ portText value ++ lit " in '" ++ url ++
      lit "' is out of range"
  | noHost => lit "httpx: '" ++ url ++ lit "' has no host"

/-- `://`. -/
def schemeMark : CString := [58, 47, 47]

def http : CString := lit "http"

def https : CString := lit "https"

/-- The scheme and the rest of a text without `://`. -/
def splitSlashes (o : Machine) (rest : CString) : CString × CString :=
  if startsWith rest [47, 47] = true then (https, o.substr rest 2 (lengthChars rest - 2))
  else (https, rest)

/-- The scheme and the rest. Behind the first `://` everything is the rest again. -/
def splitScheme (o : Machine) (rest : CString) : CString × CString :=
  if contains rest schemeMark = true then
    let pieces := split rest schemeMark
    (lowerChars (pieces.headD []), join (pieces.drop 1) schemeMark)
  else splitSlashes o rest

def splitFragment (o : Machine) (rest : CString) : CString × Option CString :=
  match cutAt o rest 35 with
  | some (front, fragment) => (front, some fragment)
  | none => (rest, none)

def splitQuery (o : Machine) (rest : CString) : CString × CString :=
  match cutAt o rest 63 with
  | some (front, query) => (front, query)
  | none => (rest, [])

/-- The authority and the path, which keeps its slash. -/
def splitPath (o : Machine) (rest : CString) : CString × CString :=
  if contains rest [47] = true then
    let place := (indexOfBytes o.toArithmetic rest [47] none).run
    (o.substr rest 0 place, o.substr rest place (lengthChars rest - place))
  else (rest, [47])

def lastIndexOf (o : Machine) (text needle : CString) : Int :=
  (List.range (lengthChars text)).foldl
    (fun (found : Int) (i : Nat) =>
      if o.substr text i (lengthChars needle) = needle then (i : Int) else found) (-1)

/-- The user, the password and the rest of an authority. -/
def splitCredentials (o : Machine) (authority : CString) :
    Option CString × Option CString × CString :=
  if contains authority [64] = true then
    let place := lastIndexOf o authority [64]
    let credentials := o.substr authority 0 place
    let authority := o.substr authority (place + 1) (lengthChars authority - place - 1)
    match cutAt o credentials 58 with
    | some (user, secret) => (some user, some secret, authority)
    | none => (some credentials, none, authority)
  else (none, none, authority)

/-- `num` of digits. -/
def decimal (body : CString) : Nat := body.foldl (fun n c => 10 * n + (c.toNat - 48)) 0

def portNumber (text : CString) : Except UrlError Nat :=
  let body := trim text
  let digits := (split body []).all fun ch => contains (lit "0123456789") ch
  if body = [] ∨ digits = false then .error .invalidPort
  else
    let value := decimal body
    if value < 1 ∨ 65535 < value then .error (.portRange value) else .ok value

def defaultPort (scheme : CString) : Nat := if scheme = https then 443 else 80

/-- The host and the port of an authority. The colons between brackets are no port. -/
def hostPort (o : Machine) (scheme authority : CString) : Except UrlError (CString × Nat) :=
  let port := defaultPort scheme
  if startsWith authority [91] = true then
    let close := (indexOfBytes o.toArithmetic authority [93] none).run
    if close < 0 then .error .unclosed
    else
      let host := o.substr authority 1 (close - 1)
      let remainder := o.substr authority (close + 1) (lengthChars authority - close - 1)
      if startsWith remainder [58] = true then
        (portNumber (o.substr remainder 1 (lengthChars remainder - 1))).map fun port => (host, port)
      else .ok (host, port)
  else
    match cutAt o authority 58 with
    | some (host, text) => (portNumber text).map fun port => (host, port)
    | none => .ok (authority, port)

def targetOf (path query : CString) : CString := if query = [] then path else path ++ 63 :: query

/-- The URL of a scheme and its parts. -/
def assemble (scheme : CString) (fragment : Option CString) (query path : CString)
    (user secret : Option CString) (host : CString) (port : Nat) : Url where
  scheme := scheme
  host := host
  port := port
  path := path
  query := query
  target := targetOf path query
  fragment := fragment
  user := user
  password := secret
  secure := scheme = https

/-- The URL of an authority without credentials and the other parts. -/
def complete (o : Machine) (scheme authority : CString) (fragment : Option CString)
    (query path : CString) (user secret : Option CString) : Except UrlError Url :=
  match hostPort o scheme authority with
  | .error e => .error e
  | .ok hostPort =>
      if hostPort.1 = [] then .error .noHost
      else .ok (assemble scheme fragment query path user secret hostPort.1 hostPort.2)

/-- What `parseUrl` does with a scheme that it speaks. -/
def parseRest (o : Machine) (scheme rest : CString) : Except UrlError Url :=
  let fragment := splitFragment o rest
  let query := splitQuery o fragment.1
  let path := splitPath o query.1
  let credentials := splitCredentials o path.1
  complete o scheme credentials.2.2 fragment.2 query.2 path.2 credentials.1 credentials.2.1

/-- The parts of a text whose scheme is split off. -/
def parseScheme (o : Machine) (split : CString × CString) : Except UrlError Url :=
  if split.1 ≠ http ∧ split.1 ≠ https then .error (.badScheme split.1)
  else parseRest o split.1 split.2

def parseUrl (o : Machine) (url : Option CString) : Except UrlError Url :=
  match url with
  | none => .error .noUrl
  | some url =>
      let rest := trim url
      if rest = [] then .error .empty else parseScheme o (splitScheme o rest)

def buildUrl (parts : Url) : CString :=
  let text := parts.scheme ++ schemeMark ++ parts.host
  let isDefault := (parts.scheme = https ∧ parts.port = 443) ∨ (parts.scheme = http ∧ parts.port = 80)
  (if isDefault then text else text ++ 58 :: portText parts.port) ++ parts.target

/-! ### What the cuts give -/

theorem substr_from (o : Machine) {front after : CString} {c : UInt8} (hc : c < 0x80)
    (hshort : lengthChars (front ++ c :: after) < 2147483648) :
    o.substr (front ++ c :: after) (lengthChars front)
      (lengthChars (front ++ c :: after) - lengthChars front) = c :: after := by
  have hlength := @lengthChars_byte front after c hc
  have hpart := @substr_eq o _ hshort (lengthChars front) (lengthChars after + 1) (by omega)
  have hdrop : (characters (front ++ c :: after)).drop (lengthChars front) = [c] :: characters after := by
    rw [characters_append_ascii front hc after, lengthChars_eq, List.drop_left]
  rw [hdrop, lengthChars_eq after, List.take_succ_cons, List.take_length, List.flatten_cons,
    flatten_characters, ← lengthChars_eq] at hpart
  have hrest : (lengthChars (front ++ c :: after) : Int) - lengthChars front =
      (lengthChars after + 1 : Nat) := by
    omega
  rw [hrest]
  exact hpart

/-- What is cut out of a text consists of its bytes. -/
theorem mem_substr (o : Machine) {text : CString} (hshort : text.length < 2147483648) {i n : Nat}
    (hin : i + n < 2147483648) {c : UInt8} (hc : c ∈ o.substr text i n) : c ∈ text := by
  have hchars := Nat.lt_of_le_of_lt (lengthChars_le _) hshort
  rw [substr_eq o hchars hin] at hc
  obtain ⟨part, hpart, hmem⟩ := List.mem_flatten.mp hc
  rw [← flatten_characters text]
  exact List.mem_flatten.mpr ⟨part, List.mem_of_mem_drop (List.mem_of_mem_take hpart), hmem⟩

theorem splitPath_append (o : Machine) {front after : CString} (hfront : 47 ∉ front)
    (hshort : (front ++ 47 :: after).length < 2147483648) :
    splitPath o (front ++ 47 :: after) = (front, 47 :: after) := by
  have hfound : contains (front ++ 47 :: after) [47] = true :=
    (contains_byte_iff _ 47).mpr (List.mem_append_right _ List.mem_cons_self)
  have hchars := Nat.lt_of_le_of_lt (lengthChars_le _) hshort
  have hslash : (47 : UInt8) < 0x80 := by decide
  rw [splitPath, if_pos hfound]
  dsimp only
  rw [indexOfBytes_byte o hslash hfront, substr_before o hslash hchars, substr_from o hslash hchars]

theorem splitPath_none (o : Machine) {rest : CString} (h : 47 ∉ rest) :
    splitPath o rest = (rest, [47]) := by
  rw [splitPath, if_neg (fun hfound => h ((contains_byte_iff rest 47).mp hfound))]

/-- The loop over the positions ends with the last one that is taken. -/
theorem foldl_last {P : Nat → Prop} [DecidablePred P] {n k : Nat} (hk : k < n) (hP : P k)
    (hlater : ∀ i, k < i → i < n → ¬ P i) (found : Int) :
    (List.range n).foldl (fun found i => if P i then (i : Int) else found) found = k := by
  induction n with
  | zero => omega
  | succ n ih =>
      rw [List.range_succ, List.foldl_append, List.foldl_cons, List.foldl_nil]
      by_cases hlast : k = n
      · rw [hlast] at hP
        rw [if_pos hP, hlast]
      · rw [if_neg (hlater n (by omega) (by omega))]
        exact ih (by omega) fun i hki hi => hlater i hki (by omega)

theorem lastIndexOf_append (o : Machine) {front after : CString} (hafter : 64 ∉ after)
    (hshort : (front ++ 64 :: after).length < 2147483648) :
    lastIndexOf o (front ++ 64 :: after) [64] = lengthChars front := by
  have hat : (64 : UInt8) < 0x80 := by decide
  have hchars := Nat.lt_of_le_of_lt (lengthChars_le _) hshort
  have hlength := @lengthChars_byte front after 64 hat
  have hone : lengthChars [64] = 1 := by
    rw [lengthChars_eq_length_iff [64] |>.mpr ⟨rfl, trivial⟩]
    rfl
  have hparts := characters_append_ascii front hat after
  have hchar : ∀ i, i < lengthChars (front ++ 64 :: after) →
      o.substr (front ++ 64 :: after) i (lengthChars [64]) =
        ((characters front ++ [64] :: characters after)[i]?).getD [] := by
    intro i hi
    rw [hone]
    have hpart := @substr_eq o _ hchars i 1 (by omega)
    rw [lengthChars_eq, hparts] at hi
    rw [hparts, List.drop_eq_getElem_cons hi, List.take_succ_cons, List.take_zero,
      List.flatten_cons, List.flatten_nil, List.append_nil] at hpart
    rw [List.getElem?_eq_getElem hi]
    exact hpart
  rw [lastIndexOf]
  apply foldl_last
  · omega
  · rw [hchar _ (by omega), lengthChars_eq, List.getElem?_append_right (Nat.le_refl _), Nat.sub_self]
    rfl
  · intro i hfront hi hmatch
    rw [hchar i hi, lengthChars_eq front] at *
    rw [List.getElem?_append_right (by omega)] at hmatch
    obtain ⟨j, hj⟩ := Nat.exists_eq_add_of_lt hfront
    have hplace : i - (characters front).length = j + 1 := by omega
    rw [hplace, List.getElem?_cons_succ] at hmatch
    apply hafter
    rw [← flatten_characters after]
    cases hget : (characters after)[j]? with
    | none =>
        rw [hget] at hmatch
        cases hmatch
    | some part =>
        rw [hget] at hmatch
        obtain rfl : part = [64] := hmatch
        exact List.mem_flatten.mpr ⟨[64], List.mem_of_getElem? hget, List.mem_singleton.mpr rfl⟩

theorem splitCredentials_none (o : Machine) {authority : CString} (h : 64 ∉ authority) :
    splitCredentials o authority = (none, none, authority) := by
  rw [splitCredentials, if_neg (fun hfound => h ((contains_byte_iff _ 64).mp hfound))]

/-- What is left of an authority stands behind its last `@`. -/
theorem splitCredentials_rest (o : Machine) {authority : CString}
    (hshort : authority.length < 2147483648) :
    64 ∉ (splitCredentials o authority).2.2 ∧
      (splitCredentials o authority).2.2.IsSuffix authority := by
  by_cases hmem : 64 ∈ authority
  · obtain ⟨back, front, hsplit, hback⟩ := List.eq_append_cons_of_mem (List.mem_reverse.mpr hmem)
    have hauthority : authority = front.reverse ++ 64 :: back.reverse := by
      rw [← List.reverse_reverse authority, hsplit]
      simp
    have hafter : 64 ∉ back.reverse := fun h => hback (List.mem_reverse.mp h)
    have hat : (64 : UInt8) < 0x80 := by decide
    have hrest : (splitCredentials o authority).2.2 = back.reverse := by
      have hfound := (contains_byte_iff authority 64).mpr hmem
      rw [splitCredentials, if_pos hfound]
      rw [hauthority] at hshort ⊢
      have hchars := Nat.lt_of_le_of_lt (lengthChars_le _) hshort
      dsimp only
      rw [lastIndexOf_append o hafter hshort, substr_after o hat hchars]
      split <;> rfl
    rw [hrest]
    refine ⟨hafter, ?_⟩
    rw [hauthority]
    exact (List.suffix_cons 64 _).trans (List.suffix_append _ _)
  · rw [splitCredentials_none o hmem]
    exact ⟨hmem, List.suffix_refl _⟩

theorem portNumber_range {text : CString} {port : Nat} (h : portNumber text = .ok port) :
    1 ≤ port ∧ port ≤ 65535 := by
  rw [portNumber] at h
  dsimp only at h
  split_ifs at h with hdigits hvalue
  obtain rfl := Except.ok.inj h
  omega

theorem indexOfBytes_absent (o : Machine) {text : CString} {c : UInt8} (h : c ∉ text) :
    (indexOfBytes o.toArithmetic text [c] none).run = -1 := by
  have hnone : find [c] text 0 = none := by
    cases hfind : find [c] text 0 with
    | none => rfl
    | some place =>
        exact absurd ((contains_byte_iff text c).mp (by rw [contains, hfind]; rfl)) h
  rw [indexOfBytes]
  dsimp only
  rw [pure_bind, hnone]
  rfl

theorem map_ok {α β ε : Type} {f : α → β} {x : Except ε α} {y : β} (h : x.map f = .ok y) :
    ∃ a, x = .ok a ∧ f a = y := by
  cases x with
  | error e => cases h
  | ok a => exact ⟨a, rfl, Except.ok.inj h⟩

/-- The host of an authority that is accepted: it stands between brackets, or before the first colon. -/
theorem hostPort_ok (o : Machine) {scheme authority host : CString} {port : Nat}
    (hshort : authority.length < 2147483648)
    (h : hostPort o scheme authority = .ok (host, port)) :
    (1 ≤ port ∧ port ≤ 65535) ∧
    ((∃ after, authority = 91 :: (host ++ 93 :: after) ∧ 93 ∉ host) ∨
      (authority.head? ≠ some 91 ∧ 58 ∉ host ∧ host <+: authority)) := by
  have hdefault : 1 ≤ defaultPort scheme ∧ defaultPort scheme ≤ 65535 := by
    unfold defaultPort
    split_ifs <;> omega
  rw [hostPort] at h
  dsimp only at h
  by_cases hbracket : startsWith authority [91] = true
  · rw [if_pos hbracket] at h
    obtain ⟨inner, rfl⟩ : ∃ inner, authority = 91 :: inner := by
      cases authority with
      | nil => cases hbracket
      | cons c inner =>
          have hc : (91 == c && true) = true := hbracket
          rw [Bool.and_true, beq_iff_eq] at hc
          exact ⟨inner, by rw [hc]⟩
    by_cases hclose : 93 ∈ inner
    · obtain ⟨front, after, rfl, hfront⟩ := List.eq_append_cons_of_mem hclose
      have hopen : (91 : UInt8) < 0x80 := by decide
      have hend : (93 : UInt8) < 0x80 := by decide
      have hchars := Nat.lt_of_le_of_lt (lengthChars_le _) hshort
      have hfront' : 93 ∉ 91 :: front := by
        rw [List.mem_cons, not_or]
        exact ⟨by decide, hfront⟩
      have hplace := @indexOfBytes_byte o (91 :: front) after 93 hend hfront'
      rw [List.cons_append] at hplace
      have hlength : lengthChars (91 :: front) = lengthChars front + 1 := by
        have hbyte := @lengthChars_byte [] front 91 hopen
        rw [List.nil_append, lengthChars] at hbyte
        omega
      have hhost : o.substr (91 :: (front ++ 93 :: after)) 1 (lengthChars (91 :: front) - 1) = front := by
        have hpart := @substr_eq o _ hchars 1 (lengthChars front) (by
          have hle := lengthChars_le (91 :: front)
          rw [List.length_cons, List.length_append] at hshort
          rw [List.length_cons] at hle
          omega)
        have hparts := characters_append_ascii [] hopen (front ++ 93 :: after)
        rw [List.nil_append, characters_append_ascii front hend after] at hparts
        have hnil : characters [] = [] := by rw [characters, Cut.segments]
        rw [hparts, hnil, List.nil_append, List.drop_succ_cons, List.drop_zero, lengthChars_eq,
          List.take_left, flatten_characters] at hpart
        have hcount : (lengthChars (91 :: front) : Int) - 1 = (lengthChars front : Nat) := by omega
        rw [hcount, lengthChars_eq]
        exact hpart
      rw [hplace, if_neg (by omega), hhost] at h
      split_ifs at h with hcolon
      · obtain ⟨port', hport, heq⟩ := map_ok h
        obtain ⟨rfl, rfl⟩ := Prod.mk.inj heq
        exact ⟨portNumber_range hport, Or.inl ⟨after, rfl, hfront⟩⟩
      · obtain ⟨rfl, rfl⟩ := Prod.mk.inj (Except.ok.inj h)
        exact ⟨hdefault, Or.inl ⟨after, rfl, hfront⟩⟩
    · rw [indexOfBytes_absent o (by
        rw [List.mem_cons, not_or]
        exact ⟨by decide, hclose⟩), if_pos (by decide)] at h
      cases h
  · rw [if_neg hbracket] at h
    have hhead : authority.head? ≠ some 91 := by
      intro hhead
      apply hbracket
      cases authority with
      | nil => cases hhead
      | cons c inner =>
          obtain rfl := Option.some.inj hhead
          rfl
    rcases cutAt_cases o authority (by decide : (58 : UInt8) < 0x80) hshort with
      ⟨hnone, hcut⟩ | ⟨front, after, rfl, hfront, hcut⟩
    · rw [hcut] at h
      obtain ⟨rfl, rfl⟩ := Prod.mk.inj (Except.ok.inj h)
      exact ⟨hdefault, Or.inr ⟨hhead, hnone, List.prefix_refl _⟩⟩
    · rw [hcut] at h
      obtain ⟨port', hport, heq⟩ := map_ok h
      obtain ⟨rfl, rfl⟩ := Prod.mk.inj heq
      exact ⟨portNumber_range hport, Or.inr ⟨hhead, hfront, List.prefix_append _ _⟩⟩

theorem splitFragment_front (o : Machine) {rest : CString} (hshort : rest.length < 2147483648) :
    35 ∉ (splitFragment o rest).1 ∧ (splitFragment o rest).1 <+: rest := by
  rcases cutAt_cases o rest (by decide : (35 : UInt8) < 0x80) hshort with
    ⟨hnone, hcut⟩ | ⟨front, after, rfl, hfront, hcut⟩
  · rw [splitFragment, hcut]
    exact ⟨hnone, List.prefix_refl _⟩
  · rw [splitFragment, hcut]
    exact ⟨hfront, List.prefix_append _ _⟩

theorem splitQuery_front (o : Machine) {rest : CString} (hshort : rest.length < 2147483648) :
    63 ∉ (splitQuery o rest).1 ∧ (splitQuery o rest).1 <+: rest ∧
      ∀ c ∈ (splitQuery o rest).2, c ∈ rest := by
  rcases cutAt_cases o rest (by decide : (63 : UInt8) < 0x80) hshort with
    ⟨hnone, hcut⟩ | ⟨front, after, rfl, hfront, hcut⟩
  · rw [splitQuery, hcut]
    exact ⟨hnone, List.prefix_refl _, by simp⟩
  · rw [splitQuery, hcut]
    exact ⟨hfront, List.prefix_append _ _, fun c hc =>
      List.mem_append_right _ (List.mem_cons_of_mem _ hc)⟩

theorem splitPath_front (o : Machine) {rest : CString} (hshort : rest.length < 2147483648) :
    47 ∉ (splitPath o rest).1 ∧ (splitPath o rest).1 <+: rest ∧
      (∃ p, (splitPath o rest).2 = 47 :: p) ∧ ∀ c ∈ (splitPath o rest).2, c = 47 ∨ c ∈ rest := by
  by_cases hmem : 47 ∈ rest
  · obtain ⟨front, after, rfl, hfront⟩ := List.eq_append_cons_of_mem hmem
    rw [splitPath_append o hfront hshort]
    exact ⟨hfront, List.prefix_append _ _, ⟨after, rfl⟩, fun c hc =>
      Or.inr (List.mem_append_right _ hc)⟩
  · rw [splitPath_none o hmem]
    exact ⟨hmem, List.prefix_refl _, ⟨[], rfl⟩, fun c hc => Or.inl (List.mem_singleton.mp hc)⟩

/-- What the parts of an accepted URL look like. -/
structure Parsed (parts : Url) : Prop where
  host_ne : parts.host ≠ []
  host_plain : 47 ∉ parts.host ∧ 63 ∉ parts.host ∧ 35 ∉ parts.host ∧ 64 ∉ parts.host
  host_shape : 93 ∉ parts.host ∨ parts.host.head? ≠ some 91 ∧ 58 ∉ parts.host
  port : 1 ≤ parts.port ∧ parts.port ≤ 65535
  path : ∃ p, parts.path = 47 :: p
  path_plain : 63 ∉ parts.path ∧ 35 ∉ parts.path
  query_plain : 35 ∉ parts.query
  target : parts.target = targetOf parts.path parts.query

theorem complete_ok (o : Machine) {scheme authority : CString} {fragment : Option CString}
    {query path : CString} {user secret : Option CString} {parts : Url}
    (h : complete o scheme authority fragment query path user secret = .ok parts) :
    ∃ host port, hostPort o scheme authority = .ok (host, port) ∧ host ≠ [] ∧
      parts = assemble scheme fragment query path user secret host port := by
  unfold complete at h
  cases hhost : hostPort o scheme authority with
  | error e =>
      rw [hhost] at h
      cases h
  | ok result =>
      rw [hhost] at h
      dsimp only at h
      by_cases hempty : result.1 = []
      · rw [if_pos hempty] at h
        cases h
      · rw [if_neg hempty] at h
        exact ⟨result.1, result.2, rfl, hempty, (Except.ok.inj h).symm⟩

/-- The host of an accepted authority is part of it, and is no bracketed text with a port. -/
theorem host_of_authority (o : Machine) {scheme authority host : CString} {port : Nat}
    (hshort : authority.length < 2147483648) (hempty : host ≠ [])
    (h : hostPort o scheme authority = .ok (host, port)) :
    (∀ c ∈ host, c ∈ authority) ∧ (1 ≤ port ∧ port ≤ 65535) ∧
      (93 ∉ host ∨ host.head? ≠ some 91 ∧ 58 ∉ host) := by
  obtain ⟨hport, hshape⟩ := hostPort_ok o hshort h
  rcases hshape with ⟨after, rfl, hclose⟩ | ⟨hhead, hcolon, hstart⟩
  · refine ⟨?_, hport, Or.inl hclose⟩
    intro c hc
    exact List.mem_cons_of_mem _ (List.mem_append_left _ hc)
  · refine ⟨fun c hc => hstart.subset hc, hport, Or.inr ⟨?_, hcolon⟩⟩
    intro heq
    apply hhead
    obtain ⟨c, tail, rfl⟩ := List.exists_cons_of_ne_nil hempty
    obtain ⟨more, rfl⟩ := hstart
    exact heq

theorem parseRest_ok (o : Machine) {scheme rest : CString} {parts : Url}
    (hshort : rest.length < 2147483648) (h : parseRest o scheme rest = .ok parts) :
    parts.scheme = scheme ∧ Parsed parts := by
  obtain ⟨hfragment, hfront⟩ := splitFragment_front o hshort
  have hshort₁ := Nat.lt_of_le_of_lt hfront.length_le hshort
  obtain ⟨hquery, hfront₂, hqueryMem⟩ := splitQuery_front o hshort₁
  have hshort₂ := Nat.lt_of_le_of_lt hfront₂.length_le hshort₁
  obtain ⟨hpath, hfront₃, hslash, hpathMem⟩ := splitPath_front o hshort₂
  have hshort₃ := Nat.lt_of_le_of_lt hfront₃.length_le hshort₂
  obtain ⟨hat, hsuffix⟩ := splitCredentials_rest o hshort₃
  have hshort₄ := Nat.lt_of_le_of_lt hsuffix.length_le hshort₃
  obtain ⟨host, port, hhost, hempty, rfl⟩ := complete_ok o h
  obtain ⟨hmem, hport, hshape⟩ := host_of_authority o hshort₄ hempty hhost
  -- the bytes of the host are bytes of all the texts before it
  have hmem₃ := fun c hc => hsuffix.subset (hmem c hc)
  have hmem₂ := fun c hc => hfront₃.subset (hmem₃ c hc)
  have hmem₁ := fun c hc => hfront₂.subset (hmem₂ c hc)
  refine ⟨rfl, ?_⟩
  constructor
  · exact hempty
  · exact ⟨fun hc => hpath (hmem₃ 47 hc), fun hc => hquery (hmem₂ 63 hc),
      fun hc => hfragment (hmem₁ 35 hc), fun hc => hat (hmem 64 hc)⟩
  · exact hshape
  · exact hport
  · exact hslash
  · constructor
    · intro hc
      rcases hpathMem 63 hc with hslash | hmem
      · exact absurd hslash (by decide)
      · exact hquery hmem
    · intro hc
      rcases hpathMem 35 hc with hslash | hmem
      · exact absurd hslash (by decide)
      · exact hfragment (hfront₂.subset hmem)
  · exact fun hc => hfragment (hqueryMem 35 hc)
  · rfl

/-! ### Writing a URL -/

theorem portText_digit {n : Nat} {c : UInt8} (hc : c ∈ portText n) : 48 ≤ c.toNat ∧ c.toNat ≤ 57 := by
  obtain ⟨d, hd, rfl⟩ := List.mem_map.mp hc
  have hdigit := Nat.isDigit_of_mem_toDigits (by decide) (by decide) hd
  rw [Char.isDigit, Bool.and_eq_true, decide_eq_true_eq, decide_eq_true_eq] at hdigit
  have hlow : 48 ≤ d.toNat := hdigit.1
  have hhigh : d.toNat ≤ 57 := hdigit.2
  have hvalue : (UInt8.ofNat d.toNat).toNat = d.toNat := by
    rw [UInt8.toNat_ofNat']
    omega
  omega

theorem decimal_portText (n : Nat) : decimal (portText n) = n := by
  have hfold : ∀ (l : List Char) (init : Nat), (∀ c ∈ l, c.toNat < 256) →
      (l.map fun c => UInt8.ofNat c.toNat).foldl (fun n c => 10 * n + (c.toNat - 48)) init =
        Nat.ofDigitChars 10 l init := by
    intro l
    induction l with
    | nil =>
        intro init _
        rfl
    | cons c l ih =>
        intro init hl
        have hc : (UInt8.ofNat c.toNat).toNat = c.toNat := by
          rw [UInt8.toNat_ofNat']
          exact Nat.mod_eq_of_lt (hl c List.mem_cons_self)
        rw [List.map_cons, List.foldl_cons, hc, ih _ fun d hd => hl d (List.mem_cons_of_mem _ hd)]
        rfl
  rw [decimal, portText, hfold, Nat.ofDigitChars_ten_toDigits]
  intro c hc
  have hdigit := Nat.isDigit_of_mem_toDigits (by decide) (by decide) hc
  rw [Char.isDigit, Bool.and_eq_true, decide_eq_true_eq, decide_eq_true_eq] at hdigit
  have hhigh : c.toNat ≤ 57 := hdigit.2
  omega

theorem dropWhile_blank {s : CString} (hs : s.head?.any isBlank = false) :
    s.dropWhile isBlank = s := by
  cases s with
  | nil => rfl
  | cons c s =>
      apply List.dropWhile_cons_of_neg
      have hc : isBlank c = false := hs
      rw [hc]
      exact Bool.false_ne_true

/-- A text without blanks at its ends is not trimmed. -/
theorem trim_self {s : CString} (hfirst : s.head?.any isBlank = false)
    (hlast : s.getLast?.any isBlank = false) : trim s = s := by
  rw [trim, dropWhile_blank hfirst, dropWhile_blank (by rw [List.head?_reverse]; exact hlast),
    List.reverse_reverse]

theorem singleBytes_of_ascii {s : CString} (hs : ∀ c ∈ s, c < 0x80) : SingleBytes s := by
  induction s with
  | nil => trivial
  | cons c s ih =>
      exact ⟨charLen_ascii (hs c List.mem_cons_self) s,
        ih fun d hd => hs d (List.mem_cons_of_mem _ hd)⟩

theorem digit_facts {c : UInt8} (hc : 48 ≤ c.toNat ∧ c.toNat ≤ 57) :
    isBlank c = false ∧ c < 0x80 ∧ c ∈ lit "0123456789" := by
  have hall : ∀ k : Fin 58, 48 ≤ k.val → isBlank (UInt8.ofNat k) = false ∧
      UInt8.ofNat k < 0x80 ∧ UInt8.ofNat k ∈ lit "0123456789" := by decide
  have h := hall ⟨c.toNat, by omega⟩ hc.1
  rw [UInt8.ofNat_toNat] at h
  exact h

theorem portNumber_portText {n : Nat} (hn : 1 ≤ n ∧ n ≤ 65535) : portNumber (portText n) = .ok n := by
  have hdigit : ∀ c ∈ portText n, isBlank c = false ∧ c < 0x80 ∧ c ∈ lit "0123456789" :=
    fun c hc => digit_facts (portText_digit hc)
  have hends : ∀ c : Option UInt8, (∀ d, c = some d → d ∈ portText n) → c.any isBlank = false := by
    intro c hc
    cases c with
    | none => rfl
    | some d => exact (hdigit d (hc d rfl)).1
  have htrim : trim (portText n) = portText n :=
    trim_self (hends _ fun d hd => List.mem_of_head? hd) (hends _ fun d hd => List.mem_of_getLast? hd)
  have hempty : portText n ≠ [] := by
    intro h
    have hvalue := decimal_portText n
    rw [h] at hvalue
    rw [← hvalue] at hn
    exact absurd hn (by decide)
  have hdigits : ((split (portText n) []).all fun ch => contains (lit "0123456789") ch) = true := by
    rw [split_nil, characters_singleBytes (singleBytes_of_ascii fun c hc => (hdigit c hc).2.1),
      List.all_map]
    apply List.all_eq_true.mpr
    intro c hc
    exact (contains_byte_iff _ c).mpr (hdigit c hc).2.2
  rw [portNumber, htrim]
  dsimp only
  rw [hdigits, decimal_portText, if_neg (by simp [hempty]), if_neg (by omega)]

/-! ### Reading a written URL -/

/-- The text without the blanks at its end. -/
def trimEnd (s : CString) : CString := (s.reverse.dropWhile isBlank).reverse

theorem trimEnd_append (front : CString) {c : UInt8} (hc : isBlank c = false) (after : CString) :
    trimEnd (front ++ c :: after) = front ++ c :: trimEnd after := by
  have hreverse : (front ++ c :: after).reverse = after.reverse ++ c :: front.reverse := by simp
  rw [trimEnd, trimEnd, hreverse, List.dropWhile_append]
  split_ifs with hempty
  · rw [List.isEmpty_iff] at hempty
    rw [hempty, List.dropWhile_cons_of_neg (by rw [hc]; exact Bool.false_ne_true)]
    simp
  · simp

theorem trimEnd_eq_iff (s : CString) : trimEnd s = s ↔ s.getLast?.any isBlank = false := by
  rw [trimEnd, ← List.head?_reverse]
  constructor
  · intro h
    have hreverse : s.reverse.dropWhile isBlank = s.reverse := by
      rw [← List.reverse_reverse (s.reverse.dropWhile isBlank), h]
    cases hs : s.reverse with
    | nil => rfl
    | cons c front =>
        rw [hs] at hreverse
        cases hc : isBlank c with
        | false => exact hc
        | true =>
            rw [List.dropWhile_cons_of_pos hc] at hreverse
            have hlength := (List.dropWhile_sublist (p := isBlank) (l := front)).length_le
            rw [hreverse, List.length_cons] at hlength
            omega
  · intro h
    rw [dropWhile_blank h, List.reverse_reverse]

theorem trim_eq_trimEnd {s : CString} (hfirst : s.head?.any isBlank = false) : trim s = trimEnd s := by
  rw [trim, dropWhile_blank hfirst, trimEnd]

theorem trimEnd_length_le (s : CString) : (trimEnd s).length ≤ s.length := by
  have hlength := (List.dropWhile_sublist (p := isBlank) (l := s.reverse)).length_le
  rw [trimEnd, List.length_reverse]
  rw [List.length_reverse] at hlength
  exact hlength

/-- A text with a scheme is cut behind it, whatever follows. -/
theorem splitScheme_mark (o : Machine) {scheme : CString} (hscheme : 58 ∉ scheme) (rest : CString) :
    splitScheme o (scheme ++ (schemeMark ++ rest)) = (lowerChars scheme, rest) := by
  have hmark : schemeMark ≠ [] := List.cons_ne_nil _ _
  have hfirst : first schemeMark (scheme ++ (schemeMark ++ rest)) = some scheme.length := by
    apply first_append hmark
    intro x hx heq
    exact hscheme (Option.some.inj heq ▸ hx)
  have hfound : contains (scheme ++ (schemeMark ++ rest)) schemeMark = true := by
    rw [contains, find, if_pos (Nat.zero_le _), List.drop_zero, hfirst]
    rfl
  have hdrop : (scheme ++ (schemeMark ++ rest)).drop (scheme.length + schemeMark.length) = rest := by
    rw [List.drop_length_add_append, List.drop_left]
  rw [splitScheme, if_pos hfound]
  dsimp only
  rw [split_of_ne_nil hmark, pieces_of_some hmark hfirst, List.headD_cons, List.take_left,
    List.drop_one, List.tail_cons, hdrop, StringPieces.join, join_pieces]

set_option maxRecDepth 4000

theorem lowerChars_http : lowerChars http = http := by
  rw [lowerChars, mapChars_eq, List.drop_zero, List.nil_append,
    characters_singleBytes (singleBytes_of_ascii (by decide))]
  decide

theorem lowerChars_https : lowerChars https = https := by
  rw [lowerChars, mapChars_eq, List.drop_zero, List.nil_append,
    characters_singleBytes (singleBytes_of_ascii (by decide))]
  decide

/-- The delimiters that end an authority or stand in it do not occur in a text. -/
def PlainAuthority (s : CString) : Prop := 47 ∉ s ∧ 63 ∉ s ∧ 35 ∉ s ∧ 64 ∉ s

/-- The cuts of a text that has an authority, a path and no fragment. -/
theorem parseRest_text (o : Machine) {scheme authority t : CString} (hplain : PlainAuthority authority)
    (hfragment : 35 ∉ t) (hshort : (authority ++ 47 :: t).length < 2147483648) :
    parseRest o scheme (authority ++ 47 :: t) = complete o scheme authority none
      (splitQuery o (47 :: t)).2 (splitQuery o (47 :: t)).1 none none := by
  obtain ⟨hslash, hmark, hhash, hat⟩ := hplain
  have hlength : (authority ++ 47 :: t).length = authority.length + (t.length + 1) := by simp
  have hnone : splitFragment o (authority ++ 47 :: t) = (authority ++ 47 :: t, none) := by
    rw [splitFragment, cutAt_none]
    rw [List.mem_append, List.mem_cons, not_or, not_or]
    exact ⟨hhash, by decide, hfragment⟩
  have hquery : splitQuery o (authority ++ 47 :: t) =
      (authority ++ (splitQuery o (47 :: t)).1, (splitQuery o (47 :: t)).2) ∧
      ∃ p, (splitQuery o (47 :: t)).1 = 47 :: p ∧ p.length ≤ t.length := by
    by_cases hmem : 63 ∈ t
    · obtain ⟨p, q, rfl, hp⟩ := List.eq_append_cons_of_mem hmem
      have hask : (63 : UInt8) < 0x80 := by decide
      have hfront : 63 ∉ 47 :: p := by
        rw [List.mem_cons, not_or]
        exact ⟨by decide, hp⟩
      have hfront' : 63 ∉ authority ++ 47 :: p := by
        rw [List.mem_append, not_or]
        exact ⟨hmark, hfront⟩
      have hinner := @cutAt_append o (47 :: p) q 63 hask hfront (by
        rw [List.length_append] at hlength hshort
        rw [List.cons_append]
        omega)
      have houter := @cutAt_append o (authority ++ 47 :: p) q 63 hask hfront' (by
        rw [List.append_assoc]
        exact hshort)
      rw [List.append_assoc] at houter
      rw [List.cons_append] at hinner houter
      rw [splitQuery, splitQuery, hinner, houter]
      exact ⟨rfl, p, rfl, by rw [List.length_append]; omega⟩
    · have hinner : 63 ∉ 47 :: t := by
        rw [List.mem_cons, not_or]
        exact ⟨by decide, hmem⟩
      rw [splitQuery, splitQuery, cutAt_none o hinner, cutAt_none]
      · exact ⟨rfl, t, rfl, Nat.le_refl _⟩
      · rw [List.mem_append, not_or]
        exact ⟨hmark, hinner⟩
  obtain ⟨hquery, p, hp, hle⟩ := hquery
  have hpath : splitPath o (authority ++ (splitQuery o (47 :: t)).1) =
      (authority, (splitQuery o (47 :: t)).1) := by
    rw [hp]
    apply splitPath_append o hslash
    rw [List.length_append, List.length_cons]
    omega
  rw [parseRest, hnone, hquery, hpath, splitCredentials_none o hat]

/-- The port behind a host, if it is not the default one. -/
def portSuffix (scheme : CString) (port : Nat) : CString :=
  if port = defaultPort scheme then [] else 58 :: portText port

theorem buildUrl_eq {parts : Url} (hscheme : parts.scheme = http ∨ parts.scheme = https) :
    buildUrl parts = parts.scheme ++ (schemeMark ++
      (parts.host ++ portSuffix parts.scheme parts.port ++ parts.target)) := by
  have hne : http ≠ https := by decide
  have hdefault : (parts.scheme = https ∧ parts.port = 443) ∨ (parts.scheme = http ∧ parts.port = 80) ↔
      parts.port = defaultPort parts.scheme := by
    unfold defaultPort
    rcases hscheme with h | h
    · rw [h, if_neg hne]
      simp [hne]
    · rw [h, if_pos rfl]
      simp [hne.symm]
  rw [buildUrl, portSuffix]
  by_cases hport : parts.port = defaultPort parts.scheme
  · rw [if_pos (hdefault.mpr hport), if_pos hport]
    simp
  · rw [if_neg (fun h => hport (hdefault.mp h)), if_neg hport]
    simp

theorem not_mem_portSuffix {scheme : CString} {port : Nat} {c : UInt8} (hcolon : c ≠ 58)
    (hdigit : c.toNat < 48 ∨ 57 < c.toNat) : c ∉ portSuffix scheme port := by
  rw [portSuffix]
  split_ifs
  · simp
  · rw [List.mem_cons, not_or]
    refine ⟨hcolon, ?_⟩
    intro hc
    have hrange := portText_digit hc
    omega

/-- The host and the port that are read from a written authority. -/
theorem hostPort_write (o : Machine) {scheme host : CString} {port : Nat} (hhead : host.head? ≠ some 91)
    (hempty : host ≠ []) (hcolon : 58 ∉ host) (hport : 1 ≤ port ∧ port ≤ 65535)
    (hshort : (host ++ portSuffix scheme port).length < 2147483648) :
    hostPort o scheme (host ++ portSuffix scheme port) = .ok (host, port) := by
  have hbracket : startsWith (host ++ portSuffix scheme port) [91] ≠ true := by
    obtain ⟨c, tail, rfl⟩ := List.exists_cons_of_ne_nil hempty
    intro hstart
    have hc : (91 == c && true) = true := hstart
    rw [Bool.and_true, beq_iff_eq] at hc
    exact hhead (by rw [← hc]; rfl)
  rw [hostPort, if_neg hbracket]
  rw [portSuffix] at hshort ⊢
  by_cases hdefault : port = defaultPort scheme
  · rw [if_pos hdefault, List.append_nil, cutAt_none o hcolon, hdefault]
  · rw [if_neg hdefault] at hshort ⊢
    rw [cutAt_append o (by decide) hcolon hshort]
    dsimp only
    rw [portNumber_portText hport]
    rfl

/-- A parsed URL is read back with its scheme, host, port, path and query. -/
def Rebuilt (o : Machine) (parts : Url) : Prop :=
  ∃ again, parseUrl o (some (buildUrl parts)) = .ok again ∧ again.scheme = parts.scheme ∧
    again.host = parts.host ∧ again.port = parts.port ∧ again.path = parts.path ∧
    again.query = parts.query

section Rebuild

variable (o : Machine) {parts : Url} (hscheme : parts.scheme = http ∨ parts.scheme = https)
  (hparsed : Parsed parts) (hshort : (buildUrl parts).length < 2147483648)

include hscheme hparsed

omit hscheme in
theorem plain_authority : PlainAuthority (parts.host ++ portSuffix parts.scheme parts.port) := by
  obtain ⟨hslash, hmark, hhash, hat⟩ := hparsed.host_plain
  refine ⟨?_, ?_, ?_, ?_⟩
  · rw [List.mem_append, not_or]
    exact ⟨hslash, not_mem_portSuffix (by decide) (by decide)⟩
  · rw [List.mem_append, not_or]
    exact ⟨hmark, not_mem_portSuffix (by decide) (by decide)⟩
  · rw [List.mem_append, not_or]
    exact ⟨hhash, not_mem_portSuffix (by decide) (by decide)⟩
  · rw [List.mem_append, not_or]
    exact ⟨hat, not_mem_portSuffix (by decide) (by decide)⟩

include hshort

/-- What is read from a written URL: its target without the blanks at its end. -/
theorem parseUrl_buildUrl {t : CString} (ht : parts.target = 47 :: t) :
    parseUrl o (some (buildUrl parts)) =
      complete o parts.scheme (parts.host ++ portSuffix parts.scheme parts.port) none
        (splitQuery o (47 :: trimEnd t)).2 (splitQuery o (47 :: trimEnd t)).1 none none := by
  have hplain := plain_authority hparsed
  have hbuild := buildUrl_eq hscheme
  rw [ht] at hbuild
  have hfront : buildUrl parts = (parts.scheme ++ (schemeMark ++
      (parts.host ++ portSuffix parts.scheme parts.port))) ++ 47 :: t := by
    rw [hbuild]
    simp
  have hhead : (buildUrl parts).head?.any isBlank = false := by
    rw [hbuild]
    rcases hscheme with h | h
    · rw [h]
      rfl
    · rw [h]
      rfl
  have htrim : trim (buildUrl parts) = parts.scheme ++ (schemeMark ++
      (parts.host ++ portSuffix parts.scheme parts.port ++ 47 :: trimEnd t)) := by
    rw [trim_eq_trimEnd hhead, hfront, trimEnd_append _ (by decide)]
    simp
  have hcolon : 58 ∉ parts.scheme := by
    rcases hscheme with h | h
    · rw [h]
      decide
    · rw [h]
      decide
  have hlower : lowerChars parts.scheme = parts.scheme := by
    rcases hscheme with h | h
    · rw [h, lowerChars_http]
    · rw [h, lowerChars_https]
  have hhash : 35 ∉ trimEnd t := by
    intro hmem
    have hinside : 35 ∈ parts.target := by
      rw [ht]
      apply List.mem_cons_of_mem
      exact List.mem_reverse.mp ((List.dropWhile_sublist _).subset (List.mem_reverse.mp hmem))
    rw [hparsed.target, targetOf] at hinside
    split_ifs at hinside with hquery
    · exact hparsed.path_plain.2 hinside
    · rcases List.mem_append.mp hinside with hpath | hmark
      · exact hparsed.path_plain.2 hpath
      · rcases List.mem_cons.mp hmark with heq | hmem
        · exact absurd heq (by decide)
        · exact hparsed.query_plain hmem
  have hlength : (parts.host ++ portSuffix parts.scheme parts.port ++ 47 :: trimEnd t).length <
      2147483648 := by
    have hle := trimEnd_length_le t
    rw [hfront] at hshort
    simp only [List.length_append, List.length_cons] at hshort ⊢
    omega
  rw [parseUrl]
  rw [htrim, if_neg (by rcases hscheme with h | h <;> rw [h] <;> simp [schemeMark]),
    splitScheme_mark o hcolon, hlower, parseScheme, if_neg (by tauto),
    parseRest_text o hplain hhash hlength]

omit hscheme hparsed hshort in
theorem splitQuery_length {rest : CString} (hrest : rest.length < 2147483648) :
    rest.length = (splitQuery o rest).1.length ∧ (splitQuery o rest).2 = [] ∨
      rest.length = (splitQuery o rest).1.length + 1 + (splitQuery o rest).2.length := by
  rcases cutAt_cases o rest (by decide : (63 : UInt8) < 0x80) hrest with
    ⟨_, hcut⟩ | ⟨front, after, rfl, _, hcut⟩
  · rw [splitQuery, hcut]
    exact Or.inl ⟨rfl, rfl⟩
  · rw [splitQuery, hcut]
    right
    simp only [List.length_append, List.length_cons]
    omega

omit hscheme hparsed hshort in
theorem splitQuery_targetOf {path query : CString} (hpath : 63 ∉ path)
    (htarget : (targetOf path query).length < 2147483648) :
    splitQuery o (targetOf path query) = (path, query) := by
  rw [targetOf] at htarget ⊢
  split_ifs at htarget ⊢ with hquery
  · rw [splitQuery, cutAt_none o hpath, hquery]
  · rw [splitQuery, cutAt_append o (by decide) hpath htarget]

/-- A URL is read back exactly when its host has no colon and no bracket in front, and its target no blank
at the end. -/
theorem rebuilt_iff :
    Rebuilt o parts ↔ 58 ∉ parts.host ∧ parts.host.head? ≠ some 91 ∧
      parts.target.getLast?.any isBlank = false := by
  obtain ⟨p, hp⟩ := hparsed.path
  obtain ⟨t, ht⟩ : ∃ t, parts.target = 47 :: t := by
    rw [hparsed.target, targetOf, hp]
    split_ifs
    · exact ⟨p, rfl⟩
    · exact ⟨p ++ 63 :: parts.query, rfl⟩
  have hread := parseUrl_buildUrl o hscheme hparsed hshort ht
  have hbuild := buildUrl_eq hscheme
  have hlength : (parts.host ++ portSuffix parts.scheme parts.port).length +
      parts.target.length ≤ (buildUrl parts).length := by
    rw [hbuild]
    simp only [List.length_append]
    omega
  have htrim : trimEnd parts.target = 47 :: trimEnd t := by
    rw [ht]
    exact trimEnd_append [] (by decide) t
  have htargetShort : parts.target.length < 2147483648 := by omega
  constructor
  · intro h
    obtain ⟨again, hagain, _, hhost, _, hpath, hquery⟩ := h
    rw [hread] at hagain
    obtain ⟨host, port, hok, hempty, rfl⟩ := complete_ok o hagain
    have hhost : host = parts.host := hhost
    rw [hhost] at hok
    obtain ⟨_, hshape⟩ := hostPort_ok o (by omega) hok
    have hplainHost : parts.host.head? ≠ some 91 ∧ 58 ∉ parts.host := by
      rcases hshape with ⟨after, hbracket, hclose⟩ | ⟨hhead, hcolon, _⟩
      · have hmem : 93 ∈ parts.host ++ portSuffix parts.scheme parts.port := by
          rw [hbracket]
          exact List.mem_cons_of_mem _ (List.mem_append_right _ List.mem_cons_self)
        rcases List.mem_append.mp hmem with hhost | hport
        · exact absurd hhost hclose
        · exact absurd hport (not_mem_portSuffix (by decide) (by decide))
      · refine ⟨?_, hcolon⟩
        intro heq
        apply hhead
        obtain ⟨c, tail, hcons⟩ := List.exists_cons_of_ne_nil hparsed.host_ne
        rw [hcons] at heq ⊢
        exact heq
    refine ⟨hplainHost.2, hplainHost.1, ?_⟩
    -- a shorter target would have another path or query
    apply (trimEnd_eq_iff _).mp
    have hpath : (splitQuery o (trimEnd parts.target)).1 = parts.path := by
      rw [htrim]
      exact hpath
    have hquery : (splitQuery o (trimEnd parts.target)).2 = parts.query := by
      rw [htrim]
      exact hquery
    have hle := trimEnd_length_le parts.target
    have hcut := @splitQuery_length o (trimEnd parts.target) (by omega)
    rw [hpath, hquery] at hcut
    have hwhole : parts.target.length ≤ (trimEnd parts.target).length := by
      have htarget := congrArg List.length hparsed.target
      rw [targetOf] at htarget
      split_ifs at htarget with hnil
      · omega
      · rw [List.length_append, List.length_cons] at htarget
        rcases hcut with ⟨_, hnone⟩ | hmark
        · exact absurd hnone hnil
        · omega
    have hsuffix : (trimEnd parts.target).reverse <:+ parts.target.reverse := by
      rw [trimEnd, List.reverse_reverse]
      exact List.dropWhile_suffix _
    have heq := hsuffix.eq_of_length_le (by simpa using hwhole)
    exact List.reverse_injective heq
  · intro h
    have hhost := @hostPort_write o parts.scheme _ _ h.2.1 hparsed.host_ne h.1 hparsed.port
      (by omega)
    have hkept := (trimEnd_eq_iff parts.target).mpr h.2.2
    rw [htrim] at hkept
    have hsplit := @splitQuery_targetOf o _ parts.query hparsed.path_plain.1 (by
      rw [← hparsed.target]
      exact htargetShort)
    rw [← hparsed.target, ← hkept] at hsplit
    rw [Rebuilt, hread, hsplit, complete, hhost]
    dsimp only
    rw [if_neg hparsed.host_ne]
    exact ⟨_, rfl, rfl, rfl, rfl, rfl, rfl⟩

end Rebuild

/-! ### The order of the delimiters -/

/-- The scheme as it is written: in front of a `://` that no `?` and no `#` stands before. -/
def splitOrdered (o : Machine) (rest : CString) : CString × CString :=
  match first schemeMark rest with
  | some place =>
      if 63 ∈ rest.take place ∨ 35 ∈ rest.take place then splitSlashes o rest
      else (lowerChars (rest.take place), rest.drop (place + schemeMark.length))
  | none => splitSlashes o rest

/-- `parseUrl` with the query and the fragment cut off before a scheme is looked for. -/
def parseOrdered (o : Machine) (url : CString) : Except UrlError Url :=
  if trim url = [] then .error .empty else parseScheme o (splitOrdered o (trim url))

/-- No `?` and no `#` stands before the first `://`. -/
def SchemeFirst (rest : CString) : Prop :=
  ∀ place, first schemeMark rest = some place → 63 ∉ rest.take place ∧ 35 ∉ rest.take place

theorem splitScheme_eq (o : Machine) (rest : CString) :
    splitScheme o rest =
      match first schemeMark rest with
      | some place => (lowerChars (rest.take place), rest.drop (place + schemeMark.length))
      | none => splitSlashes o rest := by
  have hmark : schemeMark ≠ [] := List.cons_ne_nil _ _
  have hfind : contains rest schemeMark = (first schemeMark rest).isSome := by
    rw [contains, find, if_pos (Nat.zero_le _), List.drop_zero, Option.isSome_map]
  rw [splitScheme, hfind]
  cases hfirst : first schemeMark rest with
  | none => rfl
  | some place =>
      rw [Option.isSome_some, if_pos rfl, split_of_ne_nil hmark, pieces_of_some hmark hfirst]
      dsimp only
      rw [List.headD_cons, List.drop_one, List.tail_cons, StringPieces.join, join_pieces]

/-- Lower case keeps a `?` and a `#`. -/
theorem mem_lowerChars {s : CString} {c : UInt8} (hc : c = 63 ∨ c = 35) (hmem : c ∈ s) :
    c ∈ lowerChars s := by
  obtain ⟨front, after, rfl⟩ := List.append_of_mem hmem
  have hascii : c < 0x80 := by
    rcases hc with rfl | rfl
    · decide
    · decide
  have hkept : mapped toLowerCP [c] = [c] := by
    rcases hc with rfl | rfl
    · decide
    · decide
  rw [lowerChars, mapChars_eq, List.drop_zero, characters_append_ascii front hascii after,
    List.map_append, List.map_cons, hkept]
  simp

theorem hostPort_error (o : Machine) {scheme authority name : CString} :
    hostPort o scheme authority ≠ .error (.badScheme name) := by
  have hport : ∀ text, portNumber text ≠ .error (.badScheme name) := by
    intro text h
    rw [portNumber] at h
    dsimp only at h
    split_ifs at h <;> cases h
  have hmap : ∀ (text host : CString),
      ((portNumber text).map fun port => (host, port)) ≠ .error (.badScheme name) := by
    intro text host h
    cases hnumber : portNumber text with
    | ok n =>
        rw [hnumber] at h
        cases h
    | error e =>
        rw [hnumber] at h
        exact hport text (hnumber.trans (congrArg _ (Except.error.inj h)))
  intro h
  rw [hostPort] at h
  dsimp only at h
  split_ifs at h
  · cases h
  · exact hmap _ _ h
  · cases hcut : cutAt o authority 58 with
    | none =>
        rw [hcut] at h
        cases h
    | some pair =>
        rw [hcut] at h
        exact hmap _ _ h

theorem parseRest_error (o : Machine) {scheme rest name : CString} :
    parseRest o scheme rest ≠ .error (.badScheme name) := by
  intro h
  rw [parseRest] at h
  unfold complete at h
  split at h
  · next e he =>
      rw [Except.error.inj h] at he
      exact hostPort_error o he
  · split_ifs at h
    cases Except.error.inj h

theorem splitSlashes_scheme (o : Machine) (rest : CString) : (splitSlashes o rest).1 = https := by
  rw [splitSlashes]
  split_ifs
  · rfl
  · rfl

/-- The order of the delimiters is kept exactly in the texts without a `://` behind a `?` or `#`. -/
theorem ordered_iff (o : Machine) {url : CString} (hurl : trim url ≠ []) :
    parseUrl o (some url) = parseOrdered o url ↔ SchemeFirst (trim url) := by
  rw [parseUrl, parseOrdered]
  rw [if_neg hurl, if_neg hurl, splitScheme_eq, splitOrdered]
  cases hfirst : first schemeMark (trim url) with
  | none =>
      apply iff_of_true rfl
      intro place hplace
      rw [hfirst] at hplace
      cases hplace
  | some place =>
      dsimp only
      by_cases hbefore : 63 ∈ (trim url).take place ∨ 35 ∈ (trim url).take place
      · rw [if_pos hbefore]
        apply iff_of_false
        · intro h
          have hbad : ∀ name, (63 ∉ name ∧ 35 ∉ name) → lowerChars ((trim url).take place) ≠ name := by
            intro name hname heq
            rcases hbefore with hmem | hmem
            · exact hname.1 (heq ▸ mem_lowerChars (Or.inl rfl) hmem)
            · exact hname.2 (heq ▸ mem_lowerChars (Or.inr rfl) hmem)
          rw [parseScheme, if_pos ⟨hbad http (by decide), hbad https (by decide)⟩, parseScheme,
            splitSlashes_scheme, if_neg (by simp)] at h
          exact parseRest_error o h.symm
        · intro h
          have hplain := h place hfirst
          tauto
      · rw [if_neg hbefore]
        apply iff_of_true rfl
        intro place' hplace'
        rw [hfirst] at hplace'
        obtain rfl := Option.some.inj hplace'
        tauto

end Httpx

end EZLanguage
