import Mathlib.Algebra.GroupWithZero.Nat
import Mathlib.Algebra.Group.Int.Defs
import EZLanguage.Bytecode.Chunk

/-!
# Percent encoding and base64url

The text encoders and decoders of the standard library. The percent decoder walks the text by index and
looks two bytes ahead, so its reads are optional here and a read behind the end would have no result. The
base64 loops shift whole bytes or sextets through one `int` that is never cleared: it is a 32-bit vector,
a left shift drops its high bits and a right shift copies its sign. Only its low bits are pending, and the
round trip rests on which bits of the encoder's and of the decoder's accumulator these are.
-/

namespace EZLanguage

namespace Encoding

/-! ### Percent encoding -/

/-- `isalnum` in the "C" locale. -/
def isalnum (c : UInt8) : Bool :=
  (48 ≤ c && c ≤ 57) || (65 ≤ c && c ≤ 90) || (97 ≤ c && c ≤ 122)

/-- The bytes that stand for themselves: letters, digits and `-_.~`. -/
def unreserved (c : UInt8) : Bool :=
  isalnum c || c == 45 || c == 95 || c == 46 || c == 126

def hex : CString := lit "0123456789ABCDEF"

theorem high_lt (c : UInt8) : c.toNat / 16 < hex.length := by
  have hc : c.toNat < 256 := c.toNat_lt
  have hlen : hex.length = 16 := by decide
  omega

theorem low_lt (c : UInt8) : c.toNat % 16 < hex.length := by
  have hlen : hex.length = 16 := by decide
  omega

/-- What `urlEncode` appends for a byte: itself, `+` for a space, else `%` and two digits. -/
def urlEncodeByte (c : UInt8) : CString :=
  if unreserved c then [c]
  else if c = 32 then [43]
  else [37, hex.get ⟨c.toNat / 16, high_lt c⟩, hex.get ⟨c.toNat % 16, low_lt c⟩]

def urlEncode (str : CString) : CString := str.flatMap urlEncodeByte

/-- A byte that is no digit counts as zero. -/
def fromHex (c : UInt8) : Nat :=
  if 48 ≤ c ∧ c ≤ 57 then c.toNat - 48
  else if 65 ≤ c ∧ c ≤ 70 then c.toNat - 65 + 10
  else if 97 ≤ c ∧ c ≤ 102 then c.toNat - 97 + 10
  else 0

/-- The loop of `urlDecode` from index `i` on. There is no result when it reads behind the end. -/
def urlDecodeFrom (str : CString) (i : Nat) (result : CString) : Option CString :=
  if i < str.length then
    match str[i]? with
    | none => none
    | some c =>
        if c = 43 then urlDecodeFrom str (i + 1) (result ++ [32])
        else if c = 37 ∧ i + 2 < str.length then
          match str[i + 1]?, str[i + 2]? with
          | some high, some low =>
              let val := fromHex high <<< 4 ||| fromHex low
              urlDecodeFrom str (i + 2 + 1) (result ++ [UInt8.ofNat val])
          | _, _ => none
        else urlDecodeFrom str (i + 1) (result ++ [c])
  else some result
termination_by str.length - i

def urlDecode (str : CString) : Option CString := urlDecodeFrom str 0 []

/-! ### base64url -/

def b64_chars : CString := lit "ABCDEFGHIJKLMNOPQRSTUVWXYZabcdefghijklmnopqrstuvwxyz0123456789-_"

theorem b64_chars_length : b64_chars.length = 64 := by decide

theorem sextet_lt (x : BitVec 32) : (x &&& 0x3F).toNat < b64_chars.length := by
  have hle : x.toNat &&& 63 ≤ 63 := Nat.and_le_right
  rw [b64_chars_length, BitVec.toNat_and]
  exact Nat.lt_succ_of_le hle

/-- The digit for the six low bits: `b64_chars[x & 0x3F]`. -/
def digit (x : BitVec 32) : UInt8 := b64_chars.get ⟨(x &&& 0x3F).toNat, sextet_lt x⟩

/-- The inner `while`: the digits it pushes and the `valb` it leaves. -/
def pushDigits (val : BitVec 32) (valb : Int) : CString × Int :=
  if 0 ≤ valb then
    let rest := pushDigits val (valb - 6)
    (digit (val.sshiftRight valb.toNat) :: rest.1, rest.2)
  else ([], valb)
termination_by (valb + 1).toNat

/-- The loop of `b64url_encode` over what is left of the text, and the digit after it. -/
def encodeFrom (val : BitVec 32) (valb : Int) : CString → CString
  | [] => if valb > -6 then [digit ((val <<< 8).sshiftRight (valb + 8).toNat)] else []
  | c :: rest =>
      let val := (val <<< 8) + BitVec.ofNat 32 c.toNat
      let pushed := pushDigits val (valb + 8)
      pushed.1 ++ encodeFrom val pushed.2 rest

def b64url_encode (str : CString) : CString := encodeFrom 0 (-6) str

/-- The table of the decoder: the value of every digit and -1 for the other bytes. -/
def T : List Int :=
  b64_chars.zipIdx.foldl (fun T entry => T.set entry.1.toNat entry.2) (List.replicate 256 (-1))

/-- The loop of `b64url_decode` over what is left of the text. There is no result when it reads behind
the end of its table. -/
def decodeFrom (val : BitVec 32) (valb : Int) : CString → Option CString
  | [] => some []
  | c :: rest =>
      match T[c.toNat]? with
      | none => none
      | some t =>
          if t = -1 then some []
          else
            let val := (val <<< 6) + BitVec.ofInt 32 t
            let valb := valb + 6
            if 0 ≤ valb then
              (decodeFrom val (valb - 8) rest).map
                (UInt8.ofNat (val.sshiftRight valb.toNat &&& 0xFF).toNat :: ·)
            else decodeFrom val valb rest

example : decodeFrom 0 (-8) [] = some [] := by simp [decodeFrom]

def b64url_decode (str : CString) : Option CString := decodeFrom 0 (-8) str

/-! ### The percent decoder undoes the encoder -/

theorem fromHex_hex : ∀ i : Fin hex.length, fromHex (hex.get i) = i.val := by decide

theorem hex_unreserved : ∀ i : Fin hex.length, unreserved (hex.get i) = true := by decide

theorem unreserved_ne {c : UInt8} (hc : unreserved c = true) : c ≠ 43 ∧ c ≠ 37 := by
  constructor <;> intro heq <;> subst heq <;> exact absurd hc (by decide)

theorem ofNat_digits (c : UInt8) : UInt8.ofNat ((c.toNat / 16) <<< 4 ||| c.toNat % 16) = c := by
  have hlow : c.toNat % 16 < 2 ^ 4 := Nat.mod_lt _ (by decide)
  have hsum : (c.toNat / 16) <<< 4 ||| c.toNat % 16 = c.toNat := by
    rw [← Nat.shiftLeft_add_eq_or_of_lt hlow, Nat.shiftLeft_eq]
    omega
  rw [hsum, UInt8.ofNat_toNat]

section step

variable {str : CString} {i : Nat} (result : CString)

theorem urlDecodeFrom_plus (hc : str[i]? = some 43) :
    urlDecodeFrom str i result = urlDecodeFrom str (i + 1) (result ++ [32]) := by
  have hi : i < str.length := (List.getElem?_eq_some_iff.mp hc).choose
  rw [urlDecodeFrom.eq_def, if_pos hi, hc]
  exact if_pos rfl

theorem urlDecodeFrom_escape {high low : UInt8} (hc : str[i]? = some 37)
    (hhigh : str[i + 1]? = some high) (hlow : str[i + 2]? = some low) :
    urlDecodeFrom str i result =
      urlDecodeFrom str (i + 2 + 1)
        (result ++ [UInt8.ofNat (fromHex high <<< 4 ||| fromHex low)]) := by
  have hi : i + 2 < str.length := (List.getElem?_eq_some_iff.mp hlow).choose
  have hi' : i < str.length := by omega
  have hplus : ¬ (37 : UInt8) = 43 := by decide
  rw [urlDecodeFrom.eq_def, if_pos hi', hc]
  simp only [if_neg hplus, hi, and_self, if_true, hhigh, hlow]

theorem urlDecodeFrom_other {c : UInt8} (hc : str[i]? = some c) (hplus : c ≠ 43)
    (hpercent : ¬ (c = 37 ∧ i + 2 < str.length)) :
    urlDecodeFrom str i result = urlDecodeFrom str (i + 1) (result ++ [c]) := by
  have hi : i < str.length := (List.getElem?_eq_some_iff.mp hc).choose
  rw [urlDecodeFrom.eq_def, if_pos hi, hc]
  simp only [if_neg hplus, if_neg hpercent]

/-- In front of the encoding of a byte the decoder takes it all and appends the byte. -/
theorem urlDecodeFrom_byte {c : UInt8} {rest : CString}
    (hdrop : str.drop i = urlEncodeByte c ++ rest) :
    urlDecodeFrom str i result =
      urlDecodeFrom str (i + (urlEncodeByte c).length) (result ++ [c]) := by
  have hget : ∀ j, str[i + j]? = (urlEncodeByte c ++ rest)[j]? := by
    intro j
    rw [← hdrop, List.getElem?_drop]
  unfold urlEncodeByte at hget ⊢
  split at hget
  · next hsafe =>
      obtain ⟨hplus, hpercent⟩ := unreserved_ne hsafe
      have hc : str[i]? = some c := hget 0
      rw [if_pos hsafe, urlDecodeFrom_other result hc hplus (fun h => hpercent h.1),
        List.length_singleton]
  · next hsafe =>
      rw [if_neg hsafe]
      split at hget
      · next hspace =>
          have hc : str[i]? = some 43 := hget 0
          rw [if_pos hspace, hspace, urlDecodeFrom_plus result hc, List.length_singleton]
      · next hspace =>
          have hc : str[i]? = some 37 := hget 0
          rw [if_neg hspace, urlDecodeFrom_escape result hc (hget 1) (hget 2),
            fromHex_hex, fromHex_hex, ofNat_digits]
          rfl

end step

theorem urlDecodeFrom_encode (rest : CString) : ∀ (str : CString) (i : Nat) (result : CString),
    str.drop i = urlEncode rest → urlDecodeFrom str i result = some (result ++ rest) := by
  induction rest with
  | nil =>
      intro str i result hdrop
      have hi : ¬ i < str.length := by
        have hlen := congrArg List.length hdrop
        rw [List.length_drop, urlEncode, List.flatMap_nil, List.length_nil] at hlen
        omega
      rw [urlDecodeFrom.eq_def, if_neg hi, List.append_nil]
  | cons c rest ih =>
      intro str i result hdrop
      rw [urlEncode, List.flatMap_cons] at hdrop
      have hnext : str.drop (i + (urlEncodeByte c).length) = urlEncode rest := by
        rw [← List.drop_drop, hdrop, List.drop_left, urlEncode]
      rw [urlDecodeFrom_byte result hdrop, ih _ _ _ hnext, List.append_assoc, List.singleton_append]

theorem urlDecode_urlEncode (str : CString) : urlDecode (urlEncode str) = some str := by
  have h := urlDecodeFrom_encode str (urlEncode str) 0 [] rfl
  rwa [List.nil_append] at h

/-- The decoder reads no byte that is not there: each read of the loop is below the length. -/
theorem urlDecodeFrom_total (str : CString) (i : Nat) (result : CString) :
    (urlDecodeFrom str i result).isSome := by
  by_cases hi : i < str.length
  · have hc : str[i]? = some str[i] := List.getElem?_eq_getElem hi
    by_cases hplus : str[i] = 43
    · rw [hplus] at hc
      rw [urlDecodeFrom_plus result hc]
      exact urlDecodeFrom_total str (i + 1) _
    · by_cases hpercent : str[i] = 37 ∧ i + 2 < str.length
      · have hi' : i + 1 < str.length := by omega
        rw [hpercent.1] at hc
        rw [urlDecodeFrom_escape result hc (List.getElem?_eq_getElem hi')
          (List.getElem?_eq_getElem hpercent.2)]
        exact urlDecodeFrom_total str (i + 2 + 1) _
      · rw [urlDecodeFrom_other result hc hplus hpercent]
        exact urlDecodeFrom_total str (i + 1) _
  · rw [urlDecodeFrom.eq_def, if_neg hi, Option.isSome_some]
termination_by str.length - i

/-- An encoded text is letters, digits, `-_.~`, `+` and `%`. -/
theorem urlEncode_alphabet {str : CString} {c : UInt8} (hc : c ∈ urlEncode str) :
    unreserved c = true ∨ c = 43 ∨ c = 37 := by
  obtain ⟨b, hb, hmem⟩ := List.mem_flatMap.mp hc
  unfold urlEncodeByte at hmem
  split at hmem
  · next hsafe =>
      rw [List.mem_singleton.mp hmem]
      exact Or.inl hsafe
  · split at hmem
    · exact Or.inr (Or.inl (List.mem_singleton.mp hmem))
    · simp only [List.mem_cons, List.not_mem_nil, or_false] at hmem
      obtain h | h | h := hmem
      · exact Or.inr (Or.inr h)
      · rw [h]
        exact Or.inl (hex_unreserved _)
      · rw [h]
        exact Or.inl (hex_unreserved _)

/-! ### The base64 decoder undoes the encoder -/

section bits

variable (val : BitVec 32)

/-- The `b` bits above the `k` lowest are the accumulator's own, whatever sign is shifted in. -/
theorem toNat_window (k b : Nat) (hkb : k + b ≤ 32) :
    (val.sshiftRight k &&& BitVec.ofNat 32 (2 ^ b - 1)).toNat = val.toNat / 2 ^ k % 2 ^ b := by
  have hmask : 2 ^ b - 1 < 2 ^ 32 := by
    have hle : 2 ^ b ≤ 2 ^ 32 := Nat.pow_le_pow_right (by decide) (by omega)
    omega
  apply Nat.eq_of_testBit_eq
  intro i
  rw [BitVec.toNat_and, Nat.testBit_and, BitVec.testBit_toNat, BitVec.getLsbD_sshiftRight,
    BitVec.toNat_ofNat, Nat.mod_eq_of_lt hmask, Nat.testBit_two_pow_sub_one,
    Nat.testBit_mod_two_pow, Nat.testBit_div_two_pow]
  by_cases hi : i < b
  · have hi32 : ¬ 32 ≤ i := by omega
    have hsum : k + i < 32 := by omega
    rw [if_pos hsum, Nat.add_comm i k, ← BitVec.testBit_toNat]
    simp [hi, hi32]
  · simp [hi]

theorem toNat_pushByte (c : UInt8) :
    ((val <<< 8) + BitVec.ofNat 32 c.toNat).toNat = (val.toNat * 256 + c.toNat) % 2 ^ 32 := by
  have hc : c.toNat < 256 := c.toNat_lt
  rw [BitVec.toNat_add, BitVec.toNat_shiftLeft, BitVec.toNat_ofNat, Nat.shiftLeft_eq]
  omega

theorem toNat_pushSextet (t : Nat) :
    ((val <<< 6) + BitVec.ofInt 32 (t : Int)).toNat = (val.toNat * 64 + t) % 2 ^ 32 := by
  rw [BitVec.ofInt_natCast, BitVec.toNat_add, BitVec.toNat_shiftLeft, BitVec.toNat_ofNat,
    Nat.shiftLeft_eq]
  omega

end bits

theorem T_digit : ∀ i : Fin b64_chars.length, T[(b64_chars.get i).toNat]? = some (i.val : Int) := by
  decide

set_option maxRecDepth 2000 in
theorem T_length : T.length = 256 := by decide

/-- The value the decoder looks up for a digit is the six bits it was made from. -/
theorem T_of_digit {x : BitVec 32} {n : Nat} (hx : (x &&& 0x3F).toNat = n) :
    T[(digit x).toNat]? = some (n : Int) := by
  rw [digit, T_digit, ← hx]

/-- A digit that completes no byte is held back. -/
theorem decodeFrom_hold {dval x : BitVec 32} {valb valb' : Int} {n : Nat} (rest : CString)
    (hx : (x &&& 0x3F).toNat = n) (hvalb : valb + 6 = valb') (hneg : valb' < 0) :
    decodeFrom dval valb (digit x :: rest) =
      decodeFrom ((dval <<< 6) + BitVec.ofInt 32 (n : Int)) valb' rest := by
  have hn : ¬ (n : Int) = -1 := by omega
  have hpos : ¬ 0 ≤ valb' := by omega
  rw [decodeFrom, T_of_digit hx]
  simp only [if_neg hn, hvalb, if_neg hpos]

/-- A digit that completes a byte. -/
theorem decodeFrom_take {dval x : BitVec 32} {valb : Int} {n : Nat} {rest out : CString}
    (hx : (x &&& 0x3F).toNat = n) (k : Nat) (hvalb : valb + 6 = k) (hk : k ≤ 24) {b : UInt8}
    (hb : (dval.toNat * 64 + n) % 2 ^ 32 / 2 ^ k % 256 = b.toNat)
    (hout : decodeFrom ((dval <<< 6) + BitVec.ofInt 32 (n : Int)) (valb - 2) rest = some out) :
    decodeFrom dval valb (digit x :: rest) = some (b :: out) := by
  have hn : ¬ (n : Int) = -1 := by omega
  have hbyte : UInt8.ofNat
      (((dval <<< 6) + BitVec.ofInt 32 (n : Int)).sshiftRight k &&& 0xFF).toNat = b := by
    have hwindow := toNat_window ((dval <<< 6) + BitVec.ofInt 32 (n : Int)) k 8 (by omega)
    rw [toNat_pushSextet] at hwindow
    have hval := hwindow.trans hb
    exact (congrArg UInt8.ofNat hval).trans UInt8.ofNat_toNat
  have hpos : (0 : Int) ≤ valb + 6 := by omega
  have hnext : valb + 6 - 8 = valb - 2 := by omega
  rw [decodeFrom, T_of_digit hx]
  simp only [if_neg hn, if_pos hpos, hnext]
  rw [hvalb, Int.toNat_natCast, hbyte, hout, Option.map_some]

theorem pushDigits_stop (val : BitVec 32) {valb : Int} (hvalb : valb < 0) :
    pushDigits val valb = ([], valb) := by
  rw [pushDigits.eq_def, if_neg (by omega)]

theorem pushDigits_one (val : BitVec 32) {valb : Int} (k : Nat) (hvalb : valb = k) (hk : k < 6) :
    pushDigits val valb = ([digit (val.sshiftRight k)], valb - 6) := by
  rw [pushDigits.eq_def, if_pos (by omega), pushDigits_stop val (by omega), hvalb,
    Int.toNat_natCast]

/-- The encoder over a byte with two or four bits pending, or none: one digit. -/
theorem encodeFrom_one {val val' : BitVec 32} {valb valb' : Int} {c : UInt8} (k : Nat)
    (hval : (val <<< 8) + BitVec.ofNat 32 c.toNat = val') (hvalb : valb + 8 = k) (hk : k < 6)
    (hvalb' : valb + 2 = valb') (rest : CString) :
    encodeFrom val valb (c :: rest) = digit (val'.sshiftRight k) :: encodeFrom val' valb' rest := by
  have hnext : valb + 8 - 6 = valb' := by omega
  rw [encodeFrom, hval, pushDigits_one val' k hvalb hk, hnext, List.singleton_append]

/-- The encoder over a byte with four bits pending: two digits. -/
theorem encodeFrom_two {val val' : BitVec 32} {c : UInt8}
    (hval : (val <<< 8) + BitVec.ofNat 32 c.toNat = val') (rest : CString) :
    encodeFrom val (-2) (c :: rest) =
      digit (val'.sshiftRight 6) :: digit (val'.sshiftRight 0) :: encodeFrom val' (-6) rest := by
  have hsix : (-2 : Int) + 8 = 6 := by decide
  have hzero : (6 : Int) - 6 = 0 := by decide
  have hlast : pushDigits val' 0 = ([digit (val'.sshiftRight 0)], 0 - 6) :=
    pushDigits_one val' 0 (by decide) (by decide)
  have hboth : pushDigits val' 6 =
      ([digit (val'.sshiftRight 6), digit (val'.sshiftRight 0)], -6) := by
    rw [pushDigits.eq_def, if_pos (by decide), hzero, hlast]
    rfl
  rw [encodeFrom, hval, hsix, hboth, List.cons_append, List.singleton_append]

/-- The decoder behind the encoder over a rest of the text. Together they hold back no bit, or the eight
bits of one byte: `val` its last two and `dval` the six before them, or four and four. -/
structure Undone (rest : CString) : Prop where
  whole : ∀ val dval, decodeFrom dval (-8) (encodeFrom val (-6) rest) = some rest
  six : ∀ (val dval : BitVec 32) (b : UInt8), b.toNat = dval.toNat % 64 * 4 + val.toNat % 4 →
    decodeFrom dval (-2) (encodeFrom val (-4) rest) = some (b :: rest)
  four : ∀ (val dval : BitVec 32) (b : UInt8), b.toNat = dval.toNat % 16 * 16 + val.toNat % 16 →
    decodeFrom dval (-4) (encodeFrom val (-2) rest) = some (b :: rest)

/-- The digit behind the text completes the byte that is held back. -/
theorem undone_nil : Undone [] := by
  have hshift : ∀ val : BitVec 32, (val <<< 8).toNat = val.toNat * 256 % 2 ^ 32 := by
    intro val
    rw [BitVec.toNat_shiftLeft, Nat.shiftLeft_eq]
  constructor
  · intro val dval
    rfl
  · intro val dval b hb
    have hx := toNat_window (val <<< 8) 4 6 (by decide)
    rw [hshift] at hx
    rw [encodeFrom, if_pos (by decide)]
    exact decodeFrom_take hx 4 (by decide) (by decide) (by omega) rfl
  · intro val dval b hb
    have hx := toNat_window (val <<< 8) 6 6 (by decide)
    rw [hshift] at hx
    rw [encodeFrom, if_pos (by decide)]
    exact decodeFrom_take hx 2 (by decide) (by decide) (by omega) rfl

theorem undone_cons {rest : CString} (ih : Undone rest) (c : UInt8) : Undone (c :: rest) := by
  have hc : c.toNat < 256 := c.toNat_lt
  constructor
  · intro val dval
    have hpush := toNat_pushByte val c
    generalize hval' : (val <<< 8) + BitVec.ofNat 32 c.toNat = val' at hpush
    have hx := toNat_window val' 2 6 (by decide)
    have hheld := toNat_pushSextet dval (val'.toNat / 2 ^ 2 % 2 ^ 6)
    rw [encodeFrom_one 2 hval' (by decide) (by decide) (by decide : (-6 : Int) + 2 = -4),
      decodeFrom_hold _ hx (by decide : (-8 : Int) + 6 = -2) (by decide)]
    apply ih.six val' _ c
    rw [hheld]
    omega
  · intro val dval b hb
    have hpush := toNat_pushByte val c
    generalize hval' : (val <<< 8) + BitVec.ofNat 32 c.toNat = val' at hpush
    have hx := toNat_window val' 4 6 (by decide)
    have hheld := toNat_pushSextet dval (val'.toNat / 2 ^ 4 % 2 ^ 6)
    rw [encodeFrom_one 4 hval' (by decide) (by decide) (by decide : (-4 : Int) + 2 = -2)]
    apply decodeFrom_take hx 4 (by decide) (by decide) (by omega)
    apply ih.four val' _ c
    rw [hheld]
    omega
  · intro val dval b hb
    have hpush := toNat_pushByte val c
    generalize hval' : (val <<< 8) + BitVec.ofNat 32 c.toNat = val' at hpush
    have hfirst := toNat_window val' 6 6 (by decide)
    have hsecond := toNat_window val' 0 6 (by decide)
    have hheld := toNat_pushSextet dval (val'.toNat / 2 ^ 6 % 2 ^ 6)
    rw [encodeFrom_two hval']
    apply decodeFrom_take hfirst 2 (by decide) (by decide) (by omega)
    apply decodeFrom_take hsecond 0 (by decide) (by decide) (by rw [hheld]; omega)
    exact ih.whole val' _

theorem undone (str : CString) : Undone str := by
  induction str with
  | nil => exact undone_nil
  | cons c rest ih => exact undone_cons ih c

theorem b64url_decode_encode (str : CString) : b64url_decode (b64url_encode str) = some str :=
  (undone str).whole 0 0

/-! ### The alphabet and the end of the text -/

theorem digit_mem (x : BitVec 32) : digit x ∈ b64_chars := List.get_mem _ _

theorem mem_pushDigits {val : BitVec 32} {valb : Int} {c : UInt8}
    (hc : c ∈ (pushDigits val valb).1) : c ∈ b64_chars := by
  rw [pushDigits.eq_def] at hc
  split at hc
  · obtain hdigit | hrest := List.mem_cons.mp hc
    · rw [hdigit]
      exact digit_mem _
    · exact mem_pushDigits hrest
  · exact absurd hc List.not_mem_nil
termination_by (valb + 1).toNat

theorem mem_encodeFrom {str : CString} {c : UInt8} : ∀ {val : BitVec 32} {valb : Int},
    c ∈ encodeFrom val valb str → c ∈ b64_chars := by
  induction str with
  | nil =>
      intro val valb hc
      rw [encodeFrom] at hc
      split at hc
      · rw [List.mem_singleton.mp hc]
        exact digit_mem _
      · exact absurd hc List.not_mem_nil
  | cons b rest ih =>
      intro val valb hc
      rw [encodeFrom] at hc
      obtain hpushed | hrest := List.mem_append.mp hc
      · exact mem_pushDigits hpushed
      · exact ih hrest

/-- Every byte has an entry in the table. -/
theorem decodeFrom_total (str : CString) : ∀ (val : BitVec 32) (valb : Int),
    (decodeFrom val valb str).isSome := by
  induction str with
  | nil =>
      intro val valb
      rfl
  | cons c rest ih =>
      intro val valb
      have hlt : c.toNat < T.length := by
        rw [T_length]
        exact c.toNat_lt
      rw [decodeFrom, List.getElem?_eq_getElem hlt]
      dsimp only
      split
      · rfl
      · split
        · rw [Option.isSome_map]
          exact ih _ _
        · exact ih _ _

/-- A decoder undoes its encoder on every byte string. So both encoders are injective, their texts stay
in their alphabets, and both decoders come to an end on every text and read nothing behind it. -/
theorem encodings_round_trip :
    (∀ str, urlDecode (urlEncode str) = some str) ∧
      (∀ str, b64url_decode (b64url_encode str) = some str) ∧
      Function.Injective urlEncode ∧ Function.Injective b64url_encode ∧
      (∀ str, ∀ c ∈ urlEncode str, unreserved c = true ∨ c = 43 ∨ c = 37) ∧
      (∀ str, ∀ c ∈ b64url_encode str, c ∈ b64_chars) ∧
      (∀ str, (urlDecode str).isSome) ∧ ∀ str, (b64url_decode str).isSome := by
  have hurl := urlDecode_urlEncode
  have hb64 := b64url_decode_encode
  refine ⟨hurl, hb64, ?_, ?_, ?_, ?_, ?_, ?_⟩
  · intro a b hab
    have h := hurl a
    rw [hab, hurl b] at h
    exact (Option.some.inj h).symm
  · intro a b hab
    have h := hb64 a
    rw [hab, hb64 b] at h
    exact (Option.some.inj h).symm
  · intro str c hc
    exact urlEncode_alphabet hc
  · intro str c hc
    exact mem_encodeFrom hc
  · intro str
    exact urlDecodeFrom_total str 0 []
  · intro str
    exact decodeFrom_total str 0 (-8)

/-- The byte 255 as `%FF` and as `_w`. -/
theorem encodings_round_trip_255 :
    urlDecode (urlEncode [255]) = some [255] ∧ b64url_decode (b64url_encode [255]) = some [255] ∧
      (unreserved 37 = true ∨ (37 : UInt8) = 43 ∨ (37 : UInt8) = 37) := by
  have h := encodings_round_trip
  exact ⟨h.1 [255], h.2.1 [255], h.2.2.2.2.1 [255] 37 (by decide)⟩

end Encoding

end EZLanguage
