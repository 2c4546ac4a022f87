import Mathlib.Algebra.GroupWithZero.Nat
import Mathlib.Algebra.Group.Int.Defs
import Mathlib.Tactic.Common

/-!
# Text and bytes

The library turns strings and byte arrays into hexadecimal digits, Base64 and padded blocks. It goes through
the characters of a string by their code points, and cuts every number down to eight bits somewhere.

What is decoded is a text of characters up to 255. So texts of such characters come back, and no others;
byte arrays always do.
-/

namespace EZLanguage

namespace Crypto

abbrev Text := List Char

/-- `ord(substr(s, i, 1))` for each character, which an array of numbers has in its place. -/
def codes (s : Text) : List Nat := s.map Char.toNat

/-- `res = res + chr(b)` for each byte. -/
def chars (bytes : List Nat) : Text := bytes.map Char.ofNat

/-- `indexOf(table, substr(s, i, 1))`: behind the end of the text the empty string is found at once. A
number that is not found, -1, is given by its two's complement. -/
def indexIn (table : Text) : Option Char → Nat
  | none => 0
  | some c => if c ∈ table then table.idxOf c else 2 ^ 64 - 1

/-- `substr(table, i, 1)`. -/
def charAt (table : Text) (i : Nat) : Text := (table[i]?).toList

namespace Hex

def digits : Text := ['0', '1', '2', '3', '4', '5', '6', '7', '8', '9', 'a', 'b', 'c', 'd', 'e', 'f']

def encode : List Nat → Text
  | [] => []
  | b :: input => charAt digits (b >>> 4 &&& 15) ++ charAt digits (b &&& 15) ++ encode input

/-- `lower` of a character up to 127. Others are no digits, in lower case as well. -/
def lower (c : Char) : Char := if c.isUpper then Char.ofNat (c.toNat + 32) else c

inductive Fault where
  | oddLength
  | invalidCharacter (offset : Nat)
  deriving DecidableEq

/-- The loop of `decodeToBytes`, at index `i`. -/
def decodeLoop (i : Nat) : Text → Except Fault (List Nat)
  | cHi :: cLo :: rest =>
      let vHi := indexIn digits (some (lower cHi))
      let vLo := indexIn digits (some (lower cLo))
      if vHi = 2 ^ 64 - 1 ∨ vLo = 2 ^ 64 - 1 then .error (.invalidCharacter i)
      else (decodeLoop (i + 2) rest).map ((vHi <<< 4 ||| vLo) :: ·)
  | _ => .ok []

def decodeToBytes (hexStr : Text) : Except Fault (List Nat) :=
  if hexStr.length % 2 ≠ 0 then .error .oddLength else decodeLoop 0 hexStr

def decode (hexStr : Text) : Except Fault Text := (decodeToBytes hexStr).map chars

end Hex

namespace Base64

def alphabet : Text :=
  ['A', 'B', 'C', 'D', 'E', 'F', 'G', 'H', 'I', 'J', 'K', 'L', 'M', 'N', 'O', 'P', 'Q', 'R', 'S', 'T', 'U',
    'V', 'W', 'X', 'Y', 'Z', 'a', 'b', 'c', 'd', 'e', 'f', 'g', 'h', 'i', 'j', 'k', 'l', 'm', 'n', 'o', 'p',
    'q', 'r', 's', 't', 'u', 'v', 'w', 'x', 'y', 'z', '0', '1', '2', '3', '4', '5', '6', '7', '8', '9', '+',
    '/']

/-- The character of six bits of a number, `Base64.chars` at `(n >> k) & 63`. -/
def sextet (n k : Nat) : Text := charAt alphabet (n >>> k &&& 63)

/-- The loop over three numbers at a time, and what is left of them. -/
def encode : List Nat → Text
  | b0 :: b1 :: b2 :: input =>
      let n := b0 <<< 16 ||| b1 <<< 8 ||| b2
      sextet n 18 ++ sextet n 12 ++ sextet n 6 ++ sextet n 0 ++ encode input
  | [b0, b1] =>
      let n := b0 <<< 16 ||| b1 <<< 8
      sextet n 18 ++ sextet n 12 ++ sextet n 6 ++ ['=']
  | [b0] =>
      let n := b0 <<< 16
      sextet n 18 ++ sextet n 12 ++ ['=', '=']
  | [] => []

/-- The number of equality signs among the last two characters. -/
def padding (encoded : Text) : Nat :=
  (if encoded[encoded.length - 1]? = some '=' then 1 else 0) +
    if 2 ≤ encoded.length ∧ encoded[encoded.length - 2]? = some '=' then 1 else 0

def byte (n k : Nat) : Nat := n >>> k &&& 255

/-- The loop over four characters at a time, as long as the index is below the limit, and the text behind the
index it stops at. -/
def decodeLoop : Nat → Text → List Nat × Text
  | 0, rest => ([], rest)
  | left + 1, rest =>
      let n := indexIn alphabet rest[0]? <<< 18 ||| indexIn alphabet rest[1]? <<< 12 |||
        indexIn alphabet rest[2]? <<< 6 ||| indexIn alphabet rest[3]?
      let (bytes, behind) := decodeLoop (left - 3) (rest.drop 4)
      (byte n 16 :: byte n 8 :: byte n 0 :: bytes, behind)
termination_by left => left

/-- The index of a character in the last group, where one that is not found counts as the first. -/
def lastIndex (c : Option Char) : Nat :=
  if indexIn alphabet c = 2 ^ 64 - 1 then 0 else indexIn alphabet c

/-- The group with the padding. -/
def decodeLast (pad : Nat) (rest : Text) : List Nat :=
  if pad = 1 then
    let n := lastIndex rest[0]? <<< 18 ||| lastIndex rest[1]? <<< 12 ||| lastIndex rest[2]? <<< 6
    [byte n 16, byte n 8]
  else if pad = 2 then [byte (lastIndex rest[0]? <<< 18 ||| lastIndex rest[1]? <<< 12) 16]
  else []

/-- Text that is no Base64 is not thrown out: numbers that are not found go into the bits as they are. -/
def decodeToBytes (encoded : Text) : Except Hex.Fault (List Nat) :=
  if encoded.length = 0 then .ok []
  else
    let pad := padding encoded
    let limit := if pad > 0 then encoded.length - 4 else encoded.length
    let (bytes, rest) := decodeLoop limit encoded
    .ok (bytes ++ decodeLast pad rest)

def decode (encoded : Text) : Except Hex.Fault Text := (decodeToBytes encoded).map chars

/-- `replace` of one character by another. -/
def replaceChar (s : Text) (c d : Char) : Text := s.map fun x => if x = c then d else x

/-- The loop that strips equality signs. -/
def stripPadding (s : Text) : Text := (s.reverse.dropWhile (· == '=')).reverse

def urlEncode (input : List Nat) : Text :=
  stripPadding (replaceChar (replaceChar (encode input) '+' '-') '/' '_')

def urlDecode (encoded : Text) : Except Hex.Fault Text :=
  let s := replaceChar (replaceChar encoded '-' '+') '_' '/'
  let rem := s.length % 4
  let s := if rem = 2 then s ++ ['=', '='] else s
  let s := if rem = 3 then s ++ ['='] else s
  decode s

end Base64

namespace PKCS7

def pad (data : List Nat) (blockSize : Nat) : List Nat :=
  let padLen := blockSize - data.length % blockSize
  let padLen := if padLen = 0 then blockSize else padLen
  data.map (· &&& 255) ++ List.replicate padLen padLen

inductive Fault where
  | invalidByte
  | corruptedSequence
  deriving DecidableEq

def unpad (bytes : List Nat) : Except Fault (List Nat) :=
  match bytes.getLast? with
  | none => .ok []
  | some padLen =>
      if padLen < 1 ∨ padLen > 16 ∨ padLen > bytes.length then .error .invalidByte
      else if (bytes.drop (bytes.length - padLen)).any (· != padLen) then .error .corruptedSequence
      else .ok (bytes.take (bytes.length - padLen))

end PKCS7

namespace AES

/-- The native cipher under a key and an initialisation vector. It takes and gives whole blocks of bytes and
inverts itself. -/
structure Native where
  encrypt : List Nat → List Nat
  decrypt : List Nat → List Nat
  encrypt_length : ∀ data, (encrypt data).length = data.length
  encrypt_byte : ∀ data, ∀ b ∈ encrypt data, b < 256
  decrypt_encrypt : ∀ data, data.length % 16 = 0 → (∀ b ∈ data, b < 256) → decrypt (encrypt data) = data

inductive Fault where
  | keyLength
  | ivLength
  | ciphertextLength
  | text (fault : Hex.Fault)
  | padding (fault : PKCS7.Fault)
  deriving DecidableEq

/-- The checks both tasks begin with. -/
def checkLengths (key iv : List Nat) : Option Fault :=
  if key.length ≠ 16 ∧ key.length ≠ 24 ∧ key.length ≠ 32 then some .keyLength
  else if iv.length ≠ 16 then some .ivLength
  else none

def encrypt (native : Native) (key iv plaintext : List Nat) : Except Fault Text :=
  match checkLengths key iv with
  | some fault => .error fault
  | none => .ok (Base64.encode (native.encrypt (PKCS7.pad plaintext 16)))

def decrypt (native : Native) (key iv : List Nat) (cipherBase64 : Text) : Except Fault Text :=
  match checkLengths key iv with
  | some fault => .error fault
  | none =>
      match Base64.decodeToBytes cipherBase64 with
      | .error fault => .error (.text fault)
      | .ok cipherBytes =>
          if cipherBytes.length = 0 then .ok []
          else if cipherBytes.length % 16 ≠ 0 then .error .ciphertextLength
          else
            match PKCS7.unpad (native.decrypt cipherBytes) with
            | .error fault => .error (.padding fault)
            | .ok unpadded => .ok (chars unpadded)

end AES

/-- The bytes of a string that are handed to a native hash, a keyed hash or a cipher: `b & 255`. -/
def handed (s : Text) : List UInt8 := (codes s).map fun b => UInt8.ofNat (b &&& 255)

/-- The UTF-8 bytes of a string. -/
def utf8 (s : Text) : List UInt8 := s.flatMap String.utf8EncodeChar

/-! ### Bits -/

/-- A number above the bits of another one. -/
theorem shiftLeft_or {b k : Nat} (a : Nat) (hb : b < 2 ^ k) : a <<< k ||| b = a * 2 ^ k + b := by
  rw [← Nat.shiftLeft_add_eq_or_of_lt hb, Nat.shiftLeft_eq]

theorem and_255 (n : Nat) : n &&& 255 = n % 256 := Nat.and_two_pow_sub_one_eq_mod n 8

theorem and_63 (n : Nat) : n &&& 63 = n % 64 := Nat.and_two_pow_sub_one_eq_mod n 6

theorem and_15 (n : Nat) : n &&& 15 = n % 16 := Nat.and_two_pow_sub_one_eq_mod n 4

theorem byte_lt (n k : Nat) : Base64.byte n k < 256 := by
  rw [Base64.byte, and_255]
  exact Nat.mod_lt _ (by decide)

theorem toNat_ofNat_byte {b : Nat} (hb : b < 256) : (Char.ofNat b).toNat = b := by
  have hvalid : b.isValidChar := .inl (by omega)
  rw [Char.ofNat, dif_pos hvalid]
  rfl

theorem codes_chars {bytes : List Nat} (hbytes : ∀ b ∈ bytes, b < 256) : codes (chars bytes) = bytes := by
  unfold codes chars
  rw [List.map_map, ← List.map_id bytes, List.map_map]
  exact List.map_congr_left fun b hb => toNat_ofNat_byte (hbytes b hb)

theorem chars_codes (s : Text) : chars (codes s) = s := by
  unfold codes chars
  rw [List.map_map]
  exact (List.map_congr_left fun c _ => Char.ofNat_toNat c).trans (List.map_id s)

/-! ### Hexadecimal digits -/

namespace Hex

theorem charAt_digits : ∀ k : Fin 16, charAt digits k.val = [digits.getD k.val '0'] := by decide

theorem indexIn_digit : ∀ k : Fin 16, indexIn digits (some (lower (digits.getD k.val '0'))) = k.val := by
  decide

/-- The digits of a number give its low byte. -/
theorem decodeLoop_encode (i : Nat) (input : List Nat) :
    decodeLoop i (encode input) = .ok (input.map (· % 256)) := by
  induction input generalizing i with
  | nil => rfl
  | cons b input ih =>
      have hhigh : b / 2 ^ 4 % 16 < 16 := Nat.mod_lt _ (by decide)
      have hlow : b % 16 < 16 := Nat.mod_lt _ (by decide)
      have hindex := indexIn_digit ⟨_, hhigh⟩
      have hindex' := indexIn_digit ⟨_, hlow⟩
      simp only [] at hindex hindex'
      have hbyte : (b / 2 ^ 4 % 16) <<< 4 ||| b % 16 = b % 256 := by
        rw [shiftLeft_or _ hlow]
        omega
      rw [encode, and_15, and_15, Nat.shiftRight_eq_div_pow, charAt_digits ⟨_, hhigh⟩,
        charAt_digits ⟨_, hlow⟩]
      simp only [List.cons_append, List.nil_append]
      rw [decodeLoop]
      simp only [hindex, hindex', ih, hbyte]
      rw [if_neg (by omega)]
      rfl

theorem encode_length (input : List Nat) : (encode input).length = 2 * input.length := by
  induction input with
  | nil => rfl
  | cons b input ih =>
      have hhigh : b / 2 ^ 4 % 16 < 16 := Nat.mod_lt _ (by decide)
      have hlow : b % 16 < 16 := Nat.mod_lt _ (by decide)
      rw [encode, and_15, and_15, Nat.shiftRight_eq_div_pow, charAt_digits ⟨_, hhigh⟩,
        charAt_digits ⟨_, hlow⟩]
      simp only [List.cons_append, List.nil_append, List.length_cons, ih]
      omega

theorem decodeToBytes_encode (input : List Nat) :
    decodeToBytes (encode input) = .ok (input.map (· % 256)) := by
  rw [decodeToBytes, if_neg (by rw [encode_length]; omega), decodeLoop_encode]

end Hex

/-! ### Base64 -/

namespace Base64

/-- The character of a number below 64. -/
def letter (j : Nat) : Char := alphabet.getD j 'A'

theorem charAt_alphabet : ∀ j : Fin 64, charAt alphabet j.val = [letter j.val] := by decide

theorem indexIn_letter : ∀ j : Fin 64, indexIn alphabet (some (letter j.val)) = j.val := by
  decide

theorem letter_mem : ∀ j : Fin 64, letter j.val ∈ alphabet := by decide

theorem equals_not_mem : '=' ∉ alphabet := by decide

theorem sextet_eq (n k : Nat) : sextet n k = [letter (n / 2 ^ k % 64)] := by
  rw [sextet, and_63, Nat.shiftRight_eq_div_pow]
  exact charAt_alphabet ⟨_, Nat.mod_lt _ (by decide)⟩

theorem byte_eq (n k : Nat) : byte n k = n / 2 ^ k % 256 := by
  rw [byte, and_255, Nat.shiftRight_eq_div_pow]

theorem indexIn_letter_mod (n : Nat) : indexIn alphabet (some (letter (n % 64))) = n % 64 :=
  indexIn_letter ⟨_, Nat.mod_lt _ (by decide)⟩

theorem lastIndex_letter_mod (n : Nat) : lastIndex (some (letter (n % 64))) = n % 64 := by
  have hlt : n % 64 < 64 := Nat.mod_lt _ (by decide)
  rw [lastIndex, indexIn_letter_mod, if_neg (by omega)]

/-- Three bytes as one number. -/
theorem or_three {b1 b2 : Nat} (b0 : Nat) (h1 : b1 < 256) (h2 : b2 < 256) :
    b0 <<< 16 ||| b1 <<< 8 ||| b2 = b0 * 2 ^ 16 + (b1 * 2 ^ 8 + b2) := by
  rw [Nat.or_assoc, shiftLeft_or (k := 8) b1 h2, shiftLeft_or b0 (by omega)]

/-- Four times six bits as one number. -/
theorem or_four {j1 j2 j3 : Nat} (j0 : Nat) (h1 : j1 < 64) (h2 : j2 < 64) (h3 : j3 < 64) :
    j0 <<< 18 ||| j1 <<< 12 ||| j2 <<< 6 ||| j3 =
      j0 * 2 ^ 18 + (j1 * 2 ^ 12 + (j2 * 2 ^ 6 + j3)) := by
  rw [Nat.or_assoc, Nat.or_assoc, shiftLeft_or (k := 6) j2 h3, shiftLeft_or j1 (by omega),
    shiftLeft_or j0 (by omega)]

/-- The last group of an encoding, by the bytes it holds. -/
inductive Last : List Nat → Text → Prop where
  | none : Last [] []
  | one {b0 : Nat} {c0 c1 : Char} (h0 : c0 ∈ alphabet) (h1 : c1 ∈ alphabet)
      (hdecode : decodeLast 2 [c0, c1, '=', '='] = [b0]) : Last [b0] [c0, c1, '=', '=']
  | two {b0 b1 : Nat} {c0 c1 c2 : Char} (h0 : c0 ∈ alphabet) (h1 : c1 ∈ alphabet) (h2 : c2 ∈ alphabet)
      (hdecode : decodeLast 1 [c0, c1, c2, '='] = [b0, b1]) : Last [b0, b1] [c0, c1, c2, '=']

/-- An encoding is made of whole groups and a last one. -/
structure Grouped (input : List Nat) (full left : List Nat) (body tail : Text) : Prop where
  parts : input = full ++ left
  text : encode input = body ++ tail
  letters : ∀ c ∈ body, c ∈ alphabet
  groups : body.length % 4 = 0
  decode : ∀ rest, decodeLoop body.length (body ++ rest) = (full, rest)
  last : Last left tail

theorem letter_mod_mem (n : Nat) : letter (n % 64) ∈ alphabet :=
  letter_mem ⟨_, Nat.mod_lt _ (by decide)⟩

theorem emptyLoop (rest : Text) : decodeLoop ([] : Text).length ([] ++ rest) = ([], rest) := by
  rw [List.length_nil, decodeLoop, List.nil_append]

theorem exists_grouped (input : List Nat) (hbytes : ∀ b ∈ input, b < 256) :
    ∃ full left body tail, Grouped input full left body tail := by
  induction input using encode.induct with
  | case1 b0 b1 b2 input ih =>
      simp only [List.forall_mem_cons] at hbytes
      obtain ⟨h0, h1, h2, hrest⟩ := hbytes
      obtain ⟨full, left, body, tail, h⟩ := ih hrest
      refine ⟨b0 :: b1 :: b2 :: full, left,
        letter ((b0 * 2 ^ 16 + (b1 * 2 ^ 8 + b2)) / 2 ^ 18 % 64) ::
          letter ((b0 * 2 ^ 16 + (b1 * 2 ^ 8 + b2)) / 2 ^ 12 % 64) ::
          letter ((b0 * 2 ^ 16 + (b1 * 2 ^ 8 + b2)) / 2 ^ 6 % 64) ::
          letter ((b0 * 2 ^ 16 + (b1 * 2 ^ 8 + b2)) / 2 ^ 0 % 64) :: body,
        tail, ⟨?_, ?_, ?_, ?_, ?_, h.last⟩⟩
      · rw [h.parts]
        rfl
      · rw [encode, or_three b0 h1 h2, h.text]
        simp only [sextet_eq, List.cons_append, List.nil_append]
      · simp only [List.forall_mem_cons]
        exact ⟨letter_mod_mem _, letter_mod_mem _, letter_mod_mem _, letter_mod_mem _, h.letters⟩
      · have hgroups := h.groups
        simp only [List.length_cons]
        omega
      · intro rest
        simp only [List.length_cons, List.cons_append]
        rw [decodeLoop]
        simp only [List.getElem?_cons_zero, List.getElem?_cons_succ, indexIn_letter_mod,
          List.drop_succ_cons, List.drop_zero, Nat.add_sub_cancel, h.decode]
        rw [or_four _ (Nat.mod_lt _ (by decide)) (Nat.mod_lt _ (by decide)) (Nat.mod_lt _ (by decide))]
        simp only [byte_eq, Prod.mk.injEq, List.cons.injEq, and_true]
        omega
  | case2 b0 b1 =>
      simp only [List.forall_mem_cons] at hbytes
      obtain ⟨h0, h1, -⟩ := hbytes
      have hn : b0 <<< 16 ||| b1 <<< 8 = b0 * 2 ^ 16 + b1 * 2 ^ 8 := by
        rw [Nat.shiftLeft_eq b1, shiftLeft_or b0 (by omega)]
      refine ⟨[], [b0, b1], [], _, ⟨rfl, ?_, by simp, rfl, emptyLoop,
        .two (letter_mod_mem ((b0 * 2 ^ 16 + b1 * 2 ^ 8) / 2 ^ 18))
          (letter_mod_mem ((b0 * 2 ^ 16 + b1 * 2 ^ 8) / 2 ^ 12))
          (letter_mod_mem ((b0 * 2 ^ 16 + b1 * 2 ^ 8) / 2 ^ 6)) ?_⟩⟩
      · simp only [encode, hn, sextet_eq, List.cons_append, List.nil_append]
      · rw [decodeLast, if_pos rfl]
        simp only [List.getElem?_cons_zero, List.getElem?_cons_succ, lastIndex_letter_mod, byte_eq]
        rw [Nat.or_assoc, Nat.shiftLeft_eq (_ % 64) 6, shiftLeft_or (k := 12) _ (by omega),
          shiftLeft_or _ (by omega)]
        simp only [List.cons.injEq, and_true]
        omega
  | case3 b0 =>
      have h0 : b0 < 256 := hbytes b0 List.mem_cons_self
      refine ⟨[], [b0], [], _, ⟨rfl, ?_, by simp, rfl, emptyLoop,
        .one (letter_mod_mem (b0 * 2 ^ 16 / 2 ^ 18)) (letter_mod_mem (b0 * 2 ^ 16 / 2 ^ 12)) ?_⟩⟩
      · simp only [encode, Nat.shiftLeft_eq, sextet_eq, List.cons_append, List.nil_append]
      · rw [decodeLast, if_neg (by decide), if_pos rfl]
        simp only [List.getElem?_cons_zero, List.getElem?_cons_succ, lastIndex_letter_mod, byte_eq]
        rw [Nat.shiftLeft_eq (_ % 64) 12, shiftLeft_or _ (by omega)]
        simp only [List.cons.injEq, and_true]
        omega
  | case4 => exact ⟨[], [], [], [], ⟨rfl, rfl, by simp, rfl, emptyLoop, .none⟩⟩

theorem ne_equals {c : Char} (hc : c ∈ alphabet) : c ≠ '=' := fun h => equals_not_mem (h ▸ hc)

/-- Behind whole groups the padding of the last one is seen. -/
theorem padding_append (body : Text) (c0 c1 c2 c3 : Char) :
    padding (body ++ [c0, c1, c2, c3]) = (if c3 = '=' then 1 else 0) + if c2 = '=' then 1 else 0 := by
  have hlast : (body ++ [c0, c1, c2, c3])[(body ++ [c0, c1, c2, c3]).length - 1]? = some c3 := by
    rw [List.getElem?_append_right (by simp), List.length_append]
    have hindex : body.length + [c0, c1, c2, c3].length - 1 - body.length = 3 := by
      rw [List.length_cons, List.length_cons, List.length_cons, List.length_singleton]
      omega
    rw [hindex]
    rfl
  have hlast' : (body ++ [c0, c1, c2, c3])[(body ++ [c0, c1, c2, c3]).length - 2]? = some c2 := by
    rw [List.getElem?_append_right (by simp), List.length_append]
    have hindex : body.length + [c0, c1, c2, c3].length - 2 - body.length = 2 := by
      rw [List.length_cons, List.length_cons, List.length_cons, List.length_singleton]
      omega
    rw [hindex]
    rfl
  have hlength : 2 ≤ (body ++ [c0, c1, c2, c3]).length := by simp
  rw [padding, hlast, hlast']
  simp only [Option.some.injEq, hlength, true_and]

/-- A text of letters has no padding. -/
theorem padding_letters {body : Text} (hletters : ∀ c ∈ body, c ∈ alphabet) : padding body = 0 := by
  have hnone : ∀ i : Nat, body[i]? ≠ some '=' := by
    intro i hi
    exact equals_not_mem (hletters _ (List.mem_of_getElem? hi))
  rw [padding, if_neg (hnone _), if_neg fun h => hnone _ h.2]

/-- Groups and a last one decode to the bytes they hold. -/
theorem Grouped.decodeToBytes {input full left : List Nat} {body tail : Text}
    (h : Grouped input full left body tail) : decodeToBytes (body ++ tail) = .ok input := by
  have hdecode := h.decode tail
  rw [h.parts, Base64.decodeToBytes]
  cases h.last with
  | none =>
      simp only [List.append_nil] at hdecode ⊢
      rw [padding_letters h.letters]
      split
      case isTrue hempty =>
          have hbody : body = [] := List.eq_nil_of_length_eq_zero hempty
          rw [hbody, List.length_nil, decodeLoop] at hdecode
          rw [← (Prod.mk.inj hdecode).1]
      case isFalse =>
          simp only [gt_iff_lt, Nat.lt_irrefl, if_false, hdecode]
          rw [decodeLast, if_neg (by decide), if_neg (by decide), List.append_nil]
  | one h0 h1 hlast =>
      rw [if_neg (by simp), padding_append]
      simp only [if_true, gt_iff_lt]
      rw [if_pos (by decide), List.length_append]
      simp only [List.length_cons, List.length_nil, Nat.zero_add, Nat.reduceAdd, Nat.add_sub_cancel, hdecode,
        hlast]
  | two h0 h1 h2 hlast =>
      rw [if_neg (by simp), padding_append]
      simp only [if_true, if_neg (ne_equals h2), gt_iff_lt]
      rw [if_pos (by decide), List.length_append]
      simp only [List.length_cons, List.length_nil, Nat.zero_add, Nat.add_zero, Nat.reduceAdd,
        Nat.add_sub_cancel, hdecode, hlast]

/-- Byte arrays come back. -/
theorem decodeToBytes_encode {input : List Nat} (hbytes : ∀ b ∈ input, b < 256) :
    Base64.decodeToBytes (encode input) = .ok input := by
  obtain ⟨full, left, body, tail, h⟩ := exists_grouped input hbytes
  rw [h.text]
  exact h.decodeToBytes

/-! ### The alphabet for addresses -/

/-- The character in its place. -/
def swap (c : Char) : Char := if (if c = '+' then '-' else c) = '/' then '_' else if c = '+' then '-' else c

def unswap (c : Char) : Char := if (if c = '-' then '+' else c) = '_' then '/' else if c = '-' then '+' else c

theorem replace_swap (s : Text) : replaceChar (replaceChar s '+' '-') '/' '_' = s.map swap := by
  unfold replaceChar
  rw [List.map_map]
  rfl

theorem replace_unswap (s : Text) : replaceChar (replaceChar s '-' '+') '_' '/' = s.map unswap := by
  unfold replaceChar
  rw [List.map_map]
  rfl

theorem alphabet_swaps : (alphabet.all fun c => unswap (swap c) == c && swap c != '=') = true := by
  decide

theorem unswap_swap {c : Char} (hc : c ∈ alphabet) : unswap (swap c) = c := by
  have h := List.all_eq_true.mp alphabet_swaps c hc
  rw [Bool.and_eq_true] at h
  exact eq_of_beq h.1

theorem swap_ne_equals {c : Char} (hc : c ∈ alphabet) : swap c ≠ '=' := by
  have h := List.all_eq_true.mp alphabet_swaps c hc
  rw [Bool.and_eq_true] at h
  exact bne_iff_ne.mp h.2

theorem map_unswap_swap {s : Text} (hletters : ∀ c ∈ s, c ∈ alphabet) : (s.map swap).map unswap = s := by
  rw [List.map_map]
  exact (List.map_congr_left fun c hc => unswap_swap (hletters c hc)).trans (List.map_id s)

/-- The equality signs behind a text without any are stripped. -/
theorem stripPadding_append {s : Text} (hs : ∀ c ∈ s, c ≠ '=') (n : Nat) :
    stripPadding (s ++ List.replicate n '=') = s := by
  have hstop : s.reverse.dropWhile (· == '=') = s.reverse := by
    cases hr : s.reverse with
    | nil => rfl
    | cons c rest =>
        have hc : c ≠ '=' := hs c (List.mem_reverse.mp (hr ▸ List.mem_cons_self))
        rw [List.dropWhile_cons_of_neg (by simpa using hc)]
  have hdrop : ∀ n : Nat, (List.replicate n '=' ++ s.reverse).dropWhile (· == '=') = s.reverse := by
    intro n
    induction n with
    | zero => exact hstop
    | succ n ih => rw [List.replicate_succ, List.cons_append, List.dropWhile_cons_of_pos (by decide), ih]
  rw [stripPadding, List.reverse_append, List.reverse_replicate, hdrop, List.reverse_reverse]

/-- The padding that was stripped is put back. -/
theorem urlDecode_strip {s : Text} {n : Nat} {bytes : List Nat} (hletters : ∀ c ∈ s, c ∈ alphabet)
    (hn : s.length % 4 = 0 ∧ n = 0 ∨ s.length % 4 = 2 ∧ n = 2 ∨ s.length % 4 = 3 ∧ n = 1)
    (hdecode : Base64.decodeToBytes (s ++ List.replicate n '=') = .ok bytes) :
    urlDecode (stripPadding ((s ++ List.replicate n '=').map swap)) = .ok (chars bytes) := by
  have hequals : (List.replicate n '=').map swap = List.replicate n '=' := by
    rw [List.map_replicate]
    rfl
  have hstrip : stripPadding ((s ++ List.replicate n '=').map swap) = s.map swap := by
    rw [List.map_append, hequals]
    refine stripPadding_append (fun c hc => ?_) n
    obtain ⟨d, hd, rfl⟩ := List.mem_map.mp hc
    exact swap_ne_equals (hletters d hd)
  rw [hstrip, urlDecode, replace_unswap, map_unswap_swap hletters]
  rcases hn with ⟨hlength, rfl⟩ | ⟨hlength, rfl⟩ | ⟨hlength, rfl⟩
  · rw [if_neg (by omega), if_neg (by omega), decode]
    rw [List.replicate_zero, List.append_nil] at hdecode
    rw [hdecode]
    rfl
  · rw [if_pos hlength, if_neg (by omega), decode]
    change Base64.decodeToBytes (s ++ ['=', '=']) = _ at hdecode
    rw [hdecode]
    rfl
  · rw [if_pos hlength, if_neg (by omega), decode]
    change Base64.decodeToBytes (s ++ ['=']) = _ at hdecode
    rw [hdecode]
    rfl

theorem urlDecode_urlEncode {input : List Nat} (hbytes : ∀ b ∈ input, b < 256) :
    urlDecode (urlEncode input) = .ok (chars input) := by
  obtain ⟨full, left, body, tail, h⟩ := exists_grouped input hbytes
  have hdecode := h.decodeToBytes
  have hgroups := h.groups
  rw [urlEncode, replace_swap, h.text]
  cases h.last with
  | none => exact @urlDecode_strip body 0 _ h.letters (.inl ⟨hgroups, rfl⟩) hdecode
  | @one b0 c0 c1 h0 h1 hlast =>
      have hsplit : body ++ [c0, c1, '=', '='] = (body ++ [c0, c1]) ++ List.replicate 2 '=' := by simp
      have hlength : (body ++ [c0, c1]).length % 4 = 2 := by
        rw [List.length_append, List.length_cons, List.length_singleton]
        omega
      rw [hsplit] at hdecode ⊢
      refine urlDecode_strip (fun c hc => ?_) (.inr (.inl ⟨hlength, rfl⟩)) hdecode
      rcases List.mem_append.mp hc with hc | hc
      · exact h.letters c hc
      · simp only [List.mem_cons, List.not_mem_nil, or_false] at hc
        rcases hc with rfl | rfl
        · exact h0
        · exact h1
  | @two b0 b1 c0 c1 c2 h0 h1 h2 hlast =>
      have hsplit : body ++ [c0, c1, c2, '='] = (body ++ [c0, c1, c2]) ++ List.replicate 1 '=' := by simp
      have hlength : (body ++ [c0, c1, c2]).length % 4 = 3 := by
        rw [List.length_append, List.length_cons, List.length_cons, List.length_singleton]
        omega
      rw [hsplit] at hdecode ⊢
      refine urlDecode_strip (fun c hc => ?_) (.inr (.inr ⟨hlength, rfl⟩)) hdecode
      rcases List.mem_append.mp hc with hc | hc
      · exact h.letters c hc
      · simp only [List.mem_cons, List.not_mem_nil, or_false] at hc
        rcases hc with rfl | rfl | rfl
        · exact h0
        · exact h1
        · exact h2

end Base64

/-! ### Padding and ciphers -/

namespace PKCS7

theorem pad_eq (data : List Nat) :
    pad data 16 = data.map (· % 256) ++
      List.replicate (16 - data.length % 16) (16 - data.length % 16) := by
  have hpositive : ¬16 - data.length % 16 = 0 := by omega
  rw [pad]
  simp only [if_neg hpositive, and_255]

/-- Padding is taken off again. -/
theorem unpad_pad (data : List Nat) : unpad (pad data 16) = .ok (data.map (· % 256)) := by
  obtain ⟨n, hn⟩ : ∃ n, 16 - data.length % 16 = n + 1 := ⟨15 - data.length % 16, by omega⟩
  have hlast : (pad data 16).getLast? = some (n + 1) := by
    rw [pad_eq, hn, List.replicate_succ', ← List.append_assoc, List.getLast?_concat]
  have hlength : (pad data 16).length = data.length + (n + 1) := by
    rw [pad_eq, hn, List.length_append, List.length_map, List.length_replicate]
  have hcut : (pad data 16).length - (n + 1) = (data.map (· % 256)).length := by
    rw [hlength, List.length_map]
    omega
  rw [unpad, hlast]
  simp only [hcut]
  rw [if_neg (by omega), if_neg]
  · rw [pad_eq, List.take_left']
    rfl
  · rw [pad_eq, hn, List.drop_left' rfl]
    simp

theorem pad_blocks (data : List Nat) : (pad data 16).length % 16 = 0 := by
  rw [pad_eq, List.length_append, List.length_map, List.length_replicate]
  omega

theorem pad_positive (data : List Nat) : 0 < (pad data 16).length := by
  rw [pad_eq, List.length_append, List.length_map, List.length_replicate]
  omega

theorem pad_byte (data : List Nat) : ∀ b ∈ pad data 16, b < 256 := by
  intro b hb
  rw [pad_eq, List.mem_append] at hb
  rcases hb with hb | hb
  · obtain ⟨n, -, rfl⟩ := List.mem_map.mp hb
    exact Nat.mod_lt _ (by decide)
  · rw [List.eq_of_mem_replicate hb]
    omega

end PKCS7

theorem map_mod_of_bytes {data : List Nat} (hbytes : ∀ b ∈ data, b < 256) :
    data.map (· % 256) = data :=
  (List.map_congr_left fun b hb => Nat.mod_eq_of_lt (hbytes b hb)).trans (List.map_id data)

/-- What is encrypted decrypts to the low bytes of the text. -/
theorem AES.decrypt_encrypt (native : AES.Native) {key iv : List Nat}
    (hlengths : AES.checkLengths key iv = none) (plaintext : List Nat) :
    ∃ cipherText, AES.encrypt native key iv plaintext = .ok cipherText ∧
      AES.decrypt native key iv cipherText = .ok (chars (plaintext.map (· % 256))) := by
  have hbytes := native.encrypt_byte (PKCS7.pad plaintext 16)
  have hlength := native.encrypt_length (PKCS7.pad plaintext 16)
  have hblocks := PKCS7.pad_blocks plaintext
  have hpositive := PKCS7.pad_positive plaintext
  refine ⟨Base64.encode (native.encrypt (PKCS7.pad plaintext 16)), ?_, ?_⟩
  · rw [AES.encrypt, hlengths]
  · rw [AES.decrypt, hlengths]
    simp only [Base64.decodeToBytes_encode hbytes, hlength]
    rw [if_neg (by omega), if_neg (by omega),
      native.decrypt_encrypt _ hblocks (PKCS7.pad_byte plaintext), PKCS7.unpad_pad]

/-! ### What is lossless -/

/-- Every character is at most 255. -/
def Latin (s : Text) : Prop := ∀ c ∈ s, c.toNat < 256

/-- Every character is at most 127. -/
def Ascii (s : Text) : Prop := ∀ c ∈ s, c.toNat < 128

/-- A string comes back from each of the encodings and from the cipher. -/
structure RoundTrips (s : Text) : Prop where
  hex : Hex.decode (Hex.encode (codes s)) = .ok s
  base64 : Base64.decode (Base64.encode (codes s)) = .ok s
  url : Base64.urlDecode (Base64.urlEncode (codes s)) = .ok s
  aes : ∀ (native : AES.Native) (key iv : List Nat), AES.checkLengths key iv = none →
    ∃ cipherText, AES.encrypt native key iv (codes s) = .ok cipherText ∧
      AES.decrypt native key iv cipherText = .ok s

theorem codes_byte {s : Text} (hlatin : Latin s) : ∀ b ∈ codes s, b < 256 := by
  intro b hb
  obtain ⟨c, hc, rfl⟩ := List.mem_map.mp hb
  exact hlatin c hc

theorem handed_roundTrips_iff (s : Text) : RoundTrips s ↔ Latin s := by
  constructor
  · intro h c hc
    have hhex := h.hex
    rw [Hex.decode, Hex.decodeToBytes_encode] at hhex
    have hcodes : chars ((codes s).map (· % 256)) = s := Except.ok.inj hhex
    have hbyte : ∀ b ∈ (codes s).map (· % 256), b < 256 := by
      intro b hb
      obtain ⟨n, -, rfl⟩ := List.mem_map.mp hb
      exact Nat.mod_lt _ (by decide)
    have hsame := codes_chars hbyte
    rw [hcodes] at hsame
    have hmem : c.toNat ∈ codes s := List.mem_map_of_mem hc
    rw [hsame] at hmem
    exact hbyte _ hmem
  · intro hlatin
    have hbytes := codes_byte hlatin
    refine ⟨?_, ?_, ?_, fun native key iv hlengths => ?_⟩
    · rw [Hex.decode, Hex.decodeToBytes_encode, map_mod_of_bytes hbytes]
      exact congrArg Except.ok (chars_codes s)
    · rw [Base64.decode, Base64.decodeToBytes_encode hbytes]
      exact congrArg Except.ok (chars_codes s)
    · rw [Base64.urlDecode_urlEncode hbytes, chars_codes]
    · have haes := AES.decrypt_encrypt native hlengths (codes s)
      rwa [map_mod_of_bytes hbytes, chars_codes] at haes

/-- Strings of characters up to 255 are told apart by the bytes that are handed on. -/
theorem handed_injective {s t : Text} (hs : Latin s) (ht : Latin t) (hsame : handed s = handed t) :
    s = t := by
  have hback : ∀ {s : Text}, Latin s → (handed s).map UInt8.toNat = codes s := by
    intro s hs
    unfold handed
    rw [List.map_map]
    refine (List.map_congr_left fun b hb => ?_).trans (List.map_id _)
    rw [Function.comp_apply, and_255, UInt8.toNat_ofNat', Nat.mod_mod]
    exact Nat.mod_eq_of_lt (codes_byte hs b hb)
  rw [← chars_codes s, ← chars_codes t, ← hback hs, ← hback ht, hsame]

theorem utf8Size_eq_one_iff (c : Char) : c.utf8Size = 1 ↔ c.toNat < 128 := by
  rw [Char.utf8Size_eq_one_iff, UInt32.le_iff_toNat_le]
  exact Nat.lt_succ_iff.symm

/-- UTF-8 takes a byte for each character, and more where one is above 127. -/
theorem length_le_utf8 (s : Text) :
    s.length ≤ (utf8 s).length ∧ ((utf8 s).length = s.length → Ascii s) := by
  induction s with
  | nil => exact ⟨Nat.le_refl 0, fun _ c hc => nomatch hc⟩
  | cons c s ih =>
      have hpositive := c.utf8Size_pos
      have hone := utf8Size_eq_one_iff c
      have hlength : (utf8 (c :: s)).length = c.utf8Size + (utf8 s).length := by
        rw [utf8, List.flatMap_cons, List.length_append, String.length_utf8EncodeChar]
        rfl
      rw [hlength, List.length_cons]
      refine ⟨by omega, fun hsame => ?_⟩
      exact List.forall_mem_cons.mpr ⟨hone.mp (by omega), ih.2 (by omega)⟩

/-- The bytes that are handed on are the UTF-8 bytes of strings of characters up to 127 only. -/
theorem handed_eq_utf8_iff (s : Text) : handed s = utf8 s ↔ Ascii s := by
  constructor
  · intro hsame
    refine (length_le_utf8 s).2 ?_
    rw [← hsame, handed, codes, List.length_map, List.length_map]
  · intro hascii
    induction s with
    | nil => rfl
    | cons c s ih =>
        have hc : c.toNat < 128 := hascii c List.mem_cons_self
        have hrest := ih fun d hd => hascii d (List.mem_cons_of_mem c hd)
        have hchar : String.utf8EncodeChar c = [UInt8.ofNat (c.toNat &&& 255)] := by
          rw [String.utf8EncodeChar_eq_singleton ((utf8Size_eq_one_iff c).mpr hc), and_255,
            Nat.mod_eq_of_lt (by omega)]
          rfl
        rw [utf8, List.flatMap_cons, hchar, List.singleton_append]
        exact congrArg _ hrest

/-- Text that is Base64: whole groups of letters, of which the last may be padded. -/
def ValidBase64 (encoded : Text) : Prop :=
  ∃ body tail, encoded = body ++ tail ∧ body.length % 4 = 0 ∧ (∀ c ∈ body, c ∈ Base64.alphabet) ∧
    (tail = [] ∨ (∃ c0 ∈ Base64.alphabet, ∃ c1 ∈ Base64.alphabet, tail = [c0, c1, '=', '=']) ∨
      ∃ c0 ∈ Base64.alphabet, ∃ c1 ∈ Base64.alphabet, ∃ c2 ∈ Base64.alphabet, tail = [c0, c1, c2, '='])

def Rejected (encoded : Text) : Prop := ∃ fault, Base64.decodeToBytes encoded = .error fault

theorem not_rejected (encoded : Text) : ¬Rejected encoded := by
  rintro ⟨fault, h⟩
  rw [Base64.decodeToBytes] at h
  split at h <;> cases h

theorem unpad_pad_iff (s : Text) :
    PKCS7.unpad (PKCS7.pad (codes s) 16) = .ok (codes s) ↔ Latin s := by
  rw [PKCS7.unpad_pad]
  constructor
  · intro hsame c hc
    have hmem : c.toNat ∈ (codes s).map (· % 256) := by
      rw [Except.ok.inj hsame]
      exact List.mem_map_of_mem hc
    obtain ⟨n, -, hn⟩ := List.mem_map.mp hmem
    rw [← hn]
    exact Nat.mod_lt _ (by decide)
  · intro hlatin
    rw [map_mod_of_bytes (codes_byte hlatin)]

end Crypto

end EZLanguage
