import Mathlib.Algebra.GroupWithZero.Nat
import Mathlib.Algebra.Group.Int.Defs
import Mathlib.Data.List.Forall2
import Mathlib.Tactic.Common
import EZLanguage.Bytecode.Chunk

/-!
# Secrets in an image

A secret stands in the lowest bits of the pixel bytes of an image: eleven bytes of header, then the secret,
with a key from a password if there is one. Sizes are counted in characters, and buffers hold bytes. A
character can be up to four bytes, so of a secret with such a character only the first bytes are written.

The reader takes the place of the pixels and the length of the secret from the file. It compares neither with
the size of the file, so it can be sent behind the end of the image.
-/

namespace EZLanguage

namespace Stego

/-! ### Characters -/

def seqLen (c : UInt8) : Nat :=
  if c < 0x80 then 1
  else if c &&& 0xE0 = 0xC0 then 2
  else if c &&& 0xF0 = 0xE0 then 3
  else if c &&& 0xF8 = 0xF0 then 4
  else 1

/-- Whether the bytes behind the first one of a character are there. -/
def validAt (rest : CString) (n : Nat) : Bool :=
  n ≤ rest.length + 1 && (rest.take (n - 1)).all fun c => c &&& 0xC0 = 0x80

/-- The bytes that the character at the front takes. -/
def charBytes (c : UInt8) (rest : CString) : Nat :=
  if validAt rest (seqLen c) then seqLen c else 1

/-- The loop of `lengthChars`, which has to skip some bytes of a character first. -/
def lengthFrom : Nat → CString → Nat
  | _, [] => 0
  | skip + 1, _ :: rest => lengthFrom skip rest
  | 0, c :: rest => 1 + lengthFrom (charBytes c rest - 1) rest

/-- `len` of a text. -/
def lengthChars (s : CString) : Nat := lengthFrom 0 s

theorem lengthFrom_le (skip : Nat) (s : CString) : lengthFrom skip s ≤ s.length := by
  induction s generalizing skip with
  | nil => rw [lengthFrom]; exact Nat.le_refl 0
  | cons c rest ih =>
      cases skip with
      | zero =>
          have := ih (charBytes c rest - 1)
          rw [lengthFrom, List.length_cons]
          omega
      | succ skip =>
          have := ih skip
          rw [lengthFrom, List.length_cons]
          omega

theorem lengthChars_le (s : CString) : lengthChars s ≤ s.length := lengthFrom_le 0 s

/-! ### Bits -/

/-- The pixel byte with a bit as its lowest one. -/
def setLow (orig bit : UInt8) : UInt8 := (orig &&& 254) ||| bit

/-- The bits of a byte, the highest first. -/
def bitsOf (c : UInt8) : List UInt8 :=
  [(c >>> 7) &&& 1, (c >>> 6) &&& 1, (c >>> 5) &&& 1, (c >>> 4) &&& 1, (c >>> 3) &&& 1, (c >>> 2) &&& 1,
    (c >>> 1) &&& 1, c &&& 1]

/-- Two bytes that differ in the lowest bit only. -/
def SameHigh (x y : UInt8) : Prop := x &&& 254 = y &&& 254

theorem forall_byte {P : UInt8 → Prop} (h : ∀ n : Fin 256, P (UInt8.ofNat n)) (c : UInt8) : P c := by
  have hc := h ⟨c.toNat, c.toNat_lt⟩
  rwa [UInt8.ofNat_toNat] at hc

set_option maxRecDepth 4000 in
/-- The low bit of a byte, and what setting it does. -/
theorem low_bit : ∀ c : UInt8, (c &&& 1 = 0 ∨ c &&& 1 = 1) ∧
    (setLow c 0 &&& 1 = 0 ∧ setLow c 1 &&& 1 = 1) ∧
    setLow c 0 &&& 254 = c &&& 254 ∧ setLow c 1 &&& 254 = c &&& 254 :=
  forall_byte (by decide)

theorem bit_cases (c : UInt8) : ∀ b ∈ bitsOf c, b = 0 ∨ b = 1 := by
  intro b hb
  simp only [bitsOf, List.mem_cons, List.not_mem_nil, or_false] at hb
  rcases hb with rfl | rfl | rfl | rfl | rfl | rfl | rfl | rfl <;> exact (low_bit _).1

theorem setLow_low {bit : UInt8} (hbit : bit = 0 ∨ bit = 1) (orig : UInt8) :
    setLow orig bit &&& 1 = bit := by
  rcases hbit with rfl | rfl
  · exact (low_bit orig).2.1.1
  · exact (low_bit orig).2.1.2

theorem setLow_high {bit : UInt8} (hbit : bit = 0 ∨ bit = 1) (orig : UInt8) :
    SameHigh (setLow orig bit) orig := by
  rcases hbit with rfl | rfl
  · exact (low_bit orig).2.2.1
  · exact (low_bit orig).2.2.2

/-! ### What the lowest bit does not change -/

set_option maxRecDepth 4000 in
/-- Bytes of one kind of character byte agree in all but their lowest bit. -/
theorem SameHigh.masks {x y : UInt8} (h : SameHigh x y) :
    seqLen x = seqLen y ∧ (x &&& 0xC0 = 0x80 ↔ y &&& 0xC0 = 0x80) := by
  have hpair : ∀ x : UInt8, seqLen x = seqLen (x &&& 254) ∧
      ((x &&& 0xC0 = 0x80) ↔ ((x &&& 254) &&& 0xC0 = 0x80)) :=
    forall_byte (by decide)
  have hx := hpair x
  have hy := hpair y
  unfold SameHigh at h
  rw [h] at hx
  exact ⟨hx.1.trans hy.1.symm, hx.2.trans hy.2.symm⟩

theorem all_continuation {s t : CString} (h : List.Forall₂ SameHigh s t) (n : Nat) :
    (s.take n).all (fun c => c &&& 0xC0 = 0x80) = (t.take n).all fun c => c &&& 0xC0 = 0x80 := by
  induction h generalizing n with
  | nil => rfl
  | cons hxy _ ih =>
      cases n with
      | zero => rfl
      | succ n =>
          rw [List.take_succ_cons, List.take_succ_cons, List.all_cons, List.all_cons, ih n,
            decide_eq_decide.mpr hxy.masks.2]

/-- Characters are counted alike. -/
theorem lengthFrom_congr {s t : CString} (h : List.Forall₂ SameHigh s t) (skip : Nat) :
    lengthFrom skip s = lengthFrom skip t := by
  induction h generalizing skip with
  | nil => rfl
  | @cons x y s t hxy hst ih =>
      cases skip with
      | zero =>
          have hchar : charBytes x s = charBytes y t := by
            rw [charBytes, charBytes, validAt, validAt, hxy.masks.1, hst.length_eq, all_continuation hst]
          rw [lengthFrom, lengthFrom, hchar, ih]
      | succ skip =>
          rw [lengthFrom, lengthFrom]
          exact ih skip

/-! ### The image -/

/-- The byte at an address behind the beginning of the image. -/
def px (img : CString) (i : Int) : Option UInt8 := if 0 ≤ i then img[i.toNat]? else none

/-- `os_read_int32`. -/
def readInt32 (img : CString) (i : Nat) : Int :=
  let u := (img.getD i 0).toNat + 256 * (img.getD (i + 1) 0).toNat + 65536 * (img.getD (i + 2) 0).toNat +
    16777216 * (img.getD (i + 3) 0).toNat
  if u < 2147483648 then u else (u : Int) - 4294967296

/-- The bits one after the other into the pixel bytes. An address before the image is left out here: there
is none for a valid pixel offset. -/
def embed (img : CString) (targetAddr : Int) : List UInt8 → CString
  | [] => img
  | bit :: bits =>
      match px img targetAddr with
      | some origPixelVal =>
          embed (img.set targetAddr.toNat (setLow origPixelVal bit)) (targetAddr + 1) bits
      | none => embed img (targetAddr + 1) bits

/-- One byte out of the lowest bits of eight pixel bytes. -/
def readByte (img : CString) (i : Int) : Option Nat :=
  ([0, 1, 2, 3, 4, 5, 6, 7] : List Int).foldlM
    (fun val b => (px img (i + b)).map fun pxVal => (val <<< 1) ||| (pxVal &&& 1).toNat) 0

def readBytes (img : CString) (i : Int) : Nat → Option (List Nat)
  | 0 => some []
  | n + 1 => (readByte img i).bind fun val => (readBytes img (i + 8) n).map fun vals => val :: vals

/-! ### The tasks -/

/-- A password by the codes of its characters. -/
abbrev Password := List Nat

def passwordChecksum (pass : Password) : Nat := pass.foldl (fun sum c => (sum * 31 + c) % 65535) 0

/-- `isEnc`. No password and an empty one are the same. -/
def isEnc (password : Option Password) : Bool := 0 < (password.getD []).length

/-- A byte under the key, which is the character whose turn it is. -/
def keyed (enc : Bool) (pass : Password) (i val : Nat) : Nat :=
  if enc then val ^^^ pass.getD (i % pass.length) 0 else val

/-- The loop over the bytes of the secret. `os_write_byte` keeps the lowest byte. -/
def cipherFrom (enc : Bool) (pass : Password) (i : Nat) : List Nat → CString
  | [] => []
  | val :: vals => UInt8.ofNat (keyed enc pass i val) :: cipherFrom enc pass (i + 1) vals

/-- The conversion of `os_write_int32`: a number out of range is the least one. -/
def int32 (n : Nat) : Nat := if n < 2147483648 then n else 2147483648

def header (secretLen : Nat) (enc : Bool) (checkSum : Nat) : CString :=
  [0x45, 0x5A, 0x53, 0x54,
    UInt8.ofNat (int32 secretLen % 256), UInt8.ofNat (int32 secretLen / 256 % 256),
    UInt8.ofNat (int32 secretLen / 65536 % 256), UInt8.ofNat (int32 secretLen / 16777216 % 256),
    if enc then 1 else 0,
    UInt8.ofNat (checkSum &&& 255), UInt8.ofNat ((checkSum >>> 8) &&& 255)]

def payload (secretText : CString) (password : Option Password) : CString :=
  let secretLen := lengthChars secretText
  let enc := isEnc password
  let checkSum := if enc then passwordChecksum (password.getD []) else 0
  header secretLen enc checkSum ++
    cipherFrom enc (password.getD []) 0 ((secretText.take secretLen).map UInt8.toNat)

inductive StegoError where
  | invalid (message : CString)
  | imageTooSmall (capacity : Int) (secretLen : Nat)

def encode (img secretText : CString) (password : Option Password) : Except StegoError CString :=
  if lengthChars img < 54 then .error (.invalid (lit "Invalid BMP file: too small"))
  else if img.getD 0 0 ≠ 0x42 ∨ img.getD 1 0 ≠ 0x4D then
    .error (.invalid (lit "Invalid BMP file: missing BM header"))
  else
    let pixelOffset := readInt32 img 10
    let pixelBytes : Int := lengthChars img - pixelOffset
    let secretLen := lengthChars secretText
    let totalBitsNeeded := (11 + secretLen) * 8
    if pixelBytes < totalBitsNeeded then .error (.imageTooSmall (pixelBytes / 8 - 11) secretLen)
    else if 2147483648 ≤ 11 + secretLen then .error (.invalid (lit "buffer() size cannot be negative"))
    else .ok (embed img pixelOffset ((payload secretText password).flatMap bitsOf))

/-- What `decode` ends with. `outside` is a read behind the end of the image, or before it. -/
inductive Decoded where
  | secret (text : CString)
  | refused (message : CString)
  | outside

def secretLength (headerBytes : List Nat) : Nat :=
  headerBytes.getD 4 0 ||| (headerBytes.getD 5 0 <<< 8) ||| (headerBytes.getD 6 0 <<< 16) |||
    (headerBytes.getD 7 0 <<< 24)

def storedChecksum (headerBytes : List Nat) : Nat := headerBytes.getD 9 0 ||| (headerBytes.getD 10 0 <<< 8)

/-- The refusals that the header and the password lead to. -/
def checkHeader (headerBytes : List Nat) (password : Option Password) : Option CString :=
  if headerBytes.take 4 ≠ [0x45, 0x5A, 0x53, 0x54] then
    some (lit "No hidden steganography data found in this image (missing EZST magic header)")
  else if headerBytes.getD 8 0 = 1 ∧ (password.getD []).length = 0 then
    some (lit "This hidden message is encrypted with a password. Please provide a password.")
  else if headerBytes.getD 8 0 = 1 ∧ passwordChecksum (password.getD []) ≠ storedChecksum headerBytes then
    some (lit "Incorrect password: password checksum verification failed.")
  else if 2147483648 ≤ secretLength headerBytes then some (lit "buffer() size cannot be negative")
  else none

def decode (img : CString) (password : Option Password) : Decoded :=
  if lengthChars img < 54 + 11 * 8 then
    .refused (lit "Invalid BMP file or file too small for steganography")
  else
    let pixelOffset := readInt32 img 10
    match readBytes img pixelOffset 11 with
    | none => .outside
    | some headerBytes =>
        match checkHeader headerBytes password with
        | some message => .refused message
        | none =>
            match readBytes img (pixelOffset + 88) (secretLength headerBytes) with
            | none => .outside
            | some vals =>
                .secret (cipherFrom (headerBytes.getD 8 0 = 1) (password.getD []) 0 vals)

/-! ### Writing bits -/

theorem px_eq_some {img : CString} {i : Int} {c : UInt8} :
    px img i = some c ↔ 0 ≤ i ∧ img[i.toNat]? = some c := by
  unfold px
  split
  case isTrue h => exact ⟨fun hc => ⟨h, hc⟩, fun hc => hc.2⟩
  case isFalse h => exact ⟨fun hc => absurd hc.symm (Option.some_ne_none c), fun hc => absurd hc.1 h⟩

theorem px_isSome (img : CString) (i : Int) : (px img i).isSome = true ↔ 0 ≤ i ∧ i < img.length := by
  rw [Option.isSome_iff_exists]
  constructor
  · rintro ⟨c, hc⟩
    obtain ⟨hi, hget⟩ := px_eq_some.mp hc
    have := (List.getElem?_eq_some_iff.mp hget).1
    omega
  · rintro ⟨hi, hlt⟩
    have hbound : i.toNat < img.length := by omega
    exact ⟨img[i.toNat], px_eq_some.mpr ⟨hi, List.getElem?_eq_getElem hbound⟩⟩

theorem px_set_of_ne {img : CString} {i j : Int} {c : UInt8} (hi : 0 ≤ i) (hij : j ≠ i) :
    px (img.set i.toNat c) j = px img j := by
  unfold px
  split
  case isTrue hj => rw [List.getElem?_set_ne (by omega)]
  case isFalse => rfl

theorem embed_length (img : CString) (i : Int) (bits : List UInt8) :
    (embed img i bits).length = img.length := by
  induction bits generalizing img i with
  | nil => rfl
  | cons bit bits ih =>
      rw [embed]
      split
      · rw [ih, List.length_set]
      · exact ih img (i + 1)

/-- Bytes before the place of the bits stay. -/
theorem embed_before (img : CString) {i j : Int} (bits : List UInt8) (hj : j < i) :
    px (embed img i bits) j = px img j := by
  induction bits generalizing img i with
  | nil => rfl
  | cons bit bits ih =>
      rw [embed]
      split
      case h_1 c hc =>
          rw [ih _ (by omega)]
          exact px_set_of_ne (px_eq_some.mp hc).1 (by omega)
      case h_2 => exact ih img (by omega)

theorem forall₂_refl (img : CString) : List.Forall₂ SameHigh img img :=
  List.forall₂_same.mpr fun _ _ => rfl

theorem forall₂_set {img : CString} {k : Nat} {c d : UInt8} (hd : img[k]? = some d) (hcd : SameHigh c d) :
    List.Forall₂ SameHigh (img.set k c) img := by
  induction img generalizing k with
  | nil => cases hd
  | cons x img ih =>
      cases k with
      | zero =>
          obtain rfl : x = d := Option.some.inj hd
          exact .cons hcd (forall₂_refl img)
      | succ k => exact .cons rfl (ih hd)

theorem forall₂_trans {x y z : CString} (hxy : List.Forall₂ SameHigh x y) (hyz : List.Forall₂ SameHigh y z) :
    List.Forall₂ SameHigh x z := by
  induction hxy generalizing z with
  | nil => exact hyz
  | cons h _ ih =>
      cases hyz with
      | cons h' ht => exact .cons (Eq.trans h h') (ih ht)

/-- Only lowest bits change. -/
theorem embed_high (img : CString) (i : Int) {bits : List UInt8} (hbits : ∀ b ∈ bits, b = 0 ∨ b = 1) :
    List.Forall₂ SameHigh (embed img i bits) img := by
  induction bits generalizing img i with
  | nil => exact forall₂_refl img
  | cons bit bits ih =>
      obtain ⟨hbit, hrest⟩ := List.forall_mem_cons.mp hbits
      rw [embed]
      split
      case h_1 c hc =>
          refine forall₂_trans (ih _ _ hrest) ?_
          exact forall₂_set (px_eq_some.mp hc).2 (setLow_high hbit c)
      case h_2 => exact ih _ _ hrest

/-- The lowest bits of the pixel bytes from a place on. -/
def Shows (img : CString) (i : Int) (bits : List UInt8) : Prop :=
  ∀ (k : Nat) (b : UInt8), bits[k]? = some b → ∃ q, px img (i + k) = some q ∧ q &&& 1 = b

theorem embed_shows (img : CString) {i : Int} (hi : 0 ≤ i) {bits : List UInt8}
    (hroom : i + bits.length ≤ img.length) (hbits : ∀ b ∈ bits, b = 0 ∨ b = 1) :
    Shows (embed img i bits) i bits := by
  induction bits generalizing img i with
  | nil => exact fun k b hb => by simp at hb
  | cons bit bits ih =>
      obtain ⟨hbit, hrest⟩ := List.forall_mem_cons.mp hbits
      rw [List.length_cons] at hroom
      obtain ⟨c, hc⟩ := Option.isSome_iff_exists.mp ((px_isSome img i).mpr ⟨hi, by omega⟩)
      rw [embed, hc]
      dsimp only
      intro k b hb
      cases k with
      | zero =>
          obtain rfl : bit = b := by simpa using hb
          refine ⟨setLow c bit, ?_, setLow_low hbit c⟩
          have hlt := (List.getElem?_eq_some_iff.mp (px_eq_some.mp hc).2).1
          rw [embed_before _ _ (by omega)]
          refine px_eq_some.mpr ⟨by simpa using hi, ?_⟩
          simp [hlt]
      | succ k =>
          have hnext := ih (img.set i.toNat (setLow c bit)) (i := i + 1) (by omega)
            (by rw [List.length_set]; omega) hrest k b (by simpa using hb)
          rwa [show i + ((k + 1 : Nat) : Int) = i + 1 + k by omega]

theorem Shows.left {img : CString} {i : Int} {x y : List UInt8} (h : Shows img i (x ++ y)) : Shows img i x := by
  intro k b hb
  have hk := (List.getElem?_eq_some_iff.mp hb).1
  exact h k b (by rw [List.getElem?_append_left hk, hb])

theorem Shows.right {img : CString} {i : Int} {x y : List UInt8} (h : Shows img i (x ++ y)) :
    Shows img (i + x.length) y := by
  intro k b hb
  have hget := h (x.length + k) b (by rw [List.getElem?_append_right (by omega)]; simpa using hb)
  rwa [show i + ((x.length + k : Nat) : Int) = i + x.length + k by omega] at hget

/-! ### Reading bits -/

set_option maxRecDepth 4000 in
theorem fold_bits (c : UInt8) : (bitsOf c).foldl (fun val b => (val <<< 1) ||| b.toNat) 0 = c.toNat :=
  forall_byte (P := fun c => (bitsOf c).foldl (fun val b => (val <<< 1) ||| b.toNat) 0 = c.toNat)
    (by decide) c

theorem readByte_shows {img : CString} {i : Int} {c : UInt8} (h : Shows img i (bitsOf c)) :
    readByte img i = some c.toNat := by
  obtain ⟨q0, h0, l0⟩ := h 0 _ rfl
  obtain ⟨q1, h1, l1⟩ := h 1 _ rfl
  obtain ⟨q2, h2, l2⟩ := h 2 _ rfl
  obtain ⟨q3, h3, l3⟩ := h 3 _ rfl
  obtain ⟨q4, h4, l4⟩ := h 4 _ rfl
  obtain ⟨q5, h5, l5⟩ := h 5 _ rfl
  obtain ⟨q6, h6, l6⟩ := h 6 _ rfl
  obtain ⟨q7, h7, l7⟩ := h 7 _ rfl
  push_cast at h0 h1 h2 h3 h4 h5 h6 h7
  rw [← fold_bits c]
  simp only [readByte, List.foldlM_cons, List.foldlM_nil, h0, h1, h2, h3, h4, h5, h6, h7, Option.map_some,
    Option.bind_eq_bind, Option.bind_some, l0, l1, l2, l3, l4, l5, l6, l7, bitsOf, List.foldl_cons,
    List.foldl_nil]
  rfl

theorem readBytes_shows {img : CString} {i : Int} {s : CString} (h : Shows img i (s.flatMap bitsOf)) :
    readBytes img i s.length = some (s.map UInt8.toNat) := by
  induction s generalizing i with
  | nil => rfl
  | cons c s ih =>
      rw [List.flatMap_cons] at h
      have hrest : Shows img (i + 8) (s.flatMap bitsOf) := h.right
      rw [List.length_cons, readBytes, readByte_shows h.left, Option.bind_some, ih hrest]
      rfl

/-- A byte can be read where its eight pixel bytes are in the image. -/
theorem readByte_isSome (img : CString) (i : Int) :
    (readByte img i).isSome = true ↔ 0 ≤ i ∧ i + 8 ≤ img.length := by
  have hfold : ∀ (l : List Int) (val : Nat), (l.foldlM (fun val b =>
      (px img (i + b)).map fun pxVal => (val <<< 1) ||| (pxVal &&& 1).toNat) val).isSome = true ↔
        ∀ b ∈ l, 0 ≤ i + b ∧ i + b < img.length := by
    intro l
    induction l with
    | nil => intro val; simp
    | cons b l ih =>
        intro val
        rw [List.foldlM_cons, List.forall_mem_cons, ← px_isSome]
        cases hpx : px img (i + b) with
        | none => simp
        | some c => simpa using ih _
  rw [readByte, hfold]
  simp only [List.forall_mem_cons, List.not_mem_nil, false_implies, implies_true, and_true]
  omega

theorem readBytes_isSome (img : CString) (i : Int) (n : Nat) :
    (readBytes img i n).isSome = true ↔ n = 0 ∨ 0 ≤ i ∧ i + 8 * n ≤ img.length := by
  induction n generalizing i with
  | zero => simp [readBytes]
  | succ n ih =>
      have hbyte := readByte_isSome img i
      have hrest := ih (i + 8)
      rw [readBytes]
      cases hread : readByte img i with
      | none =>
          rw [hread] at hbyte
          simp only [Option.isSome_none, Bool.false_eq_true, false_iff] at hbyte
          simp only [Option.bind_none, Option.isSome_none, Bool.false_eq_true, false_iff]
          omega
      | some val =>
          rw [hread] at hbyte
          simp only [Option.isSome_some, true_iff] at hbyte
          rw [Option.bind_some, Option.isSome_map, hrest]
          omega

/-! ### The header -/

theorem or_shift {a b : Nat} (k : Nat) (ha : a < 2 ^ k) : a ||| b <<< k = a + b * 2 ^ k := by
  rw [Nat.or_comm, ← Nat.shiftLeft_add_eq_or_of_lt ha, Nat.shiftLeft_eq, Nat.add_comm]

theorem or_bytes {a b c d : Nat} (ha : a < 256) (hb : b < 256) (hc : c < 256) :
    a ||| (b <<< 8) ||| (c <<< 16) ||| (d <<< 24) = a + 256 * b + 65536 * c + 16777216 * d := by
  rw [or_shift 8 ha, or_shift 16 (by omega), or_shift 24 (by omega)]
  omega

theorem toNat_ofNat_mod (n : Nat) : (UInt8.ofNat n).toNat = n % 256 := UInt8.toNat_ofNat'

theorem passwordChecksum_lt (pass : Password) : passwordChecksum pass < 65536 := by
  have hfold : ∀ (l : List Nat) (sum : Nat), sum < 65535 →
      l.foldl (fun sum c => (sum * 31 + c) % 65535) sum < 65535 := by
    intro l
    induction l with
    | nil => exact fun _ h => h
    | cons c l ih => exact fun sum _ => ih _ (Nat.mod_lt _ (by decide))
  exact Nat.lt_succ_of_lt (hfold pass 0 (by decide))

theorem int32_lt (n : Nat) : int32 n < 4294967296 := by
  unfold int32
  split <;> omega

theorem secretLength_header (n : Nat) (enc : Bool) (sum : Nat) :
    secretLength ((header n enc sum).map UInt8.toNat) = int32 n := by
  have hlt := int32_lt n
  change (UInt8.ofNat (int32 n % 256)).toNat ||| ((UInt8.ofNat (int32 n / 256 % 256)).toNat <<< 8) |||
    ((UInt8.ofNat (int32 n / 65536 % 256)).toNat <<< 16) |||
    ((UInt8.ofNat (int32 n / 16777216 % 256)).toNat <<< 24) = int32 n
  simp only [toNat_ofNat_mod, Nat.mod_mod]
  rw [or_bytes (Nat.mod_lt _ (by decide)) (Nat.mod_lt _ (by decide)) (Nat.mod_lt _ (by decide))]
  omega

theorem storedChecksum_header (n : Nat) (enc : Bool) {sum : Nat} (hsum : sum < 65536) :
    storedChecksum ((header n enc sum).map UInt8.toNat) = sum := by
  have hand : ∀ x : Nat, x &&& 255 = x % 256 := fun x => Nat.and_two_pow_sub_one_eq_mod x 8
  change (UInt8.ofNat (sum &&& 255)).toNat ||| ((UInt8.ofNat ((sum >>> 8) &&& 255)).toNat <<< 8) = sum
  simp only [toNat_ofNat_mod, hand, Nat.mod_mod, Nat.shiftRight_eq_div_pow]
  rw [or_shift 8 (show sum % 256 < 2 ^ 8 from Nat.mod_lt _ (by decide))]
  omega

theorem flag_header (n : Nat) (enc : Bool) (sum : Nat) :
    ((header n enc sum).map UInt8.toNat).getD 8 0 = if enc then 1 else 0 := by
  cases enc <;> rfl

/-- The header is taken with the password it was written with, unless the length did not fit. -/
theorem checkHeader_header (n : Nat) (password : Option Password) :
    checkHeader ((header n (isEnc password)
      (if isEnc password then passwordChecksum (password.getD []) else 0)).map UInt8.toNat) password =
        if 2147483648 ≤ int32 n then some (lit "buffer() size cannot be negative") else none := by
  have hmagic : ((header n (isEnc password)
      (if isEnc password then passwordChecksum (password.getD []) else 0)).map UInt8.toNat).take 4 =
        [0x45, 0x5A, 0x53, 0x54] := rfl
  rw [checkHeader, if_neg (not_not_intro hmagic), flag_header, secretLength_header]
  cases henc : isEnc password with
  | false =>
      rw [if_neg (by simp), if_neg (by simp)]
  | true =>
      have hlength : (password.getD []).length ≠ 0 := by
        rw [isEnc, decide_eq_true_eq] at henc
        omega
      have hstored := storedChecksum_header n true (passwordChecksum_lt (password.getD []))
      rw [if_neg (fun h => hlength h.2), if_pos rfl, if_pos rfl, hstored, if_neg (fun h => h.2 rfl)]

/-- Decoding under the key undoes encoding. -/
theorem cipherFrom_cipherFrom (enc : Bool) (pass : Password) (i : Nat) (s : CString) :
    cipherFrom enc pass i ((cipherFrom enc pass i (s.map UInt8.toNat)).map UInt8.toNat) = s := by
  induction s generalizing i with
  | nil => rfl
  | cons c s ih =>
      rw [List.map_cons, cipherFrom, List.map_cons, cipherFrom, ih, toNat_ofNat_mod]
      congr 1
      have hc : c.toNat % 256 = c.toNat := Nat.mod_eq_of_lt c.toNat_lt
      cases enc with
      | false =>
          change UInt8.ofNat (c.toNat % 256) = c
          rw [hc, UInt8.ofNat_toNat]
      | true =>
          refine UInt8.toNat_inj.mp ?_
          change (UInt8.ofNat ((c.toNat ^^^ pass.getD (i % pass.length) 0) % 256 ^^^
            pass.getD (i % pass.length) 0)).toNat = c.toNat
          generalize pass.getD (i % pass.length) 0 = key
          rw [toNat_ofNat_mod, show (256 : Nat) = 2 ^ 8 from rfl, Nat.xor_mod_two_pow, Nat.mod_mod,
            Nat.xor_mod_two_pow, Nat.xor_assoc, Nat.xor_self, Nat.xor_zero]
          exact hc

theorem cipherFrom_length (enc : Bool) (pass : Password) (i : Nat) (vals : List Nat) :
    (cipherFrom enc pass i vals).length = vals.length := by
  induction vals generalizing i with
  | nil => rfl
  | cons val vals ih => rw [cipherFrom, List.length_cons, ih, List.length_cons]

end Stego

end EZLanguage
