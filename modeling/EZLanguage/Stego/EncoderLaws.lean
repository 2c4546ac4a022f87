import EZLanguage.Stego.Encoder

/-!
# The laws of hidden secrets

`decode` finds in a written image the bytes that `encode` has put there: as many as the secret has characters.
On an arbitrary file it reads where the header of the file sends it.
-/

namespace EZLanguage

namespace Stego

/-! ### What the reader finds in a written image -/

/-- The pixels begin behind the headers of the file, and not behind its end. -/
def ValidOffset (img : CString) : Prop := 54 ≤ readInt32 img 10 ∧ readInt32 img 10 ≤ img.length

/-- The checks of `encode`. -/
def Accepts (img secretText : CString) : Prop :=
  54 ≤ lengthChars img ∧ img.getD 0 0 = 0x42 ∧ img.getD 1 0 = 0x4D ∧
    (11 + lengthChars secretText : Int) * 8 ≤ lengthChars img - readInt32 img 10 ∧
    11 + lengthChars secretText < 2147483648

theorem encode_ok_iff {img secretText out : CString} {password : Option Password} :
    encode img secretText password = .ok out ↔ Accepts img secretText ∧
      out = embed img (readInt32 img 10) ((payload secretText password).flatMap bitsOf) := by
  unfold encode Accepts
  split
  case isTrue h => exact ⟨fun hx => (by cases hx), fun hx => by omega⟩
  case isFalse hsize =>
      split
      case isTrue h =>
          refine ⟨fun hx => (by cases hx), fun hx => ?_⟩
          exact h.elim (fun h => absurd hx.1.2.1 h) fun h => absurd hx.1.2.2.1 h
      case isFalse h =>
          rw [not_or, not_not, not_not] at h
          dsimp only
          split
          case isTrue hroom =>
              refine ⟨fun hx => (by cases hx), fun hx => ?_⟩
              have := hx.1.2.2.2.1
              push_cast at hroom
              omega
          case isFalse hroom =>
              push_cast at hroom
              split
              case isTrue hlarge => exact ⟨fun hx => (by cases hx), fun hx => absurd hx.1.2.2.2.2 (by omega)⟩
              case isFalse hlarge =>
                  refine ⟨fun hx => ⟨⟨by omega, h.1, h.2, by omega, by omega⟩, (Except.ok.inj hx).symm⟩,
                    fun hx => ?_⟩
                  rw [hx.2]

theorem flatMap_bits_length (s : CString) : (s.flatMap bitsOf).length = 8 * s.length := by
  induction s with
  | nil => rfl
  | cons c s ih =>
      rw [List.flatMap_cons, List.length_append, ih, List.length_cons]
      change 8 + 8 * s.length = _
      omega

theorem payload_bits (secretText : CString) (password : Option Password) :
    ∀ b ∈ (payload secretText password).flatMap bitsOf, b = 0 ∨ b = 1 := by
  intro b hb
  obtain ⟨c, -, hc⟩ := List.mem_flatMap.mp hb
  exact bit_cases c b hc

theorem payload_length (secretText : CString) (password : Option Password) :
    (payload secretText password).length = 11 + lengthChars secretText := by
  have hle := lengthChars_le secretText
  rw [payload, List.length_append, cipherFrom_length, List.length_map, List.length_take, Nat.min_eq_left hle]
  rfl

/-- The bytes that are read as the pixel offset are not among the pixels. -/
theorem readInt32_embed (img : CString) {off : Int} (hoff : 54 ≤ off) (bits : List UInt8) :
    readInt32 (embed img off bits) 10 = readInt32 img 10 := by
  have hbyte : ∀ j : Nat, j < 54 → (embed img off bits).getD j 0 = img.getD j 0 := by
    intro j hj
    have hpx := @embed_before img off j bits (by omega)
    rw [px, px, if_pos (by omega), if_pos (by omega), Int.toNat_natCast] at hpx
    rw [List.getD_eq_getElem?_getD, List.getD_eq_getElem?_getD, hpx]
  unfold readInt32
  rw [hbyte 10 (by decide), hbyte (10 + 1) (by decide), hbyte (10 + 2) (by decide), hbyte (10 + 3) (by decide)]

theorem decode_embed {img secretText : CString} {password : Option Password} (hvalid : ValidOffset img)
    (haccepts : Accepts img secretText) :
    decode (embed img (readInt32 img 10) ((payload secretText password).flatMap bitsOf)) password =
      .secret (secretText.take (lengthChars secretText)) := by
  obtain ⟨hlow, -⟩ := hvalid
  obtain ⟨-, -, -, hroom, hsmall⟩ := haccepts
  have hchars := lengthChars_le img
  have hlength := payload_length secretText password
  have hfits : readInt32 img 10 + ((payload secretText password).flatMap bitsOf).length ≤ img.length := by
    rw [flatMap_bits_length, hlength]
    push_cast
    omega
  have hshows := embed_shows img (by omega) hfits (payload_bits secretText password)
  have hcount := lengthFrom_congr (embed_high img (readInt32 img 10) (payload_bits secretText password)) 0
  have hoffset := readInt32_embed img hlow ((payload secretText password).flatMap bitsOf)
  generalize embed img (readInt32 img 10) ((payload secretText password).flatMap bitsOf) = out at *
  change lengthChars out = lengthChars img at hcount
  have hhead : readBytes out (readInt32 img 10) 11 = _ :=
    readBytes_shows (s := header (lengthChars secretText) (isEnc password)
      (if isEnc password then passwordChecksum (password.getD []) else 0)) (by
        rw [payload, List.flatMap_append] at hshows
        exact hshows.left)
  have hbody : Shows out (readInt32 img 10 + 88) ((cipherFrom (isEnc password) (password.getD []) 0
      ((secretText.take (lengthChars secretText)).map UInt8.toNat)).flatMap bitsOf) := by
    rw [payload, List.flatMap_append] at hshows
    have := hshows.right
    rwa [flatMap_bits_length] at this
  have hread := readBytes_shows hbody
  have hbodyLength : (cipherFrom (isEnc password) (password.getD []) 0
      ((secretText.take (lengthChars secretText)).map UInt8.toNat)).length = lengthChars secretText := by
    rw [cipherFrom_length, List.length_map, List.length_take, Nat.min_eq_left (lengthChars_le secretText)]
  rw [hbodyLength] at hread
  rw [decode, if_neg (by omega), hoffset]
  simp only [hhead, checkHeader_header, secretLength_header, flag_header]
  have hint : int32 (lengthChars secretText) = lengthChars secretText := by
    unfold int32
    rw [if_pos (by omega)]
  rw [hint, if_neg (by omega)]
  dsimp only
  rw [hread]
  dsimp only
  have hflag : decide ((if isEnc password = true then 1 else 0) = 1) = isEnc password := by
    cases isEnc password <;> rfl
  rw [hflag, cipherFrom_cipherFrom]

/-! ### The laws -/

/-- The round trip, the image, and the reads on any file. -/
structure Laws (img secretText : CString) (password : Option Password) (file : CString) : Prop where
  roundTrip : ValidOffset img → ∀ out, encode img secretText password = .ok out →
    decode out password = .secret secretText
  size : ValidOffset img → ∀ out, encode img secretText password = .ok out → out.length = img.length
  lowestBits : ValidOffset img → ∀ out, encode img secretText password = .ok out →
    List.Forall₂ SameHigh out img ∧ ∀ i : Int, i < readInt32 img 10 → px out i = px img i
  inside : decode file password ≠ .outside

/-- An accepted secret has one byte for each character. -/
def Bytewise (img secretText : CString) : Prop :=
  ValidOffset img → Accepts img secretText → lengthChars secretText = secretText.length

/-- The header lies in the image, and so does the secret where the header is accepted. -/
def Fits (file : CString) (password : Option Password) : Prop :=
  142 ≤ lengthChars file → 0 ≤ readInt32 file 10 ∧ readInt32 file 10 + 88 ≤ file.length ∧
    ∀ headerBytes, readBytes file (readInt32 file 10) 11 = some headerBytes →
      checkHeader headerBytes password = none →
        readInt32 file 10 + 88 + 8 * secretLength headerBytes ≤ file.length

theorem decode_inside_iff (file : CString) (password : Option Password) :
    decode file password ≠ .outside ↔ Fits file password := by
  unfold decode Fits
  split
  case isTrue hsmall => exact ⟨fun _ h => by omega, fun _ h => by cases h⟩
  case isFalse hsmall =>
      have hbytes := readBytes_isSome file (readInt32 file 10) 11
      dsimp only
      cases hread : readBytes file (readInt32 file 10) 11 with
      | none =>
          rw [hread] at hbytes
          simp only [Option.isSome_none, Bool.false_eq_true, false_iff] at hbytes
          refine ⟨fun h => absurd rfl h, fun h => ?_⟩
          obtain ⟨hlow, hhigh, -⟩ := h (by omega)
          omega
      | some headerBytes =>
          rw [hread] at hbytes
          simp only [Option.isSome_some, true_iff] at hbytes
          dsimp only
          have hfront : 0 ≤ readInt32 file 10 ∧ readInt32 file 10 + 88 ≤ file.length := by omega
          cases hcheck : checkHeader headerBytes password with
          | some message =>
              refine ⟨fun _ _ => ⟨hfront.1, hfront.2, fun hb hsome hnone => ?_⟩, fun _ h => by cases h⟩
              obtain rfl := Option.some.inj hsome
              rw [hcheck] at hnone
              cases hnone
          | none =>
              have hsecret := readBytes_isSome file (readInt32 file 10 + 88) (secretLength headerBytes)
              dsimp only
              cases hvals : readBytes file (readInt32 file 10 + 88) (secretLength headerBytes) with
              | none =>
                  rw [hvals] at hsecret
                  simp only [Option.isSome_none, Bool.false_eq_true, false_iff] at hsecret
                  refine ⟨fun h => absurd rfl h, fun h => ?_⟩
                  have := (h (by omega)).2.2 headerBytes rfl hcheck
                  omega
              | some vals =>
                  rw [hvals] at hsecret
                  simp only [Option.isSome_some, true_iff] at hsecret
                  refine ⟨fun _ _ => ⟨hfront.1, hfront.2, fun hb hsome _ => ?_⟩, fun _ h => by cases h⟩
                  obtain rfl := Option.some.inj hsome
                  omega

/-- The laws hold exactly where an accepted secret has one byte for each character, and the file that is read
has room for what its header says. -/
theorem stego_laws_iff (img secretText : CString) (password : Option Password) (file : CString) :
    Laws img secretText password file ↔ Bytewise img secretText ∧ Fits file password := by
  constructor
  · intro h
    refine ⟨fun hvalid haccepts => ?_, (decode_inside_iff file password).mp h.inside⟩
    have hback := h.roundTrip hvalid _ (encode_ok_iff.mpr ⟨haccepts, rfl⟩)
    rw [decode_embed hvalid haccepts] at hback
    have hlength := congrArg List.length (Decoded.secret.inj hback)
    rwa [List.length_take, Nat.min_eq_left (lengthChars_le secretText)] at hlength
  · rintro ⟨hbytes, hfits⟩
    refine ⟨fun hvalid out hout => ?_, fun _ out hout => ?_, fun hvalid out hout => ⟨?_, fun i hi => ?_⟩,
      (decode_inside_iff file password).mpr hfits⟩
    · obtain ⟨haccepts, rfl⟩ := encode_ok_iff.mp hout
      rw [decode_embed hvalid haccepts, hbytes hvalid haccepts, List.take_length]
    · obtain ⟨-, rfl⟩ := encode_ok_iff.mp hout
      exact embed_length _ _ _
    · obtain ⟨-, rfl⟩ := encode_ok_iff.mp hout
      exact embed_high _ _ (payload_bits secretText password)
    · obtain ⟨-, rfl⟩ := encode_ok_iff.mp hout
      exact embed_before _ _ hi

/-- A file whose pixel offset points behind its end is read there. -/
theorem not_laws_offset : ¬Laws [] [] none (List.replicate 142 127) := by
  intro h
  have hfits := (decode_inside_iff _ _).mp h.inside (by decide +kernel)
  have hoffset : readInt32 (List.replicate 142 127) 10 = 2139062143 := by decide
  rw [hoffset] at hfits
  exact absurd hfits.2.1 (by decide +kernel)

end Stego

end EZLanguage
