import EZLanguage.Bytecode.Chunk

/-!
# UTF-8 over byte strings

The lenient decoder of the string builtins: a byte that starts no well-formed sequence counts as a
character of its own. Every step of the walk over a string therefore consumes at least one byte.
-/

namespace EZLanguage

namespace Utf8

/-- `seqLen`. -/
def seqLen (c : UInt8) : Nat :=
  if c < 0x80 then 1
  else if c &&& 0xE0 == 0xC0 then 2
  else if c &&& 0xF0 == 0xE0 then 3
  else if c &&& 0xF8 == 0xF0 then 4
  else 1

/-- `validAt` for a sequence of more than one byte: its other bytes are there and continue it. -/
def continues (s : CString) (n : Nat) : Bool :=
  decide (n ≤ s.length) && ((s.take n).drop 1).all fun c => c &&& 0xC0 == 0x80

/-- The bytes the character at the front of a string takes. -/
def charLen (c : UInt8) (rest : CString) : Nat :=
  if seqLen c = 1 then 1 else if continues (c :: rest) (seqLen c) then seqLen c else 1

theorem seqLen_pos (c : UInt8) : 0 < seqLen c := by
  rw [seqLen]
  split_ifs <;> omega

theorem charLen_pos (c : UInt8) (rest : CString) : 0 < charLen c rest := by
  have hseq := seqLen_pos c
  rw [charLen]
  split_ifs <;> omega

/-- `decode` at the front of a string, with the value it reads. -/
def decode : CString → UInt32
  | [] => 0
  | c :: rest =>
      let lead : UInt32 :=
        match charLen c rest with
        | 1 => c.toUInt32
        | 2 => (c &&& 0x1F).toUInt32
        | 3 => (c &&& 0x0F).toUInt32
        | _ => (c &&& 0x07).toUInt32
      (rest.take (charLen c rest - 1)).foldl
        (fun cp b => (cp <<< 6) ||| (b &&& 0x3F).toUInt32) lead

/-- The byte that carries six bits of a code point. -/
def trail (bits : UInt32) : UInt8 := (0x80 : UInt8) ||| (bits &&& 0x3F).toUInt8

/-- `encode`. -/
def encode (cp : UInt32) : Option CString :=
  if 0x10FFFF < cp then none
  else if 0xD800 ≤ cp ∧ cp ≤ 0xDFFF then none
  else if cp < 0x80 then some [cp.toUInt8]
  else if cp < 0x800 then some [(0xC0 : UInt8) ||| (cp >>> 6).toUInt8, trail cp]
  else if cp < 0x10000 then
    some [(0xE0 : UInt8) ||| (cp >>> 12).toUInt8, trail (cp >>> 6), trail cp]
  else
    some [(0xF0 : UInt8) ||| (cp >>> 18).toUInt8, trail (cp >>> 12), trail (cp >>> 6), trail cp]

/-- `lengthChars`. -/
def lengthChars : CString → Nat
  | [] => 0
  | c :: rest => lengthChars (rest.drop (charLen c rest - 1)) + 1
termination_by s => s.length
decreasing_by simp only [List.length_drop, List.length_cons]; omega

/-- No byte of the string starts a well-formed sequence of more bytes. -/
def SingleBytes : CString → Prop
  | [] => True
  | c :: rest => charLen c rest = 1 ∧ SingleBytes rest

theorem lengthChars_le (s : CString) : lengthChars s ≤ s.length := by
  fun_induction lengthChars s with
  | case1 => exact Nat.le_refl _
  | case2 c rest ih =>
      rw [List.length_drop] at ih
      rw [List.length_cons]
      omega

/-- The characters are as many as the bytes exactly when every character is one byte. -/
theorem lengthChars_eq_length_iff (s : CString) : lengthChars s = s.length ↔ SingleBytes s := by
  induction s with
  | nil => simp [lengthChars, SingleBytes]
  | cons c rest ih =>
      have hpos := charLen_pos c rest
      rw [lengthChars, SingleBytes, List.length_cons]
      constructor
      · intro hlength
        have hle := lengthChars_le (rest.drop (charLen c rest - 1))
        rw [List.length_drop] at hle
        by_cases hone : charLen c rest = 1
        · refine ⟨hone, ih.mp ?_⟩
          rw [hone, Nat.sub_self, List.drop_zero] at hlength
          omega
        · have hshort : rest.length ≠ 0 := by
            intro hempty
            have hnil := List.length_eq_zero_iff.mp hempty
            apply hone
            rw [charLen]
            split_ifs with h1 h2
            · rfl
            · have hseq := seqLen_pos c
              rw [hnil, continues, Bool.and_eq_true, decide_eq_true_eq, List.length_singleton] at h2
              omega
            · rfl
          omega
      · rintro ⟨hone, hrest⟩
        rw [hone, Nat.sub_self, List.drop_zero, ih.mpr hrest]

end Utf8

end EZLanguage
