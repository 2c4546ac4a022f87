import EZLanguage.Serializer.Fidelity

/-!
# Every strict prefix of a program is rejected

Every reader of the format is stable: what it makes of an input does not change when more input
follows. A prefix that were accepted would therefore leave the rest of the program unread, so a
program that is read to its end has no prefix that is accepted.
-/

namespace EZLanguage

namespace BytecodeSerializer

open Support

theorem stable_readPod (width : Nat) (what : String) : (readPod width what).Stable :=
  (Reader.Stable.take _ _).bind fun _ => Reader.Stable.pure _

theorem stable_readU8 (what : String) : (readU8 what).Stable :=
  (stable_readPod _ _).bind fun _ => Reader.Stable.pure _

theorem stable_readU64 (what : String) : (readU64 what).Stable :=
  (stable_readPod _ _).bind fun _ => Reader.Stable.pure _

theorem stable_readBool (what : String) : (readBool what).Stable :=
  (stable_readPod _ _).bind fun _ => Reader.Stable.pure _

theorem stable_readCount (what : String) : (readCount what).Stable :=
  (stable_readPod _ _).bind fun _ => (Reader.Stable.pure _).ite (Reader.Stable.fail _)

theorem stable_readTable {α : Type} {read : ByteReader α} (what : String) (h : read.Stable) :
    (readTable what read).Stable :=
  (stable_readCount what).bind fun n => h.times n

theorem stable_readString : readString.Stable :=
  (stable_readCount _).bind fun _ => Reader.Stable.take _ _

theorem stable_readPayload (tag : UInt8) : (readPayload tag).Stable := by
  unfold readPayload
  split
  · exact Reader.Stable.pure _
  · exact (stable_readBool _).bind fun _ => Reader.Stable.pure _
  · exact (stable_readU64 _).bind fun _ => Reader.Stable.pure _
  · exact (stable_readU64 _).bind fun _ => Reader.Stable.pure _
  · exact stable_readString.bind fun _ => Reader.Stable.pure _
  · exact Reader.Stable.pure _
  · exact Reader.Stable.pure _
  · exact (stable_readTable _ (stable_readU64 _)).bind fun _ => Reader.Stable.pure _
  · exact Reader.Stable.fail _

theorem stable_readConstant : readConstant.Stable :=
  (stable_readU8 _).bind stable_readPayload

theorem stable_readCode : readCode.Stable :=
  Reader.Stable.attach <| (stable_readCount _).bind fun n => (Reader.Stable.take _ _).bind fun _ =>
    ((stable_readU64 _).times n).bind fun _ => Reader.Stable.pure _

theorem stable_readChunk : readChunk.Stable :=
  stable_readCode.bind fun _ => (stable_readTable _ stable_readConstant).bind fun _ =>
    Reader.Stable.pure _

theorem stable_readUpvalue : readUpvalue.Stable :=
  (stable_readU8 _).bind fun _ => (stable_readPod _ _).bind fun _ => Reader.Stable.pure _

theorem stable_readLocalVar : readLocalVar.Stable :=
  stable_readString.bind fun _ => (stable_readPod _ _).bind fun _ => (stable_readPod _ _).bind
    fun _ => (stable_readPod _ _).bind fun _ => Reader.Stable.pure _

theorem stable_readCallSite : readCallSite.Stable :=
  (stable_readPod _ _).bind fun _ => stable_readString.bind fun _ => Reader.Stable.pure _

theorem stable_readInfo : readInfo.Stable :=
  stable_readString.bind fun _ => stable_readString.bind fun _ =>
    (stable_readPod _ _).bind fun _ => (stable_readBool _).bind fun _ =>
    (stable_readBool _).bind fun _ => (stable_readBool _).bind fun _ =>
    (stable_readPod _ _).bind fun _ => (stable_readPod _ _).bind fun _ =>
    (stable_readTable _ stable_readUpvalue).bind fun _ =>
    (stable_readTable _ stable_readLocalVar).bind fun _ =>
    (stable_readTable _ stable_readString).bind fun _ =>
    (stable_readTable _ stable_readCallSite).bind fun _ =>
    stable_readChunk.bind fun _ => Reader.Stable.pure _

theorem stable_readFunction (levels : Nat) : (readFunction levels).Stable := by
  induction levels with
  | zero => exact Reader.Stable.fail _
  | succ levels ih =>
      exact stable_readInfo.bind fun _ => (stable_readTable _ ih).bind fun _ => Reader.Stable.pure _

theorem stable_readMagic : readMagic.Stable :=
  (Reader.Stable.take _ _).bind fun _ =>
    (Reader.Stable.fail _).ite <| (Reader.Stable.fail _).ite <|
      (Reader.Stable.pure _).ite (Reader.Stable.fail _)

theorem stable_deserialize : deserialize.Stable :=
  stable_readMagic.bind fun _ => (stable_readTable _ stable_readString).bind fun _ =>
    (stable_readFunction _).bind fun _ => Reader.Stable.pure _

/-- A serialized program: `deserialize` reads all of it. -/
def ValidProgram (bytes : List UInt8) : Prop := ∃ program, deserialize bytes = .ok (program, [])

/-- What `serialize` writes of a function within the limits is a program. -/
theorem validProgram_serialize {f : BytecodeFunction} {names : List CString}
    (hdepth : f.NestedAtMost EZC_MAX_NEST_DEPTH)
    (hf : f.Everywhere BytecodeFunction.WithinLimits) (hnames : NamesFit names) :
    ValidProgram (serialize f names) := by
  have h := parses_deserialize hdepth hf hnames []
  rw [List.append_nil] at h
  exact ⟨_, h⟩

/-- **Robustness.** Every input is rejected with an error or yields a program, and every strict
prefix of a program is rejected, what `serialize` writes of any function within the limits
included. -/
theorem deserialize_robust :
    (∀ bytes, (∃ e, deserialize bytes = .error e) ∨
      ∃ names f rest, deserialize bytes = .ok ((names, f), rest)) ∧
    (∀ f names, f.NestedAtMost EZC_MAX_NEST_DEPTH → f.Everywhere BytecodeFunction.WithinLimits →
      NamesFit names → ValidProgram (serialize f names)) ∧
    (∀ bytes, ValidProgram bytes → ∀ p, p <+: bytes → p ≠ bytes → ∃ e, deserialize p = .error e) := by
  refine ⟨?_, fun f names => validProgram_serialize, ?_⟩
  · intro bytes
    cases h : deserialize bytes with
    | error e => exact Or.inl ⟨e, rfl⟩
    | ok r => exact Or.inr ⟨r.1.1, r.1.2, r.2, rfl⟩
  · intro bytes hvalid p hp hne
    obtain ⟨program, hread⟩ := hvalid
    exact stable_deserialize.error_of_strict_prefix hread hp hne

theorem countScript_truncated :
    ∃ e, deserialize ((serialize countScript [lit "count"]).take 40) = .error e :=
  deserialize_robust.2.2 _
    (deserialize_robust.2.1 countScript _ countScript_nested
      (countScript_everywhere countScript_limits) countScript_names)
    _ (List.take_prefix _ _) (by decide)

end BytecodeSerializer

end EZLanguage
