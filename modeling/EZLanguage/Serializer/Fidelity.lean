import Mathlib.Algebra.GroupWithZero.Nat
import Mathlib.Algebra.Group.Int.Defs
import EZLanguage.Serializer.RoundTrip

/-!
# When a program runs after the round trip as it did before

Whatever the reader returns is within the limits it enforces and has the constructor's values in the
fields the format does not carry. A program therefore survives the round trip exactly when it is
within those limits itself and every function in it has those values already, which leaves out every
task with a default parameter, every method, every cached task and all code with an inline cache.
-/

namespace EZLanguage

namespace BytecodeSerializer

open Support

/-! ### What the reader returns -/

theorem returns_readPod (width : Nat) (what : String) :
    (readPod width what).Returns fun n => n < 256 ^ width :=
  (Reader.Returns.take width _).bind fun bs hbs => Reader.Returns.pure (hbs ▸ ofLE_lt bs)

theorem returns_readU32 (what : String) : (readPod 4 what).Returns fun n => n < 2 ^ 32 :=
  returns_readPod 4 what

theorem returns_readCount (what : String) : (readCount what).Returns fun n => n ≤ EZC_MAX_COUNT :=
  Reader.Returns.bind' fun n => by
    split
    case isTrue hn => exact Reader.Returns.pure hn
    case isFalse => exact Reader.Returns.fail _

theorem returns_readTable {α : Type} {read : ByteReader α} {P : α → Prop} (what : String)
    (h : read.Returns P) :
    (readTable what read).Returns fun xs => xs.length ≤ EZC_MAX_COUNT ∧ ∀ x ∈ xs, P x := by
  refine (returns_readCount what).bind fun n hn s xs rest hxs => ?_
  obtain ⟨hlen, hall⟩ := h.times n s xs rest hxs
  exact ⟨hlen ▸ hn, hall⟩

theorem returns_readString : readString.Returns fun s => s.length ≤ EZC_MAX_COUNT := by
  refine (returns_readCount _).bind fun n hn s xs rest hxs => ?_
  exact (Reader.Returns.take n _ s xs rest hxs) ▸ hn

theorem returns_readPayload (tag : UInt8) : (readPayload tag).Returns ConstantFits := by
  unfold readPayload
  split
  · exact Reader.Returns.pure trivial
  · exact Reader.Returns.bind' fun _ => Reader.Returns.pure trivial
  · exact Reader.Returns.bind' fun _ => Reader.Returns.pure trivial
  · exact Reader.Returns.bind' fun _ => Reader.Returns.pure trivial
  · exact returns_readString.bind fun _ hs => Reader.Returns.pure hs
  · exact Reader.Returns.pure trivial
  · exact Reader.Returns.pure trivial
  · exact (returns_readTable (P := fun _ => True) _ fun _ _ _ _ => trivial).bind
      fun _ hxs => Reader.Returns.pure hxs.1
  · exact Reader.Returns.fail _

theorem returns_readConstant : readConstant.Returns ConstantFits :=
  Reader.Returns.bind' returns_readPayload

/-- A chunk that was read: within the limits, and without inline caches. -/
structure ChunkRead (chunk : Chunk) : Prop where
  code : chunk.code.length ≤ EZC_MAX_COUNT
  constants : chunk.constants.entries.length ≤ EZC_MAX_COUNT ∧
    ∀ c ∈ chunk.constants.entries, ConstantFits c
  icEntries : chunk.icEntries = 0

theorem returns_readCode : readCode.Returns fun p => p.val.1.length ≤ EZC_MAX_COUNT := by
  intro s p rest h
  have hread := Reader.attach_ok.mp h
  exact ((returns_readCount _).bind fun n hn => (Reader.Returns.take n _).bind fun code hcode =>
    Reader.Returns.bind' fun lines =>
      Reader.Returns.pure (P := fun p : List UInt8 × List UInt64 => p.1.length ≤ EZC_MAX_COUNT)
        (hcode ▸ hn)) s p.val rest hread

theorem returns_readChunk : readChunk.Returns ChunkRead := by
  refine returns_readCode.bind fun code hcode => ?_
  refine (returns_readTable _ returns_readConstant).bind fun cs hcs => Reader.Returns.pure ?_
  have hpool := ConstantPool.addConstants_sublist ConstantPool.empty cs
  refine ⟨hcode, ⟨hpool.length_le.trans hcs.1, fun c hc => ?_⟩, rfl⟩
  exact hcs.2 c (hpool.subset hc)

theorem returns_readUpvalue : readUpvalue.Returns fun uv => uv.index < 2 ^ 32 :=
  Reader.Returns.bind' fun _ => (returns_readU32 _).bind fun _ hidx => Reader.Returns.pure hidx

theorem returns_readLocalVar : readLocalVar.Returns fun lv => lv.name.length ≤ EZC_MAX_COUNT :=
  returns_readString.bind fun _ hname => Reader.Returns.bind' fun _ => Reader.Returns.bind' fun _ =>
    Reader.Returns.bind' fun _ => Reader.Returns.pure hname

theorem returns_readCallSite : readCallSite.Returns fun cs => cs.name.length ≤ EZC_MAX_COUNT :=
  Reader.Returns.bind' fun _ => returns_readString.bind fun _ hname => Reader.Returns.pure hname

end BytecodeSerializer

namespace BytecodeFunction

open BytecodeSerializer

/-- The fields the format leaves out, with the values they come back with. -/
structure Uncarried (f : BytecodeFunction) : Prop where
  className : f.className = []
  hasCached : f.hasCached = false
  defaultParamCount : f.defaultParamCount = 0
  icEntries : f.chunk.icEntries = 0

/-- A function that loses nothing the VM reads: it has no class, no default parameters and no cached
result, and no instruction of its code uses an inline cache. -/
structure CarriedByFormat (f : BytecodeFunction) : Prop where
  className : f.className = []
  hasCached : f.hasCached = false
  defaultParamCount : f.defaultParamCount = 0
  icOperands : f.icOperands = []

end BytecodeFunction

namespace BytecodeSerializer

open Support BytecodeFunction

theorem returns_readFunction (levels : Nat) :
    (readFunction levels).Returns fun f => f.Everywhere fun g => g.WithinLimits ∧ g.Uncarried := by
  induction levels with
  | zero => exact Reader.Returns.fail _
  | succ levels ih =>
      refine Reader.Returns.bind (Q := fun info => ∀ nested : List BytecodeFunction,
        nested.length ≤ EZC_MAX_COUNT →
          WithinLimits ⟨info, nested⟩ ∧ Uncarried ⟨info, nested⟩) ?_ ?_
      · refine returns_readString.bind fun name hname => ?_
        refine returns_readString.bind fun filename hfilename => ?_
        refine (returns_readU32 _).bind fun arity harity => ?_
        refine Reader.Returns.bind' fun _ => Reader.Returns.bind' fun _ =>
          Reader.Returns.bind' fun _ => ?_
        refine (returns_readU32 _).bind fun upvalueCount hupvalueCount => ?_
        refine (returns_readU32 _).bind fun localCount hlocalCount => ?_
        refine (returns_readTable _ returns_readUpvalue).bind fun upvalues hupvalues => ?_
        refine (returns_readTable _ returns_readLocalVar).bind fun localVars hlocalVars => ?_
        refine (returns_readTable _ returns_readString).bind fun paramNames hparamNames => ?_
        refine (returns_readTable _ returns_readCallSite).bind fun callSites hcallSites => ?_
        refine returns_readChunk.bind fun chunk hchunk => Reader.Returns.pure fun nested hnested => ?_
        exact ⟨⟨hname, hfilename, harity, hupvalueCount, hlocalCount, hupvalues, hlocalVars,
          hparamNames, hcallSites, hchunk.code, hchunk.constants, hnested⟩,
          ⟨rfl, rfl, rfl, hchunk.icEntries⟩⟩
      · intro info hinfo
        refine (returns_readTable _ ih).bind fun nested hnested => Reader.Returns.pure ?_
        exact .mk (hinfo nested hnested.1) hnested.2

theorem returns_deserialize : deserialize.Returns fun p =>
    NamesFit p.1 ∧ p.2.Everywhere fun g => g.WithinLimits ∧ g.Uncarried :=
  Reader.Returns.bind' fun _ => (returns_readTable _ returns_readString).bind fun _ hnames =>
    (returns_readFunction _).bind fun _ hf => Reader.Returns.pure ⟨hnames, hf⟩

/-! ### The round trip -/

/-- The program that comes back has the same names and a main function that runs the same. -/
def RoundTrips (f : BytecodeFunction) (names : List CString) : Prop :=
  ∃ g rest, deserialize (serialize f names) = .ok ((names, g), rest) ∧ SameForVM f g

theorem icOperands_loaded (f : BytecodeFunction) : f.loaded.icOperands = f.icOperands := by
  refine icOperands_congr ?_ fun i => ?_
  · rw [loaded_eq]
    rfl
  · rw [loaded_eq, List.getElem?_map, Option.map_map]
    congr 1
    funext g
    simp only [Function.comp, loaded_eq]
    rfl

theorem icOperands_of_sameForVM {f g : BytecodeFunction} (h : SameForVM f g) :
    g.icOperands = f.icOperands := by
  obtain ⟨hfields, -, hlength, hnested⟩ := h
  refine icOperands_congr hfields.code fun i => ?_
  by_cases hi : i < f.nestedFunctions.length
  · have hi' : i < g.nestedFunctions.length := hlength ▸ hi
    obtain ⟨hsame, -, -, -⟩ := hnested i hi hi'
    rw [List.getElem?_eq_getElem hi, List.getElem?_eq_getElem hi', Option.map_some,
      Option.map_some, hsame.upvalues]
  · rw [List.getElem?_eq_none (by omega), List.getElem?_eq_none (by omega)]

/-- A range the compiler records covers the same code offsets in 32 bits. -/
theorem sameInTraceback_loaded {lv : LocalVarInfo} {n : Nat} (hn : n ≤ EZC_MAX_COUNT)
    (hlv : lv.InCode n) : lv.SameInTraceback n lv.loaded := by
  obtain ⟨hslot, hstart, hend⟩ := hlv
  simp only [EZC_MAX_COUNT] at hn
  refine ⟨rfl, Nat.mod_eq_of_lt (by omega), fun pc hpc => ?_⟩
  simp only [LocalVarInfo.liveAt, LocalVarInfo.loaded, SIZE_MAX] at hend ⊢
  omega

theorem sameFields_loaded {f : BytecodeFunction} (hlimits : f.WithinLimits)
    (hcarried : f.CarriedByFormat) (hlocals : ∀ lv ∈ f.localVars, lv.InCode f.chunk.code.length) :
    SameFields f f.loaded := by
  rw [loaded_eq]
  refine ⟨rfl, rfl, hcarried.className.symm, rfl, rfl, rfl, rfl, rfl, hcarried.hasCached.symm, rfl,
    rfl, rfl, rfl, rfl, rfl, ?_, rfl, hcarried.defaultParamCount.symm⟩
  refine List.forall₂_map_right_iff.mpr (List.forall₂_same.mpr fun lv hlv => ?_)
  exact sameInTraceback_loaded hlimits.code (hlocals lv hlv)

/-- A function that loses nothing the VM reads runs the same once loaded. -/
theorem sameForVM_loaded {f : BytecodeFunction}
    (hf : f.Everywhere fun g => g.WithinLimits ∧ g.CarriedByFormat) (hlocals : f.LocalsInCode) :
    SameForVM f f.loaded := by
  induction hf with
  | @mk f here nested ih =>
      refine .mk (sameFields_loaded here.1 here.2 hlocals.here) ?_ ?_ ?_
      · intro i hi
        rw [icOperands_loaded, here.2.icOperands] at hi
        cases hi
      · simp [loaded_eq]
      · intro i hi hi'
        simp only [loaded_eq f, List.getElem_map]
        have hmem : f.nestedFunctions[i] ∈ f.nestedFunctions := List.getElem_mem hi
        exact ih _ hmem (hlocals.nested hmem)

/-- A function that runs the same as one that was read loses nothing the VM reads. -/
theorem carried_of_sameForVM {f g : BytecodeFunction} (hsame : SameForVM f g)
    (hg : g.Everywhere fun h => h.WithinLimits ∧ h.Uncarried) :
    f.Everywhere fun h => h.WithinLimits ∧ h.CarriedByFormat := by
  induction hsame with
  | @mk f g fields caches length nested ih =>
      have hoperands := icOperands_of_sameForVM (.mk fields caches length nested)
      obtain ⟨limits, uncarried⟩ := hg.here
      refine .mk ⟨⟨?_, ?_, ?_, ?_, ?_, ?_, ?_, ?_, ?_, ?_, ?_, ?_⟩, ⟨?_, ?_, ?_, ?_⟩⟩ ?_
      · exact fields.name ▸ limits.name
      · exact fields.filename ▸ limits.filename
      · exact fields.arity ▸ limits.arity
      · exact fields.upvalueCount ▸ limits.upvalueCount
      · exact fields.localCount ▸ limits.localCount
      · exact fields.upvalues ▸ limits.upvalues
      · refine ⟨fields.localVars.length_eq ▸ limits.localVars.1, fun lv hlv => ?_⟩
        obtain ⟨i, hi, rfl⟩ := List.getElem_of_mem hlv
        have hi' : i < g.localVars.length := fields.localVars.length_eq ▸ hi
        have hname := (fields.localVars.get hi hi').1
        exact hname ▸ limits.localVars.2 _ (List.getElem_mem hi')
      · exact fields.paramNames ▸ limits.paramNames
      · exact fields.callSites ▸ limits.callSites
      · exact fields.code ▸ limits.code
      · exact fields.constants ▸ limits.constants
      · exact length ▸ limits.nestedFunctions
      · exact fields.className ▸ uncarried.className
      · exact fields.hasCached ▸ uncarried.hasCached
      · exact fields.defaultParamCount ▸ uncarried.defaultParamCount
      · rw [← hoperands]
        refine List.eq_nil_iff_forall_not_mem.mpr fun i hi => ?_
        have hlt := caches i hi
        rw [uncarried.icEntries] at hlt
        exact absurd hlt (Nat.not_lt_zero i)
      · intro h hh
        obtain ⟨i, hi, rfl⟩ := List.getElem_of_mem hh
        have hi' : i < g.nestedFunctions.length := length ▸ hi
        exact ih i hi hi' (hg.nested (List.getElem_mem hi'))

/-- **Round trip.** A compiled program survives serialization exactly when it is within the limits of
the format and no function in it has a class, a default parameter, a cached result or an inline
cache. -/
theorem roundTrips_iff {f : BytecodeFunction} {names : List CString}
    (hdepth : f.NestedAtMost EZC_MAX_NEST_DEPTH) (hlocals : f.LocalsInCode) :
    RoundTrips f names ↔
      NamesFit names ∧ f.Everywhere fun g => g.WithinLimits ∧ g.CarriedByFormat := by
  constructor
  · rintro ⟨g, rest, hread, hsame⟩
    obtain ⟨hnames, hg⟩ := returns_deserialize _ _ _ hread
    exact ⟨hnames, carried_of_sameForVM hsame hg⟩
  · rintro ⟨hnames, hf⟩
    have hread := parses_deserialize hdepth (hf.imp fun _ h => h.1) hnames []
    rw [List.append_nil] at hread
    exact ⟨f.loaded, [], hread, sameForVM_loaded hf hlocals⟩

/-! ### A task with a default parameter -/

/-- `task greet(name = "friend") { give name }`. -/
def greet : BytecodeFunction where
  name := lit "greet"
  filename := lit "greet.ez"
  className := []
  paramNames := [lit "name"]
  arity := 1
  isVariadic := false
  isAsync := false
  isMethod := false
  hasCached := false
  chunk :=
    { code :=
        [OpCode.LOAD_LOCAL.toByte, 0, OpCode.LOAD_NIL.toByte, OpCode.EQUAL.toByte,
          OpCode.JUMP_IF_FALSE.toByte, 0, 0, 0, 6, OpCode.LOAD_CONST.toByte, 0, 0,
          OpCode.STORE_LOCAL.toByte, 0, OpCode.POP.toByte,
          OpCode.LOAD_LOCAL.toByte, 0, OpCode.RETURN.toByte,
          OpCode.LOAD_NIL.toByte, OpCode.RETURN.toByte]
      lines := List.replicate 20 1
      constants := ⟨[.string (lit "friend")], List.pairwise_singleton _ _⟩
      icEntries := 0
      lines_length := rfl }
  upvalues := []
  upvalueCount := 0
  localCount := 1
  localVars := [{ name := lit "name", slot := 0, startPC := 0, endPC := SIZE_MAX }]
  callSites := []
  defaultParamCount := 1
  globalSlotCount := 0
  nestedFunctions := []

/-- The main function of a script over the given code, which names no constants. -/
def mainOf (code : List UInt8) (nested : List BytecodeFunction) (globals : Nat) :
    BytecodeFunction where
  name := lit "<main>"
  filename := lit "greet.ez"
  className := []
  paramNames := []
  arity := 0
  isVariadic := false
  isAsync := false
  isMethod := false
  hasCached := false
  chunk :=
    { code := code
      lines := List.replicate code.length 1
      constants := ConstantPool.empty
      icEntries := 0
      lines_length := List.length_replicate }
  upvalues := []
  upvalueCount := 0
  localCount := 0
  localVars := []
  callSites := []
  defaultParamCount := 0
  globalSlotCount := globals
  nestedFunctions := nested

/-- The script that only declares `greet`. -/
def greetScript : BytecodeFunction :=
  mainOf [OpCode.CLOSURE.toByte, 0, 0, OpCode.STORE_GLOBAL_SLOT.toByte, 0, 0, OpCode.POP.toByte,
    OpCode.LOAD_NIL.toByte, OpCode.RETURN.toByte] [greet] 1

/-- The script loses the default of `greet`: called without arguments, the task raises an arity error
once it has been bundled. -/
theorem greetScript_not_roundTrips :
    ¬ ∀ (f : BytecodeFunction) (names : List CString), f.NestedAtMost EZC_MAX_NEST_DEPTH →
      f.LocalsInCode → RoundTrips f names := by
  intro hall
  have hdepth : greetScript.NestedAtMost EZC_MAX_NEST_DEPTH := by
    intro g hg
    rw [List.mem_singleton.mp hg]
    exact fun h hh => absurd hh List.not_mem_nil
  have hgreet : greet.LocalsInCode := by
    refine .mk ?_ fun h hh => absurd hh List.not_mem_nil
    intro lv hlv
    rw [List.mem_singleton.mp hlv]
    exact ⟨by decide, by decide, Or.inr rfl⟩
  have hlocals : greetScript.LocalsInCode := by
    refine .mk (fun lv hlv => absurd hlv List.not_mem_nil) fun g hg => ?_
    rw [List.mem_singleton.mp hg]
    exact hgreet
  obtain ⟨g, rest, hread, hsame⟩ := hall greetScript [lit "greet"] hdepth hlocals
  have hcarried := carried_of_sameForVM hsame (returns_deserialize _ _ _ hread).2
  have hdefaults := (hcarried.nested (List.mem_singleton.mpr rfl)).here.2.defaultParamCount
  exact absurd hdefaults (by decide)

/-- `count = 1`, a script that survives. -/
def countScript : BytecodeFunction :=
  mainOf [OpCode.LOAD_ONE.toByte, OpCode.STORE_GLOBAL_SLOT.toByte, 0, 0, OpCode.POP.toByte,
    OpCode.LOAD_NIL.toByte, OpCode.RETURN.toByte] [] 1

theorem countScript_nested : countScript.NestedAtMost EZC_MAX_NEST_DEPTH :=
  fun _ hg => absurd hg List.not_mem_nil

theorem countScript_everywhere {P : BytecodeFunction → Prop} (h : P countScript) :
    countScript.Everywhere P := .mk h fun _ hg => absurd hg List.not_mem_nil

theorem countScript_limits : countScript.WithinLimits :=
  ⟨by decide, by decide, by decide, by decide, by decide, ⟨by decide, by decide⟩,
    ⟨by decide, by decide⟩, ⟨by decide, by decide⟩, ⟨by decide, by decide⟩, by decide,
    ⟨by decide, fun _ hc => absurd hc List.not_mem_nil⟩, by decide⟩

theorem countScript_names : NamesFit [lit "count"] := ⟨by decide, by decide⟩

theorem countScript_roundTrips : RoundTrips countScript [lit "count"] :=
  (roundTrips_iff countScript_nested
    (countScript_everywhere fun _ hlv => absurd hlv List.not_mem_nil)).mpr
    ⟨countScript_names,
      countScript_everywhere ⟨countScript_limits, ⟨rfl, rfl, rfl, by decide⟩⟩⟩

end BytecodeSerializer

end EZLanguage
