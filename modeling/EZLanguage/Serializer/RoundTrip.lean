import EZLanguage.Serializer.Read
import EZLanguage.Serializer.Write

/-!
# What comes back from a serialized program

Each writer's block parses back under its reader to the value that was written, as long as the counts
and lengths are within the limits the reader enforces. `loaded` is what comes back of a function: the
format carries neither its class name, nor the number of its default parameters, nor whether it is
cached, nor its inline caches.
-/

namespace EZLanguage

/-- The chunk as it comes back, without inline caches. -/
def Chunk.loaded (chunk : Chunk) : Chunk := { chunk with icEntries := 0 }

/-- A local variable as it comes back, its slot and range in 32 bits. -/
def LocalVarInfo.loaded (lv : LocalVarInfo) : LocalVarInfo :=
  { lv with slot := lv.slot % 2 ^ 32, startPC := lv.startPC % 2 ^ 32, endPC := lv.endPC % 2 ^ 32 }

/-- The fields of a function as they come back. -/
def FunctionInfo.loaded (f : FunctionInfo) : FunctionInfo :=
  { f with
    className := []
    hasCached := false
    chunk := f.chunk.loaded
    localVars := f.localVars.map LocalVarInfo.loaded
    defaultParamCount := 0
    globalSlotCount := 0 }

namespace BytecodeSerializer

open Support

/-! ### Scalars -/

theorem parses_readPod {width n : Nat} (what : String) (hn : n < 256 ^ width) :
    (readPod width what).Parses (leBytes width n) n := by
  have h := (Reader.Parses.take (leBytes width n) (truncatedError what)).map (g := ofLE)
  rwa [length_leBytes, ofLE_leBytes, Nat.mod_eq_of_lt hn] at h

theorem parses_readU32 {n : Nat} (what : String) (hn : n < 2 ^ 32) :
    (readPod 4 what).Parses (writeU32 n) n := parses_readPod what (by omega)

theorem parses_readU8 (what : String) (b : UInt8) : (readU8 what).Parses [b] b := by
  have hbyte : leBytes 1 b.toNat = [b] := by simp [leBytes]
  have hlow : (readPod 1 what).Parses (leBytes 1 b.toNat) b.toNat := parses_readPod what b.toNat_lt
  have h := hlow.map (g := UInt8.ofNat)
  rwa [hbyte, UInt8.ofNat_toNat] at h

theorem parses_readU64 (what : String) (n : UInt64) : (readU64 what).Parses (writeU64 n) n := by
  have hlow : (readPod 8 what).Parses (leBytes 8 n.toNat) n.toNat := parses_readPod what n.toNat_lt
  have h := hlow.map (g := UInt64.ofNat)
  rwa [UInt64.ofNat_toNat] at h

theorem parses_readBool (what : String) (b : Bool) : (readBool what).Parses (writeBool b) b := by
  have hbit : (readPod 1 what).Parses (writeBool b) (if b then 1 else 0) := by
    cases b
    · exact parses_readPod (n := 0) what (by decide)
    · exact parses_readPod (n := 1) what (by decide)
  have h := hbit.map (g := fun n => n != 0)
  cases b <;> exact h

theorem parses_readCount {n : Nat} (what : String) (hn : n ≤ EZC_MAX_COUNT) :
    (readCount what).Parses (writeU32 n) n := by
  have hlt : n < 2 ^ 32 := Nat.lt_of_le_of_lt hn (by decide)
  have hcheck : (if n ≤ EZC_MAX_COUNT then pure n else Reader.fail (implausibleError what) :
      ByteReader Nat).Parses [] n := by
    rw [if_pos hn]
    exact Reader.Parses.pure n
  have h : (readCount what).Parses (writeU32 n ++ []) n := (parses_readU32 what hlt).bind hcheck
  rwa [List.append_nil] at h

/-! ### Tables, strings and constants -/

theorem parses_readTable {α β : Type} {r : ByteReader β} {w : α → List UInt8} {d : α → β}
    (what : String) (xs : List α) (hlen : xs.length ≤ EZC_MAX_COUNT)
    (h : ∀ x ∈ xs, r.Parses (w x) (d x)) :
    (readTable what r).Parses (writeTable w xs) (xs.map d) :=
  (parses_readCount what hlen).bind (Reader.Parses.times xs h)

theorem writeArray_eq_writeTable {α : Type} (write : α → List UInt8) {xs : List α}
    (hlen : xs.length ≤ EZC_MAX_COUNT) : writeArray write xs = writeTable write xs := by
  have hlt : xs.length < 2 ^ 32 := Nat.lt_of_le_of_lt hlen (by decide)
  rw [writeArray, Nat.mod_eq_of_lt hlt, List.take_length, writeTable]

theorem parses_readString {s : CString} (hlen : s.length ≤ EZC_MAX_COUNT) :
    readString.Parses (writeString s) s := by
  have hbytes : writeString s = writeU32 s.length ++ s := by
    rw [writeString, writeArray_eq_writeTable _ hlen, writeTable, List.flatMap_singleton']
  rw [hbytes]
  exact (parses_readCount _ hlen).bind (Reader.Parses.take s _)

/-- The strings and arrays of a constant are short enough to be read back. -/
def ConstantFits : Constant → Prop
  | .string s => s.length ≤ EZC_MAX_COUNT
  | .arrayConst indices => indices.length ≤ EZC_MAX_COUNT
  | _ => True

theorem parses_readPayload {c : Constant} (hc : ConstantFits c) :
    (readPayload (typeTag c)).Parses (writePayload c) c := by
  cases c with
  | nil => exact Reader.Parses.pure _
  | bool b => exact (parses_readBool _ b).map
  | int i => exact (parses_readU64 _ i.toUInt64).map
  | double bits => exact (parses_readU64 _ bits).map
  | string s => exact (parses_readString hc).map
  | function => exact Reader.Parses.pure _
  | model => exact Reader.Parses.pure _
  | arrayConst indices =>
      have h := parses_readTable "array constant length" indices hc (d := id)
        fun i _ => parses_readU64 "array constant" i
      rw [List.map_id, ← writeArray_eq_writeTable _ hc] at h
      exact h.map

theorem parses_readConstant {c : Constant} (hc : ConstantFits c) :
    readConstant.Parses (writeConstant c) c :=
  (parses_readU8 _ (typeTag c)).bind (parses_readPayload hc)

/-! ### Chunks and tables -/

theorem parses_readCode {code : List UInt8} {lines : List UInt64}
    (hlines : lines.length = code.length) (hcode : code.length ≤ EZC_MAX_COUNT) :
    readCode.Parses (List.flatten [writeU32 code.length, code, lines.flatMap writeU64])
      ⟨(code, lines), hlines⟩ := by
  apply Reader.Parses.attach
  refine (parses_readCount _ hcode).bind ((Reader.Parses.take code _).bind ?_)
  have h := Reader.Parses.times lines (d := id) fun n _ => parses_readU64 "line table" n
  rw [hlines, List.map_id] at h
  exact h.bind (Reader.Parses.pure _)

theorem parses_readChunk {chunk : Chunk} (hcode : chunk.code.length ≤ EZC_MAX_COUNT)
    (hcount : chunk.constants.entries.length ≤ EZC_MAX_COUNT)
    (hconstants : ∀ c ∈ chunk.constants.entries, ConstantFits c) :
    readChunk.Parses (writeChunk chunk) chunk.loaded := by
  have hsize : chunk.code.length % 2 ^ 32 = chunk.code.length :=
    Nat.mod_eq_of_lt (Nat.lt_of_le_of_lt hcode (by decide))
  have hpool := parses_readTable "constant count" (d := id) chunk.constants.entries hcount
    fun c hc => parses_readConstant (hconstants c hc)
  have hbytes : writeChunk chunk =
      List.flatten [writeU32 chunk.code.length, chunk.code, chunk.lines.flatMap writeU64] ++
        writeTable writeConstant chunk.constants.entries := by
    simp only [writeChunk, hsize, List.take_length, List.take_of_length_le chunk.lines_length.le,
      List.flatten_cons, List.flatten_nil, List.append_nil, List.append_assoc]
  have hloaded : chunk.loaded =
      { code := chunk.code, lines := chunk.lines, icEntries := 0,
        lines_length := chunk.lines_length,
        constants := ConstantPool.empty.addConstants (chunk.constants.entries.map id) } := by
    rw [List.map_id, ConstantPool.addConstants_rebuild]
    rfl
  rw [hbytes, hloaded]
  exact (parses_readCode chunk.lines_length hcode).bind hpool.map

theorem UpvalueType.ofByte_toByte (t : UpvalueType) : UpvalueType.ofByte t.toByte = t := by
  cases t with
  | LOCAL => rfl
  | UPVALUE => rfl
  | unnamed tag => exact dif_pos tag.property

theorem parses_readUpvalue {uv : Upvalue} (hidx : uv.index < 2 ^ 32) :
    readUpvalue.Parses (writeUpvalue uv) uv := by
  have h : readUpvalue.Parses (writeUpvalue uv)
      { type := UpvalueType.ofByte uv.type.toByte, index := uv.index } :=
    (parses_readU8 _ uv.type.toByte).bind (parses_readU32 _ hidx).map
  rwa [UpvalueType.ofByte_toByte] at h

theorem parses_readWrapped (what : String) (n : Nat) :
    (readPod 4 what).Parses (writeU32 n) (n % 2 ^ 32) := by
  have h := (Reader.Parses.take (leBytes 4 n) (truncatedError what)).map (g := ofLE)
  rwa [length_leBytes, ofLE_leBytes] at h

theorem parses_readLocalVar {lv : LocalVarInfo} (hname : lv.name.length ≤ EZC_MAX_COUNT) :
    readLocalVar.Parses (writeLocalVar lv) lv.loaded :=
  (parses_readString hname).bind
    ((parses_readWrapped _ lv.slot).bind
      ((parses_readWrapped _ lv.startPC).bind
        ((parses_readWrapped _ lv.endPC).bind (Reader.Parses.pure _))))

theorem parses_readCallSite {cs : CallSiteInfo} (hname : cs.name.length ≤ EZC_MAX_COUNT) :
    readCallSite.Parses (writeCallSite cs) cs := by
  have h : readCallSite.Parses (writeCallSite cs)
      { offset := UInt32.ofNat cs.offset.toNat, name := cs.name } :=
    (parses_readU32 _ cs.offset.toNat_lt).bind
      ((parses_readString hname).bind (Reader.Parses.pure _))
  rwa [UInt32.ofNat_toNat] at h

end BytecodeSerializer

/-! ### Functions -/

namespace BytecodeFunction

open BytecodeSerializer

/-- The counts and lengths of one function are within what the reader accepts, and its scalars within
the width they are written at. -/
structure WithinLimits (f : BytecodeFunction) : Prop where
  name : f.name.length ≤ EZC_MAX_COUNT
  filename : f.filename.length ≤ EZC_MAX_COUNT
  arity : f.arity < 2 ^ 32
  upvalueCount : f.upvalueCount < 2 ^ 32
  localCount : f.localCount < 2 ^ 32
  upvalues : f.upvalues.length ≤ EZC_MAX_COUNT ∧ ∀ uv ∈ f.upvalues, uv.index < 2 ^ 32
  localVars : f.localVars.length ≤ EZC_MAX_COUNT ∧
    ∀ lv ∈ f.localVars, lv.name.length ≤ EZC_MAX_COUNT
  paramNames : f.paramNames.length ≤ EZC_MAX_COUNT ∧
    ∀ p ∈ f.paramNames, p.length ≤ EZC_MAX_COUNT
  callSites : f.callSites.length ≤ EZC_MAX_COUNT ∧
    ∀ cs ∈ f.callSites, cs.name.length ≤ EZC_MAX_COUNT
  code : f.chunk.code.length ≤ EZC_MAX_COUNT
  constants : f.chunk.constants.entries.length ≤ EZC_MAX_COUNT ∧
    ∀ c ∈ f.chunk.constants.entries, ConstantFits c
  nestedFunctions : f.nestedFunctions.length ≤ EZC_MAX_COUNT

mutual

/-- The function as it comes back. -/
def loaded : BytecodeFunction → BytecodeFunction
  | ⟨info, nested⟩ => ⟨info.loaded, loadedList nested⟩

def loadedList : List BytecodeFunction → List BytecodeFunction
  | [] => []
  | f :: fs => loaded f :: loadedList fs

end

theorem loaded_eq (f : BytecodeFunction) :
    f.loaded = ⟨f.toFunctionInfo.loaded, f.nestedFunctions.map loaded⟩ := by
  have hall : ∀ fs : List BytecodeFunction, loadedList fs = fs.map loaded := by
    intro fs
    induction fs with
    | nil => simp [loadedList]
    | cons f fs ih => simp [loadedList, ih]
  obtain ⟨info, nested⟩ := f
  rw [loaded, hall]

end BytecodeFunction

namespace BytecodeSerializer

open Support

theorem parses_readInfo {f : BytecodeFunction} (hf : f.WithinLimits) :
    readInfo.Parses (writeInfo f.toFunctionInfo) f.toFunctionInfo.loaded := by
  have hupvalues := parses_readTable "upvalue table size" (d := id) f.upvalues hf.upvalues.1
    fun uv huv => parses_readUpvalue (hf.upvalues.2 uv huv)
  have hlocals := parses_readTable "local-var table size" f.localVars hf.localVars.1
    fun lv hlv => parses_readLocalVar (hf.localVars.2 lv hlv)
  have hparams := parses_readTable "parameter-name count" (d := id) f.paramNames hf.paramNames.1
    fun p hp => parses_readString (hf.paramNames.2 p hp)
  have hsites := parses_readTable "call-site table size" (d := id) f.callSites hf.callSites.1
    fun cs hcs => parses_readCallSite (hf.callSites.2 cs hcs)
  have hchunk := parses_readChunk hf.code hf.constants.1 hf.constants.2
  rw [List.map_id] at hupvalues hparams hsites
  exact (parses_readString hf.name).bind <| (parses_readString hf.filename).bind <|
    (parses_readU32 _ hf.arity).bind <| (parses_readBool _ f.isVariadic).bind <|
    (parses_readBool _ f.isAsync).bind <| (parses_readBool _ f.isMethod).bind <|
    (parses_readU32 _ hf.upvalueCount).bind <| (parses_readU32 _ hf.localCount).bind <|
    hupvalues.bind <| hlocals.bind <| hparams.bind <| hsites.bind <| hchunk.bind <|
    Reader.Parses.pure _

/-- A function within the limits parses back to its loaded form when enough levels are left. -/
theorem parses_readFunction {levels : Nat} {f : BytecodeFunction} (hdepth : f.NestedAtMost levels)
    (hf : f.Everywhere BytecodeFunction.WithinLimits) :
    (readFunction (levels + 1)).Parses (writeFunction f) f.loaded := by
  induction levels generalizing f with
  | zero =>
      have hnone : f.nestedFunctions = [] := hdepth
      rw [writeFunction_eq, BytecodeFunction.loaded_eq, hnone]
      have h := parses_readTable "nested-function count" (r := readFunction 0)
        (w := writeFunction) (d := BytecodeFunction.loaded) [] (by decide) (by simp)
      exact (parses_readInfo hf.here).bind h.map
  | succ levels ih =>
      have hnested : ∀ g ∈ f.nestedFunctions,
          (readFunction (levels + 1)).Parses (writeFunction g) g.loaded := fun g hg =>
        ih (hdepth g hg) (hf.nested hg)
      have h := parses_readTable "nested-function count" f.nestedFunctions
        hf.here.nestedFunctions hnested
      rw [writeFunction_eq, BytecodeFunction.loaded_eq]
      exact (parses_readInfo hf.here).bind h.map

theorem parses_readMagic : readMagic.Parses magic () := fun _ => rfl

/-- Names the reader accepts as a global slot table. -/
def NamesFit (names : List CString) : Prop :=
  names.length ≤ EZC_MAX_COUNT ∧ ∀ n ∈ names, n.length ≤ EZC_MAX_COUNT

/-- What comes back of a serialized program within the limits. -/
theorem parses_deserialize {f : BytecodeFunction} {names : List CString}
    (hdepth : f.NestedAtMost EZC_MAX_NEST_DEPTH)
    (hf : f.Everywhere BytecodeFunction.WithinLimits) (hnames : NamesFit names) :
    deserialize.Parses (serialize f names) (names, f.loaded) := by
  have htable := parses_readTable "global slot count" (d := id) names hnames.1
    fun n hn => parses_readString (hnames.2 n hn)
  rw [List.map_id] at htable
  exact parses_readMagic.bind <| htable.bind <|
    (parses_readFunction hdepth hf).bind <| Reader.Parses.pure _

end BytecodeSerializer

end EZLanguage
