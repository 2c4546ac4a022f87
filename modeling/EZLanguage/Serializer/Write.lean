import EZLanguage.Bytecode.Function
import EZLanguage.Support.LittleEndian

/-!
# Writing bytecode

`BytecodeSerializer::serialize`, field by field in the order of the source. Every count and every
scalar is cast to the width it is written at, so an oversized one is written truncated.
-/

namespace EZLanguage

def UpvalueType.toByte : UpvalueType → UInt8
  | .LOCAL => 0
  | .UPVALUE => 1
  | .unnamed tag => tag.val

namespace BytecodeSerializer

open Support

def writeU32 (n : Nat) : List UInt8 := leBytes 4 n

def writeU64 (n : UInt64) : List UInt8 := leBytes 8 n.toNat

def writeBool (b : Bool) : List UInt8 := [if b then 1 else 0]

/-- A `uint32_t` count with that many of the elements. -/
def writeArray {α : Type} (write : α → List UInt8) (xs : List α) : List UInt8 :=
  writeU32 xs.length ++ (xs.take (xs.length % 2 ^ 32)).flatMap write

/-- A `uint32_t` count with all of the elements. -/
def writeTable {α : Type} (write : α → List UInt8) (xs : List α) : List UInt8 :=
  writeU32 xs.length ++ xs.flatMap write

def writeString (s : CString) : List UInt8 := writeArray (fun c => [c]) s

/-- `static_cast<uint8_t>(c.type)`. -/
def typeTag : Constant → UInt8
  | .nil => 0
  | .bool _ => 1
  | .int _ => 2
  | .double _ => 3
  | .string _ => 4
  | .function => 5
  | .model => 6
  | .arrayConst _ => 7

def writePayload : Constant → List UInt8
  | .nil | .function | .model => []
  | .bool b => writeBool b
  | .int i => writeU64 i.toUInt64
  | .double bits => writeU64 bits
  | .string s => writeString s
  | .arrayConst indices => writeArray writeU64 indices

def writeConstant (c : Constant) : List UInt8 := typeTag c :: writePayload c

def writeChunk (chunk : Chunk) : List UInt8 :=
  let codeSize := chunk.code.length % 2 ^ 32
  List.flatten
    [writeU32 chunk.code.length,
      chunk.code.take codeSize,
      (chunk.lines.take codeSize).flatMap writeU64,
      writeTable writeConstant chunk.constants.entries]

def writeUpvalue (uv : Upvalue) : List UInt8 := uv.type.toByte :: writeU32 uv.index

def writeLocalVar (lv : LocalVarInfo) : List UInt8 :=
  List.flatten [writeString lv.name, writeU32 lv.slot, writeU32 lv.startPC, writeU32 lv.endPC]

def writeCallSite (cs : CallSiteInfo) : List UInt8 :=
  List.flatten [writeU32 cs.offset.toNat, writeString cs.name]

/-- What `writeFunction` writes before the nested functions. -/
def writeInfo (f : FunctionInfo) : List UInt8 :=
  List.flatten
    [writeString f.name,
      writeString f.filename,
      writeU32 f.arity,
      writeBool f.isVariadic,
      writeBool f.isAsync,
      writeBool f.isMethod,
      writeU32 f.upvalueCount,
      writeU32 f.localCount,
      writeTable writeUpvalue f.upvalues,
      writeTable writeLocalVar f.localVars,
      writeTable writeString f.paramNames,
      writeTable writeCallSite f.callSites,
      writeChunk f.chunk]

mutual

def writeFunction : BytecodeFunction → List UInt8
  | ⟨info, nested⟩ => writeInfo info ++ (writeU32 nested.length ++ writeFunctions nested)

def writeFunctions : List BytecodeFunction → List UInt8
  | [] => []
  | f :: fs => writeFunction f ++ writeFunctions fs

end

theorem writeFunction_eq (f : BytecodeFunction) :
    writeFunction f = writeInfo f.toFunctionInfo ++ writeTable writeFunction f.nestedFunctions := by
  have hall : ∀ fs : List BytecodeFunction, writeFunctions fs = fs.flatMap writeFunction := by
    intro fs
    induction fs with
    | nil => simp [writeFunctions]
    | cons f fs ih => simp [writeFunctions, ih]
  obtain ⟨info, nested⟩ := f
  rw [writeFunction, hall, writeTable]

def magic : List UInt8 := lit "EZC3"

def serialize (func : BytecodeFunction) (globalSlotNames : List CString) : List UInt8 :=
  List.flatten [magic, writeTable writeString globalSlotNames, writeFunction func]

end BytecodeSerializer

end EZLanguage
