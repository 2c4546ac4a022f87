import EZLanguage.Bytecode.Function
import EZLanguage.Support.LittleEndian
import EZLanguage.Support.Reader

/-!
# Reading bytecode

`BytecodeSerializer::deserialize` as a reader over bytes, with the source's errors. The recursion of
`readFunction` is on the nesting levels that remain below `EZC_MAX_NEST_DEPTH`.
-/

namespace EZLanguage

def UpvalueType.ofByte (t : UInt8) : UpvalueType :=
  if h : 2 ≤ t.toNat then .unnamed ⟨t, h⟩ else if t = 0 then .LOCAL else .UPVALUE

namespace BytecodeSerializer

open Support

abbrev ByteReader := Reader UInt8 String

def EZC_MAX_COUNT : Nat := 64 * 1024 * 1024

def EZC_MAX_NEST_DEPTH : Nat := 512

def truncatedError (what : String) : String := "Corrupt bytecode: truncated " ++ what

def implausibleError (what : String) : String := "Corrupt bytecode: implausible " ++ what

def readExact (bytes : Nat) (what : String) : ByteReader (List UInt8) :=
  Reader.take bytes (truncatedError what)

/-- `readPod` at an unsigned integer type of the given width. -/
def readPod (width : Nat) (what : String) : ByteReader Nat := do
  let bytes ← readExact width what
  return ofLE bytes

def readU8 (what : String) : ByteReader UInt8 := do
  let n ← readPod 1 what
  return UInt8.ofNat n

def readU64 (what : String) : ByteReader UInt64 := do
  let n ← readPod 8 what
  return UInt64.ofNat n

def readBool (what : String) : ByteReader Bool := do
  let n ← readPod 1 what
  return n != 0

def readCount (what : String) : ByteReader Nat := do
  let n ← readPod 4 what
  if n ≤ EZC_MAX_COUNT then return n else Reader.fail (implausibleError what)

/-- A count and then that many elements. -/
def readTable {α : Type} (what : String) (read : ByteReader α) : ByteReader (List α) := do
  let n ← readCount what
  Reader.times read n

def readString : ByteReader CString := do
  let len ← readCount "string length"
  readExact len "string data"

/-- The payload the tag announces. Functions and models have none. -/
def readPayload (tag : UInt8) : ByteReader Constant :=
  match tag.toNat with
  | 0 => return .nil
  | 1 => do return .bool (← readBool "bool constant")
  | 2 => do return .int (Int64.ofUInt64 (← readU64 "int constant"))
  | 3 => do return .double (← readU64 "double constant")
  | 4 => do return .string (← readString)
  | 5 => return .function
  | 6 => return .model
  | 7 => do return .arrayConst (← readTable "array constant length" (readU64 "array constant"))
  | _ => Reader.fail "Corrupt bytecode: unknown constant type tag"

def readConstant : ByteReader Constant := do
  let tag ← readU8 "constant tag"
  readPayload tag

/-- The code bytes and one line for each of them. -/
def readCode : ByteReader { p : List UInt8 × List UInt64 // p.2.length = p.1.length } :=
  Reader.attach
    (do
      let codeSize ← readCount "code size"
      let code ← readExact codeSize "code"
      let lines ← Reader.times (readU64 "line table") codeSize
      return (code, lines))
    (Reader.Returns.bind' fun codeSize =>
      (Reader.Returns.take codeSize _).bind fun _ hcode =>
        (Reader.Returns.times (P := fun _ => True) (fun _ _ _ _ => trivial) codeSize).bind
          fun _ hlines => Reader.Returns.pure (hlines.1.trans hcode.symm))

def readChunk : ByteReader Chunk := do
  let code ← readCode
  let constants ← readTable "constant count" readConstant
  return { code := code.val.1, lines := code.val.2, lines_length := code.property,
           constants := ConstantPool.empty.addConstants constants, icEntries := 0 }

def readUpvalue : ByteReader Upvalue := do
  let t ← readU8 "upvalue kind"
  let idx ← readPod 4 "upvalue index"
  return { type := UpvalueType.ofByte t, index := idx }

def readLocalVar : ByteReader LocalVarInfo := do
  let name ← readString
  let slot ← readPod 4 "local slot"
  let startPC ← readPod 4 "local startPC"
  let endPC ← readPod 4 "local endPC"
  return { name, slot, startPC, endPC }

def readCallSite : ByteReader CallSiteInfo := do
  let offset ← readPod 4 "call-site offset"
  let name ← readString
  return { offset := UInt32.ofNat offset, name }

/-- What `readFunction` reads before the nested functions. The fields the format does not carry keep
the values `BytecodeFunction`'s constructor gives them. -/
def readInfo : ByteReader FunctionInfo := do
  let name ← readString
  let filename ← readString
  let arity ← readPod 4 "arity"
  let isVariadic ← readBool "function flags"
  let isAsync ← readBool "function flags"
  let isMethod ← readBool "function flags"
  let upvalueCount ← readPod 4 "upvalue count"
  let localCount ← readPod 4 "local count"
  let upvalues ← readTable "upvalue table size" readUpvalue
  let localVars ← readTable "local-var table size" readLocalVar
  let paramNames ← readTable "parameter-name count" readString
  let callSites ← readTable "call-site table size" readCallSite
  let chunk ← readChunk
  return { name, filename, className := [], paramNames, arity, isVariadic, isAsync, isMethod,
           hasCached := false, chunk, upvalues, upvalueCount, localCount, localVars, callSites,
           defaultParamCount := 0, globalSlotCount := 0 }

/-- `readFunction` with a number of nesting levels left: at depth `d` that is
`EZC_MAX_NEST_DEPTH + 1 - d`. -/
def readFunction : Nat → ByteReader BytecodeFunction
  | 0 => Reader.fail "Corrupt bytecode: nested-function recursion too deep"
  | levels + 1 => do
      let info ← readInfo
      let nestedFunctions ← readTable "nested-function count" (readFunction levels)
      return { toFunctionInfo := info, nestedFunctions }

def olderFormat (tag : String) : String :=
  "This .ezc was produced by an older interpreter (format " ++ tag ++
    "; this one reads EZC3) and cannot be run by it. Recompile it from the .ez source."

def readMagic : ByteReader Unit := do
  let tag ← Reader.take 4 "Invalid EZC file format: the file is too short to be bytecode"
  if tag = lit "EZC1" then Reader.fail (olderFormat "EZC1")
  else if tag = lit "EZC2" then Reader.fail (olderFormat "EZC2")
  else if tag = lit "EZC3" then return ()
  else Reader.fail "Invalid EZC file format: expected an EZC3 header"

/-- `BytecodeSerializer::deserialize`. What follows the program in the stream is left unread. -/
def deserialize : ByteReader (List CString × BytecodeFunction) := do
  readMagic
  let globalSlotNames ← readTable "global slot count" readString
  let func ← readFunction (EZC_MAX_NEST_DEPTH + 1)
  return (globalSlotNames, func)

end BytecodeSerializer

end EZLanguage
