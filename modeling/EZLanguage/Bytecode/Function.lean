import Mathlib.Algebra.GroupWithZero.Nat
import Mathlib.Algebra.Group.Int.Defs
import EZLanguage.Bytecode.Chunk
import EZLanguage.Bytecode.OpCode
import Mathlib.Data.List.Forall2

/-!
# Bytecode functions

A function with its chunk, its tables and the functions nested in it. Two readings of a function are
stated here: `SameForVM`, equality of everything the VM reads while it runs the function, and
`icOperands`, the inline-cache indices its code carries.
-/

namespace EZLanguage

/-- `Upvalue::Type`. The reader casts any byte to it, so the bytes that name neither kind are kept. -/
inductive UpvalueType where
  | LOCAL
  | UPVALUE
  | unnamed (tag : { t : UInt8 // 2 ≤ t.toNat })
  deriving DecidableEq

structure Upvalue where
  type : UpvalueType
  index : Nat
  deriving DecidableEq

def SIZE_MAX : Nat := 2 ^ 64 - 1

/-- Where a local variable lives, for the traceback. `endPC` is `SIZE_MAX` for a variable that lives
until the function returns. -/
structure LocalVarInfo where
  name : CString
  slot : Nat
  startPC : Nat
  endPC : Nat
  deriving DecidableEq

namespace LocalVarInfo

/-- The test the traceback lists a variable by. -/
def liveAt (lv : LocalVarInfo) (pc : Nat) : Prop := lv.startPC ≤ pc ∧ pc ≤ lv.endPC

/-- The ranges the compiler records over code of a given size: `addLocal` and `endScope` take both
ends from the code emitted so far, and slots stop at 65535. -/
def InCode (codeSize : Nat) (lv : LocalVarInfo) : Prop :=
  lv.slot ≤ 65535 ∧ lv.startPC ≤ codeSize ∧ (lv.endPC ≤ codeSize ∨ lv.endPC = SIZE_MAX)

/-- The traceback shows `b` wherever in the code it shows `a`, with the same name and slot. -/
def SameInTraceback (codeSize : Nat) (a b : LocalVarInfo) : Prop :=
  b.name = a.name ∧ b.slot = a.slot ∧ ∀ pc ≤ codeSize, (b.liveAt pc ↔ a.liveAt pc)

end LocalVarInfo

/-- What the source called at a call site, keyed by the offset just past the call instruction. -/
structure CallSiteInfo where
  offset : UInt32
  name : CString
  deriving DecidableEq

/-- The fields of a `BytecodeFunction` other than the functions nested in it. -/
structure FunctionInfo where
  name : CString
  filename : CString
  className : CString
  paramNames : List CString
  arity : Nat
  isVariadic : Bool
  isAsync : Bool
  isMethod : Bool
  hasCached : Bool
  chunk : Chunk
  upvalues : List Upvalue
  upvalueCount : Nat
  localCount : Nat
  localVars : List LocalVarInfo
  callSites : List CallSiteInfo
  defaultParamCount : Nat
  globalSlotCount : Nat

structure BytecodeFunction extends FunctionInfo where
  nestedFunctions : List BytecodeFunction

namespace BytecodeFunction

/-- `P` holds of a function and of every function nested in it. -/
inductive Everywhere (P : BytecodeFunction → Prop) : BytecodeFunction → Prop where
  | mk {f : BytecodeFunction} (here : P f) (nested : ∀ g ∈ f.nestedFunctions, Everywhere P g) :
      Everywhere P f

theorem Everywhere.here {P : BytecodeFunction → Prop} {f : BytecodeFunction}
    (h : Everywhere P f) : P f := by
  cases h with
  | mk here _ => exact here

theorem Everywhere.nested {P : BytecodeFunction → Prop} {f g : BytecodeFunction}
    (h : Everywhere P f) (hg : g ∈ f.nestedFunctions) : Everywhere P g := by
  cases h with
  | mk _ nested => exact nested g hg

theorem Everywhere.imp {P Q : BytecodeFunction → Prop} {f : BytecodeFunction} (h : Everywhere P f)
    (hpq : ∀ g, P g → Q g) : Everywhere Q f := by
  induction h with
  | mk here _ ih => exact .mk (hpq _ here) ih

/-- The functions below a function are nested at most `n` deep. -/
def NestedAtMost : Nat → BytecodeFunction → Prop
  | 0, f => f.nestedFunctions = []
  | n + 1, f => ∀ g ∈ f.nestedFunctions, NestedAtMost n g

/-- Every local variable range in the tree is one the compiler records. -/
def LocalsInCode (f : BytecodeFunction) : Prop :=
  f.Everywhere fun g => ∀ lv ∈ g.localVars, lv.InCode g.chunk.code.length

/-! ### Inline-cache operands -/

/-- `READ_SHORT`. -/
def readShort : List UInt8 → Nat
  | hi :: lo :: _ => hi.toNat * 256 + lo.toNat
  | _ => 0

/-- The operand bytes of an instruction, where `CLOSURE` carries three for each upvalue of the
function it names. -/
def operandLength (f : BytecodeFunction) (op : OpCode) (operands : List UInt8) : Nat :=
  if op = .CLOSURE then
    match f.nestedFunctions[readShort operands]? with
    | some g => 2 + 3 * g.upvalues.length
    | none => 2
  else op.operandBytes

/-- The inline-cache indices of the instructions of a code suffix, after skipping the operand bytes
that remain of the instruction before it. -/
def icOperandsFrom (f : BytecodeFunction) : Nat → List UInt8 → List Nat
  | _, [] => []
  | skip + 1, _ :: rest => icOperandsFrom f skip rest
  | 0, byte :: rest =>
      match OpCode.ofByte byte with
      | none => []
      | some op =>
          let below := icOperandsFrom f (f.operandLength op rest) rest
          if op.hasInlineCache then readShort (rest.drop 2) :: below else below

/-- Every inline-cache index the function's own code carries. -/
def icOperands (f : BytecodeFunction) : List Nat := icOperandsFrom f 0 f.chunk.code

/-- The inline-cache indices depend on the code and on how many upvalues the nested functions have. -/
theorem icOperands_congr {f g : BytecodeFunction} (hcode : g.chunk.code = f.chunk.code)
    (hnested : ∀ i : Nat, g.nestedFunctions[i]?.map (·.upvalues.length) =
      f.nestedFunctions[i]?.map (·.upvalues.length)) : g.icOperands = f.icOperands := by
  have hlength : ∀ op operands, g.operandLength op operands = f.operandLength op operands := by
    intro op operands
    have hi := hnested (readShort operands)
    unfold operandLength
    split
    · cases hg : g.nestedFunctions[readShort operands]? <;>
        cases hf : f.nestedFunctions[readShort operands]? <;> simp_all
    · rfl
  have hfrom : ∀ (code : List UInt8) (skip : Nat),
      g.icOperandsFrom skip code = f.icOperandsFrom skip code := by
    intro code
    induction code with
    | nil => intro skip; cases skip <;> rfl
    | cons byte rest ih =>
        intro skip
        cases skip with
        | zero => simp only [icOperandsFrom, hlength, ih]
        | succ skip => exact ih skip
  rw [icOperands, icOperands, hcode, hfrom]

/-- Every inline-cache index in the code is within the table. -/
def ICTableCovers (f : BytecodeFunction) : Prop := ∀ i ∈ f.icOperands, i < f.chunk.icEntries

/-! ### What the VM reads -/

/-- The fields the VM reads of one function, the nested ones and the inline caches aside. The
compiler alone reads `globalSlotCount`. -/
structure SameFields (f g : BytecodeFunction) : Prop where
  name : g.name = f.name
  filename : g.filename = f.filename
  className : g.className = f.className
  paramNames : g.paramNames = f.paramNames
  arity : g.arity = f.arity
  isVariadic : g.isVariadic = f.isVariadic
  isAsync : g.isAsync = f.isAsync
  isMethod : g.isMethod = f.isMethod
  hasCached : g.hasCached = f.hasCached
  code : g.chunk.code = f.chunk.code
  lines : g.chunk.lines = f.chunk.lines
  constants : g.chunk.constants = f.chunk.constants
  upvalues : g.upvalues = f.upvalues
  upvalueCount : g.upvalueCount = f.upvalueCount
  localCount : g.localCount = f.localCount
  localVars :
    List.Forall₂ (LocalVarInfo.SameInTraceback f.chunk.code.length) f.localVars g.localVars
  callSites : g.callSites = f.callSites
  defaultParamCount : g.defaultParamCount = f.defaultParamCount

/-- `g` runs as `f` does: the same fields, nested functions likewise, and an inline-cache table that
reaches every index in the code. -/
inductive SameForVM : BytecodeFunction → BytecodeFunction → Prop where
  | mk {f g : BytecodeFunction} (fields : SameFields f g) (caches : g.ICTableCovers)
      (length : g.nestedFunctions.length = f.nestedFunctions.length)
      (nested : ∀ (i : Nat) (hf : i < f.nestedFunctions.length)
        (hg : i < g.nestedFunctions.length),
        SameForVM f.nestedFunctions[i] g.nestedFunctions[i]) :
      SameForVM f g

end BytecodeFunction

end EZLanguage
