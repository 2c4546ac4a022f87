import Mathlib.Algebra.GroupWithZero.Nat
import Mathlib.Algebra.Group.Int.Defs
import EZLanguage.Bytecode.Function

/-!
# Instructions and their bytes

An instruction as the compiler means it, with operands as large as it computed them, and the bytes it is
encoded as, where every operand is cut down to the width of its field. The VM reads an instruction back by
the fields of its opcode; a closure is followed by the captures of the function it names.
-/

namespace EZLanguage

/-- An operand, by what it says. `count` is a number of values on the stack, `amount` a signed number to
add, and `capture` where a closure takes an upvalue from. -/
inductive Operand where
  | slot (n : Nat)
  | wideSlot (n : Nat)
  | upvalue (n : Nat)
  | globalSlot (n : Nat)
  | constant (n : Nat)
  | cache (n : Nat)
  | nested (n : Nat)
  | count (n : Nat)
  | amount (i : Int)
  | capture (isLocal : Bool) (index : Nat)
  | line (n : Nat)
  | jump (n : Nat)
  deriving DecidableEq

def encodeShort (n : Nat) : List UInt8 := [UInt8.ofNat (n / 256), UInt8.ofNat n]

namespace Operand

def encode : Operand → List UInt8
  | slot n | upvalue n | count n => [UInt8.ofNat n]
  | wideSlot n | globalSlot n | constant n | cache n | nested n | line n => encodeShort n
  | amount i => [UInt8.ofNat (i % 256).toNat]
  | capture isLocal index => (if isLocal then 1 else 0) :: encodeShort index
  | jump n =>
      [UInt8.ofNat (n / 16777216), UInt8.ofNat (n / 65536), UInt8.ofNat (n / 256), UInt8.ofNat n]

/-- The operand is not changed by cutting it down. -/
def Fits : Operand → Prop
  | slot n | upvalue n | count n => n ≤ 255
  | wideSlot n | globalSlot n | constant n | cache n | nested n | line n => n ≤ 65535
  | amount i => -128 ≤ i ∧ i ≤ 127
  | capture _ index => index ≤ 65535
  | jump n => n ≤ 0xFFFFFFFF

instance (o : Operand) : Decidable o.Fits := by
  cases o <;> unfold Fits <;> infer_instance

/-- What is left of an operand in its field. -/
def truncate : Operand → Operand
  | slot n => slot (n % 256)
  | wideSlot n => wideSlot (n % 65536)
  | upvalue n => upvalue (n % 256)
  | globalSlot n => globalSlot (n % 65536)
  | constant n => constant (n % 65536)
  | cache n => cache (n % 65536)
  | nested n => nested (n % 65536)
  | count n => count (n % 256)
  | amount i => amount ((i + 128) % 256 - 128)
  | capture isLocal index => capture isLocal (index % 65536)
  | line n => line (n % 65536)
  | jump n => jump (n % 4294967296)

theorem truncate_eq_iff (o : Operand) : o.truncate = o ↔ o.Fits := by
  cases o <;> simp only [truncate, Fits, slot.injEq, wideSlot.injEq, upvalue.injEq, globalSlot.injEq,
    constant.injEq, cache.injEq, nested.injEq, count.injEq, amount.injEq, capture.injEq, line.injEq,
    jump.injEq, true_and] <;> omega

end Operand

/-! ### Fields -/

/-- The operands an opcode is followed by, one at a time. -/
inductive Field where
  | slot | wideSlot | upvalue | globalSlot | constant | cache | nested | count | amount | line | jump
  deriving DecidableEq

def Operand.field : Operand → Option Field
  | slot _ => some .slot
  | wideSlot _ => some .wideSlot
  | upvalue _ => some .upvalue
  | globalSlot _ => some .globalSlot
  | constant _ => some .constant
  | cache _ => some .cache
  | nested _ => some .nested
  | count _ => some .count
  | amount _ => some .amount
  | capture _ _ => none
  | line _ => some .line
  | jump _ => some .jump

def Field.bytes : Field → Nat
  | slot | upvalue | count | amount => 1
  | wideSlot | globalSlot | constant | cache | nested | line => 2
  | jump => 4

/-- What the VM's handler of an opcode reads. -/
def OpCode.fields : OpCode → List Field
  | LOAD_LOCAL | STORE_LOCAL | INC_LOCAL | DEC_LOCAL | CLOSE_UPVALUE => [.slot]
  | LOAD_LOCAL_W | STORE_LOCAL_W => [.wideSlot]
  | LOAD_UPVALUE | STORE_UPVALUE => [.upvalue]
  | LOAD_GLOBAL_SLOT | STORE_GLOBAL_SLOT => [.globalSlot]
  | LOAD_CONST | LOAD_GLOBAL | STORE_GLOBAL | HAS_GLOBAL | RATELIMIT_CHECK | GET_CACHED_RESULT
  | STORE_CACHED_RESULT | GET_METHOD => [.constant]
  | LOAD_PROPERTY | STORE_PROPERTY | INTERCEPTED_STORE_PROPERTY => [.constant, .cache]
  | INVOKE_METHOD => [.constant, .cache, .count]
  | NEW_INSTANCE | SUPER_CALL | MAKE_INTERFACE => [.constant, .count]
  | MAKE_CLASS => [.constant, .count, .count, .count]
  | CALL | CALL_KW | TAIL_CALL | MAKE_ARRAY | BUILD_TUPLE | MAKE_DICT => [.count]
  | CLOSURE => [.nested]
  | LINE => [.line]
  | ADD_LOCAL_LOCAL | SUB_LOCAL_LOCAL => [.slot, .slot]
  | INC_LOCAL_BY => [.slot, .amount]
  | ADD_GLOBAL_LOCAL => [.globalSlot, .slot]
  | JUMP | JUMP_IF_FALSE | JUMP_IF_TRUE | JUMP_IF_NIL | JUMP_IF_NOT_NIL | LOOP | ITER_NEXT
  | TRY_START => [.jump]
  | LOOP_LESS_EQ_LOCAL | LOOP_GREATER_EQ_LOCAL => [.slot, .slot, .jump]
  | _ => []

theorem OpCode.fields_bytes (op : OpCode) : (op.fields.map Field.bytes).sum = op.operandBytes := by
  cases op <;> rfl

/-! ### Instructions -/

/-- An instruction, and the line it is emitted for. -/
structure Emitted where
  op : OpCode
  operands : List Operand
  line : Nat
  deriving DecidableEq

namespace Emitted

def encode (i : Emitted) : List UInt8 := i.op.toByte :: i.operands.flatMap Operand.encode

def size (i : Emitted) : Nat := i.encode.length

/-- The instruction ends in the distance of a jump. -/
def isJump (i : Emitted) : Bool :=
  match i.operands.getLast? with
  | some (.jump _) => true
  | _ => false

def setJump (i : Emitted) (jump : Nat) : Emitted :=
  { i with operands := i.operands.dropLast ++ [.jump jump] }

end Emitted

/-- The code of a function. -/
abbrev Code := List Emitted

namespace Code

def encode (code : Code) : List UInt8 := code.flatMap Emitted.encode

/-- `code.size()`. -/
def size (code : Code) : Nat := code.encode.length

/-- The line of each byte. -/
def lines (code : Code) : List UInt64 :=
  code.flatMap fun i => List.replicate i.size (UInt64.ofNat i.line)

theorem lines_length (code : Code) : code.lines.length = code.encode.length := by
  induction code with
  | nil => rfl
  | cons i code ih =>
      simp only [lines, encode, List.flatMap_cons, List.length_append, List.length_replicate]
      exact congrArg (i.size + ·) ih

/-- The distance of the jump that has its field at a position, set. -/
def setJump : Code → Nat → Nat → Option Code
  | [], _, _ => none
  | i :: rest, offset, jump =>
      if i.isJump ∧ offset + 4 = i.size then some (i.setJump jump :: rest)
      else if i.size ≤ offset then (setJump rest (offset - i.size) jump).map (i :: ·)
      else none

end Code

/-! ### Reading instructions back -/

/-- `READ_BYTE`, `READ_SHORT` and `READ_INT`. -/
def Field.read : Field → List UInt8 → Option (Operand × List UInt8)
  | slot, b :: rest => some (.slot b.toNat, rest)
  | upvalue, b :: rest => some (.upvalue b.toNat, rest)
  | count, b :: rest => some (.count b.toNat, rest)
  | amount, b :: rest => some (.amount b.toInt8.toInt, rest)
  | wideSlot, hi :: lo :: rest => some (.wideSlot (hi.toNat * 256 + lo.toNat), rest)
  | globalSlot, hi :: lo :: rest => some (.globalSlot (hi.toNat * 256 + lo.toNat), rest)
  | constant, hi :: lo :: rest => some (.constant (hi.toNat * 256 + lo.toNat), rest)
  | cache, hi :: lo :: rest => some (.cache (hi.toNat * 256 + lo.toNat), rest)
  | nested, hi :: lo :: rest => some (.nested (hi.toNat * 256 + lo.toNat), rest)
  | line, hi :: lo :: rest => some (.line (hi.toNat * 256 + lo.toNat), rest)
  | jump, a :: b :: c :: d :: rest =>
      some (.jump (a.toNat * 16777216 + b.toNat * 65536 + c.toNat * 256 + d.toNat), rest)
  | _, _ => none

def readFields : List Field → List UInt8 → Option (List Operand × List UInt8)
  | [], bytes => some ([], bytes)
  | field :: fields, bytes => do
      let (operand, bytes) ← field.read bytes
      let (operands, bytes) ← readFields fields bytes
      return (operand :: operands, bytes)

def readCaptures : Nat → List UInt8 → Option (List Operand × List UInt8)
  | 0, bytes => some ([], bytes)
  | n + 1, isLocal :: hi :: lo :: bytes => do
      let (operands, bytes) ← readCaptures n bytes
      return (.capture (isLocal != 0) (hi.toNat * 256 + lo.toNat) :: operands, bytes)
  | _ + 1, _ => none

/-- One instruction. `captures` is the number of upvalues of each nested function. -/
def readInstruction (captures : Nat → Nat) :
    List UInt8 → Option ((OpCode × List Operand) × List UInt8)
  | [] => none
  | byte :: bytes => do
      let op ← OpCode.ofByte byte
      let (operands, bytes) ← readFields op.fields bytes
      match operands with
      | [.nested idx] =>
          let (upvalues, bytes) ← readCaptures (captures idx) bytes
          return ((op, operands ++ upvalues), bytes)
      | _ => return ((op, operands), bytes)

/-- At most that many instructions, up to the end. -/
def readCode (captures : Nat → Nat) : Nat → List UInt8 → Option (List (OpCode × List Operand))
  | _, [] => some []
  | 0, _ :: _ => none
  | n + 1, byte :: bytes => do
      let (i, bytes) ← readInstruction captures (byte :: bytes)
      let rest ← readCode captures n bytes
      return i :: rest

/-- The instructions the VM finds in a function. -/
def BytecodeFunction.instructions (f : BytecodeFunction) : Option (List (OpCode × List Operand)) :=
  readCode (fun idx => (f.nestedFunctions[idx]?.map fun g => g.upvalues.length).getD 0)
    f.chunk.code.length f.chunk.code

end EZLanguage
