import Mathlib.Data.List.Basic

/-!
# The instruction set

The opcodes in the order of the source's enumeration, which is the number each one is encoded as,
and the operand bytes the VM reads after each.
-/

namespace EZLanguage

inductive OpCode where
  | LOAD_CONST | LOAD_LOCAL | STORE_LOCAL | LOAD_UPVALUE | STORE_UPVALUE | LOAD_GLOBAL
  | STORE_GLOBAL | LOAD_PROPERTY | STORE_PROPERTY | POP | DUP | DUP2
  | LOAD_NIL | LOAD_TRUE | LOAD_FALSE | LOAD_ZERO | LOAD_ONE | LOAD_EMPTY_STR
  | INC_LOCAL | DEC_LOCAL
  | ADD | SUB | MUL | DIV | MOD | POW | NEGATE
  | BIT_AND | BIT_OR | BIT_XOR | BIT_NOT | SHIFT_LEFT | SHIFT_RIGHT
  | EQUAL | NOT_EQUAL | LESS | LESS_EQ | GREATER | GREATER_EQ | NOT
  | JUMP | JUMP_IF_FALSE | JUMP_IF_TRUE | JUMP_IF_NIL | JUMP_IF_NOT_NIL | LOOP
  | CALL | TAIL_CALL | CALL_KW | RETURN | CLOSURE | CLOSE_UPVALUE
  | MAKE_ARRAY | BUILD_TUPLE | MAKE_DICT | INDEX_GET | INDEX_SET | ARRAY_APPEND | ARRAY_EXTEND
  | CALL_SPREAD | NEW_INSTANCE | GET_METHOD | SUPER | SUPER_CALL
  | GET_ITER | GET_DICT_ITER | ITER_NEXT | ITER_HAS_NEXT
  | TRY_START | TRY_END | THROW | FINALLY_START | FINALLY_END
  | TO_STRING | PRINT | CLOCK | TYPE_OF | IS_INSTANCE_OF | OP_AWAIT
  | MAKE_INTERFACE | MAKE_CLASS | BREAKPOINT | LINE | HAS_GLOBAL
  | LOAD_GLOBAL_SLOT | STORE_GLOBAL_SLOT | LOOP_LESS_EQ_LOCAL | LOOP_GREATER_EQ_LOCAL
  | INTERCEPTED_STORE_PROPERTY | RATELIMIT_CHECK | GET_CACHED_RESULT | STORE_CACHED_RESULT
  | LOAD_LOCAL_W | STORE_LOCAL_W | MEMBER_IN
  | ADD_LOCAL_LOCAL | SUB_LOCAL_LOCAL | INC_LOCAL_BY | ADD_GLOBAL_LOCAL | PRINT_STR
  | INVOKE_METHOD | END
  deriving DecidableEq, Repr

namespace OpCode

/-- The enumeration in order: an opcode's byte is its position. -/
def all : List OpCode :=
  [LOAD_CONST, LOAD_LOCAL, STORE_LOCAL, LOAD_UPVALUE, STORE_UPVALUE, LOAD_GLOBAL,
    STORE_GLOBAL, LOAD_PROPERTY, STORE_PROPERTY, POP, DUP, DUP2,
    LOAD_NIL, LOAD_TRUE, LOAD_FALSE, LOAD_ZERO, LOAD_ONE, LOAD_EMPTY_STR,
    INC_LOCAL, DEC_LOCAL,
    ADD, SUB, MUL, DIV, MOD, POW, NEGATE,
    BIT_AND, BIT_OR, BIT_XOR, BIT_NOT, SHIFT_LEFT, SHIFT_RIGHT,
    EQUAL, NOT_EQUAL, LESS, LESS_EQ, GREATER, GREATER_EQ, NOT,
    JUMP, JUMP_IF_FALSE, JUMP_IF_TRUE, JUMP_IF_NIL, JUMP_IF_NOT_NIL, LOOP,
    CALL, TAIL_CALL, CALL_KW, RETURN, CLOSURE, CLOSE_UPVALUE,
    MAKE_ARRAY, BUILD_TUPLE, MAKE_DICT, INDEX_GET, INDEX_SET, ARRAY_APPEND, ARRAY_EXTEND,
    CALL_SPREAD, NEW_INSTANCE, GET_METHOD, SUPER, SUPER_CALL,
    GET_ITER, GET_DICT_ITER, ITER_NEXT, ITER_HAS_NEXT,
    TRY_START, TRY_END, THROW, FINALLY_START, FINALLY_END,
    TO_STRING, PRINT, CLOCK, TYPE_OF, IS_INSTANCE_OF, OP_AWAIT,
    MAKE_INTERFACE, MAKE_CLASS, BREAKPOINT, LINE, HAS_GLOBAL,
    LOAD_GLOBAL_SLOT, STORE_GLOBAL_SLOT, LOOP_LESS_EQ_LOCAL, LOOP_GREATER_EQ_LOCAL,
    INTERCEPTED_STORE_PROPERTY, RATELIMIT_CHECK, GET_CACHED_RESULT, STORE_CACHED_RESULT,
    LOAD_LOCAL_W, STORE_LOCAL_W, MEMBER_IN,
    ADD_LOCAL_LOCAL, SUB_LOCAL_LOCAL, INC_LOCAL_BY, ADD_GLOBAL_LOCAL, PRINT_STR,
    INVOKE_METHOD, END]

def ofByte (b : UInt8) : Option OpCode := all[b.toNat]?

def toByte (op : OpCode) : UInt8 := UInt8.ofNat op.ctorIdx

theorem ofByte_toByte (op : OpCode) : ofByte op.toByte = some op := by
  cases op <;> rfl

/-- The operand bytes the VM's handler reads. `CLOSURE` reads three more for every upvalue of the
function it names. -/
def operandBytes : OpCode → Nat
  | LOAD_LOCAL | STORE_LOCAL | LOAD_UPVALUE | STORE_UPVALUE | INC_LOCAL | DEC_LOCAL
  | CALL | CALL_KW | TAIL_CALL | CLOSE_UPVALUE | MAKE_ARRAY | BUILD_TUPLE | MAKE_DICT => 1
  | LOAD_CONST | LOAD_LOCAL_W | STORE_LOCAL_W | LOAD_GLOBAL | STORE_GLOBAL | HAS_GLOBAL
  | LOAD_GLOBAL_SLOT | STORE_GLOBAL_SLOT | RATELIMIT_CHECK | GET_CACHED_RESULT
  | STORE_CACHED_RESULT | LINE | GET_METHOD | CLOSURE
  | ADD_LOCAL_LOCAL | SUB_LOCAL_LOCAL | INC_LOCAL_BY => 2
  | NEW_INSTANCE | SUPER_CALL | MAKE_INTERFACE | ADD_GLOBAL_LOCAL => 3
  | LOAD_PROPERTY | STORE_PROPERTY | INTERCEPTED_STORE_PROPERTY
  | JUMP | JUMP_IF_FALSE | JUMP_IF_TRUE | JUMP_IF_NIL | JUMP_IF_NOT_NIL | LOOP
  | ITER_NEXT | TRY_START => 4
  | MAKE_CLASS | INVOKE_METHOD => 5
  | LOOP_LESS_EQ_LOCAL | LOOP_GREATER_EQ_LOCAL => 6
  | _ => 0

/-- The opcodes whose third and fourth operand bytes index the chunk's inline caches. -/
def hasInlineCache : OpCode → Bool
  | LOAD_PROPERTY | STORE_PROPERTY | INTERCEPTED_STORE_PROPERTY | INVOKE_METHOD => true
  | _ => false

end OpCode

end EZLanguage
