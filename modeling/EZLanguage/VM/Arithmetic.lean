import Mathlib.Algebra.GroupWithZero.Nat
import Mathlib.Algebra.Group.Int.Defs
import EZLanguage.VM.Property

/-!
# Arithmetic instructions

The operators a model can overload, the helpers behind `ADD` and `SUB`, and the fused instructions the
compiler emits for `x = x + y` on a local or global variable.
-/

namespace EZLanguage

def badVariantAccess : Value := .string (lit "std::get: wrong index for variant")

namespace Handler

variable (rt : Runtime) (ctx : Ctx)

/-! ### Text -/

/-- `stringify`: the `toString` of an instance where it has one. -/
def stringify (l : Local) (val : Value) : Proc (Local × CString) :=
  match val with
  | .inst r =>
      let method := l.shared.getProperty r (lit "toString")
      if method.isCallable then do
        let args := if l.shared.hasProperty r (lit "toString") then [] else [val]
        let ended ← Proc.call l method args
        return (ended.1, rt.toString ended.1.heap ended.2)
      else return (l, rt.toString l.heap val)
  | val => return (l, rt.toString l.heap val)

/-! ### Helpers -/

def asNumber : Value → UInt64
  | .int i => rt.ofInt i
  | .float bits => bits
  | _ => 0

/-- 4 GiB. -/
def kMaxStringBytes : Nat := 2 ^ 32

/-- `doAdd`, with its operands popped. -/
def doAdd (l : Local) (a b : Value) : Proc Local :=
  match a, b with
  | .int x, .int y => return l.push (.int (x + y))
  | .string x, .string y =>
      if kMaxStringBytes < y.length ∨ kMaxStringBytes - y.length < x.length then
        return l.runtimeError (lit "String concatenation result too large")
      else return l.push (.string (x ++ y))
  | .array x, .array y =>
      let made := l.shared.newArray (l.shared.arrays x ++ l.shared.arrays y)
      return (l.withShared made.2).push (.array made.1)
  | a, b =>
      if a.isNumber ∧ b.isNumber then
        return l.push (.float (rt.fadd (asNumber rt a) (asNumber rt b)))
      else if a.isString ∨ b.isString then do
        let left ← stringify rt l a
        let right ← stringify rt left.1 b
        return right.1.push (.string (left.2 ++ right.2))
      else return l.runtimeError (lit "'+' operands must be numbers, strings, or arrays")

/-- `doSubtract`, with its operands popped. -/
def doSubtract (l : Local) (a b : Value) : Proc Local :=
  match a, b with
  | .int x, .int y => return l.push (.int (x - y))
  | a, b =>
      if a.isNumber ∧ b.isNumber then
        return l.push (.float (rt.fsub (asNumber rt a) (asNumber rt b)))
      else return l.runtimeError (lit "'-' operands must be numbers")

/-- `guardedHelper`: a C++ exception of the helper becomes a recorded fault. -/
def guardedHelper (helper : Proc Local) : Proc Local :=
  tryCatch helper fun unwinding =>
    return unwinding.1.withShared (unwinding.1.shared.recordFault unwinding.2)

/-- A handler that only computes on its operands. -/
def primitive (p : Primitive) (l : Local) : Proc Exit :=
  if l.ops.length < p.operands then return .malformed
  else
    match rt.primitive p (l.ops.take p.operands) l with
    | .values vs h => return .dispatch ((l.withHeap h).withOps (vs ++ l.ops.drop p.operands))
    | .fault exc h => return .raiseFault (l.withShared ((l.withHeap h).shared.recordFault exc))
    | .cxx exc h => throw (l.withHeap h, exc)

/-! ### Overloads -/

/-- The bound method of an instance that overloads an operator. -/
def overload (l : Local) (op : CString) : Value → Option Value
  | .inst r =>
      let method := l.shared.getProperty r op
      if method.isCallable then some (.boundMethod (.inst r) method) else none
  | _ => none

/-- A binary operator: the overload of the left operand, else the plain computation. -/
def binary (op : String) (plain : Local → Value → Value → Proc Exit) (l : Local) : Proc Exit :=
  match l.ops with
  | b :: a :: rest =>
      match overload l (lit op) a with
      | some bound => callAndReturn rt ctx (l.withOps (b :: bound :: rest)) bound 1
      | none => plain (l.withOps rest) a b
  | _ => return .malformed

/-- The computation of a primitive handler on operands popped already. -/
def plain (p : Primitive) (l : Local) (a b : Value) : Proc Exit :=
  primitive rt p (l.withOps (b :: a :: l.ops))

def ADD : Local → Proc Exit :=
  binary rt ctx "+" fun l a b => do
    let l ← guardedHelper (doAdd rt l a b)
    return .dispatch l

def SUB : Local → Proc Exit :=
  binary rt ctx "-" fun l a b => do
    let l ← guardedHelper (doSubtract rt l a b)
    return .dispatch l

def MUL : Local → Proc Exit := binary rt ctx "*" (plain rt .MUL)

def DIV : Local → Proc Exit := binary rt ctx "/" (plain rt .DIV)

def EQUAL : Local → Proc Exit := binary rt ctx "==" (plain rt .EQUAL)

def NOT_EQUAL : Local → Proc Exit := binary rt ctx "!=" (plain rt .NOT_EQUAL)

def LESS : Local → Proc Exit := binary rt ctx "<" (plain rt .LESS)

def LESS_EQ : Local → Proc Exit := binary rt ctx "<=" (plain rt .LESS_EQ)

def GREATER : Local → Proc Exit := binary rt ctx ">" (plain rt .GREATER)

def GREATER_EQ : Local → Proc Exit := binary rt ctx ">=" (plain rt .GREATER_EQ)

def NEGATE (l : Local) : Proc Exit :=
  match l.ops with
  | [] => return .malformed
  | a :: rest =>
      match overload l (lit "neg") a with
      | some bound => callAndReturn rt ctx (l.withOps (bound :: rest)) bound 0
      | none => primitive rt .NEGATE l

/-! ### Steps on a local variable -/

/-- `INC_LOCAL` and `DEC_LOCAL`. -/
def stepLocal (onInt : Int64 → Int64) (onFloat : UInt64 → UInt64) (slot : Nat) (l : Local) :
    Proc Exit :=
  match l.getLocal slot with
  | .int i => return .dispatch (l.setLocal slot (.int (onInt i)))
  | .float bits => return .dispatch (l.setLocal slot (.float (onFloat bits)))
  | _ => throw (l, badVariantAccess)

def INC_LOCAL : Nat → Local → Proc Exit := stepLocal (· + 1) fun bits => rt.fadd bits (rt.ofInt 1)

def DEC_LOCAL : Nat → Local → Proc Exit := stepLocal (· - 1) fun bits => rt.fsub bits (rt.ofInt 1)

/-! ### Fused instructions -/

/-- The number and string cases the fused additions compute themselves. -/
def fastAdd (dst src : Value) : Option Value :=
  match dst, src with
  | .int x, .int y => some (.int (x + y))
  | .string x, .string y => some (.string (x ++ y))
  | dst, src =>
      if dst.isNumber ∧ src.isNumber then some (.float (rt.fadd (asNumber rt dst) (asNumber rt src)))
      else none

def fastSub (dst src : Value) : Option Value :=
  match dst, src with
  | .int x, .int y => some (.int (x - y))
  | dst, src =>
      if dst.isNumber ∧ src.isNumber then some (.float (rt.fsub (asNumber rt dst) (asNumber rt src)))
      else none

/-- The tail of a fused handler: the helper, and its result stored. -/
def helperAndStore (helper : Proc Local) (store : Local → Value → Local) : Proc Exit := do
  let l ← helper
  if l.shared.running then
    match l.ops with
    | v :: rest => return .dispatch (store (l.withOps rest) v)
    | [] => return .malformed
  else return .raiseFault l

/-- A fused handler: its own cases, then the overload through `callFunction`, then the helper. -/
def fused (op : String) (fast : Value → Value → Option Value)
    (helper : Local → Value → Value → Proc Local) (store : Local → Value → Local)
    (dst src : Value) (l : Local) : Proc Exit :=
  match fast dst src with
  | some v => return .dispatch (store l v)
  | none =>
      match overload l (lit op) dst with
      | some bound => do
          let ended ← Proc.call l bound [src]
          return .dispatch (store ended.1 ended.2)
      | none => helperAndStore (helper l dst src) store

def ADD_LOCAL_LOCAL (dst src : Nat) (l : Local) : Proc Exit :=
  fused "+" (fastAdd rt) (doAdd rt) (fun l v => l.setLocal dst v) (l.getLocal dst) (l.getLocal src) l

def SUB_LOCAL_LOCAL (dst src : Nat) (l : Local) : Proc Exit :=
  fused "-" (fastSub rt) (doSubtract rt) (fun l v => l.setLocal dst v) (l.getLocal dst)
    (l.getLocal src) l

/-- The immediate is a signed byte. There is no overload case here. -/
def INC_LOCAL_BY (dst : Nat) (imm : Int64) (l : Local) : Proc Exit :=
  match l.getLocal dst with
  | .int i => return .dispatch (l.setLocal dst (.int (i + imm)))
  | .float bits => return .dispatch (l.setLocal dst (.float (rt.fadd bits (rt.ofInt imm))))
  | v => helperAndStore (doAdd rt l v (.int imm)) fun l v => l.setLocal dst v

/-- `globalEnv->globalSlots[slot] = v`. -/
def setGlobalSlot (slot : Nat) (l : Local) (v : Value) : Local :=
  l.withShared { l.shared with globalSlots := l.shared.globalSlots.set slot v }

def ADD_GLOBAL_LOCAL (globalSlot localSlot : Nat) (l : Local) : Proc Exit :=
  match l.shared.globalSlots[globalSlot]? with
  | none => return .dispatch l
  | some dst =>
      fused "+" (fastAdd rt) (doAdd rt) (setGlobalSlot globalSlot) dst (l.getLocal localSlot) l

end Handler

end EZLanguage
