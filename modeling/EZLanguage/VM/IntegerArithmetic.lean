import EZLanguage.VM.Operators
import Mathlib.Algebra.Ring.Int.Defs
import Mathlib.Tactic.NormNum.Basic

/-!
# Machine operations on integers

The arithmetic instructions on two integers, down to the C++ operations they execute. A signed operation
whose result is no 64-bit integer is undefined behaviour. `ezarith` wraps on the unsigned representation,
and the fast cases of `NEGATE`, `INC_LOCAL`, `DEC_LOCAL`, `DIV` and `MOD` do not go through it.
-/

namespace EZLanguage

namespace IntegerArithmetic

open Operator

/-! ### C++ operations on `long long` -/

/-- A signed operation with the result `n`. -/
def signed (n : Int) : Except Fault Int64 :=
  if -2 ^ 63 ≤ n ∧ n < 2 ^ 63 then .ok (Int64.ofInt n) else .error .undefined

def cxxAdd (a b : Int64) : Except Fault Int64 := signed (a.toInt + b.toInt)

def cxxSub (a b : Int64) : Except Fault Int64 := signed (a.toInt - b.toInt)

def cxxNeg (a : Int64) : Except Fault Int64 := signed (-a.toInt)

def cxxDiv (a b : Int64) : Except Fault Int64 :=
  if b = 0 then .error .undefined else signed (a.toInt.tdiv b.toInt)

/-- The remainder is undefined where the quotient is. -/
def cxxRem (a b : Int64) : Except Fault Int64 := do
  let _ ← cxxDiv a b
  return Int64.ofInt (a.toInt.tmod b.toInt)

/-- `<<` of an `unsigned long long`. -/
def cxxShiftLeft (a : UInt64) (shift : Int64) : Except Fault UInt64 :=
  if 0 ≤ shift ∧ shift ≤ 63 then .ok (a <<< shift.toUInt64) else .error .undefined

/-- `>>` of a `long long`, which keeps the sign. -/
def cxxShiftRight (a shift : Int64) : Except Fault Int64 :=
  if 0 ≤ shift ∧ shift ≤ 63 then .ok (a >>> shift) else .error .undefined

def wrapAdd (a b : Int64) : Int64 := (a.toUInt64 + b.toUInt64).toInt64

def wrapSub (a b : Int64) : Int64 := (a.toUInt64 - b.toUInt64).toInt64

def wrapMul (a b : Int64) : Int64 := (a.toUInt64 * b.toUInt64).toInt64

def wrapNeg (a : Int64) : Int64 := (0 - a.toUInt64).toInt64

/-! ### The instructions -/

inductive IntBinary where
  | ADD | SUB | MUL | DIV | MOD | POW | SHIFT_LEFT | SHIFT_RIGHT
  deriving DecidableEq

inductive IntUnary where
  | NEGATE | INC_LOCAL | DEC_LOCAL
  deriving DecidableEq

/-- An instruction on integers. -/
inductive IntInstr where
  | binary (op : IntBinary) (a b : Int64)
  | unary (op : IntUnary) (a : Int64)

variable (fpu : FloatUnit)

def zeroDivisionError (message : String) : Except Fault Scalar := zeroDivision message

/-- `al % bl == 0 ? al / bl : (double)al / (double)bl`. -/
def divided (a b : Int64) : Except Fault Scalar := do
  let r ← cxxRem a b
  if r = 0 then
    let q ← cxxDiv a b
    return .int q
  else return .float (fpu.div (fpu.ofInt a) (fpu.ofInt b))

/-- The loop of `doPower`. `exp` is positive where it divides. -/
def powerLoop (base : Int64) (exp : Nat) (result : Int64) : Int64 :=
  if 0 < exp then
    let result := if exp % 2 = 1 then wrapMul result base else result
    powerLoop (if 0 < exp / 2 then wrapMul base base else base) (exp / 2) result
  else result
termination_by exp

def shiftError : Except Fault Scalar :=
  .error (.exception (lit "ValueError") (lit "a shift amount must be between 0 and 63"))

/-- The helper of an instruction. -/
def helper : IntBinary → Int64 → Int64 → Except Fault Scalar
  | .ADD, a, b => .ok (.int (wrapAdd a b))
  | .SUB, a, b => .ok (.int (wrapSub a b))
  | .MUL, a, b => .ok (.int (wrapMul a b))
  | .DIV, a, b => if b = 0 then zeroDivisionError "division by zero" else divided fpu a b
  | .MOD, a, b =>
      if b = 0 then zeroDivisionError "modulo by zero" else do
        let r ← cxxRem a b
        return .int r
  | .POW, a, b =>
      if 0 ≤ b then .ok (.int (powerLoop a b.toInt.toNat 1))
      else .ok (.float (fpu.pow (fpu.ofInt a) (fpu.ofInt b)))
  | .SHIFT_LEFT, a, b =>
      if b < 0 ∨ 63 < b then shiftError else do
        let r ← cxxShiftLeft a.toUInt64 b
        return .int r.toInt64
  | .SHIFT_RIGHT, a, b =>
      if b < 0 ∨ 63 < b then shiftError else do
        let r ← cxxShiftRight a b
        return .int r

/-- The case of two integers in `run`, where there is one. -/
def fast : IntBinary → Int64 → Int64 → Except Fault Scalar
  | .ADD, a, b => .ok (.int (wrapAdd a b))
  | .SUB, a, b => .ok (.int (wrapSub a b))
  | .MUL, a, b => .ok (.int (wrapMul a b))
  | .DIV, a, b => if b = 0 then zeroDivisionError "division by zero" else divided fpu a b
  | .MOD, a, b =>
      if b = 0 then zeroDivisionError "modulo by zero" else do
        let r ← cxxRem a b
        return .int r
  | op, a, b => helper fpu op a b

/-- The case of an integer in `run`. -/
def fastUnary : IntUnary → Int64 → Except Fault Scalar
  | .NEGATE, a => do
      let r ← cxxNeg a
      return .int r
  | .INC_LOCAL, a => do
      let r ← cxxAdd a 1
      return .int r
  | .DEC_LOCAL, a => do
      let r ← cxxSub a 1
      return .int r

/-- The helper of `NEGATE`. The steps on a local have none. -/
def helperUnary : IntUnary → Int64 → Except Fault Scalar
  | .NEGATE, a => .ok (.int (wrapNeg a))
  | op, a => fastUnary op a

/-! ### What the instructions mean -/

/-- The error or the wrapped result: `Int64.ofInt` is the two's-complement wrap. -/
def meant : IntBinary → Int64 → Int64 → Except Fault Scalar
  | .ADD, a, b => .ok (.int (Int64.ofInt (a.toInt + b.toInt)))
  | .SUB, a, b => .ok (.int (Int64.ofInt (a.toInt - b.toInt)))
  | .MUL, a, b => .ok (.int (Int64.ofInt (a.toInt * b.toInt)))
  | .DIV, a, b =>
      if b = 0 then zeroDivisionError "division by zero"
      else if b.toInt ∣ a.toInt then .ok (.int (Int64.ofInt (a.toInt / b.toInt)))
      else .ok (.float (fpu.div (fpu.ofInt a) (fpu.ofInt b)))
  | .MOD, a, b =>
      if b = 0 then zeroDivisionError "modulo by zero"
      else .ok (.int (Int64.ofInt (a.toInt.tmod b.toInt)))
  | .POW, a, b =>
      if 0 ≤ b then .ok (.int (Int64.ofInt (a.toInt ^ b.toInt.toNat)))
      else .ok (.float (fpu.pow (fpu.ofInt a) (fpu.ofInt b)))
  | .SHIFT_LEFT, a, b =>
      if b < 0 ∨ 63 < b then shiftError
      else .ok (.int (Int64.ofInt (a.toInt * 2 ^ b.toInt.toNat)))
  | .SHIFT_RIGHT, a, b =>
      if b < 0 ∨ 63 < b then shiftError
      else .ok (.int (Int64.ofInt (a.toInt / 2 ^ b.toInt.toNat)))

def meantUnary : IntUnary → Int64 → Except Fault Scalar
  | .NEGATE, a => .ok (.int (Int64.ofInt (-a.toInt)))
  | .INC_LOCAL, a => .ok (.int (Int64.ofInt (a.toInt + 1)))
  | .DEC_LOCAL, a => .ok (.int (Int64.ofInt (a.toInt - 1)))

/-- Neither the fast case nor the helper executes an undefined operation, and both come to what is
meant. -/
def Defined : IntInstr → Prop
  | .binary op a b => fast fpu op a b = meant fpu op a b ∧ helper fpu op a b = meant fpu op a b
  | .unary op a => fastUnary op a = meantUnary op a ∧ helperUnary op a = meantUnary op a

/-- The signed operations of the instruction have results. -/
def Representable : IntInstr → Prop
  | .binary .DIV a b | .binary .MOD a b => ¬(a = Int64.minValue ∧ b = -1)
  | .binary _ _ _ => True
  | .unary .INC_LOCAL a => a ≠ Int64.maxValue
  | .unary _ a => a ≠ Int64.minValue

/-! ### Wrapping -/

theorem wrapAdd_eq (a b : Int64) : wrapAdd a b = Int64.ofInt (a.toInt + b.toInt) := by
  rw [Int64.ofInt_add, Int64.ofInt_toInt, Int64.ofInt_toInt, wrapAdd, ← Int64.toUInt64_add]
  rfl

theorem wrapSub_eq (a b : Int64) : wrapSub a b = Int64.ofInt (a.toInt - b.toInt) := by
  rw [Int64.ofInt_sub, Int64.ofInt_toInt, Int64.ofInt_toInt, wrapSub, ← Int64.toUInt64_sub]
  rfl

theorem wrapMul_eq (a b : Int64) : wrapMul a b = Int64.ofInt (a.toInt * b.toInt) := by
  rw [Int64.ofInt_mul, Int64.ofInt_toInt, Int64.ofInt_toInt, wrapMul, ← Int64.toUInt64_mul]
  rfl

theorem wrapNeg_eq (a : Int64) : wrapNeg a = Int64.ofInt (-a.toInt) := by
  rw [Int64.ofInt_neg, Int64.ofInt_toInt, wrapNeg, UInt64.zero_sub, ← Int64.toUInt64_neg]
  rfl

/-- Only the residue of a factor counts. -/
theorem ofInt_mul_congr {a b c d : Int} (hleft : Int64.ofInt a = Int64.ofInt c)
    (hright : Int64.ofInt b = Int64.ofInt d) : Int64.ofInt (a * b) = Int64.ofInt (c * d) := by
  rw [Int64.ofInt_mul, Int64.ofInt_mul, hleft, hright]

theorem ofInt_pow_congr {a b : Int} (h : Int64.ofInt a = Int64.ofInt b) (n : Nat) :
    Int64.ofInt (a ^ n) = Int64.ofInt (b ^ n) := by
  induction n with
  | zero => rw [pow_zero, pow_zero]
  | succ n ih =>
      rw [pow_succ, pow_succ]
      exact ofInt_mul_congr ih h

theorem ofInt_wrapMul (a b : Int64) :
    Int64.ofInt (wrapMul a b).toInt = Int64.ofInt (a.toInt * b.toInt) := by
  rw [Int64.ofInt_toInt, wrapMul_eq]

/-- The loop multiplies by the power. -/
theorem powerLoop_eq (base : Int64) (exp : Nat) (result : Int64) :
    powerLoop base exp result = Int64.ofInt (result.toInt * base.toInt ^ exp) := by
  induction exp using Nat.strong_induction_on generalizing base result with
  | _ exp ih =>
      rw [powerLoop]
      by_cases hpos : 0 < exp
      · rw [if_pos hpos]
        dsimp only
        have hsquare : Int64.ofInt ((if 0 < exp / 2 then wrapMul base base else base).toInt ^
            (exp / 2)) = Int64.ofInt (base.toInt ^ (2 * (exp / 2))) := by
          split
          · rw [pow_mul, pow_two]
            exact ofInt_pow_congr (ofInt_wrapMul base base) _
          · have hzero : exp / 2 = 0 := by omega
            rw [hzero]
        have hodd : Int64.ofInt (if exp % 2 = 1 then wrapMul result base else result).toInt =
            Int64.ofInt (result.toInt * base.toInt ^ (exp % 2)) := by
          split
          · rename_i hone
            rw [hone, pow_one]
            exact ofInt_wrapMul result base
          · have hzero : exp % 2 = 0 := by omega
            rw [hzero, pow_zero, mul_one]
        rw [ih (exp / 2) (by omega), ofInt_mul_congr hodd hsquare, mul_assoc, ← pow_add,
          Nat.mod_add_div]
      · have hzero : exp = 0 := by omega
        rw [if_neg hpos, hzero, pow_zero, mul_one, Int64.ofInt_toInt]

/-! ### Shifts -/

theorem toInt_of_range {b : Int64} (h : ¬(b < 0 ∨ 63 < b)) : 0 ≤ b.toInt ∧ b.toInt ≤ 63 := by
  rw [not_or, Int64.not_lt, Int64.not_lt, Int64.le_iff_toInt_le, Int64.le_iff_toInt_le] at h
  exact h

/-- Bits of a number that is not negative are its digits. -/
theorem toNat_of_nonneg {x : BitVec 64} (h : 0 ≤ x.toInt) : x.toNat = x.toInt.toNat := by
  rw [BitVec.toInt_eq_toNat_cond] at h ⊢
  split at h
  · rename_i hsmall
    rw [if_pos hsmall]
    rfl
  · have := x.isLt
    omega

theorem shiftLeft_eq {a b : Int64} (hlow : 0 ≤ b.toInt) (hhigh : b.toInt ≤ 63) :
    (a.toUInt64 <<< b.toUInt64).toInt64 = Int64.ofInt (a.toInt * 2 ^ b.toInt.toNat) := by
  have hamount : b.toBitVec.toNat = b.toInt.toNat := toNat_of_nonneg hlow
  have hshift : (a.toUInt64 <<< b.toUInt64).toInt64.toBitVec = a.toBitVec <<< b.toInt.toNat := by
    show a.toBitVec <<< (b.toBitVec % 64#64) = _
    rw [BitVec.shiftLeft_eq', BitVec.toNat_umod, hamount]
    have hsmall : b.toInt.toNat % 64 = b.toInt.toNat := Nat.mod_eq_of_lt (by omega)
    exact congrArg (a.toBitVec <<< ·) hsmall
  apply Int64.toInt_inj.mp
  rw [Int64.toInt_ofInt, ← Int64.toInt_toBitVec, hshift, BitVec.toInt_shiftLeft,
    Nat.shiftLeft_eq, ← Int64.toInt_toBitVec a, BitVec.toInt_eq_toNat_bmod]
  push_cast
  exact Int.bmod_mul_bmod.symm

theorem shiftRight_eq {a b : Int64} (hlow : 0 ≤ b.toInt) (hhigh : b.toInt ≤ 63) :
    a >>> b = Int64.ofInt (a.toInt / 2 ^ b.toInt.toNat) := by
  have hmod : (b.toBitVec.smod 64#64).toInt = b.toInt := by
    rw [BitVec.toInt_smod, Int64.toInt_toBitVec]
    have hsixtyFour : (64#64).toInt = 64 := rfl
    rw [hsixtyFour, Int.fmod_eq_emod_of_nonneg _ (by omega)]
    exact Int.emod_eq_of_lt hlow (by omega)
  have hamount : (b.toBitVec.smod 64#64).toNat = b.toInt.toNat := by
    rw [toNat_of_nonneg (by rw [hmod]; exact hlow), hmod]
  have hshift : (a >>> b).toInt = a.toInt >>> b.toInt.toNat := by
    show (a.toBitVec.sshiftRight' (b.toBitVec.smod 64#64)).toInt = _
    rw [BitVec.toInt_sshiftRight', hamount, Int64.toInt_toBitVec]
  have hpow : (2 : Int) ^ b.toInt.toNat = ((2 ^ b.toInt.toNat : Nat) : Int) := by push_cast; rfl
  rw [hpow, ← Int.shiftRight_eq_div_pow, ← hshift, Int64.ofInt_toInt]

/-! ### Quotients -/

/-- The quotient of two integers is one but for the least integer by -1. -/
theorem quotient_range {a b : Int64} (h : ¬(a = Int64.minValue ∧ b = -1)) :
    -2 ^ 63 ≤ a.toInt.tdiv b.toInt ∧ a.toInt.tdiv b.toInt < 2 ^ 63 := by
  have hdiv : (a / b).toInt = a.toInt.tdiv b.toInt := by
    by_cases ha : a = Int64.minValue
    · exact Int64.toInt_div_of_ne_right a b fun hb => h ⟨ha, hb⟩
    · exact Int64.toInt_div_of_ne_left a b ha
  rw [← hdiv]
  exact ⟨(a / b).le_toInt, (a / b).toInt_lt⟩

theorem cxxDiv_defined {a b : Int64} (hzero : b ≠ 0) (h : ¬(a = Int64.minValue ∧ b = -1)) :
    cxxDiv a b = .ok (Int64.ofInt (a.toInt.tdiv b.toInt)) := by
  rw [cxxDiv, if_neg hzero, signed, if_pos (quotient_range h)]

theorem cxxRem_defined {a b : Int64} (hzero : b ≠ 0) (h : ¬(a = Int64.minValue ∧ b = -1)) :
    cxxRem a b = .ok (Int64.ofInt (a.toInt.tmod b.toInt)) := by
  rw [cxxRem, cxxDiv_defined hzero h]
  rfl

/-- The remainder is an integer of its own, so that it is zero where its residue is. -/
theorem ofInt_tmod_eq_zero {a b : Int64} :
    Int64.ofInt (a.toInt.tmod b.toInt) = 0 ↔ b.toInt ∣ a.toInt := by
  rw [← Int64.toInt_mod, Int64.ofInt_toInt, ← Int64.toInt_inj, Int64.toInt_mod]
  exact Int.dvd_iff_tmod_eq_zero.symm

theorem divided_defined {a b : Int64} (hzero : b ≠ 0) (h : ¬(a = Int64.minValue ∧ b = -1)) :
    divided fpu a b = if b.toInt ∣ a.toInt then .ok (.int (Int64.ofInt (a.toInt / b.toInt)))
      else .ok (.float (fpu.div (fpu.ofInt a) (fpu.ofInt b))) := by
  rw [divided, cxxRem_defined hzero h]
  by_cases hdvd : b.toInt ∣ a.toInt
  · rw [if_pos hdvd, ← Int.tdiv_eq_ediv_of_dvd hdvd]
    have hexact : Int64.ofInt (a.toInt.tmod b.toInt) = 0 := ofInt_tmod_eq_zero.mpr hdvd
    show (if Int64.ofInt (a.toInt.tmod b.toInt) = 0 then _ else _) = _
    rw [if_pos hexact, cxxDiv_defined hzero h]
    rfl
  · rw [if_neg hdvd]
    have hinexact : Int64.ofInt (a.toInt.tmod b.toInt) ≠ 0 := fun hzero =>
      hdvd (ofInt_tmod_eq_zero.mp hzero)
    show (if Int64.ofInt (a.toInt.tmod b.toInt) = 0 then _ else _) = _
    rw [if_neg hinexact]
    rfl

/-! ### Definedness -/

theorem helper_meant {op : IntBinary} {a b : Int64} (h : Representable (.binary op a b)) :
    helper fpu op a b = meant fpu op a b := by
  cases op with
  | ADD => rw [helper, meant, wrapAdd_eq]
  | SUB => rw [helper, meant, wrapSub_eq]
  | MUL => rw [helper, meant, wrapMul_eq]
  | DIV =>
      rw [helper, meant]
      by_cases hzero : b = 0
      · rw [if_pos hzero, if_pos hzero]
      · rw [if_neg hzero, if_neg hzero, divided_defined fpu hzero h]
  | MOD =>
      rw [helper, meant]
      by_cases hzero : b = 0
      · rw [if_pos hzero, if_pos hzero]
      · rw [if_neg hzero, if_neg hzero, cxxRem_defined hzero h]
        rfl
  | POW =>
      rw [helper, meant, powerLoop_eq, Int64.toInt_one, one_mul]
  | SHIFT_LEFT =>
      rw [helper, meant]
      by_cases hrange : b < 0 ∨ 63 < b
      · rw [if_pos hrange, if_pos hrange]
      · obtain ⟨hlow, hhigh⟩ := toInt_of_range hrange
        have hshift : cxxShiftLeft a.toUInt64 b = .ok (a.toUInt64 <<< b.toUInt64) :=
          if_pos ⟨Int64.le_iff_toInt_le.mpr hlow, Int64.le_iff_toInt_le.mpr hhigh⟩
        rw [if_neg hrange, if_neg hrange, hshift, ← shiftLeft_eq hlow hhigh]
        rfl
  | SHIFT_RIGHT =>
      rw [helper, meant]
      by_cases hrange : b < 0 ∨ 63 < b
      · rw [if_pos hrange, if_pos hrange]
      · obtain ⟨hlow, hhigh⟩ := toInt_of_range hrange
        have hshift : cxxShiftRight a b = .ok (a >>> b) :=
          if_pos ⟨Int64.le_iff_toInt_le.mpr hlow, Int64.le_iff_toInt_le.mpr hhigh⟩
        rw [if_neg hrange, if_neg hrange, hshift, shiftRight_eq hlow hhigh]
        rfl

/-- The fast case of an instruction does what its helper does. -/
theorem fast_eq_helper (op : IntBinary) (a b : Int64) : fast fpu op a b = helper fpu op a b := by
  cases op <;> rfl

theorem signed_ok {n : Int} (hlow : -2 ^ 63 ≤ n) (hhigh : n < 2 ^ 63) :
    signed n = .ok (Int64.ofInt n) := if_pos ⟨hlow, hhigh⟩

theorem toInt_ne_min {a : Int64} (h : a ≠ Int64.minValue) : -2 ^ 63 < a.toInt := by
  have hne : a.toInt ≠ -2 ^ 63 := fun heq => h (Int64.toInt_inj.mp (heq.trans Int64.toInt_minValue.symm))
  have := a.le_toInt
  omega

theorem toInt_ne_max {a : Int64} (h : a ≠ Int64.maxValue) : a.toInt < 2 ^ 63 - 1 := by
  have hne : a.toInt ≠ 2 ^ 63 - 1 :=
    fun heq => h (Int64.toInt_inj.mp (heq.trans Int64.toInt_maxValue.symm))
  have := a.toInt_lt
  omega

theorem fastUnary_meant {op : IntUnary} {a : Int64} (h : Representable (.unary op a)) :
    fastUnary op a = meantUnary op a := by
  have hlow := a.le_toInt
  have hhigh := a.toInt_lt
  cases op with
  | NEGATE =>
      have hmin := toInt_ne_min h
      rw [fastUnary, meantUnary, cxxNeg, signed_ok (by omega) (by omega)]
      rfl
  | INC_LOCAL =>
      have hmax := toInt_ne_max h
      rw [fastUnary, meantUnary, cxxAdd, Int64.toInt_one, signed_ok (by omega) (by omega)]
      rfl
  | DEC_LOCAL =>
      have hmin := toInt_ne_min h
      rw [fastUnary, meantUnary, cxxSub, Int64.toInt_one, signed_ok (by omega) (by omega)]
      rfl

theorem helperUnary_meant {op : IntUnary} {a : Int64} (h : Representable (.unary op a)) :
    helperUnary op a = meantUnary op a := by
  cases op with
  | NEGATE => rw [helperUnary, meantUnary, wrapNeg_eq]
  | INC_LOCAL => exact fastUnary_meant h
  | DEC_LOCAL => exact fastUnary_meant h

/-- What is meant is a value or an error that the program can catch. -/
theorem meant_ne_undefined (op : IntBinary) (a b : Int64) :
    meant fpu op a b ≠ .error .undefined := by
  cases op <;> rw [meant] <;> repeat' split
  all_goals exact fun h => nomatch h

/-- No instruction on integers executes an undefined operation, exactly when its signed operations have
results. -/
theorem defined_iff_representable (i : IntInstr) : Defined fpu i ↔ Representable i := by
  constructor
  · intro hdefined
    cases i with
    | binary op a b =>
        have hmeant := meant_ne_undefined fpu op a b
        rw [← hdefined.1] at hmeant
        cases op with
        | DIV =>
            rintro ⟨rfl, rfl⟩
            exact hmeant rfl
        | MOD =>
            rintro ⟨rfl, rfl⟩
            exact hmeant rfl
        | _ => trivial
    | unary op a =>
        have hfast := hdefined.1
        cases op <;>
          · rintro rfl
            cases hfast
  · intro h
    cases i with
    | binary op a b =>
        rw [Defined, fast_eq_helper]
        exact ⟨helper_meant fpu h, helper_meant fpu h⟩
    | unary op a => exact ⟨fastUnary_meant h, helperUnary_meant h⟩

/-- `LLONG_MIN / -1`. -/
theorem leastByMinusOne_undefined : ¬Defined .bare (.binary .DIV Int64.minValue (-1)) := by
  intro h
  have hfast : fast .bare .DIV Int64.minValue (-1) = .error .undefined := rfl
  exact meant_ne_undefined .bare .DIV Int64.minValue (-1) (h.1.symm.trans hfast)

/-! ### The operators -/

def IntBinary.toBinaryOp : IntBinary → BinaryOp
  | .ADD => .PLUS
  | .SUB => .MINUS
  | .MUL => .STAR
  | .DIV => .SLASH
  | .MOD => .PERCENT
  | .POW => .STAR_STAR
  | .SHIFT_LEFT => .LSHIFT
  | .SHIFT_RIGHT => .RSHIFT

theorem powerLoop_power (base : Int64) (exp : Nat) (result : Int64) :
    powerLoop base exp result = power base exp result := by
  induction exp using Nat.strong_induction_on generalizing base result with
  | _ exp ih =>
      rw [powerLoop, power]
      by_cases hpos : 0 < exp
      · rw [if_pos hpos, if_pos hpos]
        exact ih (exp / 2) (by omega) _ _
      · rw [if_neg hpos, if_neg hpos]

theorem divIsUB_false {a b : Int64} (hzero : b ≠ 0) (h : ¬(a = Int64.minValue ∧ b = -1)) :
    divIsUB a b = false := by
  rw [divIsUB, Bool.or_eq_false_iff, beq_eq_false_iff_ne, Bool.and_eq_false_iff, beq_eq_false_iff_ne,
    beq_eq_false_iff_ne]
  exact ⟨hzero, not_and_or.mp h⟩

theorem quotient_eq_divided {a b : Int64} (hzero : b ≠ 0) (h : ¬(a = Int64.minValue ∧ b = -1)) :
    quotient fpu a b = divided fpu a b := by
  rw [divided_defined fpu hzero h, quotient, divIsUB_false hzero h, if_neg Bool.false_ne_true]
  have hrem : (a % b == 0) = true ↔ b.toInt ∣ a.toInt := by
    rw [beq_iff_eq, ← ofInt_tmod_eq_zero, ← Int64.toInt_mod, Int64.ofInt_toInt]
  by_cases hdvd : b.toInt ∣ a.toInt
  · have hdiv : (a / b).toInt = a.toInt / b.toInt := by
      rw [← Int.tdiv_eq_ediv_of_dvd hdvd]
      by_cases ha : a = Int64.minValue
      · exact Int64.toInt_div_of_ne_right a b fun hb => h ⟨ha, hb⟩
      · exact Int64.toInt_div_of_ne_left a b ha
    rw [if_pos (hrem.mpr hdvd), if_pos hdvd, ← hdiv, Int64.ofInt_toInt]
  · rw [if_neg fun hr => hdvd (hrem.mp hr), if_neg hdvd]

/-- Where its signed operations have results, an instruction on two integers computes the operator. -/
theorem fast_eq_operator {op : IntBinary} {a b : Int64} (h : Representable (.binary op a b)) :
    fast fpu op a b = Operator.binary fpu op.toBinaryOp (.int a) (.int b) := by
  cases op with
  | ADD => rfl
  | SUB => rfl
  | MUL => rfl
  | DIV =>
      show (if b = 0 then _ else _) = if (b == 0) = true then _ else _
      by_cases hzero : b = 0
      · rw [if_pos hzero, if_pos (beq_iff_eq.mpr hzero)]
        rfl
      · rw [if_neg hzero, if_neg (by rwa [beq_iff_eq]), quotient_eq_divided fpu hzero h]
  | MOD =>
      show (if b = 0 then _ else _) = if (b == 0) = true then _ else _
      by_cases hzero : b = 0
      · rw [if_pos hzero, if_pos (beq_iff_eq.mpr hzero)]
        rfl
      · rw [if_neg hzero, if_neg (by rwa [beq_iff_eq]), cxxRem_defined hzero h, remainder,
          divIsUB_false hzero h, if_neg Bool.false_ne_true, ← Int64.toInt_mod, Int64.ofInt_toInt]
        rfl
  | POW =>
      show (if 0 ≤ b then _ else _) = if 0 ≤ b then _ else _
      rw [powerLoop_power]
  | SHIFT_LEFT =>
      rw [fast_eq_helper, helper_meant fpu h, meant]
      show _ = if b < 0 ∨ 63 < b then _ else _
      by_cases hrange : b < 0 ∨ 63 < b
      · rw [if_pos hrange, if_pos hrange]
        rfl
      · obtain ⟨hlow, hhigh⟩ := toInt_of_range hrange
        rw [if_neg hrange, if_neg hrange, ← shiftLeft_eq hlow hhigh]
        rfl
  | SHIFT_RIGHT =>
      rw [fast_eq_helper, helper_meant fpu h, meant]
      show _ = if b < 0 ∨ 63 < b then _ else _
      by_cases hrange : b < 0 ∨ 63 < b
      · rw [if_pos hrange, if_pos hrange]
        rfl
      · obtain ⟨hlow, hhigh⟩ := toInt_of_range hrange
        rw [if_neg hrange, if_neg hrange, ← shiftRight_eq hlow hhigh]
        rfl

end IntegerArithmetic

end EZLanguage
