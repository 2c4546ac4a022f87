import EZLanguage.Compiler.Folding

/-!
# What the folder gets right

The operands on which an operator of the folder agrees with its instruction, operator by
operator: there it folds to what the instruction yields or leaves the operator alone, and on all other
operands it throws or folds to something else.
-/

namespace EZLanguage

open Operator

variable (fpu : FloatUnit)

/-! ### Operands -/

/-- A double whose two texts are the same. -/
def Scalar.RendersAlike : Scalar → Prop
  | .float d => BytecodeCompiler.trimZeros (fpu.toFixed d) = Scalar.doubleText fpu d
  | _ => True

/-- The values the folder takes for false and `Value::isTruthy` for true. -/
def Scalar.isZeroOrEmpty : Scalar → Bool
  | .int i => i == 0
  | .float d => doubleEq d 0
  | .string s => s.isEmpty
  | _ => false

def Scalar.isFloat : Scalar → Bool
  | .float _ => true
  | _ => false

/-- The folder finds a value for the operator on two integers. -/
def BinaryOp.foldsInts : BinaryOp → Int64 → Int64 → Bool
  | .SLASH, x, y | .PERCENT, x, y => !divIsUB x y
  | .LSHIFT, _, y | .RSHIFT, _, y => 0 ≤ y ∧ y < 64
  | .STAR_STAR, _, _ | .IN, _, _ => false
  | _, _, _ => true

/-- The folder finds a value for the operator on two numbers that are not both integers. -/
def BinaryOp.foldsDoubles : BinaryOp → UInt64 → Bool
  | .SLASH, y => !doubleEq y 0
  | .PLUS, _ | .MINUS, _ | .STAR, _ | .LESS, _ | .LESS_EQUAL, _ | .GREATER, _
  | .GREATER_EQUAL, _ => true
  | _, _ => false

/-- The folder finds a value for the operator. -/
def BinaryOp.folds (op : BinaryOp) (a b : Scalar) : Bool :=
  match op, a, b with
  | .EQUAL_EQUAL, _, _ | .BANG_EQUAL, _, _ => true
  | .PLUS, .string _, _ | .PLUS, _, .string _ => true
  | .STAR, .string _, .int count => count ≤ 50000
  | .LESS, .string _, .string _ | .LESS_EQUAL, .string _, .string _
  | .GREATER, .string _, .string _ | .GREATER_EQUAL, .string _, .string _ => true
  | op, .int x, .int y => op.foldsInts x y
  | op, a, b => a.isNumber && b.isNumber && op.foldsDoubles (b.asFloat fpu)

/-- The operands on which the folder agrees with the instruction. -/
def BinaryOp.Careful (op : BinaryOp) (a b : Scalar) : Prop :=
  match op, a, b with
  | .EQUAL_EQUAL, _, _ | .BANG_EQUAL, _, _ => True
  | .PLUS, .string x, .string y => x.length + y.length ≤ kMaxStringBytes
  | .PLUS, .string _, b => b.RendersAlike fpu
  | .PLUS, a, .string _ => a.RendersAlike fpu
  | .STAR, .string s, .int count =>
      0 ≤ count ∧ (count ≤ 50000 → s.length * count.toInt.toNat ≤ kMaxRepeatBytes)
  | _, a, b => a.isFloat ∨ b.isFloat → a.isNumber ∧ b.isNumber

def UnaryOp.folds : UnaryOp → Scalar → Bool
  | .MINUS, a => a.isNumber
  | .NOT, _ | .BANG, _ => true
  | .TILDE, .int _ => true
  | .TILDE, _ => false

def UnaryOp.Careful : UnaryOp → Scalar → Prop
  | .NOT, a | .BANG, a => a.isZeroOrEmpty = false
  | _, _ => True

@[simp] theorem Constant.isDouble_constant (v : Scalar) :
    BytecodeCompiler.Constant.isDouble v.constant = v.isFloat := by
  cases v <;> rfl

namespace BytecodeCompiler

/-! ### One operator -/

/-- The folder agrees with an instruction that yields `computed` where `expected` says it folds. -/
def Agrees (folded : Except Thrown (Option Constant)) (expected : Bool)
    (computed : Except Fault Scalar) : Prop :=
  if expected then ∃ v, computed = .ok v ∧ folded = .ok (some v.constant) else folded = .ok none

/-- The folder goes wrong: it throws, or folds to what the instruction does not yield. -/
def Differs (folded : Except Thrown (Option Constant)) (computed : Except Fault Scalar) : Prop :=
  folded = .error .badVariantAccess ∨ ∃ c, folded = .ok (some c) ∧ computed ≠ .ok c.resolved

/-- An operator is settled on its operands: it agrees where it is careful and differs elsewhere. -/
def Settled (careful : Prop) (folded : Except Thrown (Option Constant)) (expected : Bool)
    (computed : Except Fault Scalar) : Prop :=
  (careful ∧ Agrees folded expected computed) ∨ (¬careful ∧ Differs folded computed)

/-- A signed shift to the left by less than the width, done on the unsigned representation. -/
theorem shiftLeft_eq {x y : Int64} (hle : 0 ≤ y) (hlt : y < 64) :
    x <<< y = (x.toUInt64 <<< y.toUInt64).toInt64 := by
  have h0 : 0 ≤ y.toBitVec.toInt := by simpa using Int64.le_iff_toInt_le.mp hle
  have h64 : y.toBitVec.toInt < 64 := by simpa using Int64.lt_iff_toInt_lt.mp hlt
  have hnat : y.toBitVec.toNat < 64 := by
    rw [BitVec.toInt_eq_toNat_cond] at h0 h64
    split at h0 <;> omega
  have hsigned : y.toBitVec.smod 64#64 = y.toBitVec := by
    apply BitVec.eq_of_toInt_eq
    rw [BitVec.toInt_smod]
    exact Int.fmod_eq_of_lt h0 h64
  have hunsigned : y.toBitVec % 64#64 = y.toBitVec := by
    apply BitVec.eq_of_toNat_eq
    rw [BitVec.toNat_umod]
    exact Nat.mod_eq_of_lt hnat
  apply Int64.toBitVec_inj.mp
  rw [Int64.toBitVec_shiftLeft]
  simp [hsigned, hunsigned]

theorem shift_inRange {y : Int64} : (y < 0 ∨ 63 < y) ↔ ¬(0 ≤ y ∧ y < 64) := by
  rw [Int64.lt_iff_toInt_lt, Int64.lt_iff_toInt_lt, Int64.le_iff_toInt_le, Int64.lt_iff_toInt_lt]
  have h0 : (0 : Int64).toInt = 0 := rfl
  have h63 : (63 : Int64).toInt = 63 := rfl
  have h64 : (64 : Int64).toInt = 64 := rfl
  omega

theorem shift_int (onInt : Int64 → Int64 → Int64) (message : String) (x : Int64) {y : Int64}
    (hin : 0 ≤ y ∧ y < 64) :
    shift fpu onInt message (.int x) (.int y) = .ok (.int (onInt x y)) := by
  have hout : ¬((Scalar.int y).asInteger fpu < 0 ∨ 63 < (Scalar.int y).asInteger fpu) :=
    fun h => shift_inRange.mp h hin
  rw [shift, if_pos ⟨rfl, rfl⟩, if_neg hout]
  rfl

theorem foldInts_agrees (op : BinaryOp) (x y : Int64)
    (heq : op ≠ .EQUAL_EQUAL) (hne : op ≠ .BANG_EQUAL) :
    Agrees (.ok (foldInts fpu op x y)) (op.foldsInts x y)
      (Operator.binary fpu op (.int x) (.int y)) := by
  have hzero : divIsUB x y = false → (y == 0) = false := by
    intro h
    rw [divIsUB, Bool.or_eq_false_iff] at h
    exact h.1
  cases op with
  | EQUAL_EQUAL => exact absurd rfl heq
  | BANG_EQUAL => exact absurd rfl hne
  | SLASH =>
      cases hub : divIsUB x y with
      | true => simp [Agrees, BinaryOp.foldsInts, foldInts, hub]
      | false =>
          by_cases hex : (x % y == 0) = true
          · simp [Agrees, BinaryOp.foldsInts, foldInts, hub, Operator.binary, DIV, hzero hub,
              quotient, divIsExact, hex, Scalar.constant]
          · simp [Agrees, BinaryOp.foldsInts, foldInts, hub, Operator.binary, DIV, hzero hub,
              quotient, divIsExact, hex, Scalar.constant]
  | PERCENT =>
      cases hub : divIsUB x y with
      | true => simp [Agrees, BinaryOp.foldsInts, foldInts, hub]
      | false =>
          simp [Agrees, BinaryOp.foldsInts, foldInts, hub, Operator.binary, MOD, hzero hub,
            remainder, Scalar.constant]
  | LSHIFT =>
      by_cases hin : 0 ≤ y ∧ y < 64
      · simp [Agrees, BinaryOp.foldsInts, foldInts, hin, Operator.binary, doShiftLeft,
          shift_int fpu _ _ x hin, shiftLeft_eq hin.1 hin.2, Scalar.constant]
      · simp [Agrees, BinaryOp.foldsInts, foldInts, hin]
  | RSHIFT =>
      by_cases hin : 0 ≤ y ∧ y < 64
      · simp [Agrees, BinaryOp.foldsInts, foldInts, hin, Operator.binary, doShiftRight,
          shift_int fpu _ _ x hin, Scalar.constant]
      · simp [Agrees, BinaryOp.foldsInts, foldInts, hin]
  | STAR_STAR | IN => rfl
  | PLUS | MINUS | STAR | AMPERSAND | PIPE | CARET | LESS | LESS_EQUAL | GREATER
  | GREATER_EQUAL => exact ⟨_, rfl, rfl⟩

/-- The operator on two numbers, one of them a double at least. -/
theorem foldDoubles_agrees (op : BinaryOp) {a b : Scalar} (ha : a.isNumber = true)
    (hb : b.isNumber = true) (hfloat : a.isFloat = true ∨ b.isFloat = true)
    (heq : op ≠ .EQUAL_EQUAL) (hne : op ≠ .BANG_EQUAL) :
    Agrees (.ok (foldDoubles fpu op (a.asFloat fpu) (b.asFloat fpu)))
      (op.foldsDoubles (b.asFloat fpu)) (Operator.binary fpu op a b) := by
  have hnumeric : ∀ onInt onFloat otherwise,
      numeric fpu onInt onFloat otherwise a b = .ok (onFloat (a.asFloat fpu) (b.asFloat fpu)) := by
    intro onInt onFloat otherwise
    cases a <;> cases b <;> simp_all [numeric, Scalar.isNumber, Scalar.isFloat]
  have hdiv : doubleEq (b.asFloat fpu) 0 = false →
      DIV fpu a b = .ok (.float (fpu.div (a.asFloat fpu) (b.asFloat fpu))) := by
    intro h
    cases a <;> cases b <;> simp_all [DIV, Scalar.isNumber, Scalar.isFloat]
  cases op with
  | EQUAL_EQUAL => exact absurd rfl heq
  | BANG_EQUAL => exact absurd rfl hne
  | SLASH =>
      cases hzero : doubleEq (b.asFloat fpu) 0 with
      | true => simp [Agrees, BinaryOp.foldsDoubles, foldDoubles, hzero]
      | false =>
          simp [Agrees, BinaryOp.foldsDoubles, foldDoubles, hzero, Operator.binary, hdiv hzero,
            Scalar.constant]
  | STAR_STAR | IN | PERCENT | AMPERSAND | PIPE | CARET | LSHIFT | RSHIFT => rfl
  | PLUS | MINUS | STAR | LESS | LESS_EQUAL | GREATER | GREATER_EQUAL =>
      simp only [Agrees, BinaryOp.foldsDoubles, Operator.binary, ADD, SUB, MUL, LESS, LESS_EQ,
        GREATER, GREATER_EQ, hnumeric, if_true]
      exact ⟨_, rfl, rfl⟩

theorem foldNumbers_numbers (op : BinaryOp) {a b : Scalar} (ha : a.isNumber = true)
    (hb : b.isNumber = true) (hfloat : a.isFloat = true ∨ b.isFloat = true) :
    foldNumbers fpu op a.constant b.constant =
      .ok (foldDoubles fpu op (a.asFloat fpu) (b.asFloat fpu)) := by
  cases a <;> cases b <;>
    simp_all [foldNumbers, Scalar.isNumber, Scalar.isFloat, Scalar.constant, Constant.isDouble,
      getDouble, Scalar.asFloat, bind, Except.bind, pure, Except.pure]

/-- Where an operand is no number, the numbers throw if the other is a double. -/
theorem foldNumbers_other (op : BinaryOp) {a b : Scalar}
    (hother : ¬(a.isNumber = true ∧ b.isNumber = true)) :
    foldNumbers fpu op a.constant b.constant =
      if a.isFloat = true ∨ b.isFloat = true then .error .badVariantAccess else .ok none := by
  cases a <;> cases b <;>
    simp_all [foldNumbers, Scalar.isNumber, Scalar.isFloat, Scalar.constant, Constant.isDouble,
      getDouble, bind, Except.bind, pure, Except.pure]

theorem settled_ints (op : BinaryOp) (x y : Int64) (heq : op ≠ .EQUAL_EQUAL)
    (hne : op ≠ .BANG_EQUAL) :
    Settled (op.Careful fpu (.int x) (.int y)) (foldBinary fpu op (.int x) (.int y))
      (op.folds fpu (.int x) (.int y)) (Operator.binary fpu op (.int x) (.int y)) := by
  have hagrees := foldInts_agrees fpu op x y heq hne
  refine Or.inl ⟨?_, ?_⟩
  · cases op <;> simp [BinaryOp.Careful, Scalar.isFloat]
  · cases op with
    | EQUAL_EQUAL => exact absurd rfl heq
    | BANG_EQUAL => exact absurd rfl hne
    | _ => exact hagrees

theorem settled_doubles (op : BinaryOp) {a b : Scalar} (ha : a.isNumber = true)
    (hb : b.isNumber = true) (hfloat : a.isFloat = true ∨ b.isFloat = true)
    (heq : op ≠ .EQUAL_EQUAL) (hne : op ≠ .BANG_EQUAL) :
    Settled (op.Careful fpu a b) (foldBinary fpu op a.constant b.constant) (op.folds fpu a b)
      (Operator.binary fpu op a b) := by
  have hagrees := foldDoubles_agrees fpu op ha hb hfloat heq hne
  have hfold : foldBinary fpu op a.constant b.constant =
      .ok (foldDoubles fpu op (a.asFloat fpu) (b.asFloat fpu)) := by
    rw [← foldNumbers_numbers fpu op ha hb hfloat]
    cases a <;> cases b <;> cases op <;> first | rfl | simp_all [Scalar.isNumber]
  have hexpected : op.folds fpu a b = op.foldsDoubles (b.asFloat fpu) := by
    cases a <;> cases b <;> cases op <;>
      simp_all [BinaryOp.folds, BinaryOp.foldsDoubles, Scalar.isNumber, Scalar.isFloat]
  have hcareful : op.Careful fpu a b := by
    cases a <;> cases b <;> cases op <;>
      simp_all [BinaryOp.Careful, Scalar.isNumber, Scalar.isFloat]
  rw [hfold, hexpected]
  exact Or.inl ⟨hcareful, hagrees⟩

/-- The operators the folder has no case of its own for on these operands. -/
theorem settled_mixed (op : BinaryOp) {a b : Scalar} (heq : op ≠ .EQUAL_EQUAL)
    (hne : op ≠ .BANG_EQUAL) (hother : ¬(a.isNumber = true ∧ b.isNumber = true))
    (hstrings : foldStrings fpu op a.constant b.constant = none)
    (hcareful : op.Careful fpu a b ↔
      (a.isFloat = true ∨ b.isFloat = true → a.isNumber = true ∧ b.isNumber = true))
    (hexpected : op.folds fpu a b = false) :
    Settled (op.Careful fpu a b) (foldBinary fpu op a.constant b.constant) (op.folds fpu a b)
      (Operator.binary fpu op a b) := by
  have hfold : foldBinary fpu op a.constant b.constant =
      foldNumbers fpu op a.constant b.constant := by
    cases op with
    | EQUAL_EQUAL => exact absurd rfl heq
    | BANG_EQUAL => exact absurd rfl hne
    | _ => simp only [foldBinary, hstrings]
  rw [hfold, foldNumbers_other fpu op hother, hexpected]
  by_cases hfloat : a.isFloat = true ∨ b.isFloat = true
  · refine Or.inr ⟨fun h => hother (hcareful.mp h hfloat), Or.inl ?_⟩
    rw [if_pos hfloat]
  · refine Or.inl ⟨hcareful.mpr fun h => absurd h hfloat, ?_⟩
    rw [if_neg hfloat]
    rfl

theorem constantToString_iff (v : Scalar) :
    constantToString fpu v.constant = v.text fpu ↔ v.RendersAlike fpu := by
  cases v <;> simp [constantToString, Scalar.text, Scalar.constant, Scalar.RendersAlike]

theorem settled_concat (x y : CString) :
    Settled (BinaryOp.PLUS.Careful fpu (.string x) (.string y))
      (foldBinary fpu .PLUS (.string x) (.string y)) (BinaryOp.PLUS.folds fpu (.string x) (.string y))
      (Operator.binary fpu .PLUS (.string x) (.string y)) := by
  have hcomputed : Operator.binary fpu .PLUS (.string x) (.string y) =
      if kMaxStringBytes < y.length ∨ kMaxStringBytes - y.length < x.length then
        raise "String concatenation result too large"
      else .ok (.string (x ++ y)) := rfl
  by_cases hfits : x.length + y.length ≤ kMaxStringBytes
  · refine Or.inl ⟨hfits, .string (x ++ y), ?_, rfl⟩
    rw [hcomputed, if_neg (by omega)]
  · refine Or.inr ⟨hfits, Or.inr ⟨.string (x ++ y), rfl, ?_⟩⟩
    rw [hcomputed, if_pos (by omega)]
    exact fun h => nomatch h

/-- A string and another value, on either side. -/
theorem settled_append {s : CString} {a b other : Scalar} (hother : other.isString = false)
    (hsides : (a = .string s ∧ other = b) ∨ (other = a ∧ b = .string s)) :
    Settled (BinaryOp.PLUS.Careful fpu a b) (foldBinary fpu .PLUS a.constant b.constant)
      (BinaryOp.PLUS.folds fpu a b) (Operator.binary fpu .PLUS a b) := by
  have hiff := constantToString_iff fpu other
  have hcareful : BinaryOp.PLUS.Careful fpu a b ↔ other.RendersAlike fpu := by
    obtain ⟨rfl, rfl⟩ | ⟨rfl, rfl⟩ := hsides <;> cases other <;> first | exact Iff.rfl | cases hother
  have hexpected : BinaryOp.PLUS.folds fpu a b = true := by
    obtain ⟨rfl, rfl⟩ | ⟨rfl, rfl⟩ := hsides <;> cases other <;> rfl
  have hfold : foldBinary fpu .PLUS a.constant b.constant =
      .ok (some (.string (constantToString fpu a.constant ++ constantToString fpu b.constant))) := by
    obtain ⟨rfl, rfl⟩ | ⟨rfl, rfl⟩ := hsides <;> cases other <;> rfl
  have hcomputed : Operator.binary fpu .PLUS a b =
      .ok (.string (a.text fpu ++ b.text fpu)) := by
    obtain ⟨rfl, rfl⟩ | ⟨rfl, rfl⟩ := hsides <;> cases other <;> first | rfl | cases hother
  rw [hfold, hexpected, hcomputed]
  by_cases halike : other.RendersAlike fpu
  · refine Or.inl ⟨hcareful.mpr halike, _, rfl, ?_⟩
    have htext := hiff.mpr halike
    obtain ⟨rfl, rfl⟩ | ⟨rfl, rfl⟩ := hsides <;> rw [htext] <;> rfl
  · refine Or.inr ⟨fun h => halike (hcareful.mp h), Or.inr ⟨_, rfl, fun h => halike (hiff.mp ?_)⟩⟩
    have htext := Scalar.string.inj (Except.ok.inj h)
    obtain ⟨rfl, rfl⟩ | ⟨rfl, rfl⟩ := hsides
    · exact (List.append_cancel_left htext).symm
    · exact (List.append_cancel_right htext).symm

theorem repeatTooLarge_iff (unit count : Nat) :
    0 < unit ∧ kMaxRepeatBytes / unit < count ↔ kMaxRepeatBytes < unit * count := by
  constructor
  · rintro ⟨hunit, hlt⟩
    rwa [Nat.div_lt_iff_lt_mul hunit, Nat.mul_comm] at hlt
  · intro hlt
    have hunit : 0 < unit := by
      by_contra hzero
      rw [Nat.eq_zero_of_not_pos hzero, Nat.zero_mul] at hlt
      exact absurd hlt (Nat.not_lt_zero _)
    refine ⟨hunit, ?_⟩
    rwa [Nat.div_lt_iff_lt_mul hunit, Nat.mul_comm]

theorem settled_repeat (s : CString) (count : Int64) :
    Settled (BinaryOp.STAR.Careful fpu (.string s) (.int count))
      (foldBinary fpu .STAR (.string s) (.int count))
      (BinaryOp.STAR.folds fpu (.string s) (.int count))
      (Operator.binary fpu .STAR (.string s) (.int count)) := by
  have hcomputed : Operator.binary fpu .STAR (.string s) (.int count) =
      if count < 0 then raise "String repeat count must not be negative"
      else if 0 < s.length ∧ kMaxRepeatBytes / s.length < count.toInt.toNat then
        raise "String repeat result too large"
      else .ok (.string (repeated s count.toInt.toNat)) := rfl
  have hexpected : BinaryOp.STAR.folds fpu (.string s) (.int count) = decide (count ≤ 50000) := rfl
  have hfold : foldBinary fpu .STAR (.string s) (.int count) =
      if count ≤ 50000 then .ok (some (.string (repeated s count.toInt.toNat))) else .ok none := by
    have hstrings : foldStrings fpu .STAR (.string s) (.int count) =
        if count ≤ 0 then some (.string [])
        else if count ≤ 50000 then some (.string (repeated s count.toInt.toNat))
        else none := rfl
    by_cases hnone : count ≤ 0
    · have hnat : count.toInt.toNat = 0 := by
        have hle := Int64.le_iff_toInt_le.mp hnone
        rw [Int64.toInt_zero] at hle
        omega
      rw [foldBinary, hstrings, if_pos hnone, if_pos (Int64.le_trans hnone (by decide)), hnat]
      · rfl
      · exact fun h => nomatch h
      · exact fun h => nomatch h
    · rw [foldBinary, hstrings, if_neg hnone]
      · by_cases hcount : count ≤ 50000
        · rw [if_pos hcount, if_pos hcount]
        · rw [if_neg hcount, if_neg hcount]
          rfl
      · exact fun h => nomatch h
      · exact fun h => nomatch h
  rw [hexpected, hfold, hcomputed]
  by_cases hneg : count < 0
  · refine Or.inr ⟨fun h => absurd h.1 (by simpa using hneg), Or.inr ⟨_, if_pos ?_, ?_⟩⟩
    · exact Int64.le_trans (Int64.le_of_lt hneg) (by decide)
    · rw [if_pos hneg]
      exact fun h => nomatch h
  · rw [if_neg hneg]
    by_cases hcount : count ≤ 50000
    · by_cases hlarge : 0 < s.length ∧ kMaxRepeatBytes / s.length < count.toInt.toNat
      · have hover := (repeatTooLarge_iff s.length count.toInt.toNat).mp hlarge
        refine Or.inr ⟨fun h => absurd (h.2 hcount) (Nat.not_le.mpr hover), Or.inr ⟨_, if_pos hcount, ?_⟩⟩
        rw [if_pos hlarge]
        exact fun h => nomatch h
      · refine Or.inl ⟨⟨by simpa using hneg, fun _ => ?_⟩, ?_⟩
        · have hfits := mt (repeatTooLarge_iff s.length count.toInt.toNat).mpr hlarge
          exact Nat.not_lt.mp hfits
        · rw [Agrees, if_pos (decide_eq_true hcount), if_neg hlarge, if_pos hcount]
          exact ⟨_, rfl, rfl⟩
    · refine Or.inl ⟨⟨by simpa using hneg, fun h => absurd h hcount⟩, ?_⟩
      rw [Agrees, decide_eq_false hcount, if_neg hcount]
      rfl

/-- The comparisons of two strings. -/
theorem settled_strings (op : BinaryOp) (x y : CString) (heq : op ≠ .EQUAL_EQUAL)
    (hne : op ≠ .BANG_EQUAL) :
    Settled (op.Careful fpu (.string x) (.string y)) (foldBinary fpu op (.string x) (.string y))
      (op.folds fpu (.string x) (.string y))
      (Operator.binary fpu op (.string x) (.string y)) := by
  cases op with
  | EQUAL_EQUAL => exact absurd rfl heq
  | BANG_EQUAL => exact absurd rfl hne
  | PLUS => exact settled_concat fpu x y
  | LESS | LESS_EQUAL | GREATER | GREATER_EQUAL =>
      refine Or.inl ⟨?_, _, rfl, rfl⟩
      simp [BinaryOp.Careful, Scalar.isFloat]
  | MINUS | STAR | STAR_STAR | SLASH | PERCENT | AMPERSAND | PIPE | CARET | LSHIFT | RSHIFT | IN =>
      exact settled_mixed fpu _ heq hne (fun h => nomatch h.1) rfl Iff.rfl rfl

theorem constantEquals_eq (a b : Scalar) :
    constantEquals fpu a.constant b.constant = same fpu a b := by
  cases a <;> cases b <;> rfl

/-- Every operator is settled on all operands. -/
theorem foldBinary_settled (op : BinaryOp) (a b : Scalar) :
    Settled (op.Careful fpu a b) (foldBinary fpu op a.constant b.constant) (op.folds fpu a b)
      (Operator.binary fpu op a b) := by
  by_cases heq : op = .EQUAL_EQUAL
  · rw [heq]
    refine Or.inl ⟨trivial, _, rfl, ?_⟩
    rw [← constantEquals_eq]
    rfl
  by_cases hne : op = .BANG_EQUAL
  · rw [hne]
    refine Or.inl ⟨trivial, _, rfl, ?_⟩
    rw [← constantEquals_eq]
    rfl
  by_cases hnumbers : a.isNumber = true ∧ b.isNumber = true
  · by_cases hfloat : a.isFloat = true ∨ b.isFloat = true
    · exact settled_doubles fpu op hnumbers.1 hnumbers.2 hfloat heq hne
    · cases a <;> cases b <;> simp_all [Scalar.isNumber, Scalar.isFloat]
      exact settled_ints fpu op _ _ heq hne
  cases a with
  | string x =>
      cases b with
      | string y => exact settled_strings fpu op x y heq hne
      | int count =>
          cases op with
          | PLUS =>
              exact settled_append fpu (s := x) (rfl : (Scalar.int count).isString = false)
                (Or.inl ⟨rfl, rfl⟩)
          | STAR => exact settled_repeat fpu x count
          | EQUAL_EQUAL => exact absurd rfl heq
          | BANG_EQUAL => exact absurd rfl hne
          | _ => exact settled_mixed fpu _ heq hne hnumbers rfl Iff.rfl rfl
      | nil | bool y | float y =>
          cases op with
          | PLUS => exact settled_append fpu (s := x) rfl (Or.inl ⟨rfl, rfl⟩)
          | EQUAL_EQUAL => exact absurd rfl heq
          | BANG_EQUAL => exact absurd rfl hne
          | _ => exact settled_mixed fpu _ heq hne hnumbers rfl Iff.rfl rfl
  | nil | bool x | int x | float x =>
      cases b with
      | string y =>
          cases op with
          | PLUS => exact settled_append fpu (s := y) rfl (Or.inr ⟨rfl, rfl⟩)
          | EQUAL_EQUAL => exact absurd rfl heq
          | BANG_EQUAL => exact absurd rfl hne
          | _ => exact settled_mixed fpu _ heq hne hnumbers rfl Iff.rfl rfl
      | nil | bool y | int y | float y =>
          cases op <;> first
            | exact absurd rfl heq
            | exact absurd rfl hne
            | exact absurd ⟨rfl, rfl⟩ hnumbers
            | exact settled_mixed fpu _ heq hne hnumbers rfl Iff.rfl rfl

theorem isConstantTruthy_constant (v : Scalar) :
    isConstantTruthy v.constant = (v.isTruthy && !v.isZeroOrEmpty) := by
  cases v <;> simp [isConstantTruthy, Scalar.constant, Scalar.isTruthy, Scalar.isZeroOrEmpty, bne]

theorem settled_not (v : Scalar) :
    Settled (v.isZeroOrEmpty = false) (.ok (some (.bool (!isConstantTruthy v.constant)))) true
      (.ok (.bool (!v.isTruthy))) := by
  rw [isConstantTruthy_constant]
  cases hzero : v.isZeroOrEmpty with
  | false =>
      refine Or.inl ⟨rfl, Scalar.bool (!v.isTruthy), rfl, ?_⟩
      rw [Bool.not_false, Bool.and_true]
      rfl
  | true =>
      have htruthy : v.isTruthy = true := by
        cases v with
        | nil | bool b => cases hzero
        | int i | float d | string s => rfl
      refine Or.inr ⟨Bool.noConfusion, Or.inr ⟨_, rfl, ?_⟩⟩
      simp [htruthy, Constant.resolved]

theorem foldUnary_settled (op : UnaryOp) (v : Scalar) :
    Settled (op.Careful v) (.ok (foldUnary op v.constant)) (op.folds v)
      (Operator.unary fpu op v) := by
  cases op with
  | NOT => exact settled_not v
  | BANG => exact settled_not v
  | MINUS =>
      cases v with
      | int i | float d => exact Or.inl ⟨trivial, _, rfl, rfl⟩
      | nil | bool b | string s => exact Or.inl ⟨trivial, rfl⟩
  | TILDE =>
      cases v with
      | int i => exact Or.inl ⟨trivial, _, rfl, rfl⟩
      | nil | bool b | float d | string s => exact Or.inl ⟨trivial, rfl⟩

end BytecodeCompiler

end EZLanguage
