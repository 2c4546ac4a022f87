import Mathlib.Algebra.GroupWithZero.Nat
import Mathlib.Algebra.Group.Int.Defs
import EZLanguage.Compiler.FoldingTruth
import EZLanguage.Runtime.Utf8

/-!
# Folding of pure builtins

A call of `len`, `ord`, `chr` or `str` on a constant is folded when the name is no local variable, no
captured one and has no global slot. The name can still stand for something else when the call runs: a
static variable is found before all of these, and a task of the same name may be declared further down.
-/

namespace EZLanguage

open Operator

inductive PureBuiltin where
  | len | ord | chr | str
  deriving DecidableEq

/-- What the name of the builtin stands for when the call runs: the builtin, or something that answers
as it does. -/
inductive Callee where
  | native
  | other (answer : Scalar → Except Fault Scalar)

/-- A call of a pure builtin with one argument: what the compiler finds for the name, and what the name
stands for at run time. -/
structure BuiltinCall where
  builtin : PureBuiltin
  isLocal : Bool
  isUpvalue : Bool
  hasGlobalSlot : Bool
  callee : Callee

/-- The compiler finds nothing of the program's under the name. -/
def BuiltinCall.unbound (call : BuiltinCall) : Bool :=
  !call.isLocal && !call.isUpvalue && !call.hasGlobalSlot

/-- `double` keeps the code points apart and apart from what `chr` rejects. -/
structure FloatUnit.ExactOnCodePoints (fpu : FloatUnit) : Prop where
  toInt_ofInt : ∀ code : Int64, 0 ≤ code → code ≤ 1114111 → fpu.toInt (fpu.ofInt code) = code
  not_negative : ∀ code : Int64, 0 ≤ code → code ≤ 1114111 → doubleLt (fpu.ofInt code) 0 = false
  not_above : ∀ code : Int64, 0 ≤ code → code ≤ 1114111 →
    doubleLt (fpu.ofInt 1114111) (fpu.ofInt code) = false

namespace PureBuiltin

variable (fpu : FloatUnit)

def answerLen : Scalar → Except Fault Scalar
  | .nil => .ok (.int 0)
  | .string s => .ok (.int (Int64.ofNat (Utf8.lengthChars s)))
  | _ => raise "len() expects string or array"

def answerOrd : Scalar → Except Fault Scalar
  | .string s => .ok (.int (if s.isEmpty then 0 else (Utf8.decode s).toUInt64.toInt64))
  | _ => raise "ord() expects string"

def answerChr (v : Scalar) : Except Fault Scalar :=
  if v.isNumber then
    let raw := v.asFloat fpu
    if doubleLt raw 0 ∨ doubleLt (fpu.ofInt 1114111) raw then
      raise "chr() expects a code point between 0 and 1114111"
    else
      match Utf8.encode (fpu.toInt raw).toUInt64.toUInt32 with
      | some out => .ok (.string out)
      | none =>
          .error (.runtimeError (lit "chr() cannot encode code point " ++
            integerText (fpu.toInt raw) ++ lit " (surrogate halves are not characters)"))
  else raise "chr() expects a number"

/-- The builtins on scalars. -/
def answer : PureBuiltin → Scalar → Except Fault Scalar
  | len => answerLen
  | ord => answerOrd
  | chr => answerChr fpu
  | str => fun v => .ok (.string (v.text fpu))

end PureBuiltin

namespace BytecodeCompiler

variable (fpu : FloatUnit)

/-- The folding of the builtins on a constant argument. -/
def foldBuiltin : PureBuiltin → Constant → Option Constant
  | .len, .string s => some (.int (Int64.ofNat s.length))
  | .ord, .string s => some (.int (if s.isEmpty then 0 else (Utf8.decode s).toUInt64.toInt64))
  | .chr, .int code =>
      if 0 ≤ code ∧ code ≤ 1114111 then
        (Utf8.encode code.toUInt64.toUInt32).map fun out => .string out
      else none
  | .str, c => some (.string (constantToString fpu c))
  | _, _ => none

/-- The folding of a pure builtin in `compileCall`. -/
def foldCall (call : BuiltinCall) (arg : ClosedExpr) : Except Thrown (Option Constant) :=
  if call.unbound then
    match isConstant fpu arg with
    | .ok (some c) => .ok (foldBuiltin fpu call.builtin c)
    | notFolded => notFolded
  else .ok none

/-- What the unfolded call ends with: its argument is computed, then what the name stands for answers. -/
def runCall (call : BuiltinCall) (arg : ClosedExpr) : Except Fault Scalar :=
  match ScalarInstr.run fpu arg.unfolded [] with
  | .ok (v :: _) =>
      match call.callee with
      | .native => call.builtin.answer fpu v
      | .other answer => answer v
  | .ok [] => .error .undefined
  | .error fault => .error fault

/-- The folder neither throws on the call nor folds it to anything but what the unfolded call yields. -/
def CallFoldsTruly (call : BuiltinCall) (arg : ClosedExpr) : Prop :=
  match foldCall fpu call arg with
  | .error _ => False
  | .ok none => True
  | .ok (some c) => runCall fpu call arg = .ok c.resolved

/-- The arguments on which a folded call agrees with what the name stands for. A double that is
rendered needs the same text in both places, and a string whose length is taken as many characters as
bytes. -/
def CallCareful (callee : Callee) (builtin : PureBuiltin) (v : Scalar) : Prop :=
  match callee, builtin, v with
  | .native, .len, .string s => Int64.ofNat (Utf8.lengthChars s) = Int64.ofNat s.length
  | .native, .str, v => v.RendersAlike fpu
  | .native, _, _ => True
  | .other answer, .len, .string s => answer (.string s) = .ok (.int (Int64.ofNat s.length))
  | .other answer, .ord, .string s =>
      answer (.string s) = .ok (.int (if s.isEmpty then 0 else (Utf8.decode s).toUInt64.toInt64))
  | .other answer, .chr, .int code =>
      0 ≤ code → code ≤ 1114111 → ∀ out, Utf8.encode code.toUInt64.toUInt32 = some out →
        answer (.int code) = .ok (.string out)
  | .other answer, .str, v => answer v = .ok (.string (constantToString fpu v.constant))
  | .other _, _, _ => True

theorem singleBytes_iff {s : CString} (hshort : s.length < 2 ^ 63) :
    Int64.ofNat (Utf8.lengthChars s) = Int64.ofNat s.length ↔ Utf8.SingleBytes s := by
  rw [← Utf8.lengthChars_eq_length_iff]
  have hle := Utf8.lengthChars_le s
  constructor
  · intro h
    have htoInt := congrArg Int64.toInt h
    rw [Int64.toInt_ofNat_of_lt (by omega), Int64.toInt_ofNat_of_lt hshort] at htoInt
    omega
  · intro h
    rw [h]

/-- `chr` on an integer encodes it where the folder does. -/
theorem answerChr_int (hexact : fpu.ExactOnCodePoints) {code : Int64} (hle : 0 ≤ code)
    (hmax : code ≤ 1114111) {out : CString}
    (hout : Utf8.encode code.toUInt64.toUInt32 = some out) :
    PureBuiltin.answerChr fpu (.int code) = .ok (.string out) := by
  have hrange : ¬(doubleLt (fpu.ofInt code) 0 = true ∨
      doubleLt (fpu.ofInt 1114111) (fpu.ofInt code) = true) := by
    rw [hexact.not_negative code hle hmax, hexact.not_above code hle hmax]
    simp
  have hnumber : (Scalar.int code).isNumber = true := rfl
  rw [PureBuiltin.answerChr, if_pos hnumber]
  dsimp only [Scalar.asFloat]
  rw [if_neg hrange, hexact.toInt_ofInt code hle hmax, hout]

/-- On a constant argument the folded builtin is what the name answers exactly on careful ones. -/
theorem foldBuiltin_iff (hexact : fpu.ExactOnCodePoints) (callee : Callee) (builtin : PureBuiltin)
    (v : Scalar) :
    (∀ c, foldBuiltin fpu builtin v.constant = some c →
      (match callee with
        | .native => builtin.answer fpu v
        | .other answer => answer v) = .ok c.resolved) ↔
      CallCareful fpu callee builtin v := by
  have hnone : ∀ {P : Constant → Prop}, (∀ c, none = some c → P c) ↔ True :=
    ⟨fun _ => trivial, fun _ _ h => nomatch h⟩
  have hsome : ∀ {P : Constant → Prop} {x : Constant}, (∀ c, some x = some c → P c) ↔ P x :=
    ⟨fun h => h _ rfl, fun h c hc => Option.some.inj hc ▸ h⟩
  cases builtin with
  | len =>
      cases v with
      | string s =>
          rw [Scalar.constant, foldBuiltin, hsome]
          cases callee with
          | native => simp [PureBuiltin.answer, PureBuiltin.answerLen, CallCareful, Constant.resolved]
          | other answer => exact Iff.rfl
      | nil | bool b | int i | float d => cases callee <;> exact hnone
  | ord =>
      cases v with
      | string s =>
          rw [Scalar.constant, foldBuiltin, hsome]
          cases callee with
          | native => simp [PureBuiltin.answer, PureBuiltin.answerOrd, CallCareful, Constant.resolved]
          | other answer => exact Iff.rfl
      | nil | bool b | int i | float d => cases callee <;> exact hnone
  | chr =>
      cases v with
      | int code =>
          rw [Scalar.constant, foldBuiltin]
          by_cases hrange : 0 ≤ code ∧ code ≤ 1114111
          · rw [if_pos hrange]
            cases hout : Utf8.encode code.toUInt64.toUInt32 with
            | none =>
                rw [Option.map_none, hnone]
                cases callee with
                | native => exact Iff.rfl
                | other answer => simp [CallCareful, hout]
            | some out =>
                rw [Option.map_some, hsome]
                cases callee with
                | native =>
                    refine ⟨fun _ => trivial, fun _ => ?_⟩
                    exact answerChr_int fpu hexact hrange.1 hrange.2 hout
                | other answer => simp [CallCareful, hout, hrange.1, hrange.2, Constant.resolved]
          · rw [if_neg hrange, hnone]
            cases callee with
            | native => exact Iff.rfl
            | other answer =>
                refine ⟨fun _ hle hmax => absurd ⟨hle, hmax⟩ hrange, fun _ => trivial⟩
      | nil | bool b | string s | float d => cases callee <;> exact hnone
  | str =>
      have hfold : foldBuiltin fpu .str v.constant =
          some (.string (constantToString fpu v.constant)) := by
        cases v <;> rfl
      rw [hfold, hsome]
      cases callee with
      | native =>
          have hcareful : CallCareful fpu .native .str v ↔ v.RendersAlike fpu := by
            cases v <;> exact Iff.rfl
          rw [hcareful, ← constantToString_iff]
          constructor
          · intro h
            exact (Scalar.string.inj (Except.ok.inj h)).symm
          · intro h
            rw [h]
            rfl
      | other answer => cases v <;> exact Iff.rfl

theorem runCall_value (call : BuiltinCall) (arg : ClosedExpr) :
    runCall fpu call arg =
      match arg.value fpu with
      | .ok v =>
          match call.callee with
          | .native => call.builtin.answer fpu v
          | .other answer => answer v
      | .error fault => .error fault := by
  rw [runCall, ClosedExpr.run_unfolded_alone]
  cases arg.value fpu <;> rfl

/-- An expression, its sub-expressions and the call of a pure builtin on it are folded to what their
code computes, or left alone, exactly when every operator of the expression that the folder comes to
has operands on which it agrees and, where the call is folded, its argument is one as well. -/
theorem literalFolding_iff (hexact : fpu.ExactOnCodePoints) (call : BuiltinCall)
    (arg : ClosedExpr) :
    ((∀ s ∈ arg.subexpressions, FoldsTruly fpu s) ∧ CallFoldsTruly fpu call arg) ↔
      arg.Careful fpu ∧ (call.unbound = true → arg.folds fpu = true →
        ∀ v, arg.value fpu = .ok v → CallCareful fpu call.callee call.builtin v) := by
  rw [subexpressions_foldTruly_iff]
  refine and_congr_right fun hcareful => ?_
  have hagrees := isConstant_of_careful fpu hcareful
  rw [CallFoldsTruly, foldCall, runCall_value]
  by_cases hunbound : call.unbound = true
  · rw [if_pos hunbound]
    rw [Agrees] at hagrees
    by_cases hfolds : arg.folds fpu = true
    · rw [if_pos hfolds] at hagrees
      obtain ⟨v, hvalue, hconstant⟩ := hagrees
      have hiff := foldBuiltin_iff fpu hexact call.callee call.builtin v
      rw [hconstant, hvalue]
      constructor
      · intro h _ _ w hw
        rw [← Except.ok.inj hw]
        refine hiff.mp fun c hc => ?_
        dsimp only at h
        rw [hc] at h
        exact h
      · intro h
        have hbuiltin := hiff.mpr (h hunbound hfolds v rfl)
        dsimp only
        cases hc : foldBuiltin fpu call.builtin v.constant with
        | none => trivial
        | some c => exact hbuiltin c hc
    · rw [if_neg hfolds] at hagrees
      rw [hagrees]
      exact ⟨fun _ _ h => absurd h hfolds, fun _ => trivial⟩
  · rw [if_neg hunbound]
    exact ⟨fun _ h => absurd h hunbound, fun _ => trivial⟩

theorem codePoint_toNat {code : Int64} (hle : 0 ≤ code) (hmax : code ≤ 1114111) :
    code.toUInt64.toNat ≤ 1114111 := by
  have h0 : 0 ≤ code.toInt := by simpa using Int64.le_iff_toInt_le.mp hle
  have h1 : code.toInt ≤ 1114111 := by simpa using Int64.le_iff_toInt_le.mp hmax
  have h2 : code.toInt = code.toBitVec.toInt := rfl
  have h3 : code.toUInt64.toNat = code.toBitVec.toNat := rfl
  rw [h2, BitVec.toInt_eq_toNat_cond] at h0 h1
  rw [h3]
  split at h0 <;> omega

theorem bare_exact : FloatUnit.bare.ExactOnCodePoints where
  toInt_ofInt code _ _ := by simp [FloatUnit.bare]
  not_negative code hle hmax := by
    have hnat := codePoint_toNat hle hmax
    have hrank : doubleRank code.toUInt64 = code.toUInt64.toNat := doubleRank_of_lt (by omega)
    have hzero : doubleRank 0 = 0 := rfl
    simp [doubleLt, FloatUnit.bare, hrank, hzero]
  not_above code hle hmax := by
    have hnat := codePoint_toNat hle hmax
    have hrank : doubleRank code.toUInt64 = code.toUInt64.toNat := doubleRank_of_lt (by omega)
    have htop : doubleRank (Int64.toUInt64 1114111) = 1114111 := rfl
    simp only [doubleLt, FloatUnit.bare, hrank, htop]
    have : ¬ ((1114111 : Int) < code.toUInt64.toNat) := by omega
    simp [this]

/-- `len("ab" * 2)`, with the builtin under its name. -/
def doubledLength : BuiltinCall :=
  { builtin := .len, isLocal := false, isUpvalue := false, hasGlobalSlot := false,
    callee := .native }

def doubled : ClosedExpr :=
  .binary (.literal (.string (lit "ab"))) .STAR (.literal (.int 2))

theorem doubledLength_foldsTruly :
    (∀ s ∈ doubled.subexpressions, FoldsTruly .bare s) ∧
      CallFoldsTruly .bare doubledLength doubled := by
  refine (literalFolding_iff .bare bare_exact doubledLength doubled).mpr
    ⟨⟨trivial, trivial, ?_⟩, ?_⟩
  · rintro a b - ha - hb
    cases ha
    cases hb
    exact ⟨by decide, fun _ => by decide⟩
  · rintro - - v hv
    cases hv
    exact (singleBytes_iff (s := lit "abab") (by decide)).mpr ⟨rfl, rfl, rfl, rfl, trivial⟩

/-- `"ab" * -1`. -/
def negativeRepeat : ClosedExpr :=
  .binary (.literal (.string (lit "ab"))) .STAR (.unary .MINUS (.literal (.int 1)))

/-- The folder makes `"ab" * -1` the empty string, and its code raises an error. -/
theorem negativeRepeat_not_foldsTruly : ¬∀ s ∈ negativeRepeat.subexpressions, FoldsTruly .bare s := by
  intro h
  have hrun := h _ negativeRepeat.self_mem_subexpressions
  cases hrun

end BytecodeCompiler

end EZLanguage
