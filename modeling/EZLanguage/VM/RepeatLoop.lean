import EZLanguage.Bytecode.Chunk
import Mathlib.Algebra.Order.Ring.Int
import Mathlib.Logic.Function.Iterate

/-!
# repeat loops

The three shapes of code `compileRepeat` emits, run on integer bounds. The counter is stepped at the top of
the loop, where `skip` goes too. The last step leads past the end, and with an end at the limit of the
64-bit range there is nothing past it.
-/

namespace EZLanguage

namespace RepeatLoop

/-! ### The code -/

/-- The loop variable and the hidden locals beside it. -/
inductive Var where
  | loopVar | endVar | stepVar

/-- The instructions of a loop, with the places they jump to. `BODY` is the compiled body. -/
inductive LoopInstr where
  | LOAD_LOCAL (v : Var) | STORE_LOCAL (v : Var) | POP
  | LOAD_ZERO | LOAD_ONE
  | ADD | EQUAL | GREATER | GREATER_EQ
  | INC_LOCAL (v : Var)
  | LOOP_LESS_EQ_LOCAL (loopSlot endSlot : Var) (exit : Nat)
  | JUMP (target : Nat) | JUMP_IF_FALSE (target : Nat) | LOOP (target : Nat)
  | THROW
  | BODY

/-- Without a step and with slots of one byte, without a step and with wide slots, with a step. -/
inductive Shape where
  | narrow | wide | stepped
  deriving DecidableEq

namespace Shape

def code : Shape → List LoopInstr
  | narrow =>
      [.JUMP 2,
       .INC_LOCAL .loopVar,
       .LOOP_LESS_EQ_LOCAL .loopVar .endVar 5,
       .BODY,
       .LOOP 1]
  | wide =>
      [.JUMP 6,
       .LOAD_LOCAL .loopVar, .LOAD_ONE, .ADD, .STORE_LOCAL .loopVar, .POP,
       .LOAD_LOCAL .endVar, .LOAD_LOCAL .loopVar, .GREATER_EQ, .JUMP_IF_FALSE 12,
       .BODY,
       .LOOP 1]
  | stepped =>
      [.LOAD_LOCAL .stepVar, .LOAD_ZERO, .EQUAL, .JUMP_IF_FALSE 5, .THROW,
       .JUMP 11,
       .LOAD_LOCAL .loopVar, .LOAD_LOCAL .stepVar, .ADD, .STORE_LOCAL .loopVar, .POP,
       .LOAD_LOCAL .stepVar, .LOAD_ZERO, .GREATER, .JUMP_IF_FALSE 19,
       .LOAD_LOCAL .endVar, .LOAD_LOCAL .loopVar, .GREATER_EQ, .JUMP 22,
       .LOAD_LOCAL .loopVar, .LOAD_LOCAL .endVar, .GREATER_EQ,
       .JUMP_IF_FALSE 25,
       .BODY,
       .LOOP 6]

/-- The start of the loop, where `skip` goes. -/
def incPoint : Shape → Nat
  | narrow | wide => 1
  | stepped => 6

/-- Behind the update of the counter. -/
def testPoint : Shape → Nat
  | narrow => 2
  | wide => 6
  | stepped => 11

/-- The body. -/
def bodyPoint : Shape → Nat
  | narrow => 3
  | wide => 10
  | stepped => 23

/-- The steps a shape is for. -/
def Admits : Shape → Int64 → Prop
  | narrow, s | wide, s => s = 1
  | stepped, s => s ≠ 0

end Shape

/-! ### Runs -/

/-- How an execution of the body ends. -/
inductive BodyEnd where
  | falls | skips | escapes
  deriving DecidableEq

inductive Operand where
  | int (i : Int64)
  | bool (b : Bool)

structure State where
  ip : Nat
  loopVar : Int64
  endVar : Int64
  stepVar : Int64
  ops : List Operand
  /-- The counter in the executions of the body so far. -/
  executed : List Int64

def State.get (s : State) : Var → Int64
  | .loopVar => s.loopVar
  | .endVar => s.endVar
  | .stepVar => s.stepVar

inductive Status where
  | running (s : State)
  | exited (executed : List Int64)
  | thrown
  /-- Signed overflow, or code that is none of a loop. -/
  | undefined

variable (shape : Shape) (ends : Nat → BodyEnd)

/-- The state behind an instruction that leaves these operands. -/
def State.next (s : State) (ops : List Operand) : Status := .running { s with ip := s.ip + 1, ops }

/-- An operator on the two operands on top. -/
def State.operator (s : State) (f : Int64 → Int64 → Operand) : Status :=
  match s.ops with
  | .int b :: .int a :: ops => s.next (f a b :: ops)
  | _ => .undefined

def State.goto (s : State) (target : Nat) : Status := .running { s with ip := target }

/-- One instruction. The body leaves the variables of the loop and the operands alone. -/
def exec (s : State) : LoopInstr → Status
  | .LOAD_LOCAL v => s.next (.int (s.get v) :: s.ops)
  | .STORE_LOCAL .loopVar =>
      match s.ops with
      | .int i :: ops => State.next { s with loopVar := i } (.int i :: ops)
      | _ => .undefined
  | .STORE_LOCAL _ => .undefined
  | .POP => s.next s.ops.tail
  | .LOAD_ZERO => s.next (.int 0 :: s.ops)
  | .LOAD_ONE => s.next (.int 1 :: s.ops)
  | .ADD => s.operator fun a b => .int (a + b)
  | .EQUAL => s.operator fun a b => .bool (a == b)
  | .GREATER => s.operator fun a b => .bool (b < a)
  | .GREATER_EQ => s.operator fun a b => .bool (b ≤ a)
  | .INC_LOCAL _ =>
      if s.loopVar = Int64.maxValue then .undefined
      else State.next { s with loopVar := s.loopVar + 1 } s.ops
  | .LOOP_LESS_EQ_LOCAL loopSlot endSlot exit =>
      if s.get endSlot < s.get loopSlot then s.goto exit else s.next s.ops
  | .JUMP target | .LOOP target => s.goto target
  | .JUMP_IF_FALSE target =>
      match s.ops with
      | .bool b :: ops => if b then s.next ops else State.goto { s with ops } target
      | _ => .undefined
  | .THROW => .thrown
  | .BODY =>
      let after := { s with executed := s.executed ++ [s.loopVar] }
      match ends s.executed.length with
      | .falls => after.next s.ops
      | .skips => after.goto shape.incPoint
      | .escapes => after.goto shape.code.length

/-- A step. The loop is left at the end of its code. -/
def step : Status → Status
  | .running s =>
      match shape.code[s.ip]? with
      | some i => exec shape ends s i
      | none => .exited s.executed
  | ended => ended

def run (n : Nat) (status : Status) : Status := (step shape ends)^[n] status

/-- The variables are set, the loop begins. -/
def start (a b s : Int64) : Status :=
  .running { ip := 0, loopVar := a, endVar := b, stepVar := s, ops := [], executed := [] }

/-! ### What a loop is for -/

/-- How often the body is to be executed: `max(0, floor((b - a) / s) + 1)`. -/
def rounds (a b s : Int64) : Nat := ((b.toInt - a.toInt).fdiv s.toInt + 1).toNat

/-- The counter in the executions from the `k`th on, of which there are so many, up to an escape. -/
def counted (a s : Int64) : (left k : Nat) → List Int64
  | 0, _ => []
  | left + 1, k =>
      Int64.ofInt (a.toInt + k * s.toInt) ::
        if ends k = .escapes then [] else counted a s left (k + 1)

/-- The value behind the last one is an integer of 64 bits. -/
def LastStepFits (a b s : Int64) : Prop :=
  Int64.minValue.toInt ≤ a.toInt + rounds a b s * s.toInt ∧
    a.toInt + rounds a b s * s.toInt ≤ Int64.maxValue.toInt

instance (a b s : Int64) : Decidable (LastStepFits a b s) :=
  inferInstanceAs (Decidable (_ ∧ _))

variable {shape}

theorem run_add (m n : Nat) (status : Status) :
    run shape ends (m + n) status = run shape ends m (run shape ends n status) :=
  Function.iterate_add_apply _ _ _ _

theorem run_one (status : Status) : run shape ends 1 status = step shape ends status := rfl

/-! ### The parts of the code -/

/-- The counter is not past the end. -/
def inRange (s : State) : Bool :=
  if 0 < s.stepVar then s.loopVar ≤ s.endVar else s.endVar ≤ s.loopVar

/-- From the start to the first test. -/
theorem run_start {a b s : Int64} (hs : shape.Admits s) : ∃ n, run shape ends n (start a b s) =
    .running { ip := shape.testPoint, loopVar := a, endVar := b, stepVar := s, ops := [],
               executed := [] } := by
  cases shape with
  | narrow => exact ⟨1, rfl⟩
  | wide => exact ⟨1, rfl⟩
  | stepped =>
      refine ⟨5, ?_⟩
      have hzero : (s == 0) = false := beq_eq_false_iff_ne.2 hs
      simp [run, start, step, Shape.code, exec, State.next, State.operator, State.get, State.goto,
        hzero, Shape.testPoint]

/-- The test: on to the body, or out of the loop. -/
theorem run_test {s : State} (hshape : shape.Admits s.stepVar) (hip : s.ip = shape.testPoint)
    (hops : s.ops = []) : ∃ n, run shape ends n (.running s) =
      if inRange s then .running { s with ip := shape.bodyPoint }
      else .running { s with ip := shape.code.length } := by
  obtain ⟨ip, i, b, step', ops, executed⟩ := s
  dsimp only at hip hops hshape
  subst hip hops
  cases shape with
  | narrow =>
      obtain rfl : step' = 1 := hshape
      refine ⟨1, ?_⟩
      have hpos : (0 : Int64) < 1 := by decide
      by_cases hle : i ≤ b
      · have hlt : ¬b < i := Int64.not_lt.2 hle
        simp [run, step, Shape.code, Shape.testPoint, exec, State.get, hlt, inRange, hpos, hle,
          State.next, Shape.bodyPoint]
      · have hlt : b < i := Int64.not_le.1 hle
        simp [run, step, Shape.code, Shape.testPoint, exec, State.get, hlt, inRange, hpos, hle,
          State.goto]
  | wide =>
      obtain rfl : step' = 1 := hshape
      refine ⟨4, ?_⟩
      have hpos : (0 : Int64) < 1 := by decide
      by_cases hle : i ≤ b <;>
        simp [run, step, Shape.code, Shape.testPoint, exec, State.get, State.operator, inRange, hpos,
          hle, State.next, State.goto, Shape.bodyPoint]
  | stepped =>
      by_cases hpos : 0 < step'
      · refine ⟨9, ?_⟩
        by_cases hle : i ≤ b <;>
          simp [run, step, Shape.code, Shape.testPoint, exec, State.get, State.operator, inRange,
            hpos, hle, State.next, State.goto, Shape.bodyPoint]
      · refine ⟨8, ?_⟩
        by_cases hle : b ≤ i <;>
          simp [run, step, Shape.code, Shape.testPoint, exec, State.get, State.operator, inRange,
            hpos, hle, State.next, State.goto, Shape.bodyPoint]

/-- The update of the counter, which wraps around but where it is fused. -/
theorem run_update {s : State} (hshape : shape.Admits s.stepVar) (hip : s.ip = shape.incPoint)
    (hops : s.ops = []) : ∃ n, run shape ends n (.running s) =
      if shape = .narrow ∧ s.loopVar = Int64.maxValue then .undefined
      else .running { s with ip := shape.testPoint, loopVar := s.loopVar + s.stepVar } := by
  obtain ⟨ip, i, b, step', ops, executed⟩ := s
  dsimp only at hip hops hshape
  subst hip hops
  cases shape with
  | narrow =>
      obtain rfl : step' = 1 := hshape
      refine ⟨1, ?_⟩
      by_cases hmax : i = Int64.maxValue <;>
        simp [run, step, Shape.code, Shape.incPoint, exec, hmax, State.next, Shape.testPoint]
  | wide =>
      obtain rfl : step' = 1 := hshape
      exact ⟨5, rfl⟩
  | stepped => exact ⟨5, rfl⟩

/-- An execution of the body, up to where the loop goes on. -/
theorem run_body {s : State} (hip : s.ip = shape.bodyPoint) :
    ∃ n, 0 < n ∧ run shape ends n (.running s) =
      let after := { s with executed := s.executed ++ [s.loopVar] }
      if ends s.executed.length = .escapes then .running { after with ip := shape.code.length }
      else .running { after with ip := shape.incPoint } := by
  obtain ⟨ip, i, b, step', ops, executed⟩ := s
  dsimp only at hip
  subst hip
  have hbody : step shape ends (.running ⟨shape.bodyPoint, i, b, step', ops, executed⟩) =
      exec shape ends ⟨shape.bodyPoint, i, b, step', ops, executed⟩ .BODY := by
    cases shape <;> rfl
  have hloop : ∀ s : State, step shape ends (.running { s with ip := shape.bodyPoint + 1 }) =
      .running { s with ip := shape.incPoint } := by
    intro s
    cases shape <;> rfl
  cases hends : ends executed.length with
  | falls =>
      refine ⟨2, Nat.two_pos, ?_⟩
      show step shape ends (step shape ends _) = _
      rw [hbody]
      simp only [exec, hends, State.next, reduceCtorEq, if_false]
      exact hloop ⟨shape.bodyPoint, i, b, step', ops, executed ++ [i]⟩
  | skips =>
      refine ⟨1, Nat.one_pos, ?_⟩
      rw [run_one, hbody]
      simp only [exec, hends, State.goto, reduceCtorEq, if_false]
  | escapes =>
      refine ⟨1, Nat.one_pos, ?_⟩
      rw [run_one, hbody]
      simp only [exec, hends, State.goto, if_true]

/-- Behind its code the loop is left. -/
theorem run_exit {s : State} (hip : s.ip = shape.code.length) :
    run shape ends 1 (.running s) = .exited s.executed := by
  rw [run_one, step, hip, List.getElem?_eq_none (Nat.le_refl _)]

/-! ### Counting -/

theorem toInt_bounds (i : Int64) :
    Int64.minValue.toInt ≤ i.toInt ∧ i.toInt ≤ Int64.maxValue.toInt :=
  ⟨Int64.minValue_le_toInt i, Int64.toInt_le i⟩

/-- The `k`th value is counted exactly where it is not past the end. -/
theorem lt_rounds_iff {a b s : Int64} (hs : s ≠ 0) (k : Nat) :
    k < rounds a b s ↔
      if 0 < s then a.toInt + k * s.toInt ≤ b.toInt else b.toInt ≤ a.toInt + k * s.toInt := by
  have hlt : k < rounds a b s ↔ (k : Int) ≤ (b.toInt - a.toInt).fdiv s.toInt := by
    unfold rounds
    omega
  rw [hlt]
  by_cases hpos : 0 < s
  · have hs' : 0 < s.toInt := Int64.lt_iff_toInt_lt.1 hpos
    rw [if_pos hpos, Int.fdiv_eq_ediv_of_nonneg _ (Int.le_of_lt hs'), Int.le_ediv_iff_mul_le hs']
    omega
  · have hs' : s.toInt < 0 := by
      have hle : s.toInt ≤ 0 := Int64.le_iff_toInt_le.1 (Int64.not_lt.1 hpos)
      have hne : s.toInt ≠ 0 := fun h => hs (Int64.toInt_inj.1 h)
      omega
    have hneg : (b.toInt - a.toInt).fdiv s.toInt = (a.toInt - b.toInt) / (-s.toInt) := by
      rw [← Int.neg_fdiv_neg, Int.fdiv_eq_ediv_of_nonneg _ (by omega), Int.neg_sub]
    rw [if_neg hpos, hneg, Int.le_ediv_iff_mul_le (by omega), Int.mul_neg]
    omega

/-- The counter in the `k`th execution, as far as the range goes. -/
def counter (a s : Int64) (k : Nat) : Int64 := Int64.ofInt (a.toInt + k * s.toInt)

theorem counter_zero (a s : Int64) : counter a s 0 = a := by
  rw [counter, Int.natCast_zero, Int.zero_mul, Int.add_zero, Int64.ofInt_toInt]

/-- The update leads from one value to the next, around the range where it must. -/
theorem counter_succ (a s : Int64) (k : Nat) : counter a s k + s = counter a s (k + 1) := by
  have hnext : a.toInt + ((k + 1 : Nat) : Int) * s.toInt = a.toInt + k * s.toInt + s.toInt := by
    rw [Int.natCast_add, Int.natCast_one, Int.add_mul, Int.one_mul, Int.add_assoc]
  rw [counter, counter, hnext, Int64.ofInt_add (a.toInt + k * s.toInt), Int64.ofInt_toInt]

/-- The value is in the range. -/
def Fits (x : Int) : Prop := Int64.minValue.toInt ≤ x ∧ x ≤ Int64.maxValue.toInt

theorem toInt_counter {a s : Int64} {k : Nat} (hfits : Fits (a.toInt + k * s.toInt)) :
    (counter a s k).toInt = a.toInt + k * s.toInt :=
  Int64.toInt_ofInt_of_le hfits.1 (Int.lt_of_le_of_lt hfits.2 (by decide))

/-- What is counted lies between the bounds. -/
theorem fits_of_lt_rounds {a b s : Int64} (hs : s ≠ 0) {k : Nat} (hk : k < rounds a b s) :
    Fits (a.toInt + k * s.toInt) := by
  have hbound := (lt_rounds_iff hs k).1 hk
  obtain ⟨ha, ha'⟩ := toInt_bounds a
  obtain ⟨hb, hb'⟩ := toInt_bounds b
  by_cases hpos : 0 < s
  · have hs' : 0 < s.toInt := Int64.lt_iff_toInt_lt.1 hpos
    have hmul : 0 ≤ (k : Int) * s.toInt := Int.mul_nonneg (Int.natCast_nonneg k) (Int.le_of_lt hs')
    rw [if_pos hpos] at hbound
    constructor <;> omega
  · have hs' : s.toInt ≤ 0 := Int64.le_iff_toInt_le.1 (Int64.not_lt.1 hpos)
    have hmul : (k : Int) * s.toInt ≤ 0 :=
      Int.mul_nonpos_of_nonneg_of_nonpos (Int.natCast_nonneg k) hs'
    rw [if_neg hpos] at hbound
    constructor <;> omega

/-- The loop before a test, with so many executions behind it. -/
def testState (shape : Shape) (a b s : Int64) (k : Nat) (executed : List Int64) : State where
  ip := shape.testPoint
  loopVar := counter a s k
  endVar := b
  stepVar := s
  ops := []
  executed

theorem inRange_testState {a b s : Int64} (hs : s ≠ 0) {k : Nat} {executed : List Int64}
    (hfits : Fits (a.toInt + k * s.toInt)) :
    inRange (testState shape a b s k executed) = true ↔ k < rounds a b s := by
  rw [lt_rounds_iff hs, inRange]
  have hcounter := toInt_counter hfits
  by_cases hpos : 0 < s
  · rw [if_pos hpos, if_pos (show 0 < (testState shape a b s k executed).stepVar from hpos),
      decide_eq_true_iff, Int64.le_iff_toInt_le]
    show (counter a s k).toInt ≤ b.toInt ↔ _
    rw [hcounter]
  · rw [if_neg hpos, if_neg (show ¬0 < (testState shape a b s k executed).stepVar from hpos),
      decide_eq_true_iff, Int64.le_iff_toInt_le]
    show b.toInt ≤ (counter a s k).toInt ↔ _
    rw [hcounter]

theorem Shape.Admits.ne_zero {s : Int64} (h : shape.Admits s) : s ≠ 0 := by
  cases shape with
  | narrow =>
      obtain rfl : s = 1 := h
      decide
  | wide =>
      obtain rfl : s = 1 := h
      decide
  | stepped => exact h

/-- From a test within the range to behind the body. -/
theorem run_round {a b s : Int64} (hs : shape.Admits s) {k : Nat} {executed : List Int64}
    (hrange : inRange (testState shape a b s k executed) = true) (hk : executed.length = k) :
    ∃ n, run shape ends n (.running (testState shape a b s k executed)) =
      let after := { testState shape a b s k executed with executed := executed ++ [counter a s k] }
      if ends k = .escapes then .running { after with ip := shape.code.length }
      else .running { after with ip := shape.incPoint } := by
  obtain ⟨n, htest⟩ := run_test ends (s := testState shape a b s k executed) hs rfl rfl
  rw [if_pos hrange] at htest
  obtain ⟨m, -, hbody⟩ := run_body ends
    (s := { testState shape a b s k executed with ip := shape.bodyPoint }) rfl
  refine ⟨m + n, ?_⟩
  rw [run_add, htest, hbody]
  subst hk
  rfl

/-- From the start of the loop to the next test. -/
theorem run_next {a b s : Int64} (hs : shape.Admits s) (k : Nat) (executed : List Int64) :
    ∃ n, run shape ends n (.running { testState shape a b s k executed with ip := shape.incPoint }) =
      if shape = .narrow ∧ counter a s k = Int64.maxValue then .undefined
      else .running (testState shape a b s (k + 1) executed) := by
  obtain ⟨n, hupdate⟩ := run_update ends
    (s := { testState shape a b s k executed with ip := shape.incPoint }) hs rfl rfl
  refine ⟨n, hupdate.trans ?_⟩
  rw [testState, testState, ← counter_succ]

/-- From a test within the range over a body that does not escape to the next test. -/
theorem run_to_next {a b s : Int64} (hs : shape.Admits s) {k : Nat} {executed : List Int64}
    (hrange : inRange (testState shape a b s k executed) = true) (hk : executed.length = k)
    (hgoes : ends k ≠ .escapes) :
    ∃ n, run shape ends n (.running (testState shape a b s k executed)) =
      if shape = .narrow ∧ counter a s k = Int64.maxValue then .undefined
      else .running (testState shape a b s (k + 1) (executed ++ [counter a s k])) := by
  obtain ⟨n, hround⟩ := run_round ends hs hrange hk
  dsimp only at hround
  rw [if_neg hgoes] at hround
  obtain ⟨m, hnext⟩ := run_next ends (b := b) hs k (executed ++ [counter a s k])
  refine ⟨m + n, ?_⟩
  rw [run_add, hround]
  exact hnext

/-- Where an escape comes in time, or the last step fits, the executions that are left are the counted
ones, and the loop is left. -/
theorem run_counted {a b s : Int64} (hs : shape.Admits s) (left : Nat) :
    ∀ (k : Nat) (executed : List Int64), executed.length = k → k + left = rounds a b s →
      ((∃ j, k ≤ j ∧ j < rounds a b s ∧ ends j = .escapes) ∨ LastStepFits a b s) →
      ∃ n, run shape ends n (.running (testState shape a b s k executed)) =
        .exited (executed ++ counted ends a s left k) := by
  induction left with
  | zero =>
      intro k executed hk hleft hgood
      obtain ⟨j, hj, hj', -⟩ | hfits := hgood
      · omega
      · obtain rfl : k = rounds a b s := by omega
        have hout : ¬inRange (testState shape a b s (rounds a b s) executed) = true := by
          rw [inRange_testState hs.ne_zero hfits]
          exact Nat.lt_irrefl _
        obtain ⟨n, htest⟩ := run_test ends
          (s := testState shape a b s (rounds a b s) executed) hs rfl rfl
        rw [if_neg hout] at htest
        refine ⟨1 + n, ?_⟩
        rw [run_add, htest, run_exit ends rfl, counted, List.append_nil]
        rfl
  | succ left ih =>
      intro k executed hk hleft hgood
      have hrounds : k < rounds a b s := by omega
      have hrange : inRange (testState shape a b s k executed) = true :=
        (inRange_testState hs.ne_zero (fits_of_lt_rounds hs.ne_zero hrounds)).2 hrounds
      by_cases hescape : ends k = .escapes
      · obtain ⟨n, hround⟩ := run_round ends hs hrange hk
        dsimp only at hround
        rw [if_pos hescape] at hround
        refine ⟨1 + n, ?_⟩
        rw [run_add, hround, run_exit ends rfl, counted, if_pos hescape]
        rfl
      · have hgood' : (∃ j, k + 1 ≤ j ∧ j < rounds a b s ∧ ends j = .escapes) ∨ LastStepFits a b s := by
          obtain ⟨j, hj, hj', hends⟩ | hfits := hgood
          · refine .inl ⟨j, ?_, hj', hends⟩
            have hne : j ≠ k := by
              rintro rfl
              exact hescape hends
            omega
          · exact .inr hfits
        -- the next value is in the range, so that the fused update does not overflow
        have hnext : Fits (a.toInt + ((k + 1 : Nat) : Int) * s.toInt) := by
          by_cases hmore : k + 1 < rounds a b s
          · exact fits_of_lt_rounds hs.ne_zero hmore
          · obtain hlast : k + 1 = rounds a b s := by omega
            obtain ⟨j, hj, hj', -⟩ | hfits := hgood'
            · omega
            · rw [hlast]
              exact hfits
        have hdefined : ¬(shape = .narrow ∧ counter a s k = Int64.maxValue) := by
          rintro ⟨rfl, hmax⟩
          obtain rfl : s = 1 := hs
          have hcounter := toInt_counter (fits_of_lt_rounds (by decide) hrounds)
          rw [hmax] at hcounter
          have hone : (1 : Int64).toInt = 1 := by decide
          have hle := hnext.2
          rw [hone] at hcounter hle
          omega
        obtain ⟨n, hstate⟩ := run_to_next ends hs hrange hk hescape
        rw [if_neg hdefined] at hstate
        obtain ⟨l, hrest⟩ := ih (k + 1) (executed ++ [counter a s k])
          (by rw [List.length_append, hk]; rfl) (by omega) hgood'
        refine ⟨l + n, ?_⟩
        rw [run_add, hstate, hrest, counted, if_neg hescape, List.append_assoc]
        rfl

/-! ### Past the range -/

/-- More executions than that, or nowhere in the loop. -/
def Beyond (n : Nat) : Status → Prop
  | .running s => n < s.executed.length
  | .exited executed => n < executed.length
  | .thrown | .undefined => True

theorem Beyond.exec {n : Nat} {s : State} (h : n < s.executed.length) (i : LoopInstr) :
    Beyond n (exec shape ends s i) := by
  have hoperator : ∀ f, Beyond n (s.operator f) := by
    intro f
    unfold State.operator
    split
    · exact h
    · trivial
  cases i with
  | LOAD_LOCAL v => exact h
  | STORE_LOCAL v =>
      cases v with
      | loopVar =>
          unfold RepeatLoop.exec
          dsimp only
          split
          · exact h
          · trivial
      | endVar => trivial
      | stepVar => trivial
  | POP => exact h
  | LOAD_ZERO => exact h
  | LOAD_ONE => exact h
  | ADD => exact hoperator _
  | EQUAL => exact hoperator _
  | GREATER => exact hoperator _
  | GREATER_EQ => exact hoperator _
  | INC_LOCAL v =>
      unfold RepeatLoop.exec
      dsimp only
      split
      · trivial
      · exact h
  | LOOP_LESS_EQ_LOCAL loopSlot endSlot exit =>
      unfold RepeatLoop.exec
      dsimp only
      split <;> exact h
  | JUMP target => exact h
  | LOOP target => exact h
  | JUMP_IF_FALSE target =>
      unfold RepeatLoop.exec
      dsimp only
      split
      · split <;> exact h
      · trivial
  | THROW => trivial
  | BODY =>
      have hmore : n < (s.executed ++ [s.loopVar]).length := by
        rw [List.length_append]
        omega
      unfold RepeatLoop.exec
      dsimp only
      split <;> exact hmore

/-- A step takes nothing back. -/
theorem Beyond.step {n : Nat} {status : Status} (h : Beyond n status) :
    Beyond n (step shape ends status) := by
  cases status with
  | running s =>
      unfold RepeatLoop.step
      dsimp only
      split
      · exact Beyond.exec ends h _
      · exact h
  | exited executed => exact h
  | thrown => exact h
  | undefined => exact h

theorem Beyond.run {n : Nat} {status : Status} (h : Beyond n status) (m : Nat) :
    Beyond n (run shape ends m status) := by
  induction m with
  | zero => exact h
  | succ m ih =>
      rw [Nat.add_comm, run_add, run_one]
      exact ih.step ends

theorem run_exited (executed : List Int64) (m : Nat) :
    run shape ends m (.exited executed) = .exited executed := by
  induction m with
  | zero => rfl
  | succ m ih =>
      rw [Nat.add_comm, run_add, ih, run_one]
      rfl

/-- A counter that wrapped around is in the range. -/
theorem inRange_of_wrapped {a b s : Int64} (hs : s ≠ 0) {k : Nat} {executed : List Int64}
    (hlast : Fits (a.toInt + k * s.toInt)) (hk : k < rounds a b s)
    (hout : ¬Fits (a.toInt + ((k + 1 : Nat) : Int) * s.toInt)) :
    inRange (testState shape a b s (k + 1) executed) = true := by
  have hbound := (lt_rounds_iff hs k).1 hk
  have hmin : Int64.minValue.toInt = -2 ^ 63 := by decide
  have hmax : Int64.maxValue.toInt = 2 ^ 63 - 1 := by decide
  obtain ⟨hlo, hhi⟩ := hlast
  obtain ⟨hslo, hshi⟩ := toInt_bounds s
  obtain ⟨hblo, hbhi⟩ := toInt_bounds b
  have hnext : a.toInt + ((k + 1 : Nat) : Int) * s.toInt = a.toInt + k * s.toInt + s.toInt := by
    rw [Int.natCast_add, Int.natCast_one, Int.add_mul, Int.one_mul, Int.add_assoc]
  rw [hnext, Fits] at hout
  have hcounter : (counter a s (k + 1)).toInt = (a.toInt + k * s.toInt + s.toInt).bmod (2 ^ 64) := by
    rw [counter, hnext]
    exact Int64.toInt_ofInt
  unfold inRange
  by_cases hpos : 0 < s
  · have hs' : 0 < s.toInt := Int64.lt_iff_toInt_lt.1 hpos
    rw [if_pos hpos] at hbound
    rw [if_pos (show 0 < (testState shape a b s (k + 1) executed).stepVar from hpos),
      decide_eq_true_iff, Int64.le_iff_toInt_le]
    show (counter a s (k + 1)).toInt ≤ b.toInt
    rw [hcounter, Int.bmod_def]
    omega
  · have hs' : s.toInt ≤ 0 := Int64.le_iff_toInt_le.1 (Int64.not_lt.1 hpos)
    rw [if_neg hpos] at hbound
    rw [if_neg (show ¬0 < (testState shape a b s (k + 1) executed).stepVar from hpos),
      decide_eq_true_iff, Int64.le_iff_toInt_le]
    show b.toInt ≤ (counter a s (k + 1)).toInt
    rw [hcounter, Int.bmod_def]
    omega

/-- Where no escape comes and the last step does not fit, the body is executed once too often, or the
fused update overflows. -/
theorem run_overflow {a b s : Int64} (hs : shape.Admits s) (hout : ¬LastStepFits a b s) (left : Nat) :
    ∀ (k : Nat) (executed : List Int64), executed.length = k → k + (left + 1) = rounds a b s →
      (∀ j, k ≤ j → j < rounds a b s → ends j ≠ .escapes) →
      ∃ n, Beyond (rounds a b s)
        (run shape ends n (.running (testState shape a b s k executed))) := by
  induction left with
  | zero =>
      intro k executed hk hleft hgoes
      have hrounds : k < rounds a b s := by omega
      have hfits := fits_of_lt_rounds hs.ne_zero hrounds
      obtain ⟨n, hstate⟩ := run_to_next ends hs ((inRange_testState hs.ne_zero hfits).2 hrounds) hk
        (hgoes k (Nat.le_refl k) hrounds)
      by_cases hundefined : shape = .narrow ∧ counter a s k = Int64.maxValue
      · rw [if_pos hundefined] at hstate
        exact ⟨n, by rw [hstate]; trivial⟩
      · rw [if_neg hundefined] at hstate
        have hlast : ¬Fits (a.toInt + ((k + 1 : Nat) : Int) * s.toInt) := by
          rw [show k + 1 = rounds a b s by omega]
          exact hout
        have hlength : (executed ++ [counter a s k]).length = k + 1 := by
          rw [List.length_append, hk]
          rfl
        obtain ⟨l, hagain⟩ := run_round ends hs
          (inRange_of_wrapped hs.ne_zero hfits hrounds hlast) hlength
        refine ⟨l + n, ?_⟩
        rw [run_add, hstate, hagain]
        dsimp only
        have hmore : rounds a b s <
            (executed ++ [counter a s k] ++ [counter a s (k + 1)]).length := by
          rw [List.length_append, hlength, List.length_singleton]
          omega
        split <;> exact hmore
  | succ left ih =>
      intro k executed hk hleft hgoes
      have hrounds : k < rounds a b s := by omega
      have hfits := fits_of_lt_rounds hs.ne_zero hrounds
      obtain ⟨n, hstate⟩ := run_to_next ends hs ((inRange_testState hs.ne_zero hfits).2 hrounds) hk
        (hgoes k (Nat.le_refl k) hrounds)
      by_cases hundefined : shape = .narrow ∧ counter a s k = Int64.maxValue
      · rw [if_pos hundefined] at hstate
        exact ⟨n, by rw [hstate]; trivial⟩
      · rw [if_neg hundefined] at hstate
        obtain ⟨l, hbeyond⟩ := ih (k + 1) (executed ++ [counter a s k])
          (by rw [List.length_append, hk]; rfl) (by omega)
          (fun j hj hj' => hgoes j (by omega) hj')
        exact ⟨l + n, by rw [run_add, hstate]; exact hbeyond⟩

theorem counted_length (a s : Int64) (left : Nat) : ∀ k,
    (counted ends a s left k).length ≤ left := by
  induction left with
  | zero => exact fun _ => Nat.le_refl 0
  | succ left ih =>
      intro k
      have hrest := ih (k + 1)
      rw [counted, List.length_cons]
      split
      · exact Nat.succ_le_succ (Nat.zero_le _)
      · omega

theorem run_start_test {a b s : Int64} (hs : shape.Admits s) :
    ∃ n, run shape ends n (start a b s) = .running (testState shape a b s 0 []) := by
  obtain ⟨n, hstart⟩ := run_start ends (a := a) (b := b) hs
  exact ⟨n, by rw [hstart, testState, counter_zero]⟩

/-- Past the range no run ends with what is counted. -/
theorem not_counts_of_overflow {a b s : Int64} (hs : shape.Admits s) (hout : ¬LastStepFits a b s)
    (hgoes : ∀ j, j < rounds a b s → ends j ≠ .escapes) (m : Nat) :
    run shape ends m (start a b s) ≠ .exited (counted ends a s (rounds a b s) 0) := by
  intro hends
  obtain ⟨n, htest⟩ := run_start_test ends (b := b) hs
  have hpos : 0 < rounds a b s := by
    rw [Nat.pos_iff_ne_zero]
    intro hzero
    apply hout
    rw [LastStepFits, hzero, Int.natCast_zero, Int.zero_mul, Int.add_zero]
    exact toInt_bounds a
  obtain ⟨l, hbeyond⟩ := run_overflow ends hs hout (rounds a b s - 1) 0 [] rfl (by omega)
    (fun j _ hj => hgoes j hj)
  have hlater : Beyond (rounds a b s) (run shape ends (m + (l + n)) (start a b s)) := by
    rw [run_add, run_add ends l, htest]
    exact hbeyond.run ends m
  rw [Nat.add_comm, run_add, hends, run_exited] at hlater
  have hlength := counted_length ends a s (rounds a b s) 0
  exact Nat.not_lt.2 hlength hlater

/-! ### The loops -/

/-- A loop with integer bounds executes its body for the counted values and is left, exactly where an
escape comes in time or the value behind the last counted one is in the 64-bit range. -/
theorem repeat_counts_iff {a b s : Int64} (hs : shape.Admits s) :
    (∃ n, run shape ends n (start a b s) = .exited (counted ends a s (rounds a b s) 0)) ↔
      (∃ j, j < rounds a b s ∧ ends j = .escapes) ∨ LastStepFits a b s := by
  constructor
  · rintro ⟨m, hends⟩
    by_contra hbad
    rw [not_or] at hbad
    obtain ⟨hgoes, hout⟩ := hbad
    exact not_counts_of_overflow ends hs hout (fun j hj hescape => hgoes ⟨j, hj, hescape⟩) m hends
  · intro hgood
    obtain ⟨n, htest⟩ := run_start_test ends (b := b) hs
    obtain ⟨m, hrun⟩ := run_counted ends hs (rounds a b s) 0 [] rfl (Nat.zero_add _)
      (hgood.imp_left fun ⟨j, hj, hescape⟩ => ⟨j, Nat.zero_le j, hj, hescape⟩)
    exact ⟨m + n, by rw [run_add, htest, hrun, List.nil_append]⟩

theorem one_to_three_counts :
    ∃ n, run .narrow (fun _ => .falls) n (start 1 3 1) = .exited [1, 2, 3] :=
  (repeat_counts_iff (fun _ => .falls) (a := 1) (b := 3) (s := 1)
    (show Shape.narrow.Admits 1 from rfl)).2
    (.inr (by decide))

/-- A loop up to the largest integer does not end as it should. -/
theorem to_maxValue_not_counted :
    ¬∀ (shape : Shape) (ends : Nat → BodyEnd) (a b s : Int64), shape.Admits s →
      ∃ n, run shape ends n (start a b s) = .exited (counted ends a s (rounds a b s) 0) := by
  intro hcounts
  have hs : Shape.stepped.Admits 1 := show (1 : Int64) ≠ 0 by decide
  obtain ⟨n, hn⟩ := hcounts .stepped (fun _ => .falls) (Int64.maxValue - 1) Int64.maxValue 1 hs
  have hout : ¬LastStepFits (Int64.maxValue - 1) Int64.maxValue 1 := by decide
  exact not_counts_of_overflow (fun _ => .falls) hs hout (fun _ _ => nofun) n hn

end RepeatLoop

end EZLanguage
