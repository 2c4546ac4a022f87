import EZLanguage.Compiler.OperandWidths

/-!
# Slots of local variables are reserved

A frame has as many slots as its function has local variables at the same time, except for the function of
a module, where the variables left in the end are counted. A call of `old` loads a slot that was kept for
its position, which may be a slot of another function.
-/

namespace EZLanguage

namespace CompiledFunction

/-- The slots of local variables that the instructions of a function name, and the captures of closures
it makes. -/
def localSlots (f : CompiledFunction) : List Nat :=
  f.compiler.code.flatMap fun i => i.operands.filterMap Operand.localSlot?

/-- The variables left in the end are as many as there were at any time, where these are the ones that are
counted. -/
def CountsLocals (f : CompiledFunction) : Prop :=
  f.compiler.isHarvesting = true → f.compiler.maxLocals ≤ f.compiler.locals.length

instance (f : CompiledFunction) : Decidable f.CountsLocals :=
  inferInstanceAs (Decidable (_ → _))

/-- Every value kept for `old` that is loaded is kept in a slot the function has given out. -/
def KeepsOld (f : CompiledFunction) : Prop :=
  ∀ n ∈ f.compiler.oldLoads, n < f.compiler.maxLocals

instance (f : CompiledFunction) : Decidable f.KeepsOld :=
  inferInstanceAs (Decidable (∀ n ∈ f.compiler.oldLoads, n < f.compiler.maxLocals))

/-- The local variables of a function all have a slot in its frame. -/
theorem Sound.maxLocals_le {f : CompiledFunction} (h : f.Sound) (hcounts : f.CountsLocals) :
    f.compiler.maxLocals ≤ f.function.localCount := by
  rw [h.localCount]
  by_cases hharvest : f.compiler.isHarvesting = true
  · rw [if_pos hharvest]
    exact hcounts hharvest
  · rw [if_neg hharvest]

theorem Sound.localSlots_lt {f : CompiledFunction} (h : f.Sound) (hcounts : f.CountsLocals)
    (hold : f.KeepsOld) : ∀ n ∈ f.localSlots, n < f.function.localCount := by
  intro n hn
  obtain ⟨i, hi, hn⟩ := List.mem_flatMap.mp hn
  obtain ⟨o, ho, hslot⟩ := List.mem_filterMap.mp hn
  obtain ⟨isHarvesting, strayJump, hholds⟩ := h.holds
  have hle := h.maxLocals_le hcounts
  rcases (hholds.placed i hi).slots o ho n hslot with hlt | hload
  · exact lt_of_lt_of_le hlt hle
  · exact lt_of_lt_of_le (hold n hload) hle

end CompiledFunction

namespace BytecodeCompiler

/-- Every slot a function names is one of its frame, where modules count all of their variables and calls
of `old` load what their own function has kept. -/
theorem localSlots_reserved {host : Host} {session : Session} {statements : List Stmt}
    {result : CompileResult} (h : compile host session statements = .ok result)
    (hstray : result.strayJump = false) (hcounts : ∀ f ∈ result.functions, f.CountsLocals)
    (hold : ∀ f ∈ result.functions, f.KeepsOld) :
    ∀ f ∈ result.functions, ∀ n ∈ f.localSlots, n < f.function.localCount :=
  fun f hf => (compile_sound h hstray f hf).localSlots_lt (hcounts f hf) (hold f hf)

private def blockOf (name : CString) : Stmt :=
  .mk 1 [] (.BlockStmt [.mk 1 [] (.ExpressionStmt
    (.mk 1 3 [] (.AssignExpr name (.mk 1 7 [] (.LiteralExpr .nil)))))])

theorem localSlots_reserved_block :
    ∃ result, compile (.closed .bare) {} [blockOf (lit "x")] = .ok result ∧
      ∀ f ∈ result.functions, ∀ n ∈ f.localSlots, n < f.function.localCount := by
  have hcompile : compile (.closed .bare) {} [blockOf (lit "x")] = .ok _ := rfl
  refine ⟨_, hcompile, localSlots_reserved hcompile rfl ?_ ?_⟩
  · decide
  · decide

/-- A host with one module. -/
def Host.withModule (fpu : FloatUnit) (statements : List Stmt) : Host where
  fpu
  disableContracts := false
  locate := fun _ path => .ok path
  parse := fun _ => .ok statements
  hash := fun _ => 0

/-- A module that declares a variable in a block alone, whose frame has no slot for it. -/
theorem localSlots_not_reserved :
    ¬ ∀ (host : Host) (session : Session) (statements : List Stmt) (result : CompileResult),
      compile host session statements = .ok result →
        ∀ f ∈ result.functions, ∀ n ∈ f.localSlots, n < f.function.localCount := by
  intro h
  have hreserved := h (.withModule .bare [blockOf (lit "x")]) {}
    [.mk 1 [] (.UseStmt (lit "m.ez") [])]
  have hdiffers : (match compile (.withModule .bare [blockOf (lit "x")]) {}
      [.mk 1 [] (.UseStmt (lit "m.ez") [])] with
    | .ok result => result.functions.all fun f =>
        f.localSlots.all fun n => decide (n < f.function.localCount)
    | .error _ => true) = false := rfl
  split at hdiffers
  case h_1 result hresult =>
      have hall := List.all_eq_true.mpr fun f hf => List.all_eq_true.mpr fun n hn =>
        decide_eq_true (hreserved result hresult f hf n hn)
      rw [hall] at hdiffers
      cases hdiffers
  case h_2 => cases hdiffers

end BytecodeCompiler

end EZLanguage
