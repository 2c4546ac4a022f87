import EZLanguage.Compiler.Scoping

/-!
# Scoped names

The fused assignments look at the local variables of the function and at the global variables alone. What
they access, and what a read and a store of a name access, is compared with the innermost declaration of
the name.
-/

namespace EZLanguage

namespace BytecodeCompiler

open PartialCorrectness

variable {s₀ : BytecodeCompiler} {name : CString}

/-! ### Fused assignments -/

/-- The operand on the right is a local variable of the function, in a slot a byte can name. -/
def LocalOperand (s : BytecodeCompiler) (right : Expr) : Prop :=
  ∃ rhs src, right.identifier? = some rhs ∧ findLocal s.current.locals rhs = some src ∧ src ≤ 0xFF

/-- The operand on the right is a small integer. -/
def SmallOperand (op : BinaryOp) (right : Expr) : Prop :=
  ∃ val : Int64, right.variant = .LiteralExpr (.int val) ∧
    (op = .PLUS ∧ 0 ≤ val ∧ val ≤ 127 ∨ op = .MINUS ∧ 0 ≤ val ∧ val ≤ 128)

/-- The name has a slot among the global variables, or is given one. -/
def GlobalTarget (s : BytecodeCompiler) (name : CString) : Prop :=
  (lookup s.globalSlots name).isSome = true ∧ s.current.isHarvesting = false ∨
    s.current.scopeDepth = 0 ∧
      ((lookup s.globalSlots name).isSome = true ∨ s.nextGlobalSlot ≤ 65535)

/-- The assignment `name = name op right` is one instruction. -/
def FusesAt (s : BytecodeCompiler) (name : CString) (op : BinaryOp) (right : Expr) : Prop :=
  match findLocal s.current.locals name with
  | some dst =>
      dst ≤ 0xFF ∧ ((op = .PLUS ∨ op = .MINUS) ∧ LocalOperand s right ∨ SmallOperand op right)
  | none => GlobalTarget s name ∧ op = .PLUS ∧ LocalOperand s right

/-- The assignment of `value` is of this form, and it is one instruction. -/
def Fuses (s : BytecodeCompiler) (name : CString) (value : Expr) : Prop :=
  ∃ left op right, value.variant = .BinaryExpr left op right ∧ left.identifier? = some name ∧
    FusesAt s name op right

theorem identifier_variant {right : Expr} {rhs : CString} :
    right.identifier? = some rhs ↔ right.variant = .IdentifierExpr rhs := by
  unfold Expr.identifier?
  split
  case h_1 name hname => rw [hname, Option.some_inj, ExprVariant.IdentifierExpr.injEq]
  case h_2 hother =>
      constructor
      · intro h
        cases h
      · intro h
        cases hother rhs h

/-- The operands of a fused instruction: the first is the variable that is assigned, and a name on the right
is a local variable of the function. -/
def FusedOperands (s : BytecodeCompiler) (right : Expr) (operands : List Operand) (first : Operand) :
    Prop :=
  ∃ second, operands = [first, second] ∧ ∀ rhs, right.identifier? = some rhs →
    ∃ src, findLocal s.current.locals rhs = some src ∧ second = .slot src

/-- The instruction for a local variable, and when there is one. -/
theorem fusedLocal_run (s : BytecodeCompiler) (dst : Nat) (op : BinaryOp) (right : Expr) :
    ∃ instr, fusedLocal dst op right s = .ok (instr, s) ∧
      (instr.isSome = true ↔ dst ≤ 0xFF ∧
        ((op = .PLUS ∨ op = .MINUS) ∧ LocalOperand s right ∨ SmallOperand op right)) ∧
      ∀ i, instr = some i → FusedOperands s right i.2 (.slot dst) := by
  unfold fusedLocal
  by_cases hdst : dst > 0xFF
  · refine ⟨none, ?_, ?_, fun i hi => nomatch hi⟩
    · rw [if_pos hdst]
      rfl
    · constructor
      · intro h
        cases h
      · intro h
        omega
  · have hle : dst ≤ 0xFF := Nat.le_of_not_gt hdst
    simp only [if_neg hdst, hle, true_and]
    have hother : ((∀ rhs, right.variant ≠ .IdentifierExpr rhs) ∧
        ∀ val, right.variant ≠ .LiteralExpr (.int val)) →
          ¬ ((op = .PLUS ∨ op = .MINUS) ∧ LocalOperand s right ∨ SmallOperand op right) := by
      rintro ⟨hident, hliteral⟩ (⟨-, rhs, src, hrhs, -⟩ | ⟨val, hval, -⟩)
      · exact hident rhs (identifier_variant.mp hrhs)
      · exact hliteral val hval
    cases hvariant : right.variant with
    | IdentifierExpr rhs =>
        have hsmall : ¬ SmallOperand op right := by
          rintro ⟨val, hval, -⟩
          rw [hvariant] at hval
          cases hval
        have hlocal : LocalOperand s right ↔
            ∃ src, findLocal s.current.locals rhs = some src ∧ src ≤ 0xFF := by
          simp only [LocalOperand, identifier_variant, hvariant, ExprVariant.IdentifierExpr.injEq,
            exists_and_left, exists_eq_left']
        dsimp only
        rw [run_bind (resolveLocal_run s rhs), hlocal, or_iff_left hsmall]
        have hrhs (rhs' : CString) (h : right.identifier? = some rhs') : rhs' = rhs := by
          rw [identifier_variant, hvariant, ExprVariant.IdentifierExpr.injEq] at h
          exact h.symm
        cases hfound : findLocal s.current.locals rhs with
        | none => exact ⟨none, rfl, by simp, fun i hi => nomatch hi⟩
        | some src =>
            by_cases hsrc : src > 0xFF
            · refine ⟨none, ?_, ?_, fun i hi => nomatch hi⟩
              · simp only [if_pos hsrc]
                rfl
              · simp only [Option.some_inj, exists_eq_left', Nat.not_le_of_gt hsrc, and_false]
                simp
            · have hsrcle := Nat.le_of_not_gt hsrc
              simp only [if_neg hsrc, Option.some_inj, exists_eq_left', hsrcle, and_true]
              have hoperands : FusedOperands s right [.slot dst, .slot src] (.slot dst) :=
                ⟨_, rfl, fun rhs' h => ⟨src, hrhs rhs' h ▸ hfound, rfl⟩⟩
              split
              · exact ⟨_, rfl, by simp, fun i hi => (Option.some_inj.mp hi) ▸ hoperands⟩
              · exact ⟨_, rfl, by simp, fun i hi => (Option.some_inj.mp hi) ▸ hoperands⟩
              · exact ⟨none, rfl, by simp_all, fun i hi => nomatch hi⟩
    | LiteralExpr literal =>
        cases literal with
        | int val =>
            have hlocal : ¬ LocalOperand s right := by
              rintro ⟨rhs, src, hrhs, -⟩
              rw [identifier_variant.mp hrhs] at hvariant
              cases hvariant
            have hsmall : SmallOperand op right ↔
                op = .PLUS ∧ 0 ≤ val ∧ val ≤ 127 ∨ op = .MINUS ∧ 0 ≤ val ∧ val ≤ 128 := by
              simp only [SmallOperand, hvariant, ExprVariant.LiteralExpr.injEq, Literal.int.injEq,
                exists_eq_left']
            rw [hsmall]
            simp only [hlocal, and_false, false_or]
            have hoperands (second : Operand) :
                FusedOperands s right [.slot dst, second] (.slot dst) := by
              refine ⟨second, rfl, fun rhs h => ?_⟩
              rw [identifier_variant, hvariant] at h
              cases h
            cases op with
            | PLUS =>
                by_cases hval : 0 ≤ val ∧ val ≤ 127
                · simp only [if_pos hval]
                  exact ⟨_, rfl, by simpa using hval,
                    fun i hi => (Option.some_inj.mp hi) ▸ hoperands _⟩
                · simp only [if_neg hval]
                  exact ⟨none, rfl, by simpa using hval, fun i hi => nomatch hi⟩
            | MINUS =>
                by_cases hval : 0 ≤ val ∧ val ≤ 128
                · simp only [if_pos hval]
                  exact ⟨_, rfl, by simpa using hval,
                    fun i hi => (Option.some_inj.mp hi) ▸ hoperands _⟩
                · simp only [if_neg hval]
                  exact ⟨none, rfl, by simpa using hval, fun i hi => nomatch hi⟩
            | _ => exact ⟨none, rfl, by simp, fun i hi => nomatch hi⟩
        | _ =>
            have hnone := hother ⟨by simp [hvariant], by simp [hvariant]⟩
            exact ⟨none, rfl, iff_of_false (by simp) hnone, fun i hi => nomatch hi⟩
    | _ =>
        have hnone := hother ⟨by simp [hvariant], by simp [hvariant]⟩
        exact ⟨none, rfl, iff_of_false (by simp) hnone, fun i hi => nomatch hi⟩

/-- The instruction for a global variable, and when there is one. -/
theorem fusedGlobal_run (s : BytecodeCompiler) (gSlot : Nat) (op : BinaryOp) (right : Expr) :
    ∃ instr, fusedGlobal gSlot op right s = .ok (instr, s) ∧
      (instr.isSome = true ↔ op = .PLUS ∧ LocalOperand s right) ∧
      ∀ i, instr = some i → FusedOperands s right i.2 (.globalSlot gSlot) := by
  unfold fusedGlobal
  cases hright : right.identifier? with
  | none =>
      refine ⟨none, rfl, ?_, fun i hi => nomatch hi⟩
      simp [LocalOperand, hright]
  | some rhs =>
      dsimp only
      rw [run_bind (resolveLocal_run s rhs)]
      have hlocal : LocalOperand s right ↔
          ∃ src, findLocal s.current.locals rhs = some src ∧ src ≤ 0xFF := by
        simp only [LocalOperand, hright, Option.some_inj, exists_and_left, exists_eq_left']
      rw [hlocal]
      cases hfound : findLocal s.current.locals rhs with
      | none => exact ⟨none, rfl, by simp, fun i hi => nomatch hi⟩
      | some src =>
          by_cases hfits : src ≤ 0xFF ∧ op = .PLUS
          · simp only [if_pos hfits]
            refine ⟨_, rfl, by simp [hfits], fun i hi => ?_⟩
            rw [← Option.some_inj.mp hi]
            refine ⟨_, rfl, fun rhs' h => ⟨src, ?_, rfl⟩⟩
            rw [← Option.some_inj.mp (hright.symm.trans h)]
            exact hfound
          · simp only [if_neg hfits]
            refine ⟨none, rfl, ?_, fun i hi => nomatch hi⟩
            simp only [Option.some_inj, exists_eq_left']
            rw [and_comm, iff_false_right hfits]
            simp

/-- A global variable that is assigned has its slot, and nothing else has changed. -/
theorem assignedGlobal_triple :
    Triple (fun s => s = s₀) (assignedGlobal name) fun found s =>
      (s.current = s₀.current ∧ s.enclosing = s₀.enclosing) ∧ ∀ n, found = some n →
        GlobalTarget s₀ name ∧ ∃ slot, lookup s.globalSlots name = some slot ∧ slot.toNat = n := by
  refine .get_bind fun s hs => ?_
  rw [hs]
  split
  case h_1 slot hslot hharvesting =>
      refine .pure ?_
      rintro s' rfl
      refine ⟨⟨rfl, rfl⟩, fun n hn => ?_⟩
      cases hn
      exact ⟨.inl ⟨by rw [hslot]; rfl, hharvesting⟩, slot, hslot, rfl⟩
  case h_2 =>
      refine .ite (fun hdepth => .map ?_) fun _ => .pure ?_
      · refine (globalSlotFor_triple s₀ name).post fun n s ⟨hslot, hsame, hroom⟩ => ⟨hsame, ?_⟩
        intro n' hn
        cases hn
        exact ⟨.inr ⟨hdepth, hroom⟩, hslot⟩
      · rintro s' rfl
        exact ⟨⟨rfl, rfl⟩, fun n hn => nomatch hn⟩

theorem assignedGlobal_runs (h : GlobalTarget s₀ name) :
    ∃ n s, assignedGlobal name s₀ = .ok (some n, s) := by
  unfold assignedGlobal
  rw [run_bind (get_run s₀)]
  have hdefault (htarget : s₀.current.scopeDepth = 0 ∧
      ((lookup s₀.globalSlots name).isSome = true ∨ s₀.nextGlobalSlot ≤ 65535)) :
      ∃ n s, (if s₀.current.scopeDepth = 0 then some <$> globalSlotFor name else pure none :
        CompileM (Option Nat)) s₀ = .ok (some n, s) := by
    obtain ⟨n, s, hrun⟩ := globalSlotFor_runs htarget.2
    rw [if_pos htarget.1, map_eq_pure_bind, run_bind hrun]
    exact ⟨n, s, rfl⟩
  unfold GlobalTarget at h
  cases hslot : lookup s₀.globalSlots name with
  | none =>
      rw [hslot] at h hdefault
      exact hdefault (h.resolve_left fun hknown => nomatch hknown.1)
  | some slot =>
      rw [hslot] at h hdefault
      cases hharvesting : s₀.current.isHarvesting with
      | false => exact ⟨_, _, rfl⟩
      | true =>
          rw [hharvesting] at h
          exact hdefault (h.resolve_left fun hknown => nomatch hknown.2)

/-- The fused instruction is for the variable it takes the name for. -/
theorem fusedAssign_triple {op : BinaryOp} {right : Expr} :
    Triple (fun s => s = s₀) (fusedAssign name op right) fun instr s => ∀ i, instr = some i →
      FusesAt s₀ name op right ∧ ∃ operand, FusedOperands s₀ right i.2 operand ∧
        s.Names operand (Declared.fused name (s₀.scopes name)) := by
  refine resolveLocal_triple.bind fun slot => .of_and fun hslot => ?_
  cases slot with
  | some dst =>
      rintro s rfl instr s' hrun i rfl
      obtain ⟨instr, hfused, hsome, hoperands⟩ := fusedLocal_run s dst op right
      cases hfused.symm.trans hrun
      refine ⟨?_, _, hoperands i rfl, ?_⟩
      · rw [FusesAt, ← hslot]
        exact hsome.mp rfl
      · simp only [scopes, scopesOf, List.map_cons, ← hslot, Declared.fused, Names]
  | none =>
      refine assignedGlobal_triple.bind fun found => ?_
      cases found with
      | none => exact .pure fun s _ i hi => absurd hi.symm (Option.some_ne_none i)
      | some gSlot =>
          rintro s ⟨⟨hcurrent, -⟩, htarget⟩ instr s' hrun i rfl
          obtain ⟨instr, hfused, hsome, hoperands⟩ := fusedGlobal_run s gSlot op right
          cases hfused.symm.trans hrun
          have hoperands := hoperands i rfl
          rw [FusedOperands, hcurrent] at hoperands
          obtain ⟨htarget, slot, hlookup, hn⟩ := htarget gSlot rfl
          have hright := hsome.mp rfl
          rw [LocalOperand, hcurrent] at hright
          refine ⟨?_, _, hoperands, ?_⟩
          · rw [FusesAt, ← hslot]
            exact ⟨htarget, hright⟩
          · simp only [scopes, scopesOf, List.map_cons, ← hslot, Declared.fused, Names]
            exact ⟨name, slot, hlookup, hn, rfl⟩

theorem fusedAssign_runs {op : BinaryOp} {right : Expr} (h : FusesAt s₀ name op right) :
    ∃ i s, fusedAssign name op right s₀ = .ok (some i, s) := by
  unfold fusedAssign
  rw [run_bind (resolveLocal_run s₀ name)]
  unfold FusesAt at h
  cases hslot : findLocal s₀.current.locals name with
  | some dst =>
      rw [hslot] at h
      obtain ⟨instr, hrun, hsome, -⟩ := fusedLocal_run s₀ dst op right
      obtain ⟨i, rfl⟩ := Option.isSome_iff_exists.mp (hsome.mpr h)
      exact ⟨i, s₀, hrun⟩
  | none =>
      rw [hslot] at h
      obtain ⟨gSlot, s, hglobal⟩ := assignedGlobal_runs h.1
      obtain ⟨⟨hcurrent, -⟩, -⟩ := assignedGlobal_triple.run rfl hglobal
      obtain ⟨instr, hrun, hsome, -⟩ := fusedGlobal_run s gSlot op right
      rw [LocalOperand, hcurrent] at hsome
      obtain ⟨i, rfl⟩ := Option.isSome_iff_exists.mp (hsome.mpr h.2)
      dsimp only
      rw [run_bind hglobal]
      exact ⟨i, s, hrun⟩

/-- A fused assignment updates the variable it takes the name for, and reads a local variable. -/
theorem compileCompoundAssignFast_accesses {value : Expr} :
    Triple (fun s => s = s₀) (compileCompoundAssignFast name value) fun done s => done = true →
      Fuses s₀ name value ∧ s.LastAccesses (Declared.fused name (s₀.scopes name)) ∧
        ∀ rhs, value.rightName? = some rhs →
          ∃ src, findLocal s₀.current.locals rhs = some src ∧ s.LastReads (.localVar 0 src) := by
  unfold compileCompoundAssignFast
  split
  case h_1 left op right hvalue =>
      refine .ite (fun hleft => ?_) fun _ => .pure fun s _ hdone => nomatch hdone
      refine fusedAssign_triple.bind fun instr => ?_
      cases instr with
      | none => exact .pure fun s _ hdone => nomatch hdone
      | some instr =>
          refine .of_forall fun s hs => ?_
          obtain ⟨hfuses, operand, ⟨second, hoperands, hread⟩, hnames⟩ := hs instr rfl
          dsimp only
          rw [hoperands]
          refine Triple.bind (.modify fun s' hs' => ?_) fun _ => .pure fun _ h _ => h
          rw [hs']
          refine ⟨⟨left, op, right, hvalue, hleft, hfuses⟩,
            ⟨_, List.getLast?_concat, operand, rfl, hnames⟩, fun rhs hrhs => ?_⟩
          rw [Expr.rightName?, hvalue] at hrhs
          obtain ⟨src, hsrc, rfl⟩ := hread rhs hrhs
          exact ⟨src, hsrc, _, _, List.getLast?_concat, rfl, rfl⟩
  case h_2 => exact .pure fun s _ hdone => nomatch hdone

theorem compileCompoundAssignFast_runs {value : Expr} (h : Fuses s₀ name value) :
    ∃ s, compileCompoundAssignFast name value s₀ = .ok (true, s) := by
  obtain ⟨left, op, right, hvalue, hleft, hfuses⟩ := h
  obtain ⟨i, s, hrun⟩ := fusedAssign_runs hfuses
  unfold compileCompoundAssignFast
  rw [hvalue]
  dsimp only
  rw [if_pos hleft, run_bind hrun]
  exact ⟨_, rfl⟩

/-! ### A name that is read and then assigned -/

/-- Nothing declares the name, and yet an assignment to it in a module declares a variable of the module,
after a read of it has made it a global one. -/
def Redeclares (s : BytecodeCompiler) (name : CString) : Prop :=
  (∀ d ∈ s.scopes name, d = .nothing) ∧ s.current.isHarvesting = true ∧ 0 < s.current.scopeDepth ∧
    s.current.locals.length + 1 ≤ 65535 ∧
    ((lookup s.globalSlots name).isSome = true ∨ s.nextGlobalSlot ≤ 65535)

/-- The compiler gets from one state to the other without a change to what is declared under the name. -/
structure Leaves (name : CString) (s s' : BytecodeCompiler) : Prop where
  scopes : s'.scopes name = s.scopes name
  globalSlot : ∀ slot, lookup s.globalSlots name = some slot → lookup s'.globalSlots name = some slot
  isHarvesting : s'.current.isHarvesting = s.current.isHarvesting
  scopeDepth : s'.current.scopeDepth = s.current.scopeDepth
  locals : s.current.locals.length ≤ s'.current.locals.length

theorem Leaves.refl (name : CString) (s : BytecodeCompiler) : Leaves name s s :=
  ⟨rfl, fun _ h => h, rfl, rfl, Nat.le_refl _⟩

theorem compileIdentifier_undeclared (hself : name ≠ lit "self") (hsuper : name ≠ lit "super")
    (h : ∀ d ∈ s₀.scopes name, d = .nothing) :
    compileIdentifier name s₀ = (globalSlotFor name >>= fun slot =>
      emit .LOAD_GLOBAL_SLOT [.globalSlot slot]) s₀ := by
  obtain ⟨hstatic, hlocal, hupvalue⟩ := resolve_undeclared h
  unfold compileIdentifier
  rw [run_bind hstatic]
  dsimp only
  rw [run_bind hlocal]
  dsimp only
  rw [run_bind hupvalue]
  dsimp only
  rw [if_neg hself, if_neg hsuper]

/-- A read of a name that nothing declares makes it a global variable. -/
theorem read_undeclared (hself : name ≠ lit "self") (hsuper : name ≠ lit "super")
    (h : ∀ d ∈ s₀.scopes name, d = .nothing) {s : BytecodeCompiler}
    (hread : compileIdentifier name s₀ = .ok ((), s)) :
    s.LastAccesses (.globalVar name) ∧ (lookup s.globalSlots name).isSome = true ∧
      (s.current.isHarvesting = s₀.current.isHarvesting ∧
        s.current.scopeDepth = s₀.current.scopeDepth ∧ s.current.locals = s₀.current.locals) ∧
      ((lookup s₀.globalSlots name).isSome = true ∨ s₀.nextGlobalSlot ≤ 65535) := by
  rw [compileIdentifier_undeclared hself hsuper h] at hread
  have htriple : Triple (fun s => s = s₀) (globalSlotFor name >>= fun slot =>
      emit .LOAD_GLOBAL_SLOT [.globalSlot slot]) fun _ s =>
        s.LastAccesses (.globalVar name) ∧ (lookup s.globalSlots name).isSome = true ∧
          (s.current.isHarvesting = s₀.current.isHarvesting ∧
            s.current.scopeDepth = s₀.current.scopeDepth ∧ s.current.locals = s₀.current.locals) ∧
          ((lookup s₀.globalSlots name).isSome = true ∨ s₀.nextGlobalSlot ≤ 65535) := by
    refine (globalSlotFor_triple s₀ name).bind fun n => .modify ?_
    rintro s ⟨⟨slot, hslot, hn⟩, ⟨hcurrent, -⟩, hroom⟩
    rw [← hcurrent]
    refine ⟨⟨_, List.getLast?_concat, _, rfl, name, slot, hslot, hn, rfl⟩, ?_, ⟨rfl, rfl, rfl⟩, hroom⟩
    rw [hslot]
    rfl
  exact htriple.run rfl hread

/-- An assignment to a name that nothing declares. -/
theorem emitStoreName_undeclared (h : ∀ d ∈ s₀.scopes name, d = .nothing) :
    emitStoreName name s₀ =
      (match lookup s₀.globalSlots name, s₀.current.isHarvesting with
        | some slot, false => emit .STORE_GLOBAL_SLOT [.globalSlot slot.toNat]
        | _, _ =>
            if s₀.current.scopeDepth > 0 then addLocal name false >>= emitStoreLocal
            else globalSlotFor name >>= fun slot => emit .STORE_GLOBAL_SLOT [.globalSlot slot]) s₀ := by
  obtain ⟨hstatic, hlocal, hupvalue⟩ := resolve_undeclared h
  unfold emitStoreName
  rw [run_bind hstatic]
  dsimp only
  rw [run_bind hlocal]
  dsimp only
  rw [run_bind hupvalue]
  exact run_bind (get_run s₀)

theorem addLocal_run (s : BytecodeCompiler) (name : CString)
    (hroom : s.current.locals.length + 1 ≤ 65535) :
    ∃ s', addLocal name false s = .ok (s.current.locals.length, s') := by
  have hnot : ¬ s.current.locals.length + 1 > 65535 := Nat.not_lt_of_le hroom
  unfold addLocal
  simp only [getCurrent, bind_assoc, pure_bind]
  rw [run_bind (get_run s)]
  simp only [if_neg hnot]
  exact ⟨_, rfl⟩

theorem addLocal_room {s s' : BytecodeCompiler} {f : Nat → CompileM Unit}
    (h : (addLocal name false >>= f) s = .ok ((), s')) : s.current.locals.length + 1 ≤ 65535 := by
  have htriple : Triple (fun s₁ => s₁ = s) (addLocal name false) fun _ _ =>
      s.current.locals.length + 1 ≤ 65535 := by
    refine .get_bind fun s₁ hs₁ => ?_
    rw [hs₁]
    refine Triple.bind (Q := fun _ _ => True) (.modify fun _ _ => trivial) fun _ => ?_
    refine .ite (fun _ => ?_) fun hroom => .pure fun _ _ => Nat.le_of_not_gt hroom
    exact Triple.bind (Q := fun _ _ => False) errorAt_triple fun _ _ hs => hs.elim
  exact (htriple.bind fun _ => fun _ hroom _ _ _ => hroom).run rfl h

theorem emitStoreLocal_run (slot : Nat) (s : BytecodeCompiler) :
    ∃ s', emitStoreLocal slot s = .ok ((), s') ∧ s'.LastAccesses (.localVar 0 slot) := by
  unfold emitStoreLocal
  split
  · exact ⟨_, rfl, _, List.getLast?_concat, _, rfl, rfl⟩
  · exact ⟨_, rfl, _, List.getLast?_concat, _, rfl, rfl⟩

/-- An assignment after a read, where it does not declare the name, is to the variable that was read. -/
theorem stored_where_read (hself : name ≠ lit "self") (hsuper : name ≠ lit "super")
    (hredeclares : ¬ Redeclares s₀ name) {s₁ s₂ s : BytecodeCompiler}
    (hread : compileIdentifier name s₀ = .ok ((), s₁)) (hleaves : Leaves name s₁ s₂)
    (hstore : emitStoreName name s₂ = .ok ((), s)) :
    ∃ v, s₁.LastAccesses v ∧ s.LastAccesses v := by
  obtain ⟨haccesses, hscopes₁⟩ := (compileIdentifier_accesses hself hsuper).run rfl hread
  obtain ⟨hstored, hdeclared⟩ := emitStoreName_stored.run rfl hstore
  have hscopes₂ := hleaves.scopes.trans hscopes₁
  by_cases hsame : s.scopes name = s₂.scopes name
  · rw [hsame, hscopes₂] at hstored
    exact ⟨_, haccesses, hstored⟩
  · obtain ⟨hnothing, -⟩ := hdeclared.resolve_left hsame
    have hnothing₀ : ∀ d ∈ s₀.scopes name, d = .nothing := hscopes₂ ▸ hnothing
    obtain ⟨hglobal, hknown, ⟨hmodule, hscope, hsameLocals⟩, hroom⟩ :=
      read_undeclared hself hsuper hnothing₀ hread
    refine ⟨_, hglobal, ?_⟩
    obtain ⟨slot, hslot⟩ := Option.isSome_iff_exists.mp hknown
    rw [emitStoreName_undeclared hnothing, hleaves.globalSlot slot hslot] at hstore
    cases hharvesting : s₂.current.isHarvesting with
    | false =>
        rw [hharvesting] at hstore
        have htriple : Triple (fun s => s = s₂)
            (emit .STORE_GLOBAL_SLOT [.globalSlot slot.toNat]) fun _ s =>
              s.LastAccesses (.globalVar name) ∧ ∃ s₁, s₁ = s₂ ∧ _ :=
          emit_accesses fun s hs => ⟨name, slot, hs ▸ hleaves.globalSlot slot hslot, rfl, rfl⟩
        exact (htriple.run rfl hstore).1
    | true =>
        rw [hharvesting] at hstore
        dsimp only at hstore
        by_cases hdepth : s₂.current.scopeDepth > 0
        · rw [if_pos hdepth] at hstore
          have hfull := addLocal_room hstore
          rw [hleaves.isHarvesting, hmodule] at hharvesting
          rw [hleaves.scopeDepth, hscope] at hdepth
          have hlocals := hleaves.locals
          rw [hsameLocals] at hlocals
          exact (hredeclares ⟨hnothing₀, hharvesting, hdepth, by omega, hroom⟩).elim
        · rw [if_neg hdepth] at hstore
          have htriple : Triple (fun s => s = s₂) (globalSlotFor name >>= fun slot =>
              emit .STORE_GLOBAL_SLOT [.globalSlot slot]) fun _ s =>
                s.LastAccesses (.globalVar name) := by
            refine (globalSlotFor_triple s₂ name).bind fun n => ?_
            refine Triple.post (emit_accesses (v := .globalVar name) fun s hs => ?_) fun _ _ h => h.1
            obtain ⟨slot, hslot, hn⟩ := hs.1
            exact ⟨name, slot, hslot, hn, rfl⟩
          exact htriple.run rfl hstore

theorem redeclares_differs (hself : name ≠ lit "self") (hsuper : name ≠ lit "super")
    (hredeclares : Redeclares s₀ name) :
    ∃ s₁ s, compileIdentifier name s₀ = .ok ((), s₁) ∧ emitStoreName name s₁ = .ok ((), s) ∧
      ¬ ∃ v, s₁.LastAccesses v ∧ s.LastAccesses v := by
  obtain ⟨hnothing, hharvesting, hdepth, hlocals, hroom⟩ := hredeclares
  obtain ⟨n, s', hslot⟩ := globalSlotFor_runs hroom
  have hread : ∃ s₁, compileIdentifier name s₀ = .ok ((), s₁) := by
    rw [compileIdentifier_undeclared hself hsuper hnothing, run_bind hslot]
    exact ⟨_, rfl⟩
  obtain ⟨s₁, hread⟩ := hread
  obtain ⟨-, hscopes⟩ := (compileIdentifier_accesses hself hsuper).run rfl hread
  obtain ⟨hglobal, -, ⟨hmodule, hscope, hsameLocals⟩, -⟩ :=
    read_undeclared hself hsuper hnothing hread
  rw [← hsameLocals] at hlocals
  obtain ⟨s₂, hadd⟩ := addLocal_run s₁ name hlocals
  have hstore : emitStoreName name s₁ = emitStoreLocal s₁.current.locals.length s₂ := by
    rw [emitStoreName_undeclared (hscopes ▸ hnothing), hmodule, hharvesting]
    cases lookup s₁.globalSlots name with
    | none =>
        dsimp only
        rw [if_pos (hscope ▸ hdepth), run_bind hadd]
    | some slot =>
        dsimp only
        rw [if_pos (hscope ▸ hdepth), run_bind hadd]
  obtain ⟨s, hlast⟩ := emitStoreLocal_run s₁.current.locals.length s₂
  refine ⟨s₁, s, hread, hstore.trans hlast.1, ?_⟩
  rintro ⟨v, hv₁, hv⟩
  rcases hv.unique hlast.2 with rfl | ⟨_, _, _, hglobal'⟩
  · rcases hv₁.unique hglobal with hlocal | ⟨_, _, hlocal, _⟩
    · cases hlocal
    · cases hlocal
  · cases hglobal'

/-! ### The innermost declaration -/

section

variable (staticInside : Nat → Bool) (s : BytecodeCompiler) (name : CString)

/-- A name is read from its innermost declaration. -/
def ReadsInnermost : Prop :=
  ∀ s', compileIdentifier name s = .ok ((), s') →
    s'.LastAccesses (Declared.innermost staticInside name (s.scopes name) 0)

/-- A value is stored in the innermost declaration of its name, which is the one there was before if there
was any. -/
def StoresInnermost : Prop :=
  ∀ s', emitStoreName name s = .ok ((), s') →
    s'.LastAccesses (Declared.innermost staticInside name (s'.scopes name) 0) ∧
      ((∃ d ∈ s.scopes name, d ≠ .nothing) → s'.scopes name = s.scopes name)

/-- A fused assignment of `value` updates the innermost declaration of the name. -/
def UpdatesInnermost (value : Expr) : Prop :=
  ∀ s', compileCompoundAssignFast name value s = .ok (true, s') →
    s'.LastAccesses (Declared.innermost staticInside name (s.scopes name) 0)

/-- A name on the right of a fused assignment is read from its innermost declaration. -/
def ReadsOperand (value : Expr) : Prop :=
  ∀ s' rhs, compileCompoundAssignFast name value s = .ok (true, s') → value.rightName? = some rhs →
    s'.LastReads (Declared.innermost staticInside rhs (s.scopes rhs) 0)

/-- An assignment that is not fused is to the variable that the name on its right is read from, whatever is
emitted in between. -/
def StoresWhereRead : Prop :=
  ∀ s₁ s₂ s', compileIdentifier name s = .ok ((), s₁) → Leaves name s₁ s₂ →
    emitStoreName name s₂ = .ok ((), s') → ∃ v, s₁.LastAccesses v ∧ s'.LastAccesses v

/-- The scoping of a name, and of the assignment of `value` to it. -/
structure Scoped (value : Expr) : Prop where
  reads : ReadsInnermost staticInside s name
  stores : StoresInnermost staticInside s name
  updates : UpdatesInnermost staticInside s name value
  operand : ReadsOperand staticInside s name value
  whereRead : StoresWhereRead s name

end

/-- A read finds the innermost declaration exactly where no static variable comes in between. -/
theorem reads_iff {staticInside : Nat → Bool} {s : BytecodeCompiler} {name : CString}
    (hself : name ≠ lit "self") (hsuper : name ≠ lit "super") :
    ReadsInnermost staticInside s name ↔ Declared.StaticsInside staticInside (s.scopes name) 0 := by
  constructor
  · intro h
    by_contra hinside
    obtain ⟨mangled, hmangled⟩ := Declared.exists_static hinside
    have hresolved : Declared.resolved name (s.scopes name) 0 = .staticVar mangled := by
      rw [Declared.resolved, hmangled]
    have hread : ∃ s', compileIdentifier name s = .ok ((), s') := by
      unfold compileIdentifier
      rw [run_bind (resolveStatic_run s name), hmangled]
      exact ⟨_, rfl⟩
    obtain ⟨s', hread⟩ := hread
    have haccesses := ((compileIdentifier_accesses hself hsuper).run rfl hread).1
    rcases haccesses.unique (h s' hread) with heq | ⟨global, _, hglobal, _⟩
    · exact hinside (Declared.resolved_eq_innermost_iff.mp heq)
    · rw [hresolved] at hglobal
      cases hglobal
  · intro h s' hread
    rw [← Declared.resolved_eq_innermost_iff.mpr h]
    exact ((compileIdentifier_accesses hself hsuper).run rfl hread).1

theorem stores_of_inside {staticInside : Nat → Bool} {s : BytecodeCompiler} {name : CString}
    (hinside : Declared.StaticsInside staticInside (s.scopes name) 0) :
    StoresInnermost staticInside s name := by
  intro s' hstore
  obtain ⟨haccesses, hdeclared⟩ := emitStoreName_stored.run rfl hstore
  rcases hdeclared with hsame | ⟨hnothing, slot, hadded⟩
  · refine ⟨?_, fun _ => hsame⟩
    rw [← hsame] at hinside
    rw [← Declared.resolved_eq_innermost_iff.mpr hinside]
    exact haccesses
  · have hinside' : Declared.StaticsInside staticInside (s'.scopes name) 0 := by
      rw [hadded]
      intro d hd
      rw [hnothing d (List.mem_of_mem_tail hd)]
      rfl
    rw [← Declared.resolved_eq_innermost_iff.mpr hinside']
    refine ⟨haccesses, ?_⟩
    rintro ⟨d, hd, hdeclared⟩
    exact (hdeclared (hnothing d hd)).elim

theorem updates_of_plainly {staticInside : Nat → Bool} {s : BytecodeCompiler} {name : CString}
    {value : Expr} (hinside : Declared.StaticsInside staticInside (s.scopes name) 0)
    (hplainly : Fuses s name value → Declared.Plainly (s.scopes name)) :
    UpdatesInnermost staticInside s name value := by
  intro s' hfused
  obtain ⟨hfuses, haccesses, -⟩ := compileCompoundAssignFast_accesses.run rfl hfused rfl
  rw [← (Declared.fused_eq_innermost_iff hinside).mpr (hplainly hfuses)]
  exact haccesses

theorem plainly_of_updates {staticInside : Nat → Bool} {s : BytecodeCompiler} {name : CString}
    {value : Expr} (hinside : Declared.StaticsInside staticInside (s.scopes name) 0)
    (hfuses : Fuses s name value) (h : UpdatesInnermost staticInside s name value) :
    Declared.Plainly (s.scopes name) := by
  obtain ⟨s', hfused⟩ := compileCompoundAssignFast_runs hfuses
  obtain ⟨-, haccesses, -⟩ := compileCompoundAssignFast_accesses.run rfl hfused rfl
  rcases haccesses.unique (h s' hfused) with heq | ⟨_, _, _, hglobal⟩
  · exact (Declared.fused_eq_innermost_iff hinside).mp heq
  · exact Declared.plainly_of_nothing (Declared.innermost_eq_global_iff.mp hglobal).2

/-- The operand of a fused assignment is found exactly where no static variable is further inside. -/
theorem operand_iff {staticInside : Nat → Bool} {s : BytecodeCompiler} {name : CString}
    {value : Expr} :
    ReadsOperand staticInside s name value ↔ (Fuses s name value → ∀ rhs, value.rightName? = some rhs →
      Declared.OwnInside staticInside (s.scopes rhs)) := by
  have hscopes (rhs : CString) (src : Nat) (hsrc : findLocal s.current.locals rhs = some src) :
      s.scopes rhs = ⟨some src, lookup s.current.statics rhs⟩ :: scopesOf rhs s.enclosing := by
    rw [← hsrc]
    rfl
  constructor
  · intro h hfuses rhs hrhs
    obtain ⟨s', hfused⟩ := compileCompoundAssignFast_runs hfuses
    obtain ⟨-, -, hread⟩ := compileCompoundAssignFast_accesses.run rfl hfused rfl
    obtain ⟨src, hsrc, hreads⟩ := hread rhs hrhs
    rcases hreads.unique (h s' rhs hfused hrhs) with heq | ⟨_, _, hglobal, _⟩
    · rw [hscopes rhs src hsrc] at heq ⊢
      exact Declared.innermost_eq_own_iff.mp heq.symm
    · cases hglobal
  · intro h s' rhs hfused hrhs
    obtain ⟨hfuses, -, hread⟩ := compileCompoundAssignFast_accesses.run rfl hfused rfl
    obtain ⟨src, hsrc, hreads⟩ := hread rhs hrhs
    have hown := h hfuses rhs hrhs
    rw [hscopes rhs src hsrc] at hown ⊢
    rw [Declared.innermost_eq_own_iff.mpr hown]
    exact hreads

/-- Names are scoped exactly where no static variable comes in between, where the fused assignments are for
names that are declared plainly, and where a module does not declare a name it has read. -/
theorem scoped_iff (staticInside : Nat → Bool) (s : BytecodeCompiler) (name : CString) (value : Expr)
    (hself : name ≠ lit "self") (hsuper : name ≠ lit "super") :
    Scoped staticInside s name value ↔
      Declared.StaticsInside staticInside (s.scopes name) 0 ∧
        (Fuses s name value → Declared.Plainly (s.scopes name) ∧ ∀ rhs, value.rightName? = some rhs →
          Declared.OwnInside staticInside (s.scopes rhs)) ∧ ¬ Redeclares s name := by
  constructor
  · intro h
    have hinside := (reads_iff hself hsuper).mp h.reads
    refine ⟨hinside, fun hfuses => ?_, fun hredeclares => ?_⟩
    · exact ⟨plainly_of_updates hinside hfuses h.updates, operand_iff.mp h.operand hfuses⟩
    · obtain ⟨s₁, s', hread, hstore, hdiffers⟩ := redeclares_differs hself hsuper hredeclares
      exact hdiffers (h.whereRead s₁ s₁ s' hread (.refl name s₁) hstore)
  · rintro ⟨hinside, hplainly, hredeclares⟩
    refine ⟨(reads_iff hself hsuper).mpr hinside, stores_of_inside hinside, ?_, ?_, ?_⟩
    · exact updates_of_plainly hinside fun hfuses => (hplainly hfuses).1
    · exact operand_iff.mpr fun hfuses => (hplainly hfuses).2
    · intro s₁ s₂ s' hread hleaves hstore
      exact stored_where_read hself hsuper hredeclares hread hleaves hstore

private def variableNamed (name : CString) : LocalVariable where
  name
  depth := 1
  isCaptured := false
  isStackResident := true
  exported := false
  localVarInfoIdx := 0

private def functionNamed (name : CString) (id : Nat) : Compiler where
  name
  arity := 0
  compilerId := id
  scopeDepth := 1

/-- In a task with a variable `x`. -/
private def inTask : BytecodeCompiler where
  current := { functionNamed (lit "f") 2 with locals := [variableNamed (lit "x")] }
  enclosing := [functionNamed (lit "__script__") 1]

/-- The value of `x = x + 1`. -/
private def increment : Expr :=
  .mk 1 1 [] (.BinaryExpr (.mk 1 1 [] (.IdentifierExpr (lit "x"))) .PLUS
    (.mk 1 5 [] (.LiteralExpr (.int 1))))

theorem inTask_scoped : Scoped (fun _ => false) inTask (lit "x") increment := by
  refine (scoped_iff _ inTask (lit "x") increment (by decide) (by decide)).mpr
    ⟨?_, fun _ => ⟨rfl, fun _ hrhs => nomatch hrhs⟩, ?_⟩
  · intro d hd
    rw [List.mem_singleton.mp hd]
    rfl
  · rintro ⟨-, hharvesting, -⟩
    cases hharvesting

/-- In a task with a parameter `x`, inside a task with a static variable `x`. -/
private def inInnerTask : BytecodeCompiler where
  current := { functionNamed (lit "g") 3 with locals := [variableNamed (lit "x")] }
  enclosing :=
    [{ functionNamed (lit "f") 2 with statics := [(lit "x", lit "__static_2_f_x")] },
      functionNamed (lit "__script__") 1]

/-- The parameter is not what its name is read from. -/
theorem inInnerTask_not_scoped :
    ¬ ∀ (staticInside : Nat → Bool) (s : BytecodeCompiler) (name : CString) (value : Expr),
      name ≠ lit "self" → name ≠ lit "super" → Scoped staticInside s name value := by
  intro h
  have hscoped := h (fun _ => false) inInnerTask (lit "x") increment (by decide) (by decide)
  have hinside := (reads_iff (by decide) (by decide)).mp hscoped.reads
  have hstatic := hinside ⟨none, some (lit "__static_2_f_x")⟩ List.mem_cons_self
  cases hstatic

end BytecodeCompiler

end EZLanguage
