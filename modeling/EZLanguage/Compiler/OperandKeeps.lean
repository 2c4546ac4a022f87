import EZLanguage.Compiler.OperandInvariant

/-!
# Every part of the compiler keeps its operands in order

One lemma for each function of the compiler, in the order of the modules that define them, and from
them the functions a compilation gives.
-/

namespace EZLanguage

open PartialCorrectness

namespace BytecodeCompiler

/-- The compilers of the trees below keep the invariant. -/
structure Below.Keep (below : Below) : Prop where
  expr : ∀ e, Keeps (below.expr e)
  stmt : ∀ s, Keeps (below.stmt s)

variable {host : Host} {below : Below}

theorem Below.Keep.optionalExpr (hb : below.Keep) (e : Option Expr) : Keeps (below.optionalExpr e) := by
  cases e with
  | none => exact emitOp_keeps rfl
  | some e => exact hb.expr e

theorem isConstantExpr_keeps {e : Expr} : Keeps (isConstantExpr host e) := by
  unfold isConstantExpr
  split
  · exact .pure
  · exact fun _ _ => .throw

/-- A constant goes to one instruction, and the rest follows. -/
theorem Keeps.withConstant {α : Type} {constant : Constant} {op : OpCode} {f : Unit → CompileM α}
    (hfields : op.fields = [.constant]) (hf : Keeps (f ⟨⟩)) :
    Keeps (makeConstant constant >>= fun idx => emit op [.constant idx] >>= f) :=
  .makeConstant_bind fun k ks _ => (emitNoted_known hfields).bind fun _ => hf k ks

theorem emitConstant_keeps {constant : Constant} : Keeps (emitConstant constant) := by
  refine .makeConstant_bind fun k ks idx => .ite (fun _ => ?_) fun _ => emitNoted_known rfl
  exact errorAt_triple.bind fun _ => emitNoted_known rfl

/-! ### Contracts -/

theorem compileContractChecks_keeps (hb : below.Keep) {clauses : List (Clause Expr)}
    {isPrecondition : Bool} : Keeps (compileContractChecks host below clauses isPrecondition) := by
  refine .ite .pure (.bind (.forIn fun clause _ => ?_) fun _ => .pure)
  refine .bind (hb.expr _) fun _ => .bind (emitJump_keeps rfl) fun skipThrow => ?_
  refine .globalSlotFor_bind fun slot hslot => .bind (emitGlobalSlot_keeps rfl hslot) fun _ => ?_
  refine .bind emitConstant_keeps fun _ => .bind (emitCount_keeps rfl (.inl (by decide))) fun _ => ?_
  exact .bind (emitOp_keeps rfl) fun _ => .bind patchJump_keeps fun _ => .pure

theorem captureOld_keeps (hb : below.Keep) {e : Expr} : Keeps (captureOld below e) := by
  refine .get_bind fun s => .ite ?_ .pure
  refine .bind (hb.expr e) fun _ => .addLocal_bind fun k ks slot => ?_
  refine (emitStoreLocal_ready Ledger.lt_reserve).bind fun _ => ?_
  refine Keeps.andThen (emitOp_keeps rfl) fun _ => Triple.modify fun s hs => ⟨hs.stray, fun hstray => ?_⟩
  have hgood := hs.good hstray
  refine ⟨(hs.release.good hstray).chain, hgood.finished, fun capture hcapture => ?_⟩
  rcases List.mem_append.mp hcapture with hcapture | hcapture
  · exact hgood.captures capture hcapture
  · rw [List.mem_singleton.mp hcapture]
    have hslot : slot < s.current.maxLocals := lt_of_lt_of_le Ledger.lt_reserve hgood.holds.slots
    exact hslot.le.trans hgood.holds.maxLocals

/-! ### Functions -/

theorem predeclareLocalTasks_keeps {statements : List Stmt} : Keeps (predeclareLocalTasks statements) := by
  refine .getCurrent_bind fun c => .ite .pure (.bind (.forIn fun s _ => ?_) fun _ => .pure)
  split
  case h_1 => exact .pure
  case h_2 =>
      refine .bind resolveLocal_keeps fun _ => .ite ?_ .pure
      exact .bind addLocal_keeps fun _ => .pure

theorem emitCachedPrologue_keeps {isCached : Bool} {name : CString} :
    Keeps (emitCachedPrologue isCached name) := by
  refine .ite .pure (.withConstant rfl ?_)
  refine .bind (emitOp_keeps rfl) fun _ => .bind (emitOp_keeps rfl) fun _ => .bind (emitOp_keeps rfl) fun _ => ?_
  refine .bind (emitJump_keeps rfl) fun _ => .bind (emitOp_keeps rfl) fun _ => .bind (emitJump_keeps rfl) fun _ => ?_
  exact .bind patchJump_keeps fun _ => .bind (emitOp_keeps rfl) fun _ => patchJump_keeps

theorem compileDefault_ready (hb : below.Keep) {k : Ledger} {ks : List Outer} {i : Nat}
    {defaultValue : Expr} (hi : i < k.slots) :
    Triple (Known k ks) (compileDefault below i defaultValue) fun _ => Known k ks := by
  refine (emitLoadLocal_ready hi).bind fun _ => Keeps.andThen (emitOp_keeps rfl) fun _ => ?_
  refine Keeps.andThen (emitOp_keeps rfl) fun _ => Keeps.andThen (emitJump_keeps rfl) fun jump => ?_
  refine Keeps.andThen (hb.expr _) fun _ => (emitStoreLocal_ready hi).bind fun _ => ?_
  exact Keeps.andThen (emitOp_keeps rfl) fun _ => patchJump_keeps.triple

theorem emitRateLimit_keeps {taskName : CString} {rl : RateLimitConfig} :
    Keeps (emitRateLimit host taskName rl) :=
  .withConstant rfl (.withConstant rfl (.withConstant rfl (withConstant_keeps rfl)))

/-- The parameters get the first slots. -/
theorem addParams_known {k : Ledger} {ks : List Outer} (params : List (Param Expr)) :
    Triple (Known k ks) (addParams params)
      fun _ => Known { k with slots := max k.slots params.length } ks := by
  have hloop : Triple (Known k ks) (addParams params)
      fun _ s => Known k ks s ∧ params.length ≤ s.current.locals.length := by
    refine Triple.bind ((Triple.forIn_rest (P := fun (rest : List (Param Expr)) s =>
      Known k ks s ∧ params.length - rest.length ≤ s.current.locals.length) params ?_).pre ?_)
      fun _ => .pure fun _ hs => hs
    · intro param rest _
      refine Triple.bind (Q := fun _ s =>
        Known k ks s ∧ params.length - (param :: rest).length ≤ s.current.locals.length) ?_ fun _ => ?_
      · refine .modify fun s hs => ⟨⟨hs.1.stray, fun hstray => ?_⟩, hs.2⟩
        have hgood := hs.1.good hstray
        have hc := hgood.holds
        exact hgood.replace (hc.congr rfl hc.locals hc.upvalues hc.retvals) rfl
      · have hlength : params.length - rest.length ≤ params.length - (param :: rest).length + 1 := by
          rw [List.length_cons]
          omega
        refine (addLocal_keeps.triple.and addLocal_length).bind fun _ => .pure fun s hs => ⟨rfl, hs.1, ?_⟩
        exact hlength.trans hs.2
    · intro s hs
      exact ⟨hs, by simp⟩
  refine hloop.post fun _ s hs => ⟨hs.1.stray, fun hstray => ?_⟩
  have hgood := hs.1.good hstray
  have hc := hgood.holds
  refine hgood.replace ?_ rfl
  exact { hc with
    slots := max_le hc.slots (hs.2.trans hc.locals)
    pending := hc.pending, used := hc.used }

theorem compileDefaults_ready (hb : below.Keep) {k : Ledger} {ks : List Outer}
    {params : List (Param Expr)} (hparams : params.length ≤ k.slots) :
    Triple (Known k ks) (compileDefaults below params) fun _ => Known k ks := by
  refine Triple.bind (Triple.forIn _ ?_) fun _ => .pure fun _ hs => hs
  rintro ⟨param, i⟩ hparam
  have hi : i < k.slots := lt_of_lt_of_le (List.snd_lt_of_mem_zipIdx hparam) hparams
  dsimp only
  split
  case h_1 => exact .pure fun _ hs => hs
  case h_2 => exact (compileDefault_ready hb hi).bind fun _ => .pure fun _ hs => hs

theorem compileRateLimit_keeps {task : TaskStmt Expr Stmt} : Keeps (compileRateLimit host task) := by
  unfold compileRateLimit
  split
  case h_1 => exact .pure
  case h_2 => exact emitRateLimit_keeps

theorem compileChecks_keeps (hb : below.Keep) {task : TaskStmt Expr Stmt} :
    Keeps (compileChecks host below task) :=
  .ite .pure (compileContractChecks_keeps hb)

theorem captureOldExprs_keeps (hb : below.Keep) {task : TaskStmt Expr Stmt} :
    Keeps (captureOldExprs host below task) := by
  refine fun k ks => Triple.bind (Q := fun _ => Known k ks) (.modify fun s hs => ⟨hs.stray, fun hstray => ?_⟩) fun _ => ?_
  · exact ⟨(hs.good hstray).chain, (hs.good hstray).finished, by simp⟩
  · refine Keeps.ite .pure ?_ k ks
    exact .bind (.forIn fun e _ => .bind (captureOld_keeps hb) fun _ => .pure) fun _ => .pure

theorem compilePrologue_keeps (hb : below.Keep) {task : TaskStmt Expr Stmt} :
    Keeps (compilePrologue host below task) := by
  intro k ks
  refine (addParams_known task.params).bind fun _ => ?_
  refine (compileDefaults_ready hb (le_max_right _ _)).bind fun _ => ?_
  refine Triple.pre ?_ fun s hs => hs.weaken (le_max_left _ _) rfl rfl rfl
  refine Keeps.andThen compileRateLimit_keeps fun _ => Keeps.andThen (compileChecks_keeps hb) fun _ => ?_
  exact captureOldExprs_keeps hb k ks

theorem emitStoreCached_keeps {isCached : Bool} {name : CString} :
    Keeps (emitStoreCached isCached name) :=
  .ite (withConstant_keeps rfl) .pure

theorem compileBlockBody_keeps (hb : below.Keep) {statements : List Stmt} :
    Keeps (compileBlockBody below statements) := by
  refine .bind beginScope_keeps fun _ => .bind predeclareLocalTasks_keeps fun _ => ?_
  exact .bind (.forIn fun s _ => .bind (hb.stmt s) fun _ => .pure) fun _ => endScope_keeps

theorem compileBody_keeps (hb : below.Keep) {task : TaskStmt Expr Stmt} {name : CString} :
    Keeps (compileBody below task name) := by
  intro k ks
  refine .get_bind fun saved hsaved => ?_
  -- if nothing has gone wrong at the end, nothing had when the captures were saved
  let k' : Ledger := { k with strayJump := saved.strayJump }
  refine Triple.bind (Q := fun _ => Known k' ks) (.modify ?_) fun _ => ?_
  · rintro s rfl
    refine ⟨fun h => h, fun hstray => ?_⟩
    have hgood := hsaved.good hstray
    have hholds : k'.Holds s.current := { hgood.holds with
      pending := hgood.holds.pending, used := hgood.holds.used }
    exact ⟨hgood.chain.replace hholds rfl, hgood.finished, hgood.captures⟩
  refine Keeps.andThen (compileBlockBody_keeps hb) fun _ => ?_
  refine Triple.bind (Q := fun _ => Known k ks) (.modify fun s hs => ⟨fun hk => ?_, fun hstray => ?_⟩)
    fun _ => ?_
  · exact hs.stray (hsaved.stray hk)
  · have hsavedStray : saved.strayJump = false := by
      cases hcase : saved.strayJump with
      | false => rfl
      | true => exact absurd ((hs.stray hcase).symm.trans hstray) (by decide)
    have hgood := hs.good hstray
    have hholds : k.Holds s.current := { hgood.holds with
      pending := hgood.holds.pending, used := hgood.holds.used }
    exact ⟨hgood.chain.replace hholds rfl, hgood.finished, (hsaved.good hsavedStray).captures⟩
  · refine Keeps.andThen (emitOp_keeps rfl) fun _ => Keeps.andThen emitStoreCached_keeps fun _ => ?_
    exact Keeps.triple (emitOp_keeps rfl)

/-! ### Nested functions -/

theorem enterFunction_known {k : Ledger} {ks : List Outer} {task : TaskStmt Expr Stmt} {name : CString}
    {nested : Nat} :
    Triple (fun s => Known k ks s ∧ s.current.nestedFunctions.length = nested) (enterFunction task name)
      fun _ => Known (.fresh false k.strayJump) ((k, nested) :: ks) := by
  refine .modify ?_
  rintro s ⟨hs, rfl⟩
  refine ⟨hs.stray, fun hstray => ⟨.inside (Ledger.holds_fresh rfl rfl) ?_ rfl (hs.good hstray).chain,
    (hs.good hstray).finished, (hs.good hstray).captures⟩⟩
  simp [Linked]

theorem leaveFunction_known {k : Ledger} {ks : List Outer} {nested : Nat} {isMethod : Bool} :
    Triple (Known (.fresh false k.strayJump) ((k, nested) :: ks)) (leaveFunction isMethod)
      fun func s => Known k ks s ∧ (s.strayJump = false →
        Linked func.compiler s.current ∧ s.current.nestedFunctions.length = nested) := by
  refine .get_bind fun s₀ hs => ?_
  refine Triple.bind (Q := fun _ s => s = { s₀ with compiledFunctions := s₀.compiledFunctions ++
    [{ s₀.current with filename := s₀.currentFile }.compiled s₀.current.maxLocals isMethod 0] })
    (.modify ?_) fun _ => ?_
  · rintro s rfl
    rfl
  have hsound : s₀.strayJump = false → CompiledFunction.Sound
      ({ s₀.current with filename := s₀.currentFile }.compiled s₀.current.maxLocals isMethod 0) := by
    intro hstray
    have hc := (hs.good hstray).holds
    refine ⟨⟨false, k.strayJump, hc.congr rfl hc.locals hc.upvalues hc.retvals⟩, ?_⟩
    change s₀.current.maxLocals = if s₀.current.isHarvesting then _ else s₀.current.maxLocals
    rw [hc.isHarvesting]
    rfl
  dsimp only
  split
  case h_1 henclosing =>
      refine .pure ?_
      rintro s rfl
      refine ⟨⟨hs.stray, fun hstray => ?_⟩, fun hstray => ?_⟩
      all_goals
        have hchain := (hs.good hstray).chain
        rw [henclosing] at hchain
        cases hchain
  case h_2 outer rest henclosing =>
      refine Triple.bind (Q := fun _ s => Known k ks s ∧ (s.strayJump = false →
        Linked s₀.current s.current ∧ s.current.nestedFunctions.length = nested)) (.modify ?_)
        fun _ => .pure fun s hs => hs
      rintro s rfl
      refine ⟨⟨hs.stray, fun hstray => ?_⟩, fun hstray => ?_⟩
      all_goals
        have hgood := hs.good hstray
        have hchain := hgood.chain
        rw [henclosing] at hchain
        cases hchain with
        | inside holds linked hnested houter => ?_
      · refine ⟨houter, ?_, hgood.captures⟩
        intro f hf
        rcases List.mem_append.mp hf with hf | hf
        · exact hgood.finished f hf
        · rw [List.mem_singleton.mp hf]
          exact hsound hstray
      · exact ⟨linked, hnested⟩

/-- A function is compiled inside the current one, which is left as it was. -/
theorem compileFunction_known (hb : below.Keep) {k : Ledger} {ks : List Outer} {nested : Nat}
    {task : TaskStmt Expr Stmt} {name : CString} {isMethod : Bool} :
    Triple (fun s => Known k ks s ∧ s.current.nestedFunctions.length = nested)
      (compileFunction host below task name isMethod)
      fun func s => Known k ks s ∧ (s.strayJump = false →
        Linked func.compiler s.current ∧ s.current.nestedFunctions.length = nested) := by
  refine enterFunction_known.bind fun _ => Keeps.andThen emitCachedPrologue_keeps fun _ => ?_
  refine Keeps.andThen (compilePrologue_keeps hb) fun _ => Keeps.andThen (compileBody_keeps hb) fun _ => ?_
  exact leaveFunction_known

theorem emitClosure_keeps (hb : below.Keep) {task : TaskStmt Expr Stmt} {isMethod : Bool} :
    Keeps (emitClosure host below task isMethod) := by
  refine fun k ks => .get_bind fun s₀ hs => ?_
  have hfunc : Triple (fun s => Known k ks s ∧
      s.current.nestedFunctions.length = s₀.current.nestedFunctions.length)
      (compileFunction host below task task.name isMethod) _ := compileFunction_known hb
  refine Triple.bind (hfunc.pre ?_) fun func => ?_
  · rintro s rfl
    exact ⟨hs, rfl⟩
  · exact addNestedFunction_known.bind fun _ => emitCLOSURE_known

theorem compileDecorated_keeps (hb : below.Keep) {decorators : List Expr} {task : TaskStmt Expr Stmt}
    {isMethod : Bool} : Keeps (compileDecorated host below decorators task isMethod) := by
  refine .bind (.forIn fun dec _ => .bind (hb.expr dec) fun _ => .pure) fun _ => ?_
  refine .bind (emitClosure_keeps hb) fun _ => .bind (.forIn fun _ _ => ?_) fun _ => .pure
  exact .bind (emitCount_keeps rfl (.inl (by decide))) fun _ => .pure

/-! ### Names -/

theorem emitLiteral_keeps {l : Literal} : Keeps (emitLiteral l) := by
  cases l with
  | nil => exact emitOp_keeps rfl
  | bool b => cases b <;> exact emitOp_keeps rfl
  | int i => exact .ite (emitOp_keeps rfl) (.ite (emitOp_keeps rfl) emitConstant_keeps)
  | double bits => exact emitConstant_keeps
  | string s => exact .ite (emitOp_keeps rfl) emitConstant_keeps

theorem emitLoadSelf_keeps : Keeps emitLoadSelf := by
  refine .resolveLocal_bind (fun k ks slot => ?_) ?_
  · exact (emitLoadLocal_ready Ledger.lt_reserve).post fun _ _ hs => hs.release
  · exact .resolveUpvalue_bind rfl (fun _ => rfl) (errorAt_keeps _)

theorem emitLoadGlobal_keeps {name : CString} : Keeps (emitLoadGlobal name) := by
  refine .get_bind fun s => ?_
  split
  case h_1 slot _ => exact emitGlobalSlot_keeps rfl (Nat.le_of_lt_succ slot.toNat_lt)
  case h_2 => exact withConstant_keeps rfl

/-- `super` is `self` and the parent. -/
theorem emitSuper_keeps {parent : CString} : Keeps (do
    emitLoadSelf
    emitLoadGlobal parent
    emitOp .SUPER) :=
  .bind emitLoadSelf_keeps fun _ => .bind emitLoadGlobal_keeps fun _ => emitOp_keeps rfl

theorem compileIdentifier_keeps {name : CString} : Keeps (compileIdentifier name) := by
  refine .bind resolveStatic_keeps fun mangled => ?_
  cases mangled with
  | some mangled => exact withConstant_keeps rfl
  | none =>
      refine .resolveLocal_bind (fun k ks slot => ?_) (.resolveUpvalue_bind rfl (fun _ => rfl) ?_)
      · exact (emitLoadLocal_ready Ledger.lt_reserve).post fun _ _ hs => hs.release
      · refine .ite emitLoadSelf_keeps (.ite ?_ ?_)
        · exact .getCurrent_bind fun c => .ite (errorAt_keeps _) emitSuper_keeps
        · exact .globalSlotFor_bind fun slot hslot => emitGlobalSlot_keeps rfl hslot

theorem compileSuper_keeps : Keeps compileSuper :=
  .getCurrent_bind fun _ => .ite .pure emitSuper_keeps

/-! ### Operators -/

theorem binaryOpCode_fields (op : BinaryOp) : (binaryOpCode op).fields = [] := by
  cases op <;> rfl

theorem unaryOpCode_fields (op : UnaryOp) : (unaryOpCode op).fields = [] := by
  cases op <;> rfl

theorem logicalJump_fields (op : LogicalOp) : (logicalJump op).fields = [.jump] := by
  cases op <;> rfl

theorem compoundOpCode_fields (op : CompoundOp) : (compoundOpCode op).fields = [] := by
  cases op <;> rfl

theorem foldedBinary_keeps {op : BinaryOp} {l r : Option Constant} : Keeps (foldedBinary host op l r) := by
  unfold foldedBinary
  split
  · split
    · exact .pure
    · exact fun _ _ => .throw
  · exact .pure

theorem compileBinary_keeps (hb : below.Keep) {left right : Expr} {op : BinaryOp} :
    Keeps (compileBinary host below left op right) := by
  refine .bind isConstantExpr_keeps fun _ => .bind isConstantExpr_keeps fun _ => ?_
  refine .bind foldedBinary_keeps fun folded => ?_
  cases folded with
  | some folded => exact emitConstant_keeps
  | none =>
      dsimp only
      split
      · exact hb.expr _
      · have hfields := binaryOpCode_fields op
        exact .bind (hb.expr _) fun _ => .bind (hb.expr _) fun _ => emitOp_keeps hfields

theorem compileUnary_keeps (hb : below.Keep) {op : UnaryOp} {operand : Expr} :
    Keeps (compileUnary host below op operand) := by
  refine .bind isConstantExpr_keeps fun _ => ?_
  split
  · exact emitConstant_keeps
  · have hfields := unaryOpCode_fields op
    exact .bind (hb.expr _) fun _ => emitOp_keeps hfields

theorem compileLogical_keeps (hb : below.Keep) {left right : Expr} {op : LogicalOp} :
    Keeps (compileLogical below left op right) := by
  have hfields := logicalJump_fields op
  refine .bind (hb.expr _) fun _ => .bind (emitOp_keeps rfl) fun _ => ?_
  refine .bind (emitJump_keeps hfields) fun _ => .bind (emitOp_keeps rfl) fun _ => ?_
  exact .bind (hb.expr _) fun _ => patchJump_keeps

theorem compileTernary_keeps (hb : below.Keep) {condition thenBranch elseBranch : Expr} :
    Keeps (compileTernary below condition thenBranch elseBranch) := by
  refine .bind (hb.expr _) fun _ => .bind (emitJump_keeps rfl) fun _ => .bind (hb.expr _) fun _ => ?_
  refine .bind (emitJump_keeps rfl) fun _ => .bind patchJump_keeps fun _ => ?_
  exact .bind (hb.expr _) fun _ => patchJump_keeps

theorem compileAwait_keeps (hb : below.Keep) {expression : Expr} :
    Keeps (compileAwait below expression) :=
  .bind (hb.expr _) fun _ => emitOp_keeps rfl

/-! ### Calls -/

theorem exprs_keeps (hb : below.Keep) {ι : Type} {xs : List ι} {value : ι → Expr} :
    Keeps (forIn xs PUnit.unit fun x _ => do
      below.expr (value x)
      pure (ForInStep.yield PUnit.unit)) :=
  .forIn fun _ _ => .bind (hb.expr _) fun _ => .pure

theorem emitSpreadList_keeps (hb : below.Keep) {elements : List Expr} :
    Keeps (emitSpreadList below elements) := by
  refine .bind (emitCount_keeps rfl (.inl (by decide))) fun _ => .bind (.forIn fun e _ => ?_) fun _ => .pure
  split
  · exact .bind (hb.expr _) fun _ => .bind (emitOp_keeps rfl) fun _ => .pure
  · exact .bind (hb.expr _) fun _ => .bind (emitOp_keeps rfl) fun _ => .pure

theorem compileKeywordCall_keeps (hb : below.Keep) {callee : Expr} {arguments : List (Argument Expr)} :
    Keeps (compileKeywordCall below callee arguments) := by
  refine .bind (hb.expr _) fun _ => .bind (exprs_keeps hb) fun _ => ?_
  refine .bind (.forIn fun a _ => .withConstant rfl (.bind (hb.expr _) fun _ => .pure)) fun _ => ?_
  refine .bind (emitCount_keeps rfl (.inr rfl)) fun _ => .bind (emitCount_keeps rfl (.inr rfl)) fun _ => ?_
  exact recordCallSite_keeps

theorem compileInvoke_keeps (hb : below.Keep) {callee object : Expr} {property : CString}
    {arguments : List (Argument Expr)} (harguments : arguments.length ≤ 255) :
    Keeps (compileInvoke below callee object property arguments) := by
  refine .bind (hb.expr _) fun _ => .bind (exprs_keeps hb) fun _ => ?_
  refine .identifierConstant_bind fun k ks n => addICEntry_known.bind fun icIdx => ?_
  refine Triple.bind (emitProperty_known (k := k.note (.constant, n)) List.mem_cons_self k.pending
    Ledger.note_sub (fun _ he => (List.mem_cons.mp he).symm) [.count arguments.length] rfl ?_)
    fun _ => recordCallSite_keeps k ks
  simpa [Operand.localSlot?, Operand.entry?, Operand.Fits] using Or.inl harguments

/-- There are no more than a byte can count. -/
theorem Keeps.checkCount_bind {α : Type} {n : Nat} {message : CString} {f : Unit → CompileM α}
    (h : n ≤ 255 → Keeps (f ⟨⟩)) : Keeps (checkCount n message >>= f) := by
  intro k ks
  refine Triple.bind (Q := fun _ s => n ≤ 255 ∧ Known k ks s)
    (.ite (fun _ => errorAt_triple) fun hn => .pure fun s hs => ⟨by omega, hs⟩)
    fun _ => .of_and fun hn => h hn k ks

theorem foldedCall_keeps {callee : Expr} {arguments : List (Argument Expr)} :
    Keeps (foldedCall host callee arguments) := by
  unfold foldedCall
  split
  case h_1 => exact .pure
  case h_2 =>
      refine .bind resolveLocal_keeps fun _ => .ite .pure (.bind resolveUpvalue_keeps fun _ => ?_)
      refine .ite .pure (.get_bind fun _ => .ite .pure ?_)
      split
      · exact .bind isConstantExpr_keeps fun _ => .pure
      · exact .pure

theorem compilePlainCall_keeps (hb : below.Keep) {callee : Expr} {arguments : List (Argument Expr)} :
    Keeps (compilePlainCall host below callee arguments) := by
  refine .checkCount_bind fun hn => ?_
  split
  case h_1 => exact compileInvoke_keeps hb hn
  case h_2 =>
      refine .bind foldedCall_keeps fun folded => ?_
      cases folded with
      | some folded => exact emitConstant_keeps
      | none =>
          refine .bind (hb.expr _) fun _ => .bind (exprs_keeps hb) fun _ => ?_
          exact .bind (emitCount_keeps rfl (.inl hn)) fun _ => recordCallSite_keeps

theorem compileSpreadCall_keeps (hb : below.Keep) {callee : Expr} {arguments : List (Argument Expr)} :
    Keeps (compileSpreadCall below callee arguments) := by
  refine .bind (hb.expr _) fun _ => .bind (emitSpreadList_keeps hb) fun _ => ?_
  exact .bind (emitOp_keeps rfl) fun _ => recordCallSite_keeps

/-- A captured value is loaded from the slot it is said to be in, whatever function that belongs to. -/
theorem emitLoadOld_known {k : Ledger} {ks : List Outer} {slot : Nat} :
    Triple (fun s => Known k ks s ∧ (s.strayJump = false → slot ≤ 65535)) (do
      modifyCurrent fun c => { c with oldLoads := c.oldLoads ++ [slot] }
      emitLoadLocal slot) fun _ => Known k ks := by
  refine Triple.bind (Q := fun _ s => Known k ks s ∧ (s.strayJump = false → slot ≤ 65535) ∧
    slot ∈ s.current.oldLoads) (.modify fun s hs => ⟨⟨hs.1.stray, fun hstray => ?_⟩, hs.2, by simp⟩)
    fun _ => ?_
  · have hgood := hs.1.good hstray
    have hc := hgood.holds
    refine hgood.replace { hc with pending := hc.pending, used := hc.used, placed := ?_ } rfl
    intro i hi
    refine (hc.placed i hi).mono ?_ (fun _ => le_refl _) fun _ _ => rfl
    rintro n (hn | hn)
    · exact .inl hn
    · exact .inr (List.mem_append_left _ hn)
  · have hplaced : ∀ (s : BytecodeCompiler) (op : OpCode) (o : Operand) (line : Nat),
        slot ∈ s.current.oldLoads → [o].map Operand.field = op.fields.map some →
        o.localSlot? = some slot → o.entry? = none → o.Fits → op ≠ .CLOSURE →
        Emitted.Placed s.current.tables { op, operands := [o], line } := by
      intro s op o line hslot hfields hlocal hentry hfits hclosure
      refine ⟨.inl ⟨hfields, hclosure⟩, ?_, ?_, ?_⟩
      · intro o' ho' n hn
        rw [List.mem_singleton.mp ho', hlocal] at hn
        cases hn
        exact .inr hslot
      · simp [Emitted.entries, hentry]
      · intro o' ho'
        rw [List.mem_singleton.mp ho']
        exact .inl hfits
    refine .ite (fun hle => ?_) fun _ => ?_
    all_goals
      refine .modify fun s hs => ⟨hs.1.stray, fun hstray => ?_⟩
      have hgood := hs.1.good hstray
      refine hgood.replace (hgood.holds.emit ?_ k.pending (fun _ he => he) fun _ he => .inl he) rfl
    · exact hplaced s .LOAD_LOCAL (.slot slot) _ hs.2.2 rfl rfl rfl hle (by decide)
    · exact hplaced s .LOAD_LOCAL_W (.wideSlot slot) _ hs.2.2 rfl rfl rfl (hs.2.1 hstray) (by decide)

theorem capturedOld_known {k : Ledger} {ks : List Outer} {callee : Expr}
    {arguments : List (Argument Expr)} :
    Triple (Known k ks) (capturedOld callee arguments) fun found s =>
      Known k ks s ∧ ∀ slot, found = some slot → s.strayJump = false → slot ≤ 65535 := by
  have hnone : Triple (Known k ks) (pure none : CompileM (Option Nat)) fun found s => Known k ks s ∧
      ∀ slot : Nat, found = some slot → s.strayJump = false → slot ≤ 65535 :=
    .pure fun s hs => ⟨hs, fun slot h => nomatch h⟩
  refine .get_bind fun s₀ hs => ?_
  dsimp only
  split
  case h_1 name argument _ =>
      refine .ite (fun _ => .pure ?_) fun _ => hnone.pre ?_
      · rintro s rfl
        refine ⟨hs, fun slot hslot hstray => ?_⟩
        obtain ⟨capture, hmem, rfl⟩ := lookup_mem hslot
        exact (hs.good hstray).captures capture hmem
      · rintro s rfl
        exact hs
  case h_2 =>
      refine hnone.pre ?_
      rintro s rfl
      exact hs

theorem compileCall_keeps (hb : below.Keep) {callee : Expr} {arguments : List (Argument Expr)} :
    Keeps (compileCall host below callee arguments) := by
  refine fun k ks => capturedOld_known.bind fun found => ?_
  cases found with
  | some slot =>
      exact emitLoadOld_known.pre fun s hs => ⟨hs.1, hs.2 slot rfl⟩
  | none =>
      refine Triple.pre ?_ fun s hs => hs.1
      refine Keeps.ite (compileKeywordCall_keeps hb) (.ite (compileSpreadCall_keeps hb) ?_) k ks
      exact compilePlainCall_keeps hb

/-! ### Containers -/

theorem compileIndex_keeps (hb : below.Keep) {object index : Expr} :
    Keeps (compileIndex below object index) :=
  .bind (hb.expr _) fun _ => .bind (hb.expr _) fun _ => emitOp_keeps rfl

theorem compileArray_keeps (hb : below.Keep) {elements : List Expr} :
    Keeps (compileArray below elements) := by
  refine .ite (emitSpreadList_keeps hb) (.checkCount_bind fun hn => ?_)
  exact .bind (exprs_keeps hb) fun _ => emitCount_keeps rfl (.inl hn)

theorem compileTuple_keeps (hb : below.Keep) {elements : List Expr} :
    Keeps (compileTuple below elements) :=
  .checkCount_bind fun hn => .bind (exprs_keeps hb) fun _ => emitCount_keeps rfl (.inl hn)

theorem compileDictionary_keeps (hb : below.Keep) {pairs : List (Expr × Expr)} :
    Keeps (compileDictionary below pairs) := by
  refine .bind (.forIn fun ⟨key, value⟩ _ => ?_) fun _ => .checkCount_bind fun _ => emitCount_keeps rfl (.inr rfl)
  exact .bind (hb.expr key) fun _ => .bind (hb.expr value) fun _ => .pure

/-! ### Assignments -/

theorem emitStoreName_keeps {name : CString} : Keeps (emitStoreName name) := by
  refine .bind resolveStatic_keeps fun mangled => ?_
  cases mangled with
  | some mangled => exact withConstant_keeps rfl
  | none =>
      refine .resolveLocal_bind (fun k ks slot => ?_) (.resolveUpvalue_bind rfl (fun _ => rfl) ?_)
      · exact (emitStoreLocal_ready Ledger.lt_reserve).post fun _ _ hs => hs.release
      · refine .get_bind fun s => ?_
        split
        case h_1 slot _ _ => exact emitGlobalSlot_keeps rfl (Nat.le_of_lt_succ slot.toNat_lt)
        case h_2 =>
            refine .ite (.addLocal_bind fun k ks slot => ?_) ?_
            · exact (emitStoreLocal_ready Ledger.lt_reserve).post fun _ _ hs => hs.release
            · exact .globalSlotFor_bind fun slot hslot => emitGlobalSlot_keeps rfl hslot

theorem compileAssign_keeps (hb : below.Keep) {name : CString} {value : Expr} :
    Keeps (compileAssign below name value) :=
  .bind (hb.expr _) fun _ => emitStoreName_keeps

theorem compileNewElement_keeps (hb : below.Keep) {value : Expr} {compoundOp : Option CompoundOp} :
    Keeps (compileNewElement below value compoundOp) := by
  cases compoundOp with
  | none => exact hb.expr _
  | some op =>
      have hfields := compoundOpCode_fields op
      refine .bind (emitOp_keeps rfl) fun _ => .bind (emitOp_keeps rfl) fun _ => .bind (hb.expr _) fun _ => ?_
      exact emitOp_keeps hfields

theorem compileIndexAssign_keeps (hb : below.Keep) {object index value : Expr}
    {compoundOp : Option CompoundOp} :
    Keeps (compileIndexAssign below object index value compoundOp) := by
  refine .bind (hb.expr _) fun _ => .bind (hb.expr _) fun _ => ?_
  exact .bind (compileNewElement_keeps hb) fun _ => emitOp_keeps rfl

theorem emitElement_ready {k : Ledger} {ks : List Outer} {tempVar i : Nat} (h : tempVar < k.slots) :
    Triple (Known k ks) (emitElement tempVar i) fun _ => Known k ks := by
  refine (emitLoadLocal_ready h).bind fun _ => ?_
  exact Keeps.triple (Keeps.withConstant rfl (emitOp_keeps rfl))

theorem compileDestructureTarget_ready (hb : below.Keep) {k : Ledger} {ks : List Outer}
    {tempVar i : Nat} {target : Expr} (h : tempVar < k.slots) :
    Triple (Known k ks) (compileDestructureTarget below tempVar i target) fun _ => Known k ks := by
  unfold compileDestructureTarget
  split
  case h_1 =>
      refine (emitElement_ready h).bind fun _ => Keeps.andThen emitStoreName_keeps fun _ => ?_
      exact Keeps.triple (emitOp_keeps rfl)
  case h_2 =>
      refine Keeps.andThen (hb.expr _) fun _ => Keeps.andThen (hb.expr _) fun _ => ?_
      refine (emitElement_ready h).bind fun _ => Keeps.andThen (emitOp_keeps rfl) fun _ => ?_
      exact Keeps.triple (emitOp_keeps rfl)
  case h_3 =>
      refine Keeps.andThen (hb.expr _) fun _ => (emitElement_ready h).bind fun _ => ?_
      refine (makeConstant_known _).bind fun n => addICEntry_known.bind fun icIdx => ?_
      exact Triple.bind (emitPropertyNoted_known rfl) fun _ => Keeps.triple (emitOp_keeps rfl)
  case h_4 => exact .pure fun _ hs => hs

theorem compileDestructureAssign_keeps (hb : below.Keep) {targets : List (Option Expr)} {value : Expr} :
    Keeps (compileDestructureAssign below targets value) := by
  refine .bind (hb.expr _) fun _ => .addLocal_bind fun k ks tempVar => ?_
  refine (emitStoreLocal_ready Ledger.lt_reserve).bind fun _ => ?_
  refine Triple.bind (Triple.forIn _ ?_) fun _ => .pure fun _ hs => hs.release
  rintro ⟨target, i⟩ _
  cases target with
  | none => exact .pure fun _ hs => hs
  | some target =>
      exact (compileDestructureTarget_ready hb Ledger.lt_reserve).bind fun _ => .pure fun _ hs => hs

/-! ### Objects -/

theorem compilePropertyAccess_keeps (hb : below.Keep) {object : Expr} {property : CString}
    {isOptional : Bool} : Keeps (compilePropertyAccess below object property isOptional) := by
  refine .bind (hb.expr _) fun _ => .identifierConstant_bind fun k ks n => .ite (fun _ => ?_) fun _ => ?_
  · refine Keeps.andThen (emitOp_keeps rfl) fun _ => Keeps.andThen (emitJump_keeps rfl) fun _ => ?_
    exact addICEntry_known.bind fun icIdx => Triple.bind (emitPropertyNoted_known rfl) fun _ => Keeps.triple patchJump_keeps
  · exact addICEntry_known.bind fun icIdx => emitPropertyNoted_known rfl

/-- An instruction for a constant made for it and a number that fits or is not checked. -/
theorem emitConstantCount_known {k : Ledger} {ks : List Outer} {op : OpCode} {n : Nat}
    (counts : List Nat) (hfields : op.fields = .constant :: counts.map fun _ => .count)
    (hcounts : ∀ count ∈ counts, count ≤ 255 ∨ unchecked op (.count count) = true) :
    Triple (Known (k.note (.constant, n)) ks) (emit op (.constant n :: counts.map Operand.count))
      fun _ => Known k ks := by
  have hclosure : op ≠ .CLOSURE := by
    rintro rfl
    cases hfields
  have hentries : (Operand.constant n :: counts.map Operand.count).filterMap Operand.entry? =
      [(.constant, n)] := by
    have hnone : (counts.map Operand.count).filterMap Operand.entry? = [] := by
      rw [List.filterMap_eq_nil_iff]
      intro o ho
      obtain ⟨count, -, rfl⟩ := List.mem_map.mp ho
      rfl
    simp [Operand.entry?, hnone]
  refine emit_known (k := k.note (.constant, n)) ⟨?_, ?_, ?_, ?_, hclosure⟩ Ledger.note_sub ?_
  · rw [hfields]
    simp [Operand.field, Function.comp_def]
  · intro o ho m hm
    rcases List.mem_cons.mp ho with rfl | ho
    · cases hm
    · obtain ⟨count, -, rfl⟩ := List.mem_map.mp ho
      cases hm
  · rw [hentries]
    intro e he
    rw [List.mem_singleton.mp he]
    exact List.mem_cons_self
  · intro _ o ho
    rcases List.mem_cons.mp ho with rfl | ho
    · exact .inr rfl
    · obtain ⟨count, hcount, rfl⟩ := List.mem_map.mp ho
      exact hcounts count hcount
  · rw [hentries]
    intro e he
    rcases List.mem_cons.mp he with rfl | he
    · exact .inr (List.mem_singleton_self _)
    · exact .inl he

theorem compileNew_keeps (hb : below.Keep) {className : CString} {arguments : List Expr} :
    Keeps (compileNew below className arguments) := by
  refine .checkCount_bind fun hn => .bind (exprs_keeps hb) fun _ => .identifierConstant_bind fun k ks n => ?_
  exact emitConstantCount_known [arguments.length] rfl (by simpa using Or.inl hn)

theorem compileNewProperty_known (hb : below.Keep) {k : Ledger} {ks : List Outer} {n : Nat}
    {value : Expr} {compoundOp : Option CompoundOp} :
    Triple (Known (k.note (.constant, n)) ks) (compileNewProperty below n value compoundOp)
      fun _ => Known (k.note (.constant, n)) ks := by
  cases compoundOp with
  | none => exact hb.expr _ _ _
  | some op =>
      have hfields := compoundOpCode_fields op
      refine Keeps.andThen (emitOp_keeps rfl) fun _ => addICEntry_known.bind fun icIdx => ?_
      refine Triple.bind (emitPropertyAgain_known rfl) fun _ => Keeps.andThen (hb.expr _) fun _ => ?_
      exact emitOp_keeps hfields _ _

theorem compileSet_keeps (hb : below.Keep) {object value : Expr} {name : CString}
    {compoundOp : Option CompoundOp} : Keeps (compileSet below object name value compoundOp) := by
  refine .bind (hb.expr _) fun _ => .identifierConstant_bind fun k ks n => ?_
  refine (compileNewProperty_known hb).bind fun _ => addICEntry_known.bind fun icIdx => ?_
  exact emitPropertyNoted_known rfl

theorem compileLambda_keeps (hb : below.Keep) {params : List CString} {body : Option Expr}
    {stmtBody : List Stmt} {isVariadic isAsync : Bool} :
    Keeps (compileLambda host below params body stmtBody isVariadic isAsync) := by
  refine fun k ks => Triple.of_forall fun s₀ hs => ?_
  have hfunc : Triple (fun s => Known k ks s ∧
      s.current.nestedFunctions.length = s₀.current.nestedFunctions.length)
      (compileFunction host below (lambdaTask params body stmtBody isVariadic isAsync) (lit "<lambda>"))
      _ := compileFunction_known hb
  refine Triple.bind (hfunc.pre ?_) fun func => ?_
  · rintro s rfl
    exact ⟨hs, rfl⟩
  · refine .get_bind fun s₁ hs₁ => ?_
    refine Triple.bind (addNestedFunction_known.pre ?_) fun _ => emitCLOSURE_known
    rintro s rfl
    exact ⟨hs₁.1, fun hstray => ⟨(hs₁.2 hstray).1, rfl⟩⟩

/-! ### All expressions -/

theorem compileExpr_keeps (hb : below.Keep) (e : Expr) : Keeps (compileExpr host below e) := by
  refine .bind (.modify fun _ => rfl) fun _ => ?_
  cases e.variant with
  | LiteralExpr value => exact emitLiteral_keeps
  | IdentifierExpr name => exact compileIdentifier_keeps
  | BinaryExpr left op right => exact compileBinary_keeps hb
  | UnaryExpr op operand => exact compileUnary_keeps hb
  | CallExpr callee arguments => exact compileCall_keeps hb
  | IndexExpr object index => exact compileIndex_keeps hb
  | ArrayExpr elements => exact compileArray_keeps hb
  | TupleExpr elements => exact compileTuple_keeps hb
  | DictionaryExpr pairs => exact compileDictionary_keeps hb
  | AssignExpr name value => exact compileAssign_keeps hb
  | IndexAssignExpr object index value compoundOp => exact compileIndexAssign_keeps hb
  | DestructureAssignExpr targets value => exact compileDestructureAssign_keeps hb
  | LogicalExpr left op right => exact compileLogical_keeps hb
  | TernaryExpr condition thenBranch elseBranch => exact compileTernary_keeps hb
  | LambdaExpr params body stmtBody isVariadic isAsync => exact compileLambda_keeps hb
  | PropertyAccessExpr object property isOptional => exact compilePropertyAccess_keeps hb
  | SelfExpr => exact emitLoadSelf_keeps
  | SuperExpr => exact compileSuper_keeps
  | NewExpr className arguments => exact compileNew_keeps hb
  | SetExpr object name value compoundOp => exact compileSet_keeps hb
  | SpreadExpr expression => exact errorAt_keeps _
  | AwaitExpr expression => exact compileAwait_keeps hb

/-! ### Simple statements -/

/-- The operands of an instruction that is known to be in order, if there is one. -/
def FusedReady (k : Ledger) : Option (OpCode × List Operand) → Prop
  | some (op, operands) => Ready k op operands
  | none => True

theorem fusedLocal_known {k : Ledger} {ks : List Outer} {localDst : Nat} {op : BinaryOp} {right : Expr}
    (hdst : localDst < k.slots) :
    Triple (Known k ks) (fusedLocal localDst op right) fun fused s =>
      ∃ slots, FusedReady { k with slots := max k.slots slots } fused ∧
        Known { k with slots := max k.slots slots } ks s := by
  have hnone : Triple (Known k ks) (pure none : CompileM (Option (OpCode × List Operand))) fun fused s =>
      ∃ slots, FusedReady { k with slots := max k.slots slots } fused ∧
        Known { k with slots := max k.slots slots } ks s :=
    .pure fun s hs => ⟨0, trivial, hs.weaken (by simp) rfl rfl rfl⟩
  refine .ite (fun _ => hnone) fun hle => ?_
  split
  case h_1 rhs =>
      refine resolveLocal_bind (fun localSrc => ?_) hnone
      have hdst' : localDst < max k.slots (localSrc + 1) := lt_of_lt_of_le hdst (le_max_left _ _)
      have hsrc' : localSrc < max k.slots (localSrc + 1) := Ledger.lt_reserve
      refine .ite (fun _ => .pure fun s hs => ⟨localSrc + 1, trivial, hs⟩) fun hsrc => ?_
      have hready : ∀ fused, fused.fields = [.slot, .slot] → fused ≠ .CLOSURE →
          Ready (k.reserve localSrc) fused [.slot localDst, .slot localSrc] := by
        intro fused hfields hclosure
        refine ⟨by rw [hfields]; rfl, ?_, ?_, ?_, hclosure⟩
        · simp only [List.mem_cons, List.not_mem_nil, or_false, forall_eq_or_imp, forall_eq,
            Operand.localSlot?, Option.some.injEq, forall_eq']
          exact ⟨hdst', hsrc'⟩
        · simp [Operand.entry?]
        · intro _
          simp only [List.mem_cons, List.not_mem_nil, or_false, forall_eq_or_imp, forall_eq,
            Operand.Fits]
          omega
      split
      · exact .pure fun s hs => ⟨localSrc + 1, hready _ rfl (by decide), hs⟩
      · exact .pure fun s hs => ⟨localSrc + 1, hready _ rfl (by decide), hs⟩
      · exact .pure fun s hs => ⟨localSrc + 1, trivial, hs⟩
  case h_2 val =>
      have hready : ∀ i : Int, -128 ≤ i → i ≤ 127 →
          Ready { k with slots := max k.slots 0 } .INC_LOCAL_BY [.slot localDst, .amount i] := by
        intro i hlow hhigh
        refine ⟨rfl, ?_, ?_, ?_, by decide⟩
        · simp only [List.mem_cons, List.not_mem_nil, or_false, forall_eq_or_imp, forall_eq,
            Operand.localSlot?, Option.some.injEq, forall_eq', reduceCtorEq, false_implies,
            implies_true, and_true]
          exact lt_of_lt_of_le hdst (le_max_left _ _)
        · simp [Operand.entry?]
        · intro _
          simp only [List.mem_cons, List.not_mem_nil, or_false, forall_eq_or_imp, forall_eq,
            Operand.Fits]
          omega
      split
      · refine .ite (fun hval => .pure fun s hs =>
          ⟨0, hready _ ?_ ?_, hs.weaken (by simp) rfl rfl rfl⟩) fun _ => hnone
        · have := Int64.le_iff_toInt_le.mp hval.1
          simp at this
          omega
        · have := Int64.le_iff_toInt_le.mp hval.2
          simpa using this
      · refine .ite (fun hval => .pure fun s hs =>
          ⟨0, hready _ ?_ ?_, hs.weaken (by simp) rfl rfl rfl⟩) fun _ => hnone
        · have := Int64.le_iff_toInt_le.mp hval.2
          simp at this
          omega
        · have := Int64.le_iff_toInt_le.mp hval.1
          simp at this
          omega
      · exact hnone
  case h_3 => exact hnone

theorem assignedGlobal_known {k : Ledger} {ks : List Outer} {name : CString} :
    Triple (Known k ks) (assignedGlobal name) fun found s =>
      (∀ slot, found = some slot → slot ≤ 65535) ∧ Known k ks s := by
  refine .get_bind fun s₀ hs => ?_
  split
  case h_1 slot _ _ =>
      refine .pure ?_
      rintro s rfl
      refine ⟨fun n hn => ?_, hs⟩
      cases hn
      exact Nat.le_of_lt_succ slot.toNat_lt
  case h_2 =>
      refine .ite (fun _ => ?_) fun _ => .pure ?_
      · have hslot : Triple (Known k ks) (globalSlotFor name) _ := globalSlotFor_known
        refine Triple.map (hslot.weaken ?_ ?_)
        · rintro s rfl
          exact hs
        · intro slot s hs
          refine ⟨fun n hn => ?_, hs.2⟩
          cases hn
          exact hs.1
      · rintro s rfl
        exact ⟨by simp, hs⟩

theorem fusedGlobal_known {k : Ledger} {ks : List Outer} {gSlot : Nat} {op : BinaryOp} {right : Expr}
    (hslot : gSlot ≤ 65535) :
    Triple (Known k ks) (fusedGlobal gSlot op right) fun fused s =>
      ∃ slots, FusedReady { k with slots := max k.slots slots } fused ∧
        Known { k with slots := max k.slots slots } ks s := by
  have hnone : Triple (Known k ks) (pure none : CompileM (Option (OpCode × List Operand))) fun fused s =>
      ∃ slots, FusedReady { k with slots := max k.slots slots } fused ∧
        Known { k with slots := max k.slots slots } ks s :=
    .pure fun s hs => ⟨0, trivial, hs.weaken (by simp) rfl rfl rfl⟩
  unfold fusedGlobal
  split
  case h_1 => exact hnone
  case h_2 rhs _ =>
      refine resolveLocal_bind (fun localSrc => ?_) hnone
      refine .ite (fun hle => .pure fun s hs => ⟨localSrc + 1, ?_, hs⟩)
        fun _ => .pure fun s hs => ⟨localSrc + 1, trivial, hs⟩
      refine ⟨rfl, ?_, ?_, ?_, by decide⟩
      · simp only [List.mem_cons, List.not_mem_nil, or_false, forall_eq_or_imp, forall_eq,
          Operand.localSlot?, Option.some.injEq, forall_eq', reduceCtorEq, false_implies,
          implies_true, true_and]
        exact Ledger.lt_reserve
      · simp [Operand.entry?]
      · intro _
        simp only [List.mem_cons, List.not_mem_nil, or_false, forall_eq_or_imp, forall_eq, Operand.Fits]
        omega

theorem fusedAssign_known {k : Ledger} {ks : List Outer} {name : CString} {op : BinaryOp} {right : Expr} :
    Triple (Known k ks) (fusedAssign name op right) fun fused s =>
      ∃ slots, FusedReady { k with slots := max k.slots slots } fused ∧
        Known { k with slots := max k.slots slots } ks s := by
  refine resolveLocal_bind (fun slot => ?_) ?_
  · refine (fusedLocal_known Ledger.lt_reserve).post ?_
    rintro fused s ⟨slots, hready, hs⟩
    refine ⟨max (slot + 1) slots, ?_⟩
    rw [← max_assoc]
    exact ⟨hready, hs⟩
  · refine assignedGlobal_known.bind fun found => .of_and fun hfound => ?_
    cases found with
    | some gSlot => exact fusedGlobal_known (hfound gSlot rfl)
    | none => exact .pure fun s hs => ⟨0, trivial, hs.weaken (by simp) rfl rfl rfl⟩

theorem compileCompoundAssignFast_keeps {name : CString} {value : Expr} :
    Keeps (compileCompoundAssignFast name value) := by
  unfold compileCompoundAssignFast
  split
  case h_1 =>
      refine .ite (fun k ks => fusedAssign_known.bind fun fused => .of_exists fun slots => .of_and
        fun hready => ?_) .pure
      have hback : ∀ s, Known { k with slots := max k.slots slots } ks s → Known k ks s :=
        fun s hs => hs.weaken (le_max_left _ _) rfl rfl rfl
      cases fused with
      | none => exact .pure hback
      | some fused => exact (emit_ready hready).bind fun _ => .pure hback
  case h_2 => exact .pure

theorem compileDropped_keeps (hb : below.Keep) {expr : Expr} : Keeps (compileDropped below expr) :=
  .bind (hb.expr _) fun _ => emitOp_keeps rfl

theorem compileExpressionStmt_keeps (hb : below.Keep) {expr : Expr} :
    Keeps (compileExpressionStmt below expr) := by
  unfold compileExpressionStmt
  split
  · exact .bind compileCompoundAssignFast_keeps fun _ => .ite .pure (compileDropped_keeps hb)
  · exact compileDropped_keeps hb

theorem compileOutStmt_keeps (hb : below.Keep) {expr : Expr} : Keeps (compileOutStmt below expr) :=
  .bind (hb.expr _) fun _ => emitOp_keeps rfl

/-- A new variable gets the value on the stack. -/
theorem bindLocal_keeps {name : CString} {isStackResident : Bool} :
    Keeps (addLocal name isStackResident >>= emitStoreLocal) :=
  .addLocal_bind fun _ _ _ =>
    (emitStoreLocal_ready Ledger.lt_reserve).post fun _ _ hs => hs.release

theorem compileVarDecl_keeps (hb : below.Keep) {name : CString} {initializer : Option Expr} :
    Keeps (compileVarDecl below name initializer) := by
  refine .bind (hb.optionalExpr _) fun _ => .getCurrent_bind fun c => .ite ?_ bindLocal_keeps
  exact .globalSlotFor_bind fun slot hslot => .bind (emitGlobalSlot_keeps rfl hslot) fun _ => emitOp_keeps rfl

/-! ### Branches and loops -/

theorem compileWhen_keeps (hb : below.Keep) {condition : Expr} {thenBranch : Stmt}
    {elseBranch : Option Stmt} : Keeps (compileWhen host below condition thenBranch elseBranch) := by
  refine .bind isConstantExpr_keeps fun folded => ?_
  cases folded with
  | some folded =>
      refine .ite (hb.stmt _) ?_
      cases elseBranch with
      | some elseBranch => exact hb.stmt _
      | none => exact .pure
  | none =>
      refine .bind (hb.expr _) fun _ => .bind (emitJump_keeps rfl) fun _ => .bind (hb.stmt _) fun _ => ?_
      cases elseBranch with
      | some elseBranch =>
          refine .bind (emitJump_keeps rfl) fun _ => .bind patchJump_keeps fun _ => ?_
          exact .bind (hb.stmt _) fun _ => patchJump_keeps
      | none => exact patchJump_keeps

theorem compileWhile_keeps (hb : below.Keep) {condition : Expr} {body : Stmt} :
    Keeps (compileWhile host below condition body) := by
  refine .bind isConstantExpr_keeps fun _ => .ite .pure (.bind startLoop_keeps fun _ => ?_)
  refine .bind codeSize_keeps fun _ => .bind (hb.expr _) fun _ => .bind (emitJump_keeps rfl) fun _ => ?_
  refine .bind (hb.stmt _) fun _ => .bind emitLoop_keeps fun _ => .bind patchJump_keeps fun _ => ?_
  exact endLoop_keeps

theorem setLoopStart_keeps {start : Nat} : Keeps (setLoopStart start) := .modify fun _ => rfl

/-- A test of two variables of the function that small. -/
theorem emitFusedTest_ready {k : Ledger} {ks : List Outer} {loopVar endVar : Nat}
    (hloop : loopVar < k.slots) (hend : endVar < k.slots) (hle : loopVar ≤ 0xFF ∧ endVar ≤ 0xFF) :
    Triple (Known k ks) (emit .LOOP_LESS_EQ_LOCAL [.slot loopVar, .slot endVar, .jump 0xFFFFFFFF])
      fun _ => Known k ks := by
  refine emit_ready ⟨rfl, ?_, ?_, ?_, by decide⟩
  · simp only [List.mem_cons, List.not_mem_nil, or_false, forall_eq_or_imp, forall_eq,
      Operand.localSlot?, Option.some.injEq, forall_eq', reduceCtorEq, false_implies,
      implies_true, and_true]
    exact ⟨hloop, hend⟩
  · simp [Operand.entry?]
  · intro _
    simp only [List.mem_cons, List.not_mem_nil, or_false, forall_eq_or_imp, forall_eq, Operand.Fits]
    omega

theorem emitCountingTest_ready {k : Ledger} {ks : List Outer} {loopVar endVar skipFirstInc : Nat}
    (hloop : loopVar < k.slots) (hend : endVar < k.slots) :
    Triple (Known k ks) (emitCountingTest loopVar endVar skipFirstInc) fun _ => Known k ks := by
  refine .ite (fun hle => ?_) fun _ => ?_
  · refine Triple.bind (emit_ready ⟨rfl, ?_, ?_, ?_, by decide⟩) fun _ => ?_
    · simpa [Operand.localSlot?] using hloop
    · simp [Operand.entry?]
    · intro _
      simpa [Operand.Fits, unchecked] using hle.1
    · refine Keeps.andThen patchJump_keeps fun _ => (emitFusedTest_ready hloop hend hle).bind fun _ => ?_
      exact Keeps.andThen codeSize_keeps fun _ => .pure fun _ hs => hs
  · refine (emitLoadLocal_ready hloop).bind fun _ => Keeps.andThen (emitOp_keeps rfl) fun _ => ?_
    refine Keeps.andThen (emitOp_keeps rfl) fun _ => (emitStoreLocal_ready hloop).bind fun _ => ?_
    refine Keeps.andThen (emitOp_keeps rfl) fun _ => Keeps.andThen patchJump_keeps fun _ => ?_
    refine (emitLoadLocal_ready hend).bind fun _ => (emitLoadLocal_ready hloop).bind fun _ => ?_
    exact Keeps.andThen (emitOp_keeps rfl) fun _ => Keeps.triple (emitJump_keeps rfl)

theorem compileCounting_ready (hb : below.Keep) {k : Ledger} {ks : List Outer} {loopVar endVar : Nat}
    {body : Stmt} (hloop : loopVar < k.slots) (hend : endVar < k.slots) :
    Triple (Known k ks) (compileCounting below loopVar endVar body) fun _ => Known k ks := by
  refine Keeps.andThen startLoop_keeps fun _ => Keeps.andThen (emitJump_keeps rfl) fun _ => ?_
  refine Keeps.andThen codeSize_keeps fun _ => Keeps.andThen setLoopStart_keeps fun _ => ?_
  refine (emitCountingTest_ready hloop hend).bind fun _ => Keeps.andThen (hb.stmt _) fun _ => ?_
  refine Keeps.andThen emitLoop_keeps fun _ => Keeps.andThen patchJump_keeps fun _ => ?_
  exact Keeps.triple endLoop_keeps

theorem emitStepCheck_ready {k : Ledger} {ks : List Outer} {stepVar : Nat} (hstep : stepVar < k.slots) :
    Triple (Known k ks) (emitStepCheck stepVar) fun _ => Known k ks := by
  refine (emitLoadLocal_ready hstep).bind fun _ => Keeps.andThen (emitOp_keeps rfl) fun _ => ?_
  refine Keeps.andThen (emitOp_keeps rfl) fun _ => Keeps.andThen (emitJump_keeps rfl) fun _ => ?_
  refine Keeps.triple (.withConstant rfl ?_)
  exact .bind (emitOp_keeps rfl) fun _ => patchJump_keeps

theorem emitSteppingTest_ready {k : Ledger} {ks : List Outer} {loopVar endVar stepVar : Nat}
    (hloop : loopVar < k.slots) (hend : endVar < k.slots) (hstep : stepVar < k.slots) :
    Triple (Known k ks) (emitSteppingTest loopVar endVar stepVar) fun _ => Known k ks := by
  refine (emitLoadLocal_ready hstep).bind fun _ => Keeps.andThen (emitOp_keeps rfl) fun _ => ?_
  refine Keeps.andThen (emitOp_keeps rfl) fun _ => Keeps.andThen (emitJump_keeps rfl) fun _ => ?_
  refine (emitLoadLocal_ready hend).bind fun _ => (emitLoadLocal_ready hloop).bind fun _ => ?_
  refine Keeps.andThen (emitOp_keeps rfl) fun _ => Keeps.andThen (emitJump_keeps rfl) fun _ => ?_
  refine Keeps.andThen patchJump_keeps fun _ => (emitLoadLocal_ready hloop).bind fun _ => ?_
  refine (emitLoadLocal_ready hend).bind fun _ => Keeps.andThen (emitOp_keeps rfl) fun _ => ?_
  exact Keeps.andThen patchJump_keeps fun _ => Keeps.triple (emitJump_keeps rfl)

theorem compileStepping_ready (hb : below.Keep) {k : Ledger} {ks : List Outer}
    {loopVar endVar stepVar : Nat} {body : Stmt} (hloop : loopVar < k.slots) (hend : endVar < k.slots)
    (hstep : stepVar < k.slots) :
    Triple (Known k ks) (compileStepping below loopVar endVar stepVar body) fun _ => Known k ks := by
  refine Keeps.andThen startLoop_keeps fun _ => Keeps.andThen (emitJump_keeps rfl) fun _ => ?_
  refine Keeps.andThen codeSize_keeps fun _ => Keeps.andThen setLoopStart_keeps fun _ => ?_
  refine (emitLoadLocal_ready hloop).bind fun _ => (emitLoadLocal_ready hstep).bind fun _ => ?_
  refine Keeps.andThen (emitOp_keeps rfl) fun _ => (emitStoreLocal_ready hloop).bind fun _ => ?_
  refine Keeps.andThen (emitOp_keeps rfl) fun _ => Keeps.andThen patchJump_keeps fun _ => ?_
  refine (emitSteppingTest_ready hloop hend hstep).bind fun _ => Keeps.andThen (hb.stmt _) fun _ => ?_
  refine Keeps.andThen emitLoop_keeps fun _ => Keeps.andThen patchJump_keeps fun _ => ?_
  exact Keeps.triple endLoop_keeps

theorem Ledger.lt_reserve_of_lt {k : Ledger} {slot slot' : Nat} (h : slot < k.slots) :
    slot < (k.reserve slot').slots :=
  lt_of_lt_of_le h (le_max_left _ _)

theorem compileRepeatLoop_ready (hb : below.Keep) {k : Ledger} {ks : List Outer} {loopVar endVar : Nat}
    {body : Stmt} {step : Option Expr} (hloop : loopVar < k.slots) (hend : endVar < k.slots) :
    Triple (Known k ks) (compileRepeatLoop below loopVar endVar body step) fun _ => Known k ks := by
  cases step with
  | none => exact compileCounting_ready hb hloop hend
  | some step =>
      refine addLocal_known.bind fun stepVar => Keeps.andThen (hb.expr _) fun _ => ?_
      refine (emitStoreLocal_ready Ledger.lt_reserve).bind fun _ => ?_
      refine (emitStepCheck_ready Ledger.lt_reserve).bind fun _ => ?_
      exact (compileStepping_ready hb (Ledger.lt_reserve_of_lt hloop) (Ledger.lt_reserve_of_lt hend)
        Ledger.lt_reserve).post fun _ _ hs => hs.release

theorem compileRepeat_keeps (hb : below.Keep) {var : CString} {start finish : Expr} {step : Option Expr}
    {body : Stmt} : Keeps (compileRepeat below var start finish step body) := by
  refine .bind beginScope_keeps fun _ => .addLocal_bind fun k ks loopVar => ?_
  refine Keeps.andThen (hb.expr _) fun _ => (emitStoreLocal_ready Ledger.lt_reserve).bind fun _ => ?_
  refine addLocal_known.bind fun endVar => Keeps.andThen (hb.expr _) fun _ => ?_
  refine (emitStoreLocal_ready Ledger.lt_reserve).bind fun _ => ?_
  refine (compileRepeatLoop_ready hb (Ledger.lt_reserve_of_lt Ledger.lt_reserve)
    Ledger.lt_reserve).bind fun _ => ?_
  exact (Keeps.triple endScope_keeps).post fun _ _ hs => hs.release.release

theorem emitBindItem_ready {k : Ledger} {ks : List Outer} {loopVar : Nat} {loopValueVar : Option Nat}
    (hloop : loopVar < k.slots) (hvalue : ∀ slot, loopValueVar = some slot → slot < k.slots) :
    Triple (Known k ks) (emitBindItem loopVar loopValueVar) fun _ => Known k ks := by
  cases loopValueVar with
  | none => exact (emitStoreLocal_ready hloop).bind fun _ => Keeps.triple (emitOp_keeps rfl)
  | some loopValueVar =>
      refine Keeps.andThen (emitOp_keeps rfl) fun _ => Keeps.andThen (emitOp_keeps rfl) fun _ => ?_
      refine Keeps.andThen (emitOp_keeps rfl) fun _ => (emitStoreLocal_ready hloop).bind fun _ => ?_
      refine Keeps.andThen (emitOp_keeps rfl) fun _ => Keeps.andThen (emitOp_keeps rfl) fun _ => ?_
      refine Keeps.andThen (emitOp_keeps rfl) fun _ => (emitStoreLocal_ready (hvalue _ rfl)).bind fun _ => ?_
      exact Keeps.triple (emitOp_keeps rfl)

theorem addNilLocal_known {k : Ledger} {ks : List Outer} {name : CString} :
    Triple (Known k ks) (addNilLocal name) fun slot => Known (k.reserve slot) ks := by
  refine addLocal_known.bind fun slot => Keeps.andThen (emitOp_keeps rfl) fun _ => ?_
  exact (emitStoreLocal_ready Ledger.lt_reserve).bind fun _ => .pure fun _ hs => hs

theorem addValueLocal_known {k : Ledger} {ks : List Outer} {valueVar : CString} :
    Triple (Known k ks) (addValueLocal valueVar) fun found s =>
      ∃ slots, (∀ slot, found = some slot → slot < max k.slots slots) ∧
        Known { k with slots := max k.slots slots } ks s := by
  refine .ite (fun _ => .pure fun s hs => ⟨0, by simp, hs.weaken (by simp) rfl rfl rfl⟩)
    fun _ => ?_
  refine Triple.map (addNilLocal_known.post fun slot s hs => ⟨slot + 1, fun n hn => ?_, hs⟩)
  cases hn
  exact Ledger.lt_reserve

theorem compileGet_keeps (hb : below.Keep) {var valueVar : CString} {iterable : Expr} {body : Stmt} :
    Keeps (compileGet below var valueVar iterable body) := by
  refine .bind beginScope_keeps fun _ => .addLocal_bind fun k ks iterVar => ?_
  refine Keeps.andThen (hb.expr _) fun _ => Keeps.andThen ?_ fun _ => ?_
  · split <;> exact emitOp_keeps rfl
  refine (emitStoreLocal_ready Ledger.lt_reserve).bind fun _ => addNilLocal_known.bind fun loopVar => ?_
  refine addValueLocal_known.bind fun loopValueVar => .of_exists fun slots => .of_and fun hvalue => ?_
  refine Keeps.andThen startLoop_keeps fun _ => Keeps.andThen codeSize_keeps fun _ => ?_
  refine (emitLoadLocal_ready ?_).bind fun _ => Keeps.andThen (emitJump_keeps rfl) fun _ => ?_
  · exact lt_of_lt_of_le (Ledger.lt_reserve_of_lt Ledger.lt_reserve) (le_max_left _ _)
  refine (emitBindItem_ready ?_ hvalue).bind fun _ => ?_
  · exact lt_of_lt_of_le Ledger.lt_reserve (le_max_left _ _)
  refine Keeps.andThen (hb.stmt _) fun _ => Keeps.andThen emitLoop_keeps fun _ => ?_
  refine Keeps.andThen patchJump_keeps fun _ => Keeps.andThen endLoop_keeps fun _ => ?_
  refine (Keeps.triple endScope_keeps).post fun _ s hs => ?_
  have hloopVar : Known ((k.reserve iterVar).reserve loopVar) ks s :=
    hs.weaken (le_max_left _ _) rfl rfl rfl
  exact hloopVar.release.release

/-! ### Matching -/

theorem isTypeMatchPattern_keeps {name : CString} : Keeps (isTypeMatchPattern name) := by
  refine .ite .pure (.bind resolveLocal_keeps fun _ => .ite .pure ?_)
  refine .bind resolveUpvalue_keeps fun _ => .ite .pure ?_
  exact .bind resolveStatic_keeps fun _ => .ite .pure (.get_bind fun _ => .pure)

theorem typePattern_keeps {pattern : Expr} : Keeps (typePattern pattern) := by
  unfold typePattern
  split
  · exact .bind isTypeMatchPattern_keeps fun _ => .ite .pure .pure
  · exact .pure

theorem emitArmTest_keeps (hb : below.Keep) {pattern : Expr} : Keeps (emitArmTest below pattern) := by
  refine .bind typePattern_keeps fun typeName => .bind (emitOp_keeps rfl) fun _ => ?_
  cases typeName with
  | some name => exact .withConstant rfl (emitOp_keeps rfl)
  | none => exact .bind (hb.expr _) fun _ => emitOp_keeps rfl

theorem compileArm_keeps (hb : below.Keep) {arm : MatchArm Expr Stmt} : Keeps (compileArm below arm) := by
  unfold compileArm
  split
  · exact .bind (emitOp_keeps rfl) fun _ => .bind (hb.stmt _) fun _ => emitJump_keeps rfl
  · refine .bind (emitArmTest_keeps hb) fun _ => .bind (emitJump_keeps rfl) fun _ => .bind (emitOp_keeps rfl) fun _ => ?_
    refine .bind (hb.stmt _) fun _ => .bind (emitJump_keeps rfl) fun _ => .bind patchJump_keeps fun _ => ?_
    exact .pure

theorem patchAll_keeps {jumps : List Nat} : Keeps (patchAll jumps) :=
  .bind (.forIn fun _ _ => .bind patchJump_keeps fun _ => .pure) fun _ => .pure

theorem compileMatch_keeps (hb : below.Keep) {subject : Expr} {arms : List (MatchArm Expr Stmt)} :
    Keeps (compileMatch below subject arms) := by
  refine .bind (hb.expr _) fun _ => .bind (.mapM _ fun _ _ => compileArm_keeps hb) fun _ => ?_
  exact .bind (emitOp_keeps rfl) fun _ => patchAll_keeps

/-! ### Tasks and returns -/

theorem taskSlot_known {k : Ledger} {ks : List Outer} {name : CString} :
    Triple (Known k ks) (taskSlot name) fun found s =>
      ∃ slots, (∀ slot, found = some slot → slot < max k.slots slots) ∧
        Known { k with slots := max k.slots slots } ks s := by
  refine resolveLocal_bind (fun slot => .pure fun s hs => ⟨slot + 1, ?_, hs⟩) ?_
  · intro n hn
    cases hn
    exact Ledger.lt_reserve
  · refine .get_bind fun s₀ hs => .ite (fun _ => ?_) fun _ => .pure ?_
    · have hadd : Triple (Known k ks) (addLocal name false) _ := addLocal_known
      refine Triple.map (hadd.weaken ?_ fun slot s hs => ⟨slot + 1, fun n hn => ?_, hs⟩)
      · rintro s rfl
        exact hs
      · cases hn
        exact Ledger.lt_reserve
    · rintro s rfl
      exact ⟨0, by simp, hs.weaken (by simp) rfl rfl rfl⟩

theorem compileTask_keeps (hb : below.Keep) {task : TaskStmt Expr Stmt} :
    Keeps (compileTask host below task) := by
  refine fun k ks => taskSlot_known.bind fun slot => .of_exists fun slots => .of_and fun hslot => ?_
  refine Keeps.andThen (compileDecorated_keeps hb) fun _ => ?_
  refine Triple.bind (Q := fun _ => Known { k with slots := max k.slots slots } ks) ?_ fun _ => ?_
  · cases slot with
    | some slot => exact emitStoreLocal_ready (hslot slot rfl)
    | none =>
        exact Keeps.triple (.globalSlotFor_bind fun slot hslot => emitGlobalSlot_keeps rfl hslot)
  · refine (Keeps.triple (emitOp_keeps rfl)).post fun _ s hs => ?_
    exact hs.weaken (le_max_left _ _) rfl rfl rfl

theorem compilePostconditions_keeps (hb : below.Keep) {ensures : List (Clause Expr)} :
    Keeps (compilePostconditions host below ensures) := by
  refine .ite .pure (.addLocal_bind fun k ks resultSlot => ?_)
  refine (emitStoreLocal_ready Ledger.lt_reserve).bind fun _ => Keeps.andThen (emitOp_keeps rfl) fun _ => ?_
  refine addLocal_known.bind fun resultAliasSlot => ?_
  have hresult : resultSlot < ((k.reserve resultSlot).reserve resultAliasSlot).slots :=
    Ledger.lt_reserve_of_lt Ledger.lt_reserve
  refine (emitLoadLocal_ready hresult).bind fun _ => ?_
  refine (emitStoreLocal_ready Ledger.lt_reserve).bind fun _ => Keeps.andThen (emitOp_keeps rfl) fun _ => ?_
  refine Keeps.andThen (compileContractChecks_keeps hb) fun _ => ?_
  exact (emitLoadLocal_ready hresult).post fun _ _ hs => hs.release.release

/-- The slots of the results that wait for the finally blocks of active try statements. -/
def retvalSlots (activeTrys : List ActiveTry) : List Nat :=
  (activeTrys.filter fun t => t.body.isSome).map ActiveTry.retvalSlot

theorem setActiveTrys_ready {k : Ledger} {ks : List Outer} {activeTrys : List ActiveTry}
    (h : ∀ n ∈ retvalSlots activeTrys, n < k.slots) :
    Triple (Known k ks) (setActiveTrys activeTrys) fun _ => Known k ks := by
  refine .modify fun s hs => ⟨hs.stray, fun hstray => ?_⟩
  have hgood := hs.good hstray
  have hc := hgood.holds
  refine hgood.replace (hc.congr rfl hc.locals hc.upvalues fun t ht hbody => ?_) rfl
  refine lt_of_lt_of_le (h _ ?_) hc.slots
  exact List.mem_map_of_mem (List.mem_filter.mpr ⟨ht, hbody⟩)

theorem replayForReturn_ready (hb : below.Keep) {k : Ledger} {ks : List Outer}
    {activeTrys : List ActiveTry} (h : ∀ n ∈ retvalSlots activeTrys, n < k.slots) :
    Triple (Known k ks) (replayForReturn below activeTrys) fun _ => Known k ks := by
  induction activeTrys with
  | nil => exact .pure fun _ hs => hs
  | cons pending outer ih =>
      have houter : ∀ n ∈ retvalSlots outer, n < k.slots := by
        intro n hn
        refine h n ?_
        obtain ⟨t, ht, rfl⟩ := List.mem_map.mp hn
        obtain ⟨ht, hbody⟩ := List.mem_filter.mp ht
        exact List.mem_map_of_mem (List.mem_filter.mpr ⟨List.mem_cons_of_mem _ ht, hbody⟩)
      refine (setActiveTrys_ready houter).bind fun _ => ?_
      refine Triple.bind (Q := fun _ => Known k ks) ?_ fun _ => ih houter
      cases hbody : pending.body with
      | none => exact .pure fun _ hs => hs
      | some body =>
          have hslot : pending.retvalSlot < k.slots := by
            refine h _ (List.mem_map_of_mem (List.mem_filter.mpr ⟨List.mem_cons_self, ?_⟩))
            rw [hbody]
            rfl
          refine (emitStoreLocal_ready hslot).bind fun _ => Keeps.andThen (emitOp_keeps rfl) fun _ => ?_
          exact Keeps.andThen (hb.stmt _) fun _ => emitLoadLocal_ready hslot

theorem retvalSlots_lt {k : Ledger} {ks : List Outer} {s : BytecodeCompiler} (h : Known k ks s) :
    s.strayJump = false → ∀ n ∈ retvalSlots s.current.activeTrys, n < s.current.maxLocals := by
  intro hstray n hn
  obtain ⟨t, ht, rfl⟩ := List.mem_map.mp hn
  obtain ⟨ht, hbody⟩ := List.mem_filter.mp ht
  exact (h.good hstray).holds.retvals t ht hbody

theorem compileGive_keeps (hb : below.Keep) {value : Option Expr} :
    Keeps (compileGive host below value) := by
  refine .get_bind fun s => ?_
  split
  case h_1 =>
      refine .bind (hb.expr _) fun _ => .bind (exprs_keeps hb) fun _ => ?_
      exact .bind (emitCount_keeps rfl (.inr rfl)) fun _ => emitOp_keeps rfl
  case h_2 =>
      refine .bind (hb.optionalExpr _) fun _ => .getCurrent_bind fun c => ?_
      refine .bind emitStoreCached_keeps fun _ => .get_bind fun _ => ?_
      refine .bind (compilePostconditions_keeps hb) fun _ => ?_
      refine fun k ks => .get_bind fun s₀ hs => ?_
      obtain ⟨k', hk', hslots, hback⟩ := hs.widen (retvalSlots_lt hs)
      refine Triple.pre (P := Known k' ks) ?_ (by rintro s rfl; exact hk')
      refine (replayForReturn_ready hb hslots).bind fun _ => (setActiveTrys_ready hslots).bind fun _ => ?_
      exact (Keeps.triple (emitOp_keeps rfl)).post fun _ => hback

/-! ### Leaving a loop -/

theorem replayForLoop_ready (hb : below.Keep) {k : Ledger} {ks : List Outer} {depth : Nat}
    {activeTrys : List ActiveTry} (h : ∀ n ∈ retvalSlots activeTrys, n < k.slots) :
    Triple (Known k ks) (replayForLoop below depth activeTrys) fun _ => Known k ks := by
  induction activeTrys with
  | nil => exact .pure fun _ hs => hs
  | cons pending outer ih =>
      refine .ite (fun _ => ?_) fun _ => .pure fun _ hs => hs
      have houter : ∀ n ∈ retvalSlots outer, n < k.slots := by
        intro n hn
        refine h n ?_
        obtain ⟨t, ht, rfl⟩ := List.mem_map.mp hn
        obtain ⟨ht, hbody⟩ := List.mem_filter.mp ht
        exact List.mem_map_of_mem (List.mem_filter.mpr ⟨List.mem_cons_of_mem _ ht, hbody⟩)
      refine (setActiveTrys_ready houter).bind fun _ => Keeps.andThen (emitOp_keeps rfl) fun _ => ?_
      refine Keeps.andThen ?_ fun _ => ih houter
      cases pending.body with
      | none => exact .pure
      | some body => exact hb.stmt _

theorem emitPopLocals_keeps {targetDepth : Nat} : Keeps (emitPopLocals targetDepth) := by
  refine fun k ks => .get_bind fun s₀ hs => ?_
  have hlocals : s₀.strayJump = false →
      ∀ n ∈ List.range s₀.current.locals.length, n < s₀.current.maxLocals := by
    intro hstray n hn
    exact lt_of_lt_of_le (List.mem_range.mp hn) (hs.good hstray).holds.locals
  obtain ⟨k', hk', hslots, hback⟩ := hs.widen hlocals
  refine Triple.pre (P := Known k' ks) ?_ (by rintro s rfl; exact hk')
  refine Triple.bind (Triple.forIn _ ?_) fun _ => .pure hback
  rintro ⟨l, slotIdx⟩ hmem
  have hmem := List.mem_reverse.mp ((List.takeWhile_sublist _).subset hmem)
  have hslot := hslots slotIdx (List.mem_range.mpr (List.snd_lt_of_mem_zipIdx hmem))
  exact (emitCloseLocal_ready hslot).bind fun _ => .pure fun _ hs => hs

theorem leaveToLoop_keeps (hb : below.Keep) {loop : LoopContext} : Keeps (leaveToLoop below loop) := by
  refine fun k ks => .get_bind fun s₀ hs => ?_
  obtain ⟨k', hk', hslots, hback⟩ := hs.widen (retvalSlots_lt hs)
  refine Triple.pre (P := Known k' ks) ?_ (by rintro s rfl; exact hk')
  refine (replayForLoop_ready hb hslots).bind fun _ => (setActiveTrys_ready hslots).bind fun _ => ?_
  exact (Keeps.triple emitPopLocals_keeps).post fun _ => hback

theorem compileEscape_keeps (hb : below.Keep) : Keeps (compileEscape below) := by
  refine .get_bind fun s => ?_
  split
  · exact errorAt_keeps _
  · exact .bind (leaveToLoop_keeps hb) fun _ => .bind (emitJump_keeps rfl) fun _ => .modify fun _ => rfl

theorem compileSkip_keeps (hb : below.Keep) : Keeps (compileSkip below) := by
  refine .get_bind fun s => ?_
  split
  · exact errorAt_keeps _
  · exact .bind (leaveToLoop_keeps hb) fun _ => emitLoop_keeps

/-! ### Modules -/

/-- Marking local variables adds none. -/
theorem markLocals_keeps {g : List LocalVariable → List LocalVariable} (hg : ∀ ls, (g ls).length = ls.length) :
    Keeps (modifyCurrent fun c => { c with locals := g c.locals }) := by
  refine .modifyCurrent (fun _ => rfl) fun k c hc => hc.congr rfl ?_ hc.upvalues hc.retvals
  rw [hg]
  exact hc.locals

theorem markExported_keeps {slot : Nat} : Keeps (markExported slot) :=
  markLocals_keeps fun _ => List.length_modify ..

theorem exportedSlot_keeps {inner : Stmt} : Keeps (exportedSlot inner) := by
  unfold exportedSlot
  split
  · exact resolveLocal_keeps
  · exact .pure

theorem exportDeclared_keeps {inner : Stmt} : Keeps (exportDeclared inner) := by
  unfold exportDeclared
  split
  · exact .pure
  · refine .ite .pure (.bind resolveLocal_keeps fun slot => ?_)
    cases slot with
    | some slot => exact markExported_keeps
    | none => exact .pure

theorem compileExport_keeps (hb : below.Keep) {inner : Stmt} : Keeps (compileExport below inner) := by
  refine .bind exportedSlot_keeps fun slot => ?_
  cases slot with
  | some slot => exact markExported_keeps
  | none =>
      refine .getCurrent_bind fun c => .bind (hb.stmt _) fun _ => ?_
      exact .bind (markLocals_keeps fun _ => List.length_mapIdx) fun _ => exportDeclared_keeps

theorem predeclareModuleTasks_keeps {statements : List Stmt} :
    Keeps (predeclareModuleTasks statements) := by
  refine .bind (.forIn fun s _ => ?_) fun _ => .pure
  split
  · exact .pure
  · exact .bind resolveLocal_keeps fun _ => .ite (.bind addLocal_keeps fun _ => .pure) .pure

theorem emitModuleEntry_keeps {l : LocalVariable} : Keeps (emitModuleEntry l) := by
  refine .bind (emitOp_keeps rfl) fun _ => .bind ?_ fun _ => .identifierConstant_bind fun k ks n => ?_
  · refine .resolveLocal_bind (fun k ks slot => ?_) .pure
    exact (emitLoadLocal_ready Ledger.lt_reserve).post fun _ _ hs => hs.release
  · refine addICEntry_known.bind fun icIdx => Triple.bind (emitPropertyNoted_known rfl) fun _ => ?_
    exact Keeps.triple (emitOp_keeps rfl)

theorem emitModuleDict_keeps {isFileInclusion : Bool} : Keeps (emitModuleDict isFileInclusion) := by
  refine .bind (emitCount_keeps rfl (.inl (by decide))) fun _ => .getCurrent_bind fun c => ?_
  exact .bind (.forIn fun _ _ => .bind emitModuleEntry_keeps fun _ => .pure) fun _ => emitOp_keeps rfl

/-- A module is compiled outside of the current function, which is left as it was. -/
theorem compileModule_known (hb : below.Keep) {k : Ledger} {ks : List Outer} {path name : CString}
    {isFileInclusion : Bool} {statements : List Stmt} :
    Triple (Known k ks) (compileModule below path name isFileInclusion statements)
      fun compiled s => Known k ks s ∧ (s.strayJump = false → compiled.1.compiler.upvalues = []) := by
  refine .get_bind fun previous hprevious => ?_
  refine Triple.bind (Q := fun _ => Known (.fresh true previous.strayJump) []) (.modify ?_) fun _ => ?_
  · rintro s rfl
    refine ⟨fun h => h, fun hstray => ⟨.outermost (Ledger.holds_fresh rfl rfl) rfl, ?_, ?_⟩⟩
    · exact (hprevious.good hstray).finished
    · exact (hprevious.good hstray).captures
  refine Keeps.andThen addLocal_keeps fun _ => Keeps.andThen predeclareModuleTasks_keeps fun _ => ?_
  refine Keeps.andThen (.forIn fun s _ => .bind (hb.stmt s) fun _ => .pure) fun _ => ?_
  refine Keeps.andThen emitModuleDict_keeps fun _ => .get_bind fun s₀ hs => ?_
  refine Triple.bind (Q := fun _ s => Known k ks s ∧
    (s.strayJump = false → s₀.current.upvalues = [])) (.modify ?_) fun _ => .pure fun s hs => hs
  rintro s rfl
  have hsaved : s.strayJump = false → previous.strayJump = false := by
    intro hstray
    cases hcase : previous.strayJump with
    | false => rfl
    | true => exact absurd ((hs.stray hcase).symm.trans hstray) (by decide)
  refine ⟨⟨fun hk => hs.stray (hprevious.stray hk), fun hstray => ⟨?_, ?_, ?_⟩⟩, fun hstray => ?_⟩
  · exact (hprevious.good (hsaved hstray)).chain
  · intro f hf
    rcases List.mem_append.mp hf with hf | hf
    · exact (hs.good hstray).finished f hf
    · rw [List.mem_singleton.mp hf]
      have hc := (hs.good hstray).holds
      refine ⟨⟨true, previous.strayJump, hc.congr rfl hc.locals hc.upvalues hc.retvals⟩, ?_⟩
      change s.current.locals.length = if s.current.isHarvesting then s.current.locals.length else _
      rw [hc.isHarvesting]
      rfl
  · exact (hs.good hstray).captures
  · exact (hs.good hstray).chain.outermost_upvalues rfl

/-- The instruction of the last constant, which is needed again. -/
theorem emitAgain_known {k : Ledger} {ks : List Outer} {op : OpCode} {n : Nat}
    (hfields : op.fields = [.constant]) :
    Triple (Known (k.note (.constant, n)) ks) (emit op [.constant n])
      fun _ => Known (k.note (.constant, n)) ks :=
  emitConstantIdx_known (k := k.note (.constant, n)) hfields List.mem_cons_self _ (fun _ he => he)
    fun _ he => .inl he

/-- An instruction changes nothing but the code. -/
theorem emit_aside {op : OpCode} {operands : List Operand} {P : BytecodeCompiler → Prop}
    (hP : ∀ s code, P s → P { s with current := { s.current with code } }) :
    Triple P (emit op operands) fun _ => P :=
  .modify fun s hs => hP s _ hs

theorem emitJump_aside {op : OpCode} {P : BytecodeCompiler → Prop}
    (hP : ∀ s code, P s → P { s with current := { s.current with code } }) :
    Triple P (emitJump op) fun _ => P := by
  refine (emit_aside hP).bind fun _ => Triple.bind (Q := fun _ => P) ?_ fun _ => .pure fun _ hs => hs
  refine .get_bind fun s hs => .pure ?_
  rintro s rfl
  exact hs

theorem emitRunModule_known {k : Ledger} {ks : List Outer} {flagIdx : Nat} {moduleFunc : CompiledFunction} :
    Triple (fun s => Known (k.note (.constant, flagIdx)) ks s ∧
        (s.strayJump = false → moduleFunc.compiler.upvalues = []))
      (emitRunModule flagIdx moduleFunc) fun _ => Known k ks := by
  refine .get_bind fun s₀ hs₀ => ?_
  have hadd : Triple (fun s => Known (k.note (.constant, flagIdx)) ks s ∧ (s.strayJump = false →
      Linked moduleFunc.compiler s.current ∧
        s.current.nestedFunctions.length = s₀.current.nestedFunctions.length))
      (addNestedFunction moduleFunc) _ := addNestedFunction_known
  refine Triple.bind (hadd.pre ?_) fun _ => ?_
  · rintro s rfl
    refine ⟨hs₀.1, fun hstray => ⟨fun uv huv => ?_, rfl⟩⟩
    rw [hs₀.2 hstray] at huv
    cases huv
  -- the flag and the function both wait for their instructions
  have hflag : Triple (Known ((k.note (.constant, flagIdx)).note
      (.nested, s₀.current.nestedFunctions.length)) ks) (emit .HAS_GLOBAL [.constant flagIdx])
      fun _ => Known ((k.note (.constant, flagIdx)).note
        (.nested, s₀.current.nestedFunctions.length)) ks :=
    emitConstantIdx_known rfl (List.mem_cons_of_mem _ List.mem_cons_self) _ (fun _ he => he)
      fun _ he => .inl he
  refine Triple.bind (Triple.and hflag (emit_aside fun _ _ hs => hs)) fun _ => ?_
  refine Triple.bind (Triple.and (Keeps.triple (emitJump_keeps rfl)) (emitJump_aside fun _ _ hs => hs))
    fun skipExec => ?_
  refine emitCLOSURE_known.bind fun _ => ?_
  refine Keeps.andThen (emitCount_keeps rfl (.inl (by decide))) fun _ => ?_
  refine Triple.bind (emitAgain_known rfl) fun _ => Keeps.andThen (emitOp_keeps rfl) fun _ => ?_
  exact Keeps.andThen patchJump_keeps fun _ => emitNoted_known rfl

theorem importSlot_known {k : Ledger} {ks : List Outer} {name : CString} :
    Triple (Known k ks) (importSlot name) fun slot => Known (k.reserve slot) ks :=
  resolveLocal_bind (fun _ => .pure fun _ hs => hs) addLocal_known

theorem Keeps.importSlot_bind {α : Type} {name : CString} {f : Nat → CompileM α}
    (h : ∀ k ks slot, Triple (Known (k.reserve slot) ks) (f slot) fun _ => Known k ks) :
    Keeps (importSlot name >>= f) :=
  fun k ks => importSlot_known.bind fun slot => h k ks slot

theorem emitStoreGlobal_keeps {name : CString} :
    Keeps (do
      let slot ← globalSlotFor name
      emit .STORE_GLOBAL_SLOT [.globalSlot slot]) :=
  .globalSlotFor_bind fun _ hslot => emitGlobalSlot_keeps rfl hslot

theorem emitBindImport_keeps {l : LocalVariable} : Keeps (emitBindImport l) := by
  refine .getCurrent_bind fun c => .ite (.importSlot_bind fun k ks slot => ?_) emitStoreGlobal_keeps
  refine Keeps.andThen (markLocals_keeps fun _ => List.length_modify ..) fun _ => ?_
  exact (emitStoreLocal_ready Ledger.lt_reserve).post fun _ _ hs => hs.release

theorem emitImport_keeps {l : LocalVariable} : Keeps (emitImport l) := by
  refine .bind (emitOp_keeps rfl) fun _ => .identifierConstant_bind fun k ks n => ?_
  refine addICEntry_known.bind fun icIdx => Triple.bind (emitPropertyNoted_known rfl) fun _ => ?_
  exact Keeps.andThen emitBindImport_keeps fun _ => Keeps.triple (emitOp_keeps rfl)

theorem emitBindAlias_keeps {aliasName : CString} : Keeps (emitBindAlias aliasName) := by
  refine .getCurrent_bind fun c => .ite (.addLocal_bind fun k ks slot => ?_) emitStoreGlobal_keeps
  exact (emitStoreLocal_ready Ledger.lt_reserve).post fun _ _ hs => hs.release

theorem emitImports_keeps {aliasName : CString} {offered : List LocalVariable} :
    Keeps (emitImports aliasName offered) := by
  refine .ite (.bind (.forIn fun _ _ => ?_) fun _ => .pure) emitBindAlias_keeps
  exact .bind emitImport_keeps fun _ => .pure

theorem compileImport_keeps (hb : below.Keep) {absolutePath path aliasName : CString}
    {statements : List Stmt} :
    Keeps (compileImport host below absolutePath path aliasName statements) := by
  refine .bind (.modify fun _ => rfl) fun _ => .identifierConstant_bind fun k ks flagIdx => ?_
  refine (compileModule_known hb).bind fun compiled => emitRunModule_known.bind fun _ => ?_
  refine Keeps.andThen emitImports_keeps fun _ => Keeps.andThen (emitOp_keeps rfl) fun _ => ?_
  refine Keeps.modify ?_ k ks
  exact fun _ => rfl

theorem compileUse_keeps (hb : below.Keep) {path aliasName : CString} :
    Keeps (compileUse host below path aliasName) := by
  refine .get_bind fun s => ?_
  split
  · exact errorAt_keeps _
  · refine .ite (errorAt_keeps _) ?_
    split
    · exact errorAt_keeps _
    · exact compileImport_keeps hb

/-! ### Models -/

theorem emitLoadName_keeps {name : CString} : Keeps (emitLoadName name) := withConstant_keeps rfl

theorem emitBool_keeps {b : Bool} : Keeps (emitBool b) := by
  cases b
  · exact emitOp_keeps rfl
  · exact emitOp_keeps rfl

theorem compileMember_keeps (hb : below.Keep) {member : ModelMember Expr Stmt} :
    Keeps (compileMember host below member) := by
  refine .bind emitLoadName_keeps fun _ => .bind ?_ fun _ => .bind emitBool_keeps fun _ => emitBool_keeps
  exact .ite (compileDecorated_keeps hb) (hb.optionalExpr _)

theorem emitProperties_keeps {properties : List (CString × CString)} :
    Keeps (emitProperties properties) := by
  refine .bind emitLoadName_keeps fun _ => .bind (.forIn fun _ _ => ?_) fun _ => ?_
  · exact .bind emitLoadName_keeps fun _ => .bind emitLoadName_keeps fun _ => .pure
  · exact .bind (emitCount_keeps rfl (.inr rfl)) fun _ => .bind (emitOp_keeps rfl) fun _ => emitOp_keeps rfl

theorem compileValidator_keeps (hb : below.Keep) {fieldName : CString} {rule : ValidateRule Expr} :
    Keeps (compileValidator below fieldName rule) := by
  refine .bind emitLoadName_keeps fun _ => .bind emitLoadName_keeps fun _ => ?_
  exact .bind (hb.optionalExpr _) fun _ => emitLoadName_keeps

theorem emitParent_keeps {parentName : CString} : Keeps (emitParent parentName) :=
  .ite (emitOp_keeps rfl) emitLoadGlobal_keeps

theorem setClass_keeps {currentClass currentParentClass : CString} :
    Keeps (setClass currentClass currentParentClass) :=
  .modifyCurrent (fun _ => rfl) fun _ _ hc => hc.congr rfl hc.locals hc.upvalues hc.retvals

theorem compileModelParts_keeps (hb : below.Keep) {model : ModelStmt Expr Stmt} :
    Keeps (compileModelParts host below model) := by
  refine .bind emitParent_keeps fun _ => .bind emitLoadName_keeps fun _ => ?_
  refine .bind (emitClosure_keeps hb) fun _ => .bind (emitOp_keeps rfl) fun _ => .bind (emitOp_keeps rfl) fun _ => ?_
  refine .bind (.forIn fun _ _ => .bind (compileMember_keeps hb) fun _ => .pure) fun _ => ?_
  refine .bind emitProperties_keeps fun _ => .bind emitLoadName_keeps fun _ => ?_
  refine .bind emitLoadName_keeps fun _ => .bind (emitOp_keeps rfl) fun _ => .bind (emitOp_keeps rfl) fun _ => ?_
  refine .bind (.forIn fun _ _ => .bind emitLoadGlobal_keeps fun _ => .pure) fun _ => ?_
  refine .bind emitBool_keeps fun _ => .bind emitBool_keeps fun _ => .bind emitLoadName_keeps fun _ => ?_
  exact .bind (.forIn fun _ _ => .bind (compileValidator_keeps hb) fun _ => .pure) fun _ => .pure

theorem emitMakeClass_keeps {model : ModelStmt Expr Stmt} : Keeps (emitMakeClass model) := by
  refine .checkCount_bind fun hmembers => .checkCount_bind fun hinterfaces => ?_
  refine .checkCount_bind fun hvalidators => .identifierConstant_bind fun k ks n => ?_
  refine emitConstantCount_known [_, _, _] rfl ?_
  intro count hcount
  simp only [List.mem_cons, List.not_mem_nil, or_false] at hcount
  rcases hcount with rfl | rfl | rfl
  · exact .inl hmembers
  · exact .inl hinterfaces
  · exact .inl hvalidators

theorem emitBindModel_keeps {name : CString} : Keeps (emitBindModel name) := by
  refine .getCurrent_bind fun c => .ite (.addLocal_bind fun k ks slot => ?_) ?_
  · exact (emitStoreLocal_ready Ledger.lt_reserve).post fun _ _ hs => hs.release
  · exact .globalSlotFor_bind fun _ hslot => .bind (emitGlobalSlot_keeps rfl hslot) fun _ => emitOp_keeps rfl

theorem compileModel_keeps (hb : below.Keep) {model : ModelStmt Expr Stmt} :
    Keeps (compileModel host below model) := by
  refine .bind (.modify fun _ => rfl) fun _ => .bind (.forIn fun _ _ => .bind (hb.expr _) fun _ => .pure) fun _ => ?_
  refine .getCurrent_bind fun saved => .bind setClass_keeps fun _ => ?_
  refine .bind (compileModelParts_keeps hb) fun _ => .bind emitMakeClass_keeps fun _ => ?_
  refine .bind (.forIn fun _ _ => ?_) fun _ => .bind emitBindModel_keeps fun _ => setClass_keeps
  exact .bind (emitCount_keeps rfl (.inl (by decide))) fun _ => .pure

theorem compileInterface_keeps {name : CString} {methods : List CString} :
    Keeps (compileInterface name methods) := by
  refine .bind (.modify fun _ => rfl) fun _ => .bind (.forIn fun _ _ => .bind emitLoadName_keeps fun _ => .pure) fun _ => ?_
  refine .identifierConstant_bind fun k ks n => ?_
  refine (emitConstantCount_known [methods.length] rfl ?_).bind fun _ => Keeps.triple ?_
  · intro count hcount
    rw [List.mem_singleton.mp hcount]
    exact .inr rfl
  · exact .globalSlotFor_bind fun _ hslot => .bind (emitGlobalSlot_keeps rfl hslot) fun _ => emitOp_keeps rfl

/-! ### Statics -/

theorem compileStatic_keeps (hb : below.Keep) {name : CString} {initializer : Expr} :
    Keeps (compileStatic below name initializer) := by
  refine .getCurrent_bind fun c => .bind ?_ fun _ => .identifierConstant_bind fun k ks n => ?_
  · exact .modifyCurrent (fun _ => rfl) fun _ _ hc => hc.congr rfl hc.locals hc.upvalues hc.retvals
  · refine Triple.bind (emitAgain_known rfl) fun _ => Keeps.andThen (emitJump_keeps rfl) fun skipInit => ?_
    refine Keeps.andThen (hb.expr _) fun _ => Triple.bind (emitNoted_known rfl) fun _ => ?_
    exact Keeps.andThen (emitOp_keeps rfl) fun _ => Keeps.triple patchJump_keeps

/-! ### Exceptions -/

theorem addHiddenLocal_known {k : Ledger} {ks : List Outer} {name : CString} :
    Triple (Known k ks) (addHiddenLocal name) fun slot => Known (k.reserve slot) ks := by
  refine .get_bind fun s₀ hs => Triple.pre (P := Known k ks) ?_ (by rintro s rfl; exact hs)
  refine addLocal_known.bind fun slot => Keeps.andThen (emitOp_keeps rfl) fun _ => ?_
  refine (emitStoreLocal_ready Ledger.lt_reserve).bind fun _ => Keeps.andThen (emitOp_keeps rfl) fun _ => ?_
  exact .pure fun _ hs => hs

theorem pushTry_ready {k : Ledger} {ks : List Outer} {activeTry : ActiveTry}
    (h : activeTry.body.isSome → activeTry.retvalSlot < k.slots) :
    Triple (Known k ks) (pushTry activeTry) fun _ => Known k ks := by
  refine .modify fun s hs => ⟨hs.stray, fun hstray => ?_⟩
  have hgood := hs.good hstray
  have hc := hgood.holds
  refine hgood.replace (hc.congr rfl hc.locals hc.upvalues fun t ht hbody => ?_) rfl
  rcases List.mem_cons.mp ht with rfl | ht
  · exact lt_of_lt_of_le (h hbody) hc.slots
  · exact hc.retvals t ht hbody

theorem popTry_keeps : Keeps popTry :=
  .modifyCurrent (fun _ => rfl) fun _ _ hc => hc.congr rfl hc.locals hc.upvalues fun t ht =>
    hc.retvals t (List.mem_of_mem_tail ht)

theorem emitBindCaught_keeps {varName : CString} : Keeps (emitBindCaught varName) := by
  refine .ite (emitOp_keeps rfl) (.addLocal_bind fun k ks slot => ?_)
  exact (emitStoreLocal_ready Ledger.lt_reserve).post fun _ _ hs => hs.release

theorem compileCatchBody_keeps (hb : below.Keep) {cb : CatchBlock Stmt} :
    Keeps (compileCatchBody below cb) := by
  refine .bind beginScope_keeps fun _ => .bind emitBindCaught_keeps fun _ => ?_
  exact .bind (hb.stmt _) fun _ => .bind endScope_keeps fun _ => emitJump_keeps rfl

theorem compileCatches_keeps (hb : below.Keep) (catchBlocks : List (CatchBlock Stmt)) :
    Keeps (compileCatches below catchBlocks) := by
  induction catchBlocks with
  | nil => exact .pure
  | cons cb rest ih =>
      refine .ite (.bind (compileCatchBody_keeps hb) fun _ => .pure) ?_
      refine .bind (emitOp_keeps rfl) fun _ => .bind emitConstant_keeps fun _ => .bind (emitOp_keeps rfl) fun _ => ?_
      refine .bind (emitJump_keeps rfl) fun nextCatch => .bind (compileCatchBody_keeps hb) fun success => ?_
      exact .bind patchJump_keeps fun _ => .bind ih fun _ => .pure

theorem compileHandler_ready (hb : below.Keep) {k : Ledger} {ks : List Outer}
    {catchBlocks : List (CatchBlock Stmt)} {pendingSlot : Option Nat}
    (h : ∀ slot, pendingSlot = some slot → slot < k.slots) :
    Triple (Known k ks) (compileHandler below catchBlocks pendingSlot) fun _ => Known k ks := by
  unfold compileHandler
  split
  · exact .pure fun _ hs => hs
  · refine (emitStoreLocal_ready (h _ rfl)).bind fun _ => Keeps.andThen (emitOp_keeps rfl) fun _ => ?_
    exact .pure fun _ hs => hs
  · refine Keeps.andThen (compileCatches_keeps hb _) fun _ => ?_
    refine (emitStoreLocal_ready (h _ rfl)).bind fun _ => Keeps.andThen (emitOp_keeps rfl) fun _ => ?_
    exact Keeps.andThen (emitJump_keeps rfl) fun _ => .pure fun _ hs => hs
  · refine Keeps.andThen (compileCatches_keeps hb _) fun _ => Keeps.andThen (emitOp_keeps rfl) fun _ => ?_
    exact .pure fun _ hs => hs

theorem emitRethrow_ready {k : Ledger} {ks : List Outer} {pendingSlot : Nat} (h : pendingSlot < k.slots) :
    Triple (Known k ks) (emitRethrow pendingSlot) fun _ => Known k ks := by
  refine (emitLoadLocal_ready h).bind fun _ => Keeps.andThen (emitOp_keeps rfl) fun _ => ?_
  refine Keeps.andThen (emitJump_keeps rfl) fun skipRethrow => Keeps.andThen (emitOp_keeps rfl) fun _ => ?_
  exact Keeps.andThen patchJump_keeps fun _ => Keeps.triple (emitOp_keeps rfl)

theorem compileTryBody_ready (hb : below.Keep) {k : Ledger} {ks : List Outer} {tryBlock : Stmt}
    {catchBlocks : List (CatchBlock Stmt)} {activeTry : ActiveTry} {pendingSlot : Option Nat}
    (hretval : activeTry.body.isSome → activeTry.retvalSlot < k.slots)
    (hpending : ∀ slot, pendingSlot = some slot → slot < k.slots) :
    Triple (Known k ks) (compileTryBody below tryBlock catchBlocks activeTry pendingSlot)
      fun _ => Known k ks := by
  refine (pushTry_ready hretval).bind fun _ => Keeps.andThen (emitJump_keeps rfl) fun tryStart => ?_
  refine Keeps.andThen (hb.stmt _) fun _ => Keeps.andThen (emitOp_keeps rfl) fun _ => ?_
  refine Keeps.andThen (emitJump_keeps rfl) fun afterCatch => Keeps.andThen patchJump_keeps fun _ => ?_
  refine (compileHandler_ready hb hpending).bind fun _ => Keeps.andThen patchAll_keeps fun _ => ?_
  exact Keeps.andThen patchJump_keeps fun _ => Keeps.triple popTry_keeps

theorem compileTry_keeps (hb : below.Keep) {tryBlock : Stmt} {catchBlocks : List (CatchBlock Stmt)}
    {finallyBlock : Option Stmt} : Keeps (compileTry below tryBlock catchBlocks finallyBlock) := by
  intro k ks
  cases finallyBlock with
  | none => exact compileTryBody_ready hb (by simp) (by simp)
  | some finallyBlock =>
      refine Keeps.andThen beginScope_keeps fun _ => addHiddenLocal_known.bind fun pendingSlot => ?_
      refine addHiddenLocal_known.bind fun retvalSlot => ?_
      have hpending : pendingSlot < ((k.reserve pendingSlot).reserve retvalSlot).slots :=
        Ledger.lt_reserve_of_lt Ledger.lt_reserve
      refine Triple.bind (compileTryBody_ready hb (fun _ => Ledger.lt_reserve) ?_) fun _ => ?_
      · intro slot hslot
        cases hslot
        exact hpending
      refine Keeps.andThen (hb.stmt _) fun _ => (emitRethrow_ready hpending).bind fun _ => ?_
      exact (Keeps.triple endScope_keeps).post fun _ _ hs => hs.release.release

theorem compileThrow_keeps (hb : below.Keep) {expr : Expr} : Keeps (compileThrow below expr) :=
  .bind (hb.expr _) fun _ => emitOp_keeps rfl

/-! ### All statements -/

theorem compileStmtVariant_keeps (hb : below.Keep) (variant : StmtVariant Expr Stmt) :
    Keeps (compileStmtVariant host below variant) := by
  cases variant with
  | ExpressionStmt expr => exact compileExpressionStmt_keeps hb
  | OutStmt expr => exact compileOutStmt_keeps hb
  | VarDeclStmt name initializer => exact compileVarDecl_keeps hb
  | BlockStmt statements => exact compileBlockBody_keeps hb
  | WhenStmt condition thenBranch elseBranch => exact compileWhen_keeps hb
  | WhileStmt condition body => exact compileWhile_keeps hb
  | RepeatStmt var start finish step body => exact compileRepeat_keeps hb
  | GetStmt var valueVar iterable body => exact compileGet_keeps hb
  | MatchStmt subject arms => exact compileMatch_keeps hb
  | TaskStmt task => exact compileTask_keeps hb
  | GiveStmt value => exact compileGive_keeps hb
  | UseStmt path aliasName => exact compileUse_keeps hb
  | ExportStmt inner => exact compileExport_keeps hb
  | EscapeStmt => exact compileEscape_keeps hb
  | SkipStmt => exact compileSkip_keeps hb
  | ModelStmt model => exact compileModel_keeps hb
  | StaticStmt name initializer => exact compileStatic_keeps hb
  | TryStmt tryBlock catchBlocks finallyBlock => exact compileTry_keeps hb
  | ThrowStmt expr => exact compileThrow_keeps hb
  | InterfaceStmt name methods => exact compileInterface_keeps

theorem compileStmt_keeps (hb : below.Keep) (s : Stmt) : Keeps (compileStmt host below s) := by
  refine .bind (.modify fun _ => rfl) fun _ => .getCurrent_bind fun before => ?_
  refine .bind (compileStmtVariant_keeps hb _) fun _ => .modifyCurrent (fun _ => rfl) fun _ _ hc => ?_
  exact hc.congr rfl hc.locals hc.upvalues hc.retvals

/-! ### Programs -/

theorem compilers_keep (host : Host) (depth : Nat) : (compilers host depth).Keep := by
  induction depth with
  | zero => exact ⟨fun _ _ _ => .throw, fun _ _ _ => .throw⟩
  | succ depth ih => exact ⟨compileExpr_keeps ih, compileStmt_keeps ih⟩

theorem compileStatements_keeps (hb : below.Keep) (statements : List Stmt) :
    Keeps (compileStatements below statements) := by
  induction statements with
  | nil => exact .pure
  | cons s rest ih =>
      unfold compileStatements
      split
      · exact .bind (hb.expr _) fun _ => .bind (emitOp_keeps rfl) fun _ => ih
      · exact .bind (hb.stmt _) fun _ => ih

/-- Every function of a compilation is sound. -/
theorem compile_sound {session : Session} {statements : List Stmt} {result : CompileResult}
    (h : compile host session statements = .ok result) (hstray : result.strayJump = false) :
    ∀ f ∈ result.functions, f.Sound := by
  have hmain : Triple (fun s => s = session.start statements) (compileMain host statements)
      fun result _ => result.strayJump = false → ∀ f ∈ result.functions, f.Sound := by
    refine Triple.pre (P := Known (.fresh false false) []) ?_ ?_
    · refine Keeps.andThen (compileStatements_keeps (compilers_keep host MAX_DEPTH) statements) fun _ => ?_
      refine Keeps.andThen (emitOp_keeps rfl) fun _ => Keeps.andThen (emitOp_keeps rfl) fun _ => ?_
      refine .get_bind fun s₀ hs => .pure fun s hs₀ hstray f hf => ?_
      rcases List.mem_append.mp hf with hf | hf
      · exact (hs.good hstray).finished f hf
      · rw [List.mem_singleton.mp hf]
        have hc := (hs.good hstray).holds
        refine ⟨⟨false, false, hc.congr rfl hc.locals hc.upvalues hc.retvals⟩, ?_⟩
        change s₀.current.maxLocals = if s₀.current.isHarvesting then _ else s₀.current.maxLocals
        rw [hc.isHarvesting]
        rfl
    · rintro s rfl
      refine ⟨(fun h => nomatch h), fun _ => ⟨.outermost (Ledger.holds_fresh rfl rfl) rfl, ?_, ?_⟩⟩
      · intro f hf
        cases hf
      · intro capture hcapture
        cases hcapture
  unfold compile at h
  cases hrun : (compileMain host statements).run (session.start statements) with
  | error e =>
      simp only [StateT.run'_eq, hrun] at h
      cases h
  | ok r =>
      simp only [StateT.run'_eq, hrun] at h
      cases h
      exact hmain.run rfl hrun hstray

end BytecodeCompiler

end EZLanguage
