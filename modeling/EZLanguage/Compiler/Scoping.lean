import EZLanguage.Compiler.OperandInvariant

/-!
# The variable a name refers to

A name is resolved over the functions around it: among their static variables, then among the local
variables of the function itself, among those it captures, and last among the global variables. The
instruction that is emitted is followed to the variable it accesses.
-/

namespace EZLanguage

/-! ### Scopes -/

/-- What a function has under a name: the slot of its last local variable, and its static variable. -/
structure Declared where
  slot : Option Nat
  static : Option CString
  deriving DecidableEq

/-- A local variable by the number of functions out and its slot there, a static variable by the name it is
kept under, or a global variable. -/
inductive Variable where
  | localVar (depth slot : Nat)
  | staticVar (mangled : CString)
  | globalVar (name : CString)
  deriving DecidableEq

namespace Declared

/-- A function that does not declare the name. -/
def nothing : Declared := ⟨none, none⟩

/-- The innermost declaration of a name, in functions from the inside out. Where a function has both,
`staticInside` says whether the static variable is declared further inside than the local one; the compiler
keeps no order between the two. -/
def innermost (staticInside : Nat → Bool) (name : CString) : List Declared → Nat → Variable
  | [], _ => .globalVar name
  | ⟨none, none⟩ :: scopes, depth => innermost staticInside name scopes (depth + 1)
  | ⟨some slot, none⟩ :: _, depth => .localVar depth slot
  | ⟨none, some mangled⟩ :: _, _ => .staticVar mangled
  | ⟨some slot, some mangled⟩ :: _, depth =>
      if staticInside depth then .staticVar mangled else .localVar depth slot

/-- The local variable of the first function that has one. -/
def firstLocal : List Declared → Nat → Option Variable
  | [], _ => none
  | d :: scopes, depth =>
      match d.slot with
      | some slot => some (.localVar depth slot)
      | none => firstLocal scopes (depth + 1)

/-- The variable the compiler takes a name for. -/
def resolved (name : CString) (scopes : List Declared) (depth : Nat) : Variable :=
  match scopes.findSome? static with
  | some mangled => .staticVar mangled
  | none => (firstLocal scopes depth).getD (.globalVar name)

/-- The variable the fused assignments take a name for. -/
def fused (name : CString) : List Declared → Variable
  | ⟨some slot, _⟩ :: _ => .localVar 0 slot
  | _ => .globalVar name

/-- No local variable is inside the function of the first static variable, or in it and further inside. -/
def StaticsInside (staticInside : Nat → Bool) : List Declared → Nat → Prop
  | [], _ => True
  | ⟨none, none⟩ :: scopes, depth => StaticsInside staticInside scopes (depth + 1)
  | ⟨some _, none⟩ :: scopes, _ => ∀ d ∈ scopes, d.static = none
  | ⟨none, some _⟩ :: _, _ => True
  | ⟨some _, some _⟩ :: _, depth => staticInside depth = true

/-- The function itself has a local variable and no static one, or no function has either. -/
def Plainly : List Declared → Prop
  | [] => True
  | ⟨some _, static⟩ :: _ => static = none
  | ⟨none, static⟩ :: scopes => static = none ∧ ∀ d ∈ scopes, d = nothing

/-- If the function itself has both a local and a static variable, the local one is further inside. -/
def OwnInside (staticInside : Nat → Bool) : List Declared → Prop
  | ⟨some _, some _⟩ :: _ => staticInside 0 = false
  | _ => True

theorem firstLocal_eq_none_iff {scopes : List Declared} {depth : Nat} :
    firstLocal scopes depth = none ↔ ∀ d ∈ scopes, d.slot = none := by
  induction scopes generalizing depth with
  | nil => simp [firstLocal]
  | cons d scopes ih => cases h : d.slot <;> simp [firstLocal, h, ih]

/-- A name without a static variable and without a local one is declared nowhere. -/
theorem eq_nothing {scopes : List Declared} {depth : Nat} (hstatic : scopes.findSome? static = none)
    (hlocal : firstLocal scopes depth = none) : ∀ d ∈ scopes, d = nothing := by
  intro d hd
  have hslot := firstLocal_eq_none_iff.mp hlocal d hd
  have hnone := List.findSome?_eq_none_iff.mp hstatic d hd
  cases d
  rw [nothing, mk.injEq]
  exact ⟨hslot, hnone⟩

/-- The compiler finds the innermost declaration exactly where no static variable comes in between. -/
theorem resolved_eq_innermost_iff {staticInside : Nat → Bool} {name : CString}
    {scopes : List Declared} {depth : Nat} :
    resolved name scopes depth = innermost staticInside name scopes depth ↔
      StaticsInside staticInside scopes depth := by
  induction scopes generalizing depth with
  | nil => simp [resolved, innermost, firstLocal, StaticsInside]
  | cons d scopes ih =>
      obtain ⟨_ | slot, _ | mangled⟩ := d
      · rw [innermost, StaticsInside, ← ih]
        simp [resolved, firstLocal]
      · simp [resolved, innermost, StaticsInside]
      · rw [innermost, StaticsInside, ← List.findSome?_eq_none_iff]
        cases h : scopes.findSome? static <;> simp [resolved, firstLocal, h]
      · cases h : staticInside depth <;> simp [resolved, innermost, StaticsInside, h]

theorem innermost_eq_own_iff {staticInside : Nat → Bool} {name : CString} {slot : Nat}
    {static : Option CString} {scopes : List Declared} :
    innermost staticInside name (⟨some slot, static⟩ :: scopes) 0 = .localVar 0 slot ↔
      OwnInside staticInside (⟨some slot, static⟩ :: scopes) := by
  cases static with
  | none => simp [innermost, OwnInside]
  | some mangled => cases h : staticInside 0 <;> simp [innermost, OwnInside, h]

theorem exists_static {staticInside : Nat → Bool} {scopes : List Declared} {depth : Nat}
    (h : ¬ StaticsInside staticInside scopes depth) :
    ∃ mangled, scopes.findSome? static = some mangled := by
  induction scopes generalizing depth with
  | nil => exact (h trivial).elim
  | cons d scopes ih =>
      obtain ⟨_ | slot, _ | mangled⟩ := d
      · exact ih h
      · exact ⟨mangled, rfl⟩
      · rw [StaticsInside, ← List.findSome?_eq_none_iff] at h
        exact Option.ne_none_iff_exists'.mp h
      · exact ⟨mangled, rfl⟩

theorem plainly_of_nothing {scopes : List Declared} (h : ∀ d ∈ scopes, d = nothing) :
    Plainly scopes := by
  cases scopes with
  | nil => trivial
  | cons d scopes =>
      cases h d List.mem_cons_self
      exact ⟨rfl, fun d hd => h d (List.mem_cons_of_mem _ hd)⟩

/-- An innermost declaration is a global one exactly where no function has the name. -/
theorem innermost_eq_global_iff {staticInside : Nat → Bool} {name name' : CString}
    {scopes : List Declared} {depth : Nat} :
    innermost staticInside name scopes depth = .globalVar name' ↔
      name = name' ∧ ∀ d ∈ scopes, d = nothing := by
  induction scopes generalizing depth with
  | nil => simp [innermost]
  | cons d scopes ih =>
      obtain ⟨_ | slot, _ | mangled⟩ := d
      · rw [innermost, ih]
        simp [nothing]
      · simp [innermost, nothing]
      · simp [innermost, nothing]
      · cases h : staticInside depth <;> simp [innermost, nothing, h]

/-- With no static variable in between, the fused assignments find it exactly for plain names. -/
theorem fused_eq_innermost_iff {staticInside : Nat → Bool} {name : CString} {scopes : List Declared}
    (h : StaticsInside staticInside scopes 0) :
    fused name scopes = innermost staticInside name scopes 0 ↔ Plainly scopes := by
  cases scopes with
  | nil => simp [fused, innermost, Plainly]
  | cons d scopes =>
      obtain ⟨_ | slot, _ | mangled⟩ := d
      · rw [innermost, Plainly, eq_comm]
        exact innermost_eq_global_iff.trans (and_congr_left fun _ => by simp)
      · simp [fused, innermost, Plainly]
      · simp [fused, innermost, Plainly]
      · rw [StaticsInside] at h
        simp [fused, innermost, Plainly, h]

end Declared

/-! ### What an instruction accesses -/

/-- The name on the right of a binary operator. -/
def Expr.rightName? (value : Expr) : Option CString :=
  match value.variant with
  | .BinaryExpr _ _ right => right.identifier?
  | _ => none

namespace BytecodeCompiler

open PartialCorrectness

/-- What each function has under a name, from the inside out. -/
def scopesOf (name : CString) (functions : List Compiler) : List Declared :=
  functions.map fun c => ⟨findLocal c.locals name, lookup c.statics name⟩

def scopes (s : BytecodeCompiler) (name : CString) : List Declared :=
  scopesOf name (s.current :: s.enclosing)

/-- The local variable an upvalue of the first function leads to. The compiler makes upvalues of the two
kinds it names alone. -/
def captured : List Compiler → Nat → Nat → Option Variable
  | [], _, _ => none
  | c :: enclosing, depth, idx =>
      match c.upvalues[idx]? with
      | some ⟨.LOCAL, slot⟩ => some (.localVar (depth + 1) slot)
      | some ⟨.UPVALUE, idx⟩ => captured enclosing (depth + 1) idx
      | _ => none

/-- The variable an operand names in the current function. -/
def Names (s : BytecodeCompiler) : Operand → Variable → Prop
  | .slot n, v => v = .localVar 0 n
  | .wideSlot n, v => v = .localVar 0 n
  | .upvalue idx, v => captured (s.current :: s.enclosing) 0 idx = some v
  | .constant k, v =>
      ∃ mangled, s.current.constants.entries[k]? = some (.string mangled) ∧ v = .staticVar mangled
  | .globalSlot n, v =>
      ∃ name slot, lookup s.globalSlots name = some slot ∧ slot.toNat = n ∧ v = .globalVar name
  | _, _ => False

/-- The variable an instruction of the current function reads or writes. Its first operand names it. -/
def Accesses (s : BytecodeCompiler) (i : Emitted) (v : Variable) : Prop :=
  ∃ operand, i.operands.head? = some operand ∧ s.Names operand v

/-- The instruction emitted last reads or writes the variable. -/
def LastAccesses (s : BytecodeCompiler) (v : Variable) : Prop :=
  ∃ i, s.current.code.getLast? = some i ∧ s.Accesses i v

/-- The second operand of the instruction emitted last names the variable. -/
def LastReads (s : BytecodeCompiler) (v : Variable) : Prop :=
  ∃ i operand, s.current.code.getLast? = some i ∧ i.operands[1]? = some operand ∧ s.Names operand v

/-- An operand names one variable, up to the name of a global one. -/
theorem Names.unique {s : BytecodeCompiler} {operand : Operand} {v v' : Variable}
    (h : s.Names operand v) (h' : s.Names operand v') :
    v = v' ∨ ∃ name name', v = .globalVar name ∧ v' = .globalVar name' := by
  cases operand with
  | slot n => exact .inl (h.trans h'.symm)
  | wideSlot n => exact .inl (h.trans h'.symm)
  | upvalue idx => exact .inl (Option.some_inj.mp (h.symm.trans h'))
  | constant k =>
      obtain ⟨mangled, hk, rfl⟩ := h
      obtain ⟨mangled', hk', rfl⟩ := h'
      rw [hk] at hk'
      cases hk'
      exact .inl rfl
  | globalSlot n =>
      obtain ⟨name, -, -, -, rfl⟩ := h
      obtain ⟨name', -, -, -, rfl⟩ := h'
      exact .inr ⟨name, name', rfl, rfl⟩
  | _ => exact h.elim

theorem LastAccesses.unique {s : BytecodeCompiler} {v v' : Variable} (h : s.LastAccesses v)
    (h' : s.LastAccesses v') : v = v' ∨ ∃ name name', v = .globalVar name ∧ v' = .globalVar name' := by
  obtain ⟨i, hi, operand, hfirst, hnames⟩ := h
  obtain ⟨i', hi', operand', hfirst', hnames'⟩ := h'
  rw [hi] at hi'
  cases hi'
  rw [hfirst] at hfirst'
  cases hfirst'
  exact hnames.unique hnames'

theorem LastReads.unique {s : BytecodeCompiler} {v v' : Variable} (h : s.LastReads v)
    (h' : s.LastReads v') : v = v' ∨ ∃ name name', v = .globalVar name ∧ v' = .globalVar name' := by
  obtain ⟨i, operand, hi, hsecond, hnames⟩ := h
  obtain ⟨i', operand', hi', hsecond', hnames'⟩ := h'
  rw [hi] at hi'
  cases hi'
  rw [hsecond] at hsecond'
  cases hsecond'
  exact hnames.unique hnames'

/-! ### Upvalues -/

theorem findLocal_congr {locals locals' : List LocalVariable} {name : CString}
    (h : locals.map LocalVariable.name = locals'.map LocalVariable.name) :
    findLocal locals name = findLocal locals' name := by
  have hfind : ∀ ls : List LocalVariable, findLocal ls name =
      ((ls.map LocalVariable.name).reverse.findIdx? fun n => n == name).map fun i =>
        (ls.map LocalVariable.name).length - 1 - i := by
    intro ls
    rw [← List.map_reverse, List.findIdx?_map, List.length_map]
    rfl
  rw [hfind, hfind, h]

theorem addUpvalue_at {c c' : Compiler} {index idx : Nat} {type : UpvalueType}
    (h : Compiler.addUpvalue c index type = .ok (c', idx)) :
    c' = { c with upvalues := c'.upvalues } ∧ c'.upvalues[idx]? = some ⟨type, index⟩ := by
  unfold Compiler.addUpvalue at h
  split at h
  case h_1 i hi =>
      cases h
      obtain ⟨hlt, hsame, -⟩ := List.findIdx?_eq_some_iff_getElem.mp hi
      rw [Bool.and_eq_true, beq_iff_eq, beq_iff_eq] at hsame
      refine ⟨rfl, ?_⟩
      rw [List.getElem?_eq_getElem hlt, ← hsame.1, ← hsame.2]
  case h_2 =>
      split at h
      case isTrue => cases h
      case isFalse =>
          cases h
          exact ⟨rfl, List.getElem?_concat_length⟩

/-- An upvalue leads to the local variable of the first enclosing function that has one, and there is an
upvalue exactly where there is such a function. What the functions declare stays. -/
theorem resolveUpvalueIn_captured {name : CString} {c c' : Compiler} {cs cs' : List Compiler}
    {found : Option Nat} (h : resolveUpvalueIn name c cs = .ok (c', cs', found)) (depth : Nat) :
    (∀ other, scopesOf other (c' :: cs') = scopesOf other (c :: cs)) ∧
      Declared.firstLocal (scopesOf name cs) (depth + 1) = found.bind (captured (c' :: cs') depth) ∧
      (Declared.firstLocal (scopesOf name cs) (depth + 1) = none → found = none) := by
  induction cs generalizing c c' cs' found depth with
  | nil =>
      cases h
      exact ⟨fun _ => rfl, rfl, fun _ => rfl⟩
  | cons outer rest ih =>
      unfold resolveUpvalueIn at h
      split at h
      case h_1 i hi =>
          cases hadd : Compiler.addUpvalue c i .LOCAL with
          | error message =>
              rw [hadd] at h
              cases h
          | ok added =>
              rw [hadd] at h
              cases h
              obtain ⟨hc, hat⟩ := addUpvalue_at hadd
              have hfirst : Declared.firstLocal (scopesOf name (outer :: rest)) (depth + 1) =
                  some (.localVar (depth + 1) i) := by
                simp only [scopesOf, List.map_cons, Declared.firstLocal, hi]
              refine ⟨fun other => ?_, ?_, fun hnone => nomatch hfirst.symm.trans hnone⟩
              · have hnames : findLocal (outer.locals.modify i fun l => { l with isCaptured := true })
                    other = findLocal outer.locals other := by
                  apply findLocal_congr
                  apply List.ext_getElem?
                  intro n
                  rw [List.getElem?_map, List.getElem?_map, List.getElem?_modify]
                  split <;> cases outer.locals[n]? <;> rfl
                simp only [scopesOf, List.map_cons, hnames]
                rw [hc]
              · rw [hfirst, Option.bind_some, captured, hat]
      case h_2 hnone =>
          have hfirst : Declared.firstLocal (scopesOf name (outer :: rest)) (depth + 1) =
              Declared.firstLocal (scopesOf name rest) (depth + 2) := by
            simp only [scopesOf, List.map_cons, Declared.firstLocal, hnone]
          cases hrec : resolveUpvalueIn name outer rest with
          | error message =>
              rw [hrec] at h
              cases h
          | ok resolved =>
              obtain ⟨outer', rest', upval⟩ := resolved
              rw [hrec] at h
              obtain ⟨hscopes, hcaptured, hempty⟩ := ih hrec (depth + 1)
              cases upval with
              | none =>
                  cases h
                  refine ⟨fun other => ?_, ?_, fun _ => rfl⟩
                  · exact congrArg (_ :: ·) (hscopes other)
                  · rw [hfirst, hcaptured]
                    rfl
              | some upval =>
                  cases hadd : Compiler.addUpvalue c upval .UPVALUE with
                  | error message =>
                      simp only [Bind.bind, Except.bind, hadd] at h
                      cases h
                  | ok added =>
                      simp only [Bind.bind, Except.bind, hadd] at h
                      cases h
                      obtain ⟨hc, hat⟩ := addUpvalue_at hadd
                      refine ⟨fun other => ?_, ?_, fun hnone => nomatch hempty (hfirst ▸ hnone)⟩
                      · rw [hc]
                        exact congrArg (_ :: ·) (hscopes other)
                      · rw [hfirst, hcaptured, Option.bind_some, Option.bind_some]
                        symm
                        rw [captured, hat]

/-! ### Resolving a name -/

theorem addConstant_string (pool : ConstantPool) (m : CString) :
    (pool.addConstant (.string m)).1.entries[(pool.addConstant (.string m)).2]? =
      some (.string m) := by
  unfold ConstantPool.addConstant
  split
  case h_1 i hi =>
      obtain ⟨hlt, hsame, -⟩ := List.findIdx?_eq_some_iff_getElem.mp hi
      rw [List.getElem?_eq_getElem hlt]
      cases hentry : pool.entries[i] with
      | string m' =>
          rw [hentry] at hsame
          rw [beq_iff_eq.mp hsame]
      | _ =>
          rw [hentry] at hsame
          cases hsame
  case h_2 => exact List.getElem?_concat_length

variable {s₀ : BytecodeCompiler} {name : CString}

theorem run_bind {α β : Type} {m : CompileM α} {f : α → CompileM β} {s s' : BytecodeCompiler} {a : α}
    (h : m s = .ok (a, s')) : (m >>= f) s = f a s' := by
  simp only [Bind.bind, StateT.bind, h, Except.bind]

theorem resolveLocal_run (s : BytecodeCompiler) (name : CString) :
    resolveLocal name s = .ok (findLocal s.current.locals name, s) := rfl

theorem get_run (s : BytecodeCompiler) : (get : CompileM BytecodeCompiler) s = .ok (s, s) := rfl

theorem resolveStatic_run (s : BytecodeCompiler) (name : CString) :
    resolveStatic name s = .ok ((s.scopes name).findSome? Declared.static, s) := by
  rw [scopes, scopesOf, List.findSome?_map]
  rfl

theorem resolveStatic_triple :
    Triple (fun s => s = s₀) (resolveStatic name) fun mangled s =>
      mangled = (s₀.scopes name).findSome? Declared.static ∧ s = s₀ := by
  refine .get_bind fun s hs => .pure ?_
  rintro s' rfl
  refine ⟨?_, hs⟩
  rw [hs, scopes, scopesOf, List.findSome?_map]
  rfl

theorem resolveLocal_triple :
    Triple (fun s => s = s₀) (resolveLocal name) fun slot s =>
      slot = findLocal s₀.current.locals name ∧ s = s₀ := by
  refine .get_bind fun s hs => .pure ?_
  rintro s' rfl
  rw [hs]
  exact ⟨rfl, rfl⟩

theorem resolveUpvalue_triple :
    Triple (fun s => s = s₀) (resolveUpvalue name) fun found s =>
      (Declared.firstLocal (scopesOf name s₀.enclosing) 1 =
          found.bind (captured (s.current :: s.enclosing) 0) ∧
        (Declared.firstLocal (scopesOf name s₀.enclosing) 1 = none → found = none)) ∧
      ∀ other, s.scopes other = s₀.scopes other := by
  refine .get_bind fun s hs => ?_
  rw [hs]
  split
  case h_1 => exact errorAt_triple
  case h_2 current enclosing idx hresolve =>
      obtain ⟨hscopes, hcaptured, hnone⟩ := resolveUpvalueIn_captured hresolve 0
      refine Triple.bind (.modify fun s hs => ?_) fun _ => .pure fun _ h => h
      exact ⟨⟨hcaptured, hnone⟩, hscopes⟩

theorem identifierConstant_triple {m : CString} :
    Triple (fun s => s = s₀) (identifierConstant m) fun k s =>
      s.current.constants.entries[k]? = some (.string m) ∧
        ∀ other, s.scopes other = s₀.scopes other := by
  rintro s rfl k s' h
  cases h
  exact ⟨addConstant_string _ m, fun _ => rfl⟩

/-- A global variable has the slot from then on, and nothing else has changed. -/
theorem globalSlotFor_triple (s₀ : BytecodeCompiler) (name : CString) :
    Triple (fun s => s = s₀) (globalSlotFor name) fun n s =>
      (∃ slot, lookup s.globalSlots name = some slot ∧ slot.toNat = n) ∧
        (s.current = s₀.current ∧ s.enclosing = s₀.enclosing) ∧
        ((lookup s₀.globalSlots name).isSome = true ∨ s₀.nextGlobalSlot ≤ 65535) := by
  refine .get_bind fun s hs => ?_
  rw [hs]
  split
  case h_1 slot hslot =>
      refine .pure ?_
      rintro s' rfl
      exact ⟨⟨slot, hslot, rfl⟩, ⟨rfl, rfl⟩, .inl (by rw [hslot]; rfl)⟩
  case h_2 hnone =>
      refine .ite (fun _ => ?_) fun hroom => ?_
      · exact Triple.bind (Q := fun _ _ => False) errorAt_triple fun _ _ hs => hs.elim
      · rintro s rfl n s₁ h
        cases h
        refine ⟨⟨UInt16.ofNat s.nextGlobalSlot, ?_, rfl⟩, ⟨rfl, rfl⟩, .inr (Nat.le_of_not_gt hroom)⟩
        rw [lookup_append, hnone, if_pos rfl]
        rfl

theorem globalSlotFor_scoped (s₀ : BytecodeCompiler) (name : CString) :
    Triple (fun s => s = s₀) (globalSlotFor name) fun n s =>
      (∃ slot, lookup s.globalSlots name = some slot ∧ slot.toNat = n) ∧
        ∀ other, s.scopes other = s₀.scopes other := by
  refine (globalSlotFor_triple s₀ name).post fun n s ⟨hslot, ⟨hcurrent, henclosing⟩, _⟩ => ?_
  refine ⟨hslot, fun other => ?_⟩
  rw [scopes, scopes, hcurrent, henclosing]

theorem globalSlotFor_runs
    (h : (lookup s₀.globalSlots name).isSome = true ∨ s₀.nextGlobalSlot ≤ 65535) :
    ∃ n s, globalSlotFor name s₀ = .ok (n, s) := by
  unfold globalSlotFor
  rw [run_bind (get_run s₀)]
  cases hslot : lookup s₀.globalSlots name with
  | some slot => exact ⟨_, _, rfl⟩
  | none =>
      have hroom : ¬ s₀.nextGlobalSlot > 65535 := by
        rw [hslot] at h
        rcases h with h | h
        · cases h
        · exact Nat.not_lt_of_le h
      simp only [if_neg hroom]
      exact ⟨_, _, rfl⟩

/-- The instruction that is emitted is the last one, and what the functions declare stays. -/
theorem emit_accesses {P : BytecodeCompiler → Prop} {op : OpCode} {operand : Operand}
    {rest : List Operand} {v : Variable} (h : ∀ s, P s → s.Names operand v) :
    Triple P (emit op (operand :: rest)) fun _ s =>
      s.LastAccesses v ∧ ∃ s₁, P s₁ ∧ ∀ other, s.scopes other = s₁.scopes other :=
  .modify fun s hs =>
    ⟨⟨_, List.getLast?_concat, operand, rfl, h s hs⟩, s, hs, fun _ => rfl⟩

/-- A name without a static variable is one of the function itself. -/
theorem resolved_own (hstatic : (s₀.scopes name).findSome? Declared.static = none) {slot : Nat}
    (hslot : findLocal s₀.current.locals name = some slot) :
    Declared.resolved name (s₀.scopes name) 0 = .localVar 0 slot := by
  rw [Declared.resolved, hstatic]
  simp only [scopes, scopesOf, List.map_cons, Declared.firstLocal, hslot, Option.getD_some]

/-- A name without a static variable and without a local one of the function is one of an enclosing
function. -/
theorem firstLocal_enclosing (hslot : findLocal s₀.current.locals name = none) :
    Declared.firstLocal (s₀.scopes name) 0 =
      Declared.firstLocal (scopesOf name s₀.enclosing) 1 := by
  simp only [scopes, scopesOf, List.map_cons, Declared.firstLocal, hslot]

theorem resolved_enclosing (hstatic : (s₀.scopes name).findSome? Declared.static = none)
    (hslot : findLocal s₀.current.locals name = none) :
    Declared.resolved name (s₀.scopes name) 0 =
      (Declared.firstLocal (scopesOf name s₀.enclosing) 1).getD (.globalVar name) := by
  rw [Declared.resolved, hstatic, firstLocal_enclosing hslot]

theorem resolveUpvalueIn_none {c : Compiler} {cs : List Compiler}
    (h : ∀ outer ∈ cs, findLocal outer.locals name = none) :
    resolveUpvalueIn name c cs = .ok (c, cs, none) := by
  induction cs generalizing c with
  | nil => rfl
  | cons outer rest ih =>
      have hrest := ih (c := outer) fun o ho => h o (List.mem_cons_of_mem _ ho)
      simp only [resolveUpvalueIn, h outer List.mem_cons_self, hrest, Bind.bind, Except.bind]
      rfl

/-- A name that nothing declares is neither a local variable nor a captured one. -/
theorem resolve_undeclared (h : ∀ d ∈ s₀.scopes name, d = .nothing) :
    resolveStatic name s₀ = .ok (none, s₀) ∧ resolveLocal name s₀ = .ok (none, s₀) ∧
      resolveUpvalue name s₀ = .ok (none, s₀) := by
  have hnothing : ∀ c ∈ s₀.current :: s₀.enclosing,
      findLocal c.locals name = none ∧ lookup c.statics name = none := by
    intro c hc
    have hd := h _ (List.mem_map_of_mem hc)
    rw [Declared.nothing, Declared.mk.injEq] at hd
    exact hd
  have hstatic : (s₀.current :: s₀.enclosing).findSome? (fun c => lookup c.statics name) = none :=
    List.findSome?_eq_none_iff.mpr fun c hc => (hnothing c hc).2
  refine ⟨?_, ?_, ?_⟩
  · rw [← hstatic]
    rfl
  · rw [resolveLocal_run, (hnothing _ List.mem_cons_self).1]
  · have hnone := resolveUpvalueIn_none (c := s₀.current) fun outer houter =>
      (hnothing outer (List.mem_cons_of_mem _ houter)).1
    unfold resolveUpvalue
    rw [run_bind (get_run s₀), hnone]
    rfl

/-- An instruction for the variable a name is resolved to. -/
theorem emit_resolved {P : BytecodeCompiler → Prop} {op : OpCode} {operand : Operand}
    {rest : List Operand}
    (h : ∀ s, P s → s.Names operand (Declared.resolved name (s₀.scopes name) 0))
    (hscopes : ∀ s, P s → s.scopes name = s₀.scopes name) :
    Triple P (emit op (operand :: rest)) fun _ s =>
      s.LastAccesses (Declared.resolved name (s₀.scopes name) 0) ∧
        s.scopes name = s₀.scopes name :=
  Triple.post (emit_accesses h) fun _ _ ⟨haccesses, s₁, hs₁, hsame⟩ =>
    ⟨haccesses, (hsame name).trans (hscopes s₁ hs₁)⟩

theorem emitLoadLocal_resolved {P : BytecodeCompiler → Prop} {slot : Nat}
    (h : Declared.resolved name (s₀.scopes name) 0 = .localVar 0 slot)
    (hscopes : ∀ s, P s → s.scopes name = s₀.scopes name) :
    Triple P (emitLoadLocal slot) fun _ s =>
      s.LastAccesses (Declared.resolved name (s₀.scopes name) 0) ∧
        s.scopes name = s₀.scopes name := by
  unfold emitLoadLocal
  split
  · exact emit_resolved (fun _ _ => h) hscopes
  · exact emit_resolved (fun _ _ => h) hscopes

theorem emitStoreLocal_resolved {P : BytecodeCompiler → Prop} {slot : Nat}
    (h : Declared.resolved name (s₀.scopes name) 0 = .localVar 0 slot)
    (hscopes : ∀ s, P s → s.scopes name = s₀.scopes name) :
    Triple P (emitStoreLocal slot) fun _ s =>
      s.LastAccesses (Declared.resolved name (s₀.scopes name) 0) ∧
        s.scopes name = s₀.scopes name := by
  unfold emitStoreLocal
  split
  · exact emit_resolved (fun _ _ => h) hscopes
  · exact emit_resolved (fun _ _ => h) hscopes

/-- A name is read from the variable it is resolved to. -/
theorem compileIdentifier_accesses (hself : name ≠ lit "self") (hsuper : name ≠ lit "super") :
    Triple (fun s => s = s₀) (compileIdentifier name) fun _ s =>
      s.LastAccesses (Declared.resolved name (s₀.scopes name) 0) ∧
        s.scopes name = s₀.scopes name := by
  refine resolveStatic_triple.bind fun mangled => .of_and fun hstatic => ?_
  cases mangled with
  | some mangled =>
      have hresolved : Declared.resolved name (s₀.scopes name) 0 = .staticVar mangled := by
        rw [Declared.resolved, ← hstatic]
      refine identifierConstant_triple.bind fun k => ?_
      refine emit_resolved (fun s hs => ?_) fun s hs => hs.2 name
      rw [hresolved]
      exact ⟨mangled, hs.1, rfl⟩
  | none =>
      refine resolveLocal_triple.bind fun slot => .of_and fun hslot => ?_
      cases slot with
      | some slot =>
          have hresolved := resolved_own hstatic.symm hslot.symm
          refine emitLoadLocal_resolved hresolved fun s hs => ?_
          rw [hs]
      | none =>
          have hresolved := resolved_enclosing hstatic.symm hslot.symm
          refine resolveUpvalue_triple.bind fun idx => ?_
          cases idx with
          | some idx =>
              refine emit_resolved (fun s hs => ?_) fun s hs => hs.2 name
              obtain ⟨⟨hcaptured, hfound⟩, -⟩ := hs
              rw [hresolved]
              cases hlocal : Declared.firstLocal (scopesOf name s₀.enclosing) 1 with
              | none => cases hfound hlocal
              | some v => exact hcaptured.symm.trans hlocal
          | none =>
              refine Triple.of_forall fun s ⟨⟨houter, _⟩, hscopes⟩ => ?_
              dsimp only
              rw [if_neg hself, if_neg hsuper]
              refine (globalSlotFor_scoped s name).bind fun n => ?_
              refine emit_resolved (fun s' hs' => ?_) fun s' hs' => (hs'.2 name).trans (hscopes name)
              obtain ⟨slot, hslot, hn⟩ := hs'.1
              rw [hresolved, houter]
              exact ⟨name, slot, hslot, hn, rfl⟩

/-! ### Storing under a name -/

/-- What a store has done: the variable is the one the name is resolved to by then, and it is declared
where nothing declared the name. -/
def Stored (s₀ : BytecodeCompiler) (name : CString) (s : BytecodeCompiler) : Prop :=
  s.LastAccesses (Declared.resolved name (s.scopes name) 0) ∧
    (s.scopes name = s₀.scopes name ∨
      (∀ d ∈ s₀.scopes name, d = .nothing) ∧
        ∃ slot, s.scopes name = ⟨some slot, none⟩ :: (s₀.scopes name).tail)

theorem stored_of_resolved {s : BytecodeCompiler}
    (h : s.LastAccesses (Declared.resolved name (s₀.scopes name) 0) ∧
      s.scopes name = s₀.scopes name) : Stored s₀ name s :=
  ⟨h.2 ▸ h.1, .inl h.2⟩

theorem addLocal_scoped (s₀ : BytecodeCompiler) (name : CString) :
    Triple (fun s => s = s₀) (addLocal name false) fun slot s =>
      s.scopes name = ⟨some slot, lookup s₀.current.statics name⟩ :: (s₀.scopes name).tail := by
  refine .get_bind fun s hs => ?_
  rw [hs]
  refine Triple.bind (Q := fun _ s => s.scopes name =
    ⟨some s₀.current.locals.length, lookup s₀.current.statics name⟩ :: (s₀.scopes name).tail)
    (.modify ?_) fun _ => ?_
  · rintro s rfl
    simp [scopes, scopesOf, findLocal, List.findIdx?_cons]
  · refine .ite (fun _ => ?_) fun _ => .pure fun _ hs => hs
    exact Triple.bind (Q := fun _ _ => False) errorAt_triple fun _ _ hs => hs.elim

/-- A value is stored in the variable its name is resolved to. -/
theorem emitStoreName_stored :
    Triple (fun s => s = s₀) (emitStoreName name) fun _ => Stored s₀ name := by
  refine resolveStatic_triple.bind fun mangled => .of_and fun hstatic => ?_
  cases mangled with
  | some mangled =>
      have hresolved : Declared.resolved name (s₀.scopes name) 0 = .staticVar mangled := by
        rw [Declared.resolved, ← hstatic]
      refine identifierConstant_triple.bind fun k => ?_
      refine Triple.post (emit_resolved (fun s hs => ?_) fun s hs => hs.2 name) fun _ _ =>
        stored_of_resolved
      rw [hresolved]
      exact ⟨mangled, hs.1, rfl⟩
  | none =>
      refine resolveLocal_triple.bind fun slot => .of_and fun hslot => ?_
      cases slot with
      | some slot =>
          have hresolved := resolved_own hstatic.symm hslot.symm
          refine Triple.post (emitStoreLocal_resolved hresolved fun s hs => ?_) fun _ _ =>
            stored_of_resolved
          rw [hs]
      | none =>
          have hresolved := resolved_enclosing hstatic.symm hslot.symm
          refine resolveUpvalue_triple.bind fun idx => ?_
          cases idx with
          | some idx =>
              refine Triple.post (emit_resolved (fun s hs => ?_) fun s hs => hs.2 name) fun _ _ =>
                stored_of_resolved
              obtain ⟨⟨hcaptured, hfound⟩, -⟩ := hs
              rw [hresolved]
              cases hlocal : Declared.firstLocal (scopesOf name s₀.enclosing) 1 with
              | none => cases hfound hlocal
              | some v => exact hcaptured.symm.trans hlocal
          | none =>
              refine .get_bind fun s ⟨⟨houter, _⟩, hscopes⟩ => ?_
              have hglobal : Declared.resolved name (s₀.scopes name) 0 = .globalVar name := by
                rw [hresolved, houter]
                rfl
              have hslotFor : Triple (fun s₁ => s₁ = s) (globalSlotFor name >>= fun slot =>
                  emit .STORE_GLOBAL_SLOT [.globalSlot slot]) fun _ => Stored s₀ name := by
                refine (globalSlotFor_scoped s name).bind fun n => ?_
                refine Triple.post (emit_resolved (fun s₁ hs₁ => ?_) fun s₁ hs₁ =>
                  (hs₁.2 name).trans (hscopes name)) fun _ _ => stored_of_resolved
                obtain ⟨slot, hslot, hn⟩ := hs₁.1
                rw [hglobal]
                exact ⟨name, slot, hslot, hn, rfl⟩
              split
              case h_1 slot hslot _ =>
                  refine Triple.post (emit_resolved (fun s₁ hs₁ => ?_) fun s₁ hs₁ => ?_) fun _ _ =>
                    stored_of_resolved
                  · rw [hglobal, hs₁]
                    exact ⟨name, slot, hslot, rfl, rfl⟩
                  · rw [hs₁]
                    exact hscopes name
              case h_2 =>
                  refine .ite (fun _ => ?_) fun _ => hslotFor
                  -- Nothing declares the name, so it is declared here.
                  have hlocal : Declared.firstLocal (s₀.scopes name) 0 = none := by
                    rw [firstLocal_enclosing hslot.symm, houter]
                    rfl
                  have hnothing := Declared.eq_nothing hstatic.symm hlocal
                  refine (addLocal_scoped s name).bind fun slot => .of_forall fun s₁ hs₁ => ?_
                  have hhead : ⟨findLocal s.current.locals name, lookup s.current.statics name⟩ ∈
                      s₀.scopes name := by
                    rw [← hscopes name]
                    exact List.mem_cons_self
                  have hstatics : lookup s.current.statics name = none :=
                    congrArg Declared.static (hnothing _ hhead)
                  have hadded : s₁.scopes name = ⟨some slot, none⟩ :: (s₀.scopes name).tail := by
                    rw [hs₁, hstatics, hscopes]
                  have hnone : (s₀.scopes name).tail.findSome? Declared.static = none := by
                    rw [List.findSome?_eq_none_iff]
                    intro d hd
                    rw [hnothing d (List.mem_of_mem_tail hd)]
                    rfl
                  have hown : Declared.resolved name (s₁.scopes name) 0 = .localVar 0 slot := by
                    rw [hadded, Declared.resolved, List.findSome?_cons, hnone]
                    rfl
                  refine Triple.post (emitStoreLocal_resolved hown fun s₂ hs₂ => ?_)
                    fun _ s₂ ⟨haccesses, hsame⟩ => ?_
                  · rw [hs₂]
                  · exact ⟨hsame ▸ haccesses, .inr ⟨hnothing, slot, hsame.trans hadded⟩⟩

end BytecodeCompiler

end EZLanguage
