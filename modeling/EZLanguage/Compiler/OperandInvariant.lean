import EZLanguage.Compiler.CompileStmt
import EZLanguage.Support.PartialCorrectness
import Mathlib.Data.List.Forall2

/-!
# What operands refer to

The invariant of the compiler about the operands it emits: a slot is one of a local variable of the
function, an index is one into a table of the function, and every operand the source checks fits its
field. Every entry of a table is also named by an instruction, apart from those the compiler has added and
not used yet.
-/

namespace EZLanguage

open PartialCorrectness

/-! ### Tables and operands -/

/-- The tables of a function that operands are indices into. -/
inductive Table where
  | constant | cache | nested
  deriving DecidableEq

abbrev Entry := Table × Nat

namespace Operand

/-- The slot of a local variable of the function the operand is emitted in. -/
def localSlot? : Operand → Option Nat
  | slot n | wideSlot n => some n
  | capture isLocal index => if isLocal then some index else none
  | _ => none

def entry? : Operand → Option Entry
  | constant n => some (.constant, n)
  | cache n => some (.cache, n)
  | nested n => some (.nested, n)
  | _ => none

end Operand

/-- The operands the source casts to their field without a check. -/
def unchecked (op : OpCode) : Operand → Bool
  | .constant _ | .cache _ | .nested _ => true
  | .count _ => op = .CALL_KW || op = .TAIL_CALL || op = .MAKE_DICT || op = .MAKE_INTERFACE
  | .slot _ => op = .CLOSE_UPVALUE
  | _ => false

namespace Emitted

def entries (i : Emitted) : List Entry := i.operands.filterMap Operand.entry?

/-- The operands of an instruction are those its opcode has, where a nested function has that many
upvalues. -/
def Shaped (captures : Nat → Nat) (i : Emitted) : Prop :=
  i.operands.map Operand.field = i.op.fields.map some ∧ i.op ≠ .CLOSURE ∨
    i.op = .CLOSURE ∧ ∃ idx upvalues, i.operands = .nested idx :: upvalues ∧
      (∀ o ∈ upvalues, ∃ isLocal index, o = .capture isLocal index) ∧ upvalues.length = captures idx

end Emitted

/-- What the operands in a function may refer to. -/
structure Tables where
  hasSlot : Nat → Prop
  size : Table → Nat
  captures : Nat → Nat

/-- The operands of an instruction refer to something, and fit where that is checked. -/
structure Emitted.Placed (t : Tables) (i : Emitted) : Prop where
  shaped : i.Shaped t.captures
  slots : ∀ o ∈ i.operands, ∀ n, o.localSlot? = some n → t.hasSlot n
  entries : ∀ e ∈ i.entries, e.2 < t.size e.1
  fits : ∀ o ∈ i.operands, o.Fits ∨ unchecked i.op o = true

/-- What an operand refers to stays when there is more. -/
theorem Emitted.Placed.mono {t t' : Tables} {i : Emitted} (h : i.Placed t)
    (hslots : ∀ n, t.hasSlot n → t'.hasSlot n) (hsize : ∀ table, t.size table ≤ t'.size table)
    (hcaptures : ∀ idx < t.size .nested, t'.captures idx = t.captures idx) : i.Placed t' where
  shaped := by
    rcases h.shaped with hplain | ⟨hop, idx, upvalues, hoperands, hcapture, hlength⟩
    · exact .inl hplain
    · refine .inr ⟨hop, idx, upvalues, hoperands, hcapture, ?_⟩
      have hidx : (Table.nested, idx) ∈ i.entries := by
        simp [Emitted.entries, hoperands, Operand.entry?]
      rw [hlength, hcaptures idx (h.entries _ hidx)]
  slots := fun o ho n hn => hslots n (h.slots o ho n hn)
  entries := fun e he => lt_of_lt_of_le (h.entries e he) (hsize e.1)
  fits := h.fits

theorem Emitted.isJump_iff {i : Emitted} :
    i.isJump = true ↔ ∃ operands distance, i.operands = operands ++ [.jump distance] := by
  constructor
  · intro h
    unfold isJump at h
    split at h
    case h_1 distance hlast =>
        obtain ⟨operands, hoperands⟩ := List.getLast?_eq_some_iff.mp hlast
        exact ⟨operands, distance, hoperands⟩
    case h_2 => cases h
  · rintro ⟨operands, distance, h⟩
    simp [isJump, h]

/-- Setting the distance of a jump changes no other operand. -/
theorem Emitted.setJump_entries {i : Emitted} (hi : i.isJump = true) (n : Nat) :
    (i.setJump n).entries = i.entries := by
  obtain ⟨operands, distance, h⟩ := isJump_iff.mp hi
  simp [entries, setJump, h, Operand.entry?, List.filterMap_cons]

theorem Emitted.Placed.setJump {t : Tables} {i : Emitted} (h : i.Placed t) (hi : i.isJump = true)
    {n : Nat} (hn : n ≤ 0xFFFFFFFF) : (i.setJump n).Placed t := by
  obtain ⟨operands, distance, hoperands⟩ := Emitted.isJump_iff.mp hi
  have hset : (i.setJump n).operands = operands ++ [.jump n] := by
    simp [Emitted.setJump, hoperands]
  refine ⟨?_, ?_, ?_, ?_⟩
  · rcases h.shaped with ⟨hfields, hop⟩ | ⟨hop, idx, upvalues, hclosure, hcapture, -⟩
    · refine .inl ⟨?_, hop⟩
      change (i.setJump n).operands.map Operand.field = i.op.fields.map some
      rw [hset]
      rw [hoperands] at hfields
      simpa [Operand.field] using hfields
    · -- the operands of a closure are its function and its captures
      have hmem : Operand.jump distance ∈ Operand.nested idx :: upvalues := by
        rw [← hclosure, hoperands]
        simp
      rcases List.mem_cons.mp hmem with heq | hmem
      · cases heq
      · obtain ⟨isLocal, index, heq⟩ := hcapture _ hmem
        cases heq
  · intro o ho m hm
    rw [hset, List.mem_append, List.mem_singleton] at ho
    rcases ho with ho | rfl
    · exact h.slots o (by rw [hoperands]; exact List.mem_append_left _ ho) m hm
    · cases hm
  · rw [Emitted.setJump_entries hi]
    exact h.entries
  · intro o ho
    rw [hset, List.mem_append, List.mem_singleton] at ho
    rcases ho with ho | rfl
    · exact h.fits o (by rw [hoperands]; exact List.mem_append_left _ ho)
    · exact .inl hn

/-- Setting a jump in the code changes one jump of it. -/
theorem Code.setJump_spec {code code' : Code} {offset n : Nat}
    (h : code.setJump offset n = some code') :
    (∀ i' ∈ code', ∃ i ∈ code, i' = i ∨ i.isJump = true ∧ i' = i.setJump n) ∧
      ∀ i ∈ code, ∃ i' ∈ code', i' = i ∨ i.isJump = true ∧ i' = i.setJump n := by
  induction code generalizing offset code' with
  | nil => cases h
  | cons i rest ih =>
      unfold setJump at h
      split at h
      case isTrue hi =>
          cases h
          simp only [List.forall_mem_cons, List.exists_mem_cons_iff]
          exact ⟨⟨.inl (.inr ⟨hi.1, trivial⟩), fun j hj => .inr ⟨j, hj, .inl rfl⟩⟩,
            .inl (.inr ⟨hi.1, trivial⟩), fun j hj => .inr ⟨j, hj, .inl rfl⟩⟩
      case isFalse =>
          split at h
          case isTrue =>
              obtain ⟨rest', hrest, rfl⟩ := Option.map_eq_some_iff.mp h
              obtain ⟨hback, hforth⟩ := ih hrest
              simp only [List.forall_mem_cons, List.exists_mem_cons_iff]
              exact ⟨⟨.inl (.inl trivial), fun j hj => .inr (hback j hj)⟩,
                .inl (.inl trivial), fun j hj => .inr (hforth j hj)⟩
          case isFalse => cases h

namespace Compiler

def tableSize (c : Compiler) : Table → Nat
  | .constant => c.constants.entries.length
  | .cache => c.icEntries
  | .nested => c.nestedFunctions.length

/-- The number of upvalues of a nested function. -/
def captures (c : Compiler) (idx : Nat) : Nat :=
  (c.nestedFunctions[idx]?.map fun g => g.upvalues.length).getD 0

def tables (c : Compiler) : Tables where
  hasSlot := fun n => n < c.maxLocals ∨ n ∈ c.oldLoads
  size := c.tableSize
  captures := c.captures

def Mentions (c : Compiler) (e : Entry) : Prop := ∃ i ∈ c.code, e ∈ i.entries

end Compiler

/-! ### The invariant -/

/-- What is known of the compiler of a function: slots below `slots` have been given out, and the entries
in `pending` are waiting for the instruction that names them. Where `strayJump` is set, it is too late
already. -/
structure Ledger where
  slots : Nat
  pending : List Entry
  isHarvesting : Bool
  strayJump : Bool

namespace Ledger

/-- A slot has been given out. -/
def reserve (k : Ledger) (slot : Nat) : Ledger := { k with slots := max k.slots (slot + 1) }

/-- Nothing is known of the compiler of a new function. -/
def fresh (isHarvesting strayJump : Bool) : Ledger :=
  { slots := 0, pending := [], isHarvesting, strayJump }

/-- An entry waits. -/
def note (k : Ledger) (e : Entry) : Ledger := { k with pending := e :: k.pending }

structure Holds (k : Ledger) (c : Compiler) : Prop where
  slots : k.slots ≤ c.maxLocals
  isHarvesting : c.isHarvesting = k.isHarvesting
  pending : ∀ e ∈ k.pending, e.2 < c.tableSize e.1
  used : ∀ t n, n < c.tableSize t → (t, n) ∈ k.pending ∨ c.Mentions (t, n)
  placed : ∀ i ∈ c.code, i.Placed c.tables
  locals : c.locals.length ≤ c.maxLocals
  maxLocals : c.maxLocals ≤ 65535
  upvalues : c.upvalues.length ≤ 255
  retvals : ∀ t ∈ c.activeTrys, t.body.isSome → t.retvalSlot < c.maxLocals

end Ledger

/-- What instructions and their operands depend on. -/
def Compiler.emitted (c : Compiler) :=
  (c.code, c.maxLocals, c.constants, c.icEntries, c.nestedFunctions, c.oldLoads, c.isHarvesting)

theorem Ledger.holds_fresh {c : Compiler} {isHarvesting strayJump : Bool}
    (hemitted : c.emitted = ([], 0, .empty, 0, [], [], isHarvesting))
    (hscope : (c.locals, c.upvalues, c.activeTrys) = ([], [], [])) :
    (fresh isHarvesting strayJump).Holds c := by
  simp only [Compiler.emitted, Prod.mk.injEq] at hemitted hscope
  obtain ⟨hcode, hmax, hconstants, hcaches, hnested, -, hharvest⟩ := hemitted
  obtain ⟨hlocals, hupvalues, htrys⟩ := hscope
  exact {
    slots := Nat.zero_le _
    isHarvesting := hharvest
    pending := fun e he => nomatch he
    used := by
      intro t n hn
      cases t <;> simp [Compiler.tableSize, hconstants, hcaches, hnested, ConstantPool.empty] at hn
    placed := by simp [hcode]
    locals := by simp [hlocals]
    maxLocals := by simp [hmax]
    upvalues := by simp [hupvalues]
    retvals := by simp [htrys] }

/-- The upvalues of a function are in the one around it. -/
def Linked (c outer : Compiler) : Prop :=
  ∀ uv ∈ c.upvalues, uv.index ≤ 65535 ∧ (uv.type = .LOCAL → uv.index < outer.maxLocals)

/-- What is known of a compiler around the current one, and how many nested functions it has so far. -/
abbrev Outer := Ledger × Nat

/-- What is known of a compiler and of those around it. -/
inductive Chain : Ledger → List Outer → Compiler → List Compiler → Prop where
  | outermost {k : Ledger} {c : Compiler} (holds : k.Holds c) (upvalues : c.upvalues = []) :
      Chain k [] c []
  | inside {k k' : Ledger} {ks : List Outer} {c c' : Compiler} {cs : List Compiler} {nested : Nat}
      (holds : k.Holds c) (linked : Linked c c') (hnested : c'.nestedFunctions.length = nested)
      (outer : Chain k' ks c' cs) : Chain k ((k', nested) :: ks) c (c' :: cs)

theorem Chain.holds {k : Ledger} {ks : List Outer} {c : Compiler} {cs : List Compiler}
    (h : Chain k ks c cs) : k.Holds c := by
  cases h with
  | outermost holds _ => exact holds
  | inside holds _ _ _ => exact holds

/-- The outermost function has no upvalues. -/
theorem Chain.outermost_upvalues {k : Ledger} {ks : List Outer} {c : Compiler} {cs : List Compiler}
    (h : Chain k ks c cs) (hks : ks = []) : c.upvalues = [] := by
  cases h with
  | outermost _ upvalues => exact upvalues
  | inside => cases hks

/-- The compiler of a function may be replaced by one with the same upvalues. -/
theorem Chain.replace {k k' : Ledger} {ks : List Outer} {c c' : Compiler} {cs : List Compiler}
    (h : Chain k ks c cs) (hc : k'.Holds c') (hu : c'.upvalues = c.upvalues) : Chain k' ks c' cs := by
  cases h with
  | outermost _ upvalues => exact .outermost hc (hu.trans upvalues)
  | inside _ linked hnested outer =>
      refine .inside hc ?_ hnested outer
      intro uv huv
      exact linked uv (hu ▸ huv)

/-- What a finished function has kept: no entry waits any more, and its local count comes from its
compiler. -/
structure CompiledFunction.Sound (f : CompiledFunction) : Prop where
  holds : ∃ isHarvesting strayJump, (Ledger.fresh isHarvesting strayJump).Holds f.compiler
  localCount : f.function.localCount =
    if f.compiler.isHarvesting then f.compiler.locals.length else f.compiler.maxLocals

/-- What is known of the state of the compiler. -/
structure Good (k : Ledger) (ks : List Outer) (s : BytecodeCompiler) : Prop where
  chain : Chain k ks s.current s.enclosing
  finished : ∀ f ∈ s.compiledFunctions, f.Sound
  captures : ∀ capture ∈ s.oldCaptures, capture.2 ≤ 65535

/-- Nothing is said once bytes stand in the wrong place. -/
structure Known (k : Ledger) (ks : List Outer) (s : BytecodeCompiler) : Prop where
  stray : k.strayJump = true → s.strayJump = true
  good : s.strayJump = false → Good k ks s

theorem Good.holds {k : Ledger} {ks : List Outer} {s : BytecodeCompiler} (h : Good k ks s) :
    k.Holds s.current :=
  h.chain.holds

/-- The current compiler is changed, and nothing else. -/
theorem Good.replace {k k' : Ledger} {ks : List Outer} {s : BytecodeCompiler} (h : Good k ks s)
    {c : Compiler} (hc : k'.Holds c) (hu : c.upvalues = s.current.upvalues) :
    Good k' ks { s with current := c } :=
  ⟨h.chain.replace hc hu, h.finished, h.captures⟩

theorem Ledger.Holds.weaken {k k' : Ledger} {c : Compiler} (h : k.Holds c)
    (hslots : k'.slots ≤ k.slots) (hpending : k'.pending = k.pending)
    (hharvest : k'.isHarvesting = k.isHarvesting) : k'.Holds c where
  slots := hslots.trans h.slots
  isHarvesting := h.isHarvesting.trans hharvest.symm
  pending := by
    rw [hpending]
    exact h.pending
  used := by
    rw [hpending]
    exact h.used
  placed := h.placed
  locals := h.locals
  maxLocals := h.maxLocals
  upvalues := h.upvalues
  retvals := h.retvals

theorem Known.weaken {k k' : Ledger} {ks : List Outer} {s : BytecodeCompiler} (h : Known k ks s)
    (hslots : k'.slots ≤ k.slots) (hpending : k'.pending = k.pending)
    (hharvest : k'.isHarvesting = k.isHarvesting) (hstray : k'.strayJump = k.strayJump) :
    Known k' ks s where
  stray := by
    rw [hstray]
    exact h.stray
  good := by
    intro hs
    have hgood := h.good hs
    exact hgood.replace (hgood.holds.weaken hslots hpending hharvest) rfl

private theorem exists_bound (slots : List Nat) : ∃ bound, ∀ n ∈ slots, n < bound := by
  induction slots with
  | nil => exact ⟨0, by simp⟩
  | cons slot slots ih =>
      obtain ⟨bound, hbound⟩ := ih
      refine ⟨max bound (slot + 1), fun n hn => ?_⟩
      rcases List.mem_cons.mp hn with rfl | hn
      · exact lt_of_lt_of_le (Nat.lt_succ_self n) (le_max_right _ _)
      · exact lt_of_lt_of_le (hbound n hn) (le_max_left _ _)

/-- Numbers below the slots that have been given out may be used as slots for a while. -/
theorem Known.widen {k : Ledger} {ks : List Outer} {s : BytecodeCompiler} (h : Known k ks s)
    {slots : List Nat} (hslots : s.strayJump = false → ∀ n ∈ slots, n < s.current.maxLocals) :
    ∃ k' : Ledger, Known k' ks s ∧ (∀ n ∈ slots, n < k'.slots) ∧ ∀ s', Known k' ks s' → Known k ks s' := by
  cases hstray : s.strayJump with
  | false =>
      refine ⟨{ k with slots := max k.slots s.current.maxLocals }, ⟨h.stray, fun hs => ?_⟩,
        fun n hn => lt_of_lt_of_le (hslots hstray n hn) (le_max_right _ _),
        fun s' hs' => hs'.weaken (le_max_left _ _) rfl rfl rfl⟩
      have hgood := h.good hs
      have hholds : Ledger.Holds { k with slots := max k.slots s.current.maxLocals } s.current :=
        { hgood.holds with
          slots := max_le hgood.holds.slots (le_refl _)
          pending := hgood.holds.pending, used := hgood.holds.used }
      exact hgood.replace hholds rfl
  | true =>
      -- it is too late already, and it will be in the end
      obtain ⟨bound, hbound⟩ := exists_bound slots
      refine ⟨{ k with slots := bound, strayJump := true }, ⟨fun _ => hstray, fun hs => ?_⟩,
        hbound, fun s' hs' => ⟨fun _ => hs'.stray rfl, fun hs => ?_⟩⟩
      · rw [hs] at hstray
        cases hstray
      · have hstray' := hs'.stray rfl
        rw [hs] at hstray'
        cases hstray'

/-- A slot that has been given out may be forgotten. -/
theorem Known.release {k : Ledger} {ks : List Outer} {s : BytecodeCompiler} {slot : Nat}
    (h : Known (k.reserve slot) ks s) : Known k ks s :=
  h.weaken (le_max_left _ _) rfl rfl rfl

/-- A compiler that differs in nothing the invariant speaks of. -/
theorem Ledger.Holds.congr {k : Ledger} {c c' : Compiler} (h : k.Holds c)
    (hemitted : c'.emitted = c.emitted) (hlocals : c'.locals.length ≤ c.maxLocals)
    (hupvalues : c'.upvalues.length ≤ 255)
    (htrys : ∀ t ∈ c'.activeTrys, t.body.isSome → t.retvalSlot < c.maxLocals) : k.Holds c' := by
  simp only [Compiler.emitted, Prod.mk.injEq] at hemitted
  obtain ⟨hcode, hmax, hconstants, hcaches, hnested, hold, hharvest⟩ := hemitted
  have hsize : c'.tableSize = c.tableSize := by
    funext t
    cases t <;> simp only [Compiler.tableSize, hconstants, hcaches, hnested]
  have htables : c'.tables = c.tables := by
    simp only [Compiler.tables, hmax, hold, hsize, Tables.mk.injEq, true_and]
    funext idx
    simp only [Compiler.captures, hnested]
  exact {
    slots := hmax ▸ h.slots
    isHarvesting := hharvest.trans h.isHarvesting
    pending := by
      rw [hsize]
      exact h.pending
    used := by
      intro t n hn
      rw [hsize] at hn
      unfold Compiler.Mentions
      rw [hcode]
      exact h.used t n hn
    placed := by
      rw [hcode, htables]
      exact h.placed
    locals := by
      rw [hmax]
      exact hlocals
    maxLocals := by
      rw [hmax]
      exact h.maxLocals
    upvalues := hupvalues
    retvals := by
      rw [hmax]
      exact htrys }

namespace BytecodeCompiler

/-- What the invariant speaks of. -/
def functions (s : BytecodeCompiler) :=
  (s.current, s.enclosing, s.compiledFunctions, s.oldCaptures, s.strayJump)

/-- The invariant is kept. -/
def Keeps {α : Type} (m : CompileM α) : Prop :=
  ∀ k ks, Triple (Known k ks) m fun _ => Known k ks

namespace Keeps

variable {α β : Type} {m : CompileM α} {f : α → CompileM β}

theorem triple (h : Keeps m) {k : Ledger} {ks : List Outer} :
    Triple (Known k ks) m fun _ => Known k ks :=
  h k ks

/-- A step that keeps the invariant, before others. -/
theorem andThen (hm : Keeps m) {k : Ledger} {ks : List Outer} {R : β → BytecodeCompiler → Prop}
    (hf : ∀ a, Triple (Known k ks) (f a) R) : Triple (Known k ks) (m >>= f) R :=
  (hm k ks).bind hf

theorem bind (hm : Keeps m) (hf : ∀ a, Keeps (f a)) : Keeps (m >>= f) :=
  fun k ks => (hm k ks).bind fun a => hf a k ks

theorem pure {a : α} : Keeps (Pure.pure a : CompileM α) :=
  fun _ _ => .pure fun _ hs => hs

theorem map {g : α → β} (hm : Keeps m) : Keeps (g <$> m) :=
  fun k ks => Triple.map (R := fun _ => Known k ks) (hm k ks)

theorem get_bind {f : BytecodeCompiler → CompileM β} (hf : ∀ s, Keeps (f s)) :
    Keeps (MonadState.get >>= f) :=
  fun k ks => Triple.bind (Q := fun _ => Known k ks) (.get fun _ hs => hs) fun s => hf s k ks

theorem ite {c : Prop} [Decidable c] {m₁ m₂ : CompileM α} (h₁ : Keeps m₁) (h₂ : Keeps m₂) :
    Keeps (if c then m₁ else m₂) :=
  fun k ks => .ite (fun _ => h₁ k ks) fun _ => h₂ k ks

theorem forIn {ι : Type} {xs : List ι} {body : ι → PUnit → CompileM (ForInStep PUnit)}
    (h : ∀ x ∈ xs, Keeps (body x ⟨⟩)) : Keeps (ForIn.forIn xs PUnit.unit body) :=
  fun k ks => .forIn xs fun x hx => h x hx k ks

theorem mapM {ι : Type} (xs : List ι) {body : ι → CompileM α} (h : ∀ x ∈ xs, Keeps (body x)) :
    Keeps (xs.mapM body) :=
  fun k ks => (Triple.mapM (R := fun _ => True) xs fun x hx =>
    (h x hx k ks).post fun _ _ hs => ⟨trivial, hs⟩).post fun _ _ hs => hs.2

/-- A change of the state that the invariant does not speak of. -/
theorem modify {g : BytecodeCompiler → BytecodeCompiler}
    (hg : ∀ s, (g s).functions = s.functions) : Keeps (modify g) := by
  refine fun k ks => .modify fun s hs => ?_
  have hs' := hg s
  simp only [functions, Prod.mk.injEq] at hs'
  obtain ⟨hcurrent, henclosing, hfinished, hcaptures, hstray⟩ := hs'
  refine ⟨fun hk => hstray.trans (hs.stray hk), fun hstray' => ?_⟩
  have hgood := hs.good (hstray.symm.trans hstray')
  refine ⟨?_, ?_, ?_⟩
  · rw [hcurrent, henclosing]
    exact hgood.chain
  · rw [hfinished]
    exact hgood.finished
  · rw [hcaptures]
    exact hgood.captures

/-- A change of the current compiler that the invariant does not speak of. -/
theorem modifyCurrent {g : Compiler → Compiler} (hupvalues : ∀ c, (g c).upvalues = c.upvalues)
    (hg : ∀ (k : Ledger) c, k.Holds c → k.Holds (g c)) :
    Keeps (modifyCurrent g) := by
  refine fun k ks => .modify fun s hs => ⟨hs.stray, fun hstray => ?_⟩
  have hgood := hs.good hstray
  exact hgood.replace (hg k _ hgood.holds) (hupvalues _)

theorem getCurrent_bind {f : Compiler → CompileM β} (hf : ∀ c, Keeps (f c)) :
    Keeps (getCurrent >>= f) :=
  get_bind fun s => hf s.current

end Keeps

/-- There is nothing after an error. -/
theorem errorAt_triple {α : Type} {P : BytecodeCompiler → Prop} {Q : α → BytecodeCompiler → Prop}
    {message : CString} : Triple P (errorAt message) Q :=
  .get_bind fun _ _ => .throw

theorem errorAt_keeps {α : Type} (message : CString) : Keeps (errorAt message : CompileM α) :=
  fun _ _ => errorAt_triple

/-! ### Instructions -/

/-- The operands of an instruction are known to be in order. -/
structure Ready (k : Ledger) (op : OpCode) (operands : List Operand) : Prop where
  fields : operands.map Operand.field = op.fields.map some
  slots : ∀ o ∈ operands, ∀ n, o.localSlot? = some n → n < k.slots
  entries : ∀ e ∈ operands.filterMap Operand.entry?, e ∈ k.pending
  fits : k.slots ≤ 65535 → ∀ o ∈ operands, o.Fits ∨ unchecked op o = true
  notClosure : op ≠ .CLOSURE

theorem Ready.placed {k : Ledger} {c : Compiler} {op : OpCode} {operands : List Operand} {line : Nat}
    (h : Ready k op operands) (hc : k.Holds c) : Emitted.Placed c.tables { op, operands, line } where
  shaped := .inl ⟨h.fields, h.notClosure⟩
  slots := fun o ho n hn => .inl (lt_of_lt_of_le (h.slots o ho n hn) hc.slots)
  entries := fun e he => hc.pending e (h.entries e he)
  fits := h.fits (hc.slots.trans hc.maxLocals)

end BytecodeCompiler

/-- An instruction is added. The entries it names need not wait any longer. -/
theorem Ledger.Holds.emit {k : Ledger} {c : Compiler} (h : k.Holds c) {i : Emitted}
    (hi : i.Placed c.tables) (pending : List Entry) (hsub : ∀ e ∈ pending, e ∈ k.pending)
    (hused : ∀ e ∈ k.pending, e ∈ pending ∨ e ∈ i.entries) :
    Ledger.Holds { k with pending } { c with code := c.code ++ [i] } where
  slots := h.slots
  isHarvesting := h.isHarvesting
  pending := fun e he => h.pending e (hsub e he)
  used := by
    intro t n hn
    have hmentioned : ∀ e, c.Mentions e ∨ e ∈ i.entries →
        Compiler.Mentions { c with code := c.code ++ [i] } e := by
      rintro e (⟨j, hj, he⟩ | he)
      · exact ⟨j, List.mem_append_left _ hj, he⟩
      · exact ⟨i, List.mem_append_right _ (List.mem_singleton_self i), he⟩
    rcases h.used t n hn with hw | hm
    · rcases hused _ hw with hp | he
      · exact .inl hp
      · exact .inr (hmentioned _ (.inr he))
    · exact .inr (hmentioned _ (.inl hm))
  placed := by
    intro j hj
    rcases List.mem_append.mp hj with hj | hj
    · exact h.placed j hj
    · rw [List.mem_singleton.mp hj]
      exact hi
  locals := h.locals
  maxLocals := h.maxLocals
  upvalues := h.upvalues
  retvals := h.retvals

/-- What adding to a table leaves as it is. -/
def Compiler.scope (c : Compiler) :=
  (c.code, c.maxLocals, c.oldLoads, c.isHarvesting, c.locals, c.upvalues, c.activeTrys)

/-- An entry is added to a table, or found there. -/
theorem Ledger.Holds.note {k : Ledger} {c c' : Compiler} (h : k.Holds c) {table : Table} {n : Nat}
    (hscope : c'.scope = c.scope) (hn : n < c'.tableSize table)
    (hsize : ∀ t, c.tableSize t ≤ c'.tableSize t)
    (hnew : ∀ t m, m < c'.tableSize t → m < c.tableSize t ∨ (t, m) = (table, n))
    (hcaptures : ∀ idx < c.tableSize .nested, c'.captures idx = c.captures idx) :
    (k.note (table, n)).Holds c' := by
  simp only [Compiler.scope, Prod.mk.injEq] at hscope
  obtain ⟨hcode, hmax, hold, hharvest, hlocals, hupvalues, htrys⟩ := hscope
  exact {
    slots := hmax ▸ h.slots
    isHarvesting := hharvest.trans h.isHarvesting
    pending := by
      intro e he
      rcases List.mem_cons.mp he with he | he
      · rw [he]
        exact hn
      · exact lt_of_lt_of_le (h.pending e he) (hsize e.1)
    used := by
      intro t m hm
      rcases hnew t m hm with hm | he
      · rcases h.used t m hm with hw | hmention
        · exact .inl (List.mem_cons_of_mem _ hw)
        · refine .inr ?_
          unfold Compiler.Mentions
          rw [hcode]
          exact hmention
      · rw [he]
        exact .inl List.mem_cons_self
    placed := by
      rw [hcode]
      intro i hi
      refine (h.placed i hi).mono ?_ hsize hcaptures
      intro m hm
      simpa only [Compiler.tables, hmax, hold] using hm
    locals := by
      rw [hlocals, hmax]
      exact h.locals
    maxLocals := by
      rw [hmax]
      exact h.maxLocals
    upvalues := by
      rw [hupvalues]
      exact h.upvalues
    retvals := by
      rw [htrys, hmax]
      exact h.retvals }

namespace BytecodeCompiler

theorem emit_known {k : Ledger} {ks : List Outer} {op : OpCode} {operands : List Operand}
    (h : Ready k op operands) {pending : List Entry} (hsub : ∀ e ∈ pending, e ∈ k.pending)
    (hused : ∀ e ∈ k.pending, e ∈ pending ∨ e ∈ operands.filterMap Operand.entry?) :
    Triple (Known k ks) (emit op operands) fun _ => Known { k with pending } ks := by
  refine .modify fun s hs => ⟨hs.stray, fun hstray => ?_⟩
  have hgood := hs.good hstray
  exact hgood.replace (hgood.holds.emit (h.placed hgood.holds) pending hsub hused) rfl

/-- An instruction that names no entry that waits only for it. -/
theorem emit_ready {k : Ledger} {ks : List Outer} {op : OpCode} {operands : List Operand}
    (h : Ready k op operands) : Triple (Known k ks) (emit op operands) fun _ => Known k ks :=
  emit_known h (fun _ he => he) fun _ he => .inl he

/-- Operands that are neither slots nor entries, and fit. -/
theorem emit_keeps {op : OpCode} {operands : List Operand}
    (hfields : operands.map Operand.field = op.fields.map some)
    (hplain : ∀ o ∈ operands, o.localSlot? = none ∧ o.entry? = none ∧ (o.Fits ∨ unchecked op o = true)) :
    Keeps (emit op operands) := by
  have hclosure : op ≠ .CLOSURE := by
    rintro rfl
    obtain ⟨o, rfl, ho⟩ := List.map_eq_singleton_iff.mp hfields
    have hentry := (hplain o (List.mem_singleton_self o)).2.1
    cases o <;> cases ho
    cases hentry
  refine fun k ks => emit_ready ⟨hfields, ?_, ?_, fun _ o ho => (hplain o ho).2.2, hclosure⟩
  · intro o ho n hn
    rw [(hplain o ho).1] at hn
    cases hn
  · intro e he
    obtain ⟨o, ho, he⟩ := List.mem_filterMap.mp he
    rw [(hplain o ho).2.1] at he
    cases he

theorem emitOp_keeps {op : OpCode} (hfields : op.fields = []) : Keeps (emitOp op) :=
  emit_keeps (by rw [hfields]; rfl) (by simp)

/-- A number of values that fits, or is not checked. -/
theorem emitCount_keeps {op : OpCode} {n : Nat} (hfields : op.fields = [.count])
    (hn : n ≤ 255 ∨ unchecked op (.count n) = true) : Keeps (emit op [.count n]) := by
  refine emit_keeps (by rw [hfields]; rfl) ?_
  intro o ho
  rw [List.mem_singleton.mp ho]
  exact ⟨rfl, rfl, hn⟩

theorem emitGlobalSlot_keeps {op : OpCode} {n : Nat} (hfields : op.fields = [.globalSlot])
    (hn : n ≤ 65535) : Keeps (emit op [.globalSlot n]) := by
  refine emit_keeps (by rw [hfields]; rfl) ?_
  intro o ho
  rw [List.mem_singleton.mp ho]
  exact ⟨rfl, rfl, .inl hn⟩

/-- An instruction that names one constant and nothing else that may wait. -/
theorem emitConstantIdx_known {k : Ledger} {ks : List Outer} {op : OpCode} {n : Nat}
    (hfields : op.fields = [.constant]) (hn : (Table.constant, n) ∈ k.pending) (pending : List Entry)
    (hsub : ∀ e ∈ pending, e ∈ k.pending)
    (hused : ∀ e ∈ k.pending, e ∈ pending ∨ e = (Table.constant, n)) :
    Triple (Known k ks) (emit op [.constant n]) fun _ => Known { k with pending } ks := by
  have hclosure : op ≠ .CLOSURE := by
    rintro rfl
    cases hfields
  refine emit_known ⟨by rw [hfields]; rfl, ?_, ?_, ?_, hclosure⟩ hsub ?_
  · simp [Operand.localSlot?]
  · simpa [Operand.entry?] using hn
  · simp [unchecked]
  · simpa [Operand.entry?] using hused

/-! ### Tables -/

theorem makeConstant_known {k : Ledger} {ks : List Outer} (constant : Constant) :
    Triple (Known k ks) (makeConstant constant) fun idx => Known (k.note (.constant, idx)) ks := by
  refine .get_bind fun s₀ hs => ?_
  refine Triple.bind (Q := fun _ s => Known (k.note (.constant,
    (s₀.current.constants.addConstant constant).2)) ks s) (.modify ?_) fun _ => .pure fun _ hs => hs
  rintro s rfl
  refine ⟨hs.stray, fun hstray => ?_⟩
  have hgood := hs.good hstray
  obtain ⟨hlt, hle, hnew⟩ := s.current.constants.addConstant_spec constant
  refine hgood.replace (hgood.holds.note rfl hlt ?_ ?_ (fun _ _ => rfl)) rfl
  · intro t
    cases t with
    | constant => exact hle
    | cache => exact le_refl _
    | nested => exact le_refl _
  · intro t m hm
    cases t with
    | constant =>
        rcases hnew m hm with hm | hm
        · exact .inl hm
        · exact .inr (by rw [hm])
    | cache => exact .inl hm
    | nested => exact .inl hm

theorem addICEntry_known {k : Ledger} {ks : List Outer} :
    Triple (Known k ks) addICEntry fun idx => Known (k.note (.cache, idx)) ks := by
  refine .get_bind fun s₀ hs => ?_
  refine Triple.bind (Q := fun _ s => Known (k.note (.cache, s₀.current.icEntries)) ks s)
    (.modify ?_) fun _ => .pure fun _ hs => hs
  rintro s rfl
  refine ⟨hs.stray, fun hstray => ?_⟩
  have hgood := hs.good hstray
  refine hgood.replace (hgood.holds.note rfl (Nat.lt_succ_self _) ?_ ?_ (fun _ _ => rfl)) rfl
  · intro t
    cases t with
    | constant => exact le_refl _
    | cache => exact Nat.le_succ _
    | nested => exact le_refl _
  · intro t m hm
    cases t with
    | constant => exact .inl hm
    | cache =>
        rcases Nat.lt_succ_iff_lt_or_eq.mp hm with hm | hm
        · exact .inl hm
        · exact .inr (by rw [hm])
    | nested => exact .inl hm

/-- A constant is made for what follows. -/
theorem Keeps.makeConstant_bind {α : Type} {constant : Constant} {f : Nat → CompileM α}
    (h : ∀ k ks idx, Triple (Known (k.note (.constant, idx)) ks) (f idx) fun _ => Known k ks) :
    Keeps (makeConstant constant >>= f) :=
  fun k ks => (makeConstant_known constant).bind fun idx => h k ks idx

theorem Keeps.identifierConstant_bind {α : Type} {name : CString} {f : Nat → CompileM α}
    (h : ∀ k ks idx, Triple (Known (k.note (.constant, idx)) ks) (f idx) fun _ => Known k ks) :
    Keeps (identifierConstant name >>= f) :=
  Keeps.makeConstant_bind h

theorem Ledger.note_sub {k : Ledger} {e : Entry} : ∀ e' ∈ k.pending, e' ∈ (k.note e).pending :=
  fun _ he' => List.mem_cons_of_mem _ he'

/-- The instruction the last constant was made for. -/
theorem emitNoted_known {k : Ledger} {ks : List Outer} {op : OpCode} {n : Nat}
    (hfields : op.fields = [.constant]) :
    Triple (Known (k.note (.constant, n)) ks) (emit op [.constant n]) fun _ => Known k ks :=
  emitConstantIdx_known (k := k.note (.constant, n)) hfields List.mem_cons_self k.pending
    Ledger.note_sub fun _ he => (List.mem_cons.mp he).symm

/-- A constant goes to one instruction. -/
theorem withConstant_keeps {constant : Constant} {op : OpCode} (hfields : op.fields = [.constant]) :
    Keeps (makeConstant constant >>= fun idx => emit op [.constant idx]) :=
  Keeps.makeConstant_bind fun _ _ _ => emitNoted_known hfields

/-- A property goes through an inline cache made for it. -/
theorem emitProperty_known {k : Ledger} {ks : List Outer} {op : OpCode} {n icIdx : Nat}
    (hn : (Table.constant, n) ∈ k.pending) (pending : List Entry) (hsub : ∀ e ∈ pending, e ∈ k.pending)
    (hused : ∀ e ∈ k.pending, e ∈ pending ∨ e = (Table.constant, n)) (rest : List Operand)
    (hfields : [some Field.constant, some Field.cache] ++ rest.map Operand.field = op.fields.map some)
    (hrest : ∀ o ∈ rest, o.localSlot? = none ∧ o.entry? = none ∧ (o.Fits ∨ unchecked op o = true)) :
    Triple (Known (k.note (.cache, icIdx)) ks) (emit op (.constant n :: .cache icIdx :: rest))
      fun _ => Known { k with pending } ks := by
  have hclosure : op ≠ .CLOSURE := by
    rintro rfl
    cases hfields
  have hnone : rest.filterMap Operand.entry? = [] := by
    rw [List.filterMap_eq_nil_iff]
    exact fun o ho => (hrest o ho).2.1
  have hentries : (Operand.constant n :: .cache icIdx :: rest).filterMap Operand.entry? =
      [(.constant, n), (.cache, icIdx)] := by
    simp [Operand.entry?, hnone]
  refine emit_known (k := k.note (.cache, icIdx)) ⟨by exact hfields, ?_, ?_, ?_, hclosure⟩ ?_ ?_
  · intro o ho m hm
    rcases List.mem_cons.mp ho with rfl | ho
    · cases hm
    rcases List.mem_cons.mp ho with rfl | ho
    · cases hm
    rw [(hrest o ho).1] at hm
    cases hm
  · rw [hentries]
    intro e he
    rcases List.mem_cons.mp he with rfl | he
    · exact List.mem_cons_of_mem _ hn
    · rw [List.mem_singleton.mp he]
      exact List.mem_cons_self
  · intro _ o ho
    rcases List.mem_cons.mp ho with rfl | ho
    · exact .inr rfl
    rcases List.mem_cons.mp ho with rfl | ho
    · exact .inr rfl
    exact (hrest o ho).2.2
  · exact fun e he => List.mem_cons_of_mem _ (hsub e he)
  · rw [hentries]
    intro e he
    rcases List.mem_cons.mp he with rfl | he
    · exact .inr (by simp)
    rcases hused e he with he | rfl
    · exact .inl he
    · exact .inr (by simp)

/-- A property whose name was made for it, and nothing else. -/
theorem emitPropertyNoted_known {k : Ledger} {ks : List Outer} {op : OpCode} {n icIdx : Nat}
    (hfields : op.fields = [.constant, .cache]) :
    Triple (Known ((k.note (.constant, n)).note (.cache, icIdx)) ks) (emit op [.constant n, .cache icIdx])
      fun _ => Known k ks :=
  emitProperty_known (k := k.note (.constant, n)) List.mem_cons_self k.pending Ledger.note_sub
    (fun _ he => (List.mem_cons.mp he).symm) [] (by rw [hfields]; rfl) (by simp)

/-- A property whose name is needed again. -/
theorem emitPropertyAgain_known {k : Ledger} {ks : List Outer} {op : OpCode} {n icIdx : Nat}
    (hfields : op.fields = [.constant, .cache]) :
    Triple (Known ((k.note (.constant, n)).note (.cache, icIdx)) ks) (emit op [.constant n, .cache icIdx])
      fun _ => Known (k.note (.constant, n)) ks :=
  emitProperty_known (k := k.note (.constant, n)) List.mem_cons_self (k.note (.constant, n)).pending
    (fun _ he => he) (fun _ he => .inl he) [] (by rw [hfields]; rfl) (by simp)

/-! ### Slots -/

theorem emitLoadLocal_ready {k : Ledger} {ks : List Outer} {slot : Nat} (hslot : slot < k.slots) :
    Triple (Known k ks) (emitLoadLocal slot) fun _ => Known k ks := by
  refine .ite (fun hle => emit_ready ⟨rfl, ?_, ?_, ?_, by decide⟩)
    fun _ => emit_ready ⟨rfl, ?_, ?_, ?_, by decide⟩
  · simpa [Operand.localSlot?] using hslot
  · simp [Operand.entry?]
  · intro _
    simpa [Operand.Fits, unchecked] using hle
  · simpa [Operand.localSlot?] using hslot
  · simp [Operand.entry?]
  · intro hk
    simp only [List.mem_singleton, forall_eq, Operand.Fits]
    omega

theorem emitStoreLocal_ready {k : Ledger} {ks : List Outer} {slot : Nat} (hslot : slot < k.slots) :
    Triple (Known k ks) (emitStoreLocal slot) fun _ => Known k ks := by
  refine .ite (fun hle => emit_ready ⟨rfl, ?_, ?_, ?_, by decide⟩)
    fun _ => emit_ready ⟨rfl, ?_, ?_, ?_, by decide⟩
  · simpa [Operand.localSlot?] using hslot
  · simp [Operand.entry?]
  · intro _
    simpa [Operand.Fits, unchecked] using hle
  · simpa [Operand.localSlot?] using hslot
  · simp [Operand.entry?]
  · intro hk
    simp only [List.mem_singleton, forall_eq, Operand.Fits]
    omega

theorem Ledger.lt_reserve {k : Ledger} {slot : Nat} : slot < (k.reserve slot).slots :=
  lt_of_lt_of_le (Nat.lt_succ_self slot) (le_max_right _ _)

theorem findLocal_lt {locals : List LocalVariable} {name : CString} {slot : Nat}
    (h : findLocal locals name = some slot) : slot < locals.length := by
  obtain ⟨i, hi, rfl⟩ := Option.map_eq_some_iff.mp h
  obtain ⟨hlt, -⟩ := List.findIdx?_eq_some_iff_getElem.mp hi
  rw [List.length_reverse] at hlt
  omega

/-- A name is looked up for what follows: the slot is one of the function, if there is one. -/
theorem resolveLocal_bind {α : Type} {k : Ledger} {ks : List Outer} {name : CString}
    {f : Option Nat → CompileM α} {Q : α → BytecodeCompiler → Prop}
    (hsome : ∀ slot, Triple (Known (k.reserve slot) ks) (f (some slot)) Q)
    (hnone : Triple (Known k ks) (f none) Q) :
    Triple (Known k ks) (resolveLocal name >>= f) Q := by
  refine Triple.bind (Q := fun slot s =>
    slot.elim (Known k ks s) fun slot => Known (k.reserve slot) ks s) ?_ ?_
  · refine .get_bind fun s₀ hs => .pure ?_
    rintro s rfl
    cases hfind : findLocal s.current.locals name with
    | none => exact hs
    | some slot =>
        refine ⟨hs.stray, fun hstray => ?_⟩
        have hgood := hs.good hstray
        have hc := hgood.holds
        have hlt := findLocal_lt hfind
        refine hgood.replace ?_ rfl
        exact { hc with
          slots := max_le hc.slots (by
            have := hc.locals
            show slot + 1 ≤ s.current.maxLocals
            omega)
          pending := hc.pending, used := hc.used }
  · intro slot
    cases slot with
    | none => exact hnone
    | some slot => exact hsome slot

theorem Keeps.resolveLocal_bind {α : Type} {name : CString} {f : Option Nat → CompileM α}
    (hsome : ∀ k ks slot, Triple (Known (k.reserve slot) ks) (f (some slot)) fun _ => Known k ks)
    (hnone : Keeps (f none)) : Keeps (resolveLocal name >>= f) :=
  fun k ks => BytecodeCompiler.resolveLocal_bind (fun slot => hsome k ks slot) (hnone k ks)

/-- A name is looked up, whatever comes of it. -/
theorem resolveLocal_keeps {name : CString} : Keeps (resolveLocal name) :=
  .get_bind fun _ => .pure

theorem addLocal_known {k : Ledger} {ks : List Outer} {name : CString} {isStackResident : Bool} :
    Triple (Known k ks) (addLocal name isStackResident) fun slot => Known (k.reserve slot) ks := by
  refine .get_bind fun s₀ hs => ?_
  refine Triple.bind (Q := fun _ s => s₀.current.locals.length + 1 ≤ 65535 →
    Known (k.reserve s₀.current.locals.length) ks s) (.modify ?_) fun _ => ?_
  · rintro s rfl hbound
    refine ⟨hs.stray, fun hstray => ?_⟩
    have hgood := hs.good hstray
    have hc := hgood.holds
    refine hgood.replace ?_ rfl
    refine { hc with slots := ?_, pending := hc.pending, used := hc.used, placed := ?_, locals := ?_,
                     maxLocals := ?_, retvals := ?_ }
    · exact max_le (hc.slots.trans (le_max_left _ _)) (le_max_right _ _)
    · intro i hi
      refine (hc.placed i hi).mono ?_ (fun _ => le_refl _) fun _ _ => rfl
      rintro n (hn | hn)
      · exact .inl (lt_of_lt_of_le hn (le_max_left _ _))
      · exact .inr hn
    · rw [List.length_append]
      exact le_max_right _ _
    · exact max_le hc.maxLocals hbound
    · intro t ht hbody
      exact lt_of_lt_of_le (hc.retvals t ht hbody) (le_max_left _ _)
  · by_cases hbound : s₀.current.locals.length + 1 > 65535
    · rw [if_pos hbound]
      exact Triple.bind (Q := fun _ _ => False) errorAt_triple fun _ _ hs => hs.elim
    · rw [if_neg hbound]
      exact .pure fun s hs => hs (by omega)

theorem addLocal_length {name : CString} {isStackResident : Bool} {n : Nat} :
    Triple (fun s => n ≤ s.current.locals.length) (addLocal name isStackResident)
      fun _ s => n + 1 ≤ s.current.locals.length := by
  refine .get_bind fun s₀ hs => ?_
  refine Triple.bind (Q := fun _ s => n + 1 ≤ s.current.locals.length) (.modify ?_) fun _ => ?_
  · rintro s rfl
    simpa [List.length_append] using hs
  · exact .ite (fun _ => Triple.bind (Q := fun _ _ => False) errorAt_triple fun _ _ hs => hs.elim)
      fun _ => .pure fun _ hs => hs

/-- A local variable is added for what follows. -/
theorem Keeps.addLocal_bind {α : Type} {name : CString} {isStackResident : Bool} {f : Nat → CompileM α}
    (h : ∀ k ks slot, Triple (Known (k.reserve slot) ks) (f slot) fun _ => Known k ks) :
    Keeps (addLocal name isStackResident >>= f) :=
  fun k ks => addLocal_known.bind fun slot => h k ks slot

theorem addLocal_keeps {name : CString} {isStackResident : Bool} : Keeps (addLocal name isStackResident) :=
  fun _ _ => addLocal_known.post fun _ _ hs => hs.release

/-! ### Jumps -/

theorem codeSize_keeps : Keeps codeSize :=
  .getCurrent_bind fun _ => .pure

theorem emitJump_keeps {op : OpCode} (hfields : op.fields = [.jump]) : Keeps (emitJump op) := by
  refine .bind (emit_keeps (by rw [hfields]; rfl) ?_) fun _ =>
    .bind codeSize_keeps fun _ => .pure
  simp [Operand.localSlot?, Operand.entry?, Operand.Fits]

end BytecodeCompiler

theorem Ledger.Holds.setJump {k : Ledger} {c : Compiler} (h : k.Holds c) {offset n : Nat} {code : Code}
    (hcode : c.code.setJump offset n = some code) (hn : n ≤ 0xFFFFFFFF) :
    k.Holds { c with code := code } where
  slots := h.slots
  isHarvesting := h.isHarvesting
  pending := h.pending
  used := by
    intro t m hm
    rcases h.used t m hm with hw | ⟨i, hi, he⟩
    · exact .inl hw
    · obtain ⟨i', hi', hrel⟩ := (Code.setJump_spec hcode).2 i hi
      refine .inr ⟨i', hi', ?_⟩
      rcases hrel with rfl | ⟨hjump, rfl⟩
      · exact he
      · rw [Emitted.setJump_entries hjump]
        exact he
  placed := by
    intro i' hi'
    obtain ⟨i, hi, hrel⟩ := (Code.setJump_spec hcode).1 i' hi'
    rcases hrel with rfl | ⟨hjump, rfl⟩
    · exact h.placed i' hi
    · exact (h.placed i hi).setJump hjump hn
  locals := h.locals
  maxLocals := h.maxLocals
  upvalues := h.upvalues
  retvals := h.retvals

namespace BytecodeCompiler

theorem patchJump_keeps {offset : Nat} : Keeps (patchJump offset) := by
  refine fun k ks => .get_bind fun s₀ hs => ?_
  refine .ite (fun hfits => ?_) fun _ => .pure ?_
  · split
    case h_1 code hcode =>
        refine .modify ?_
        rintro s rfl
        refine ⟨hs.stray, fun hstray => ?_⟩
        have hgood := hs.good hstray
        exact hgood.replace (hgood.holds.setJump hcode hfits.2) rfl
    case h_2 =>
        refine .modify ?_
        rintro s rfl
        exact ⟨fun _ => rfl, fun hstray => nomatch hstray⟩
  · rintro s rfl
    exact hs

theorem emitLoop_keeps {loopStart : Nat} : Keeps (emitLoop loopStart) := by
  refine .bind codeSize_keeps fun size => ?_
  refine fun k ks => .ite (fun _ => ?_) fun hsize => ?_
  · refine Triple.bind (Q := fun _ _ => True) (.modify fun _ _ => trivial) fun _ => .modify ?_
    rintro s -
    exact ⟨fun _ => rfl, fun hstray => nomatch hstray⟩
  · refine emit_keeps rfl ?_ k ks
    simp only [List.mem_singleton, forall_eq, Operand.localSlot?, Operand.entry?, Operand.Fits,
      true_and]
    omega

/-! ### Names -/

theorem recordCallSite_keeps {name : CString} : Keeps (recordCallSite name) := by
  refine .ite .pure (.bind codeSize_keeps fun _ => .modifyCurrent (fun _ => rfl) fun k c hc => ?_)
  exact hc.congr rfl hc.locals hc.upvalues hc.retvals

theorem resolveStatic_keeps {name : CString} : Keeps (resolveStatic name) :=
  .get_bind fun _ => .pure

theorem globalSlotFor_known {k : Ledger} {ks : List Outer} {name : CString} :
    Triple (Known k ks) (globalSlotFor name) fun slot s => slot ≤ 65535 ∧ Known k ks s := by
  have hbound : ∀ slot : UInt16, slot.toNat ≤ 65535 := fun slot => Nat.le_of_lt_succ slot.toNat_lt
  refine .get_bind fun s₀ hs => ?_
  split
  case h_1 slot _ =>
      refine .pure ?_
      rintro s rfl
      exact ⟨hbound slot, hs⟩
  case h_2 =>
      have hadd : Triple (fun s => s = s₀) (do
          modify fun s =>
            { s with
              globalSlots := s.globalSlots ++ [(name, UInt16.ofNat s₀.nextGlobalSlot)]
              nextGlobalSlot := s.nextGlobalSlot + 1 }
          pure (UInt16.ofNat s₀.nextGlobalSlot).toNat : CompileM Nat)
          fun slot s => slot ≤ 65535 ∧ Known k ks s := by
        refine Triple.bind (Q := fun _ => Known k ks) (.modify ?_) fun _ =>
          .pure fun s hs => ⟨hbound _, hs⟩
        rintro s rfl
        refine ⟨hs.stray, fun hstray => ?_⟩
        exact ⟨(hs.good hstray).chain, (hs.good hstray).finished, (hs.good hstray).captures⟩
      refine .ite (fun _ => ?_) fun _ => hadd
      exact Triple.bind (Q := fun _ _ => False) errorAt_triple fun _ _ hs => hs.elim

/-- The slot of a global variable fits its field. -/
theorem Keeps.globalSlotFor_bind {α : Type} {name : CString} {f : Nat → CompileM α}
    (h : ∀ slot ≤ 65535, Keeps (f slot)) : Keeps (globalSlotFor name >>= f) :=
  fun k ks => globalSlotFor_known.bind fun slot => .of_and fun hslot => h slot hslot k ks

/-! ### Upvalues -/

theorem addUpvalue_spec {c c' : Compiler} {index idx : Nat} {type : UpvalueType}
    (h : Compiler.addUpvalue c index type = .ok (c', idx)) :
    c' = { c with upvalues := c'.upvalues } ∧ idx < c'.upvalues.length ∧
      (c.upvalues.length ≤ 255 → c'.upvalues.length ≤ 255) ∧
      ∀ uv ∈ c'.upvalues, uv ∈ c.upvalues ∨ uv = ⟨type, index⟩ := by
  unfold Compiler.addUpvalue at h
  split at h
  case h_1 i hi =>
      cases h
      obtain ⟨hlt, -⟩ := List.findIdx?_eq_some_iff_getElem.mp hi
      exact ⟨rfl, hlt, fun hle => hle, fun uv huv => .inl huv⟩
  case h_2 =>
      split at h
      case isTrue => cases h
      case isFalse hlt =>
          cases h
          refine ⟨rfl, by simp, fun _ => ?_, fun uv huv => ?_⟩
          · rw [List.length_append, List.length_singleton]
            omega
          · rcases List.mem_append.mp huv with huv | huv
            · exact .inl huv
            · exact .inr (List.mem_singleton.mp huv)

end BytecodeCompiler

/-- The upvalues of a function get one more, which is in the function around it. -/
theorem Ledger.Holds.addUpvalue {k : Ledger} {c c' : Compiler} (h : k.Holds c) {index idx : Nat}
    {type : UpvalueType} (hadd : BytecodeCompiler.Compiler.addUpvalue c index type = .ok (c', idx)) :
    k.Holds c' := by
  obtain ⟨hc', -, hlength, -⟩ := BytecodeCompiler.addUpvalue_spec hadd
  rw [hc']
  exact h.congr rfl h.locals (hlength h.upvalues) h.retvals

theorem Linked.addUpvalue {c c' outer : Compiler} (h : Linked c outer) {index idx : Nat}
    {type : UpvalueType} (hadd : BytecodeCompiler.Compiler.addUpvalue c index type = .ok (c', idx))
    (hindex : index ≤ 65535) (hlocal : type = .LOCAL → index < outer.maxLocals) : Linked c' outer := by
  obtain ⟨-, -, -, hnew⟩ := BytecodeCompiler.addUpvalue_spec hadd
  intro uv huv
  rcases hnew uv huv with huv | rfl
  · exact h uv huv
  · exact ⟨hindex, hlocal⟩

namespace BytecodeCompiler

theorem resolveUpvalueIn_chain {name : CString} {k : Ledger} {ks : List Outer} {c c' : Compiler}
    {cs cs' : List Compiler} {found : Option Nat} (h : Chain k ks c cs)
    (hresolve : resolveUpvalueIn name c cs = .ok (c', cs', found)) :
    Chain k ks c' cs' ∧ c'.maxLocals = c.maxLocals ∧ c'.nestedFunctions = c.nestedFunctions ∧
      ∀ idx, found = some idx → idx < c'.upvalues.length := by
  induction h generalizing c' cs' found with
  | outermost holds upvalues =>
      cases hresolve
      exact ⟨.outermost holds upvalues, rfl, rfl, fun idx hidx => nomatch hidx⟩
  | @inside k k' ks c outer cs nested holds linked hnested houter ih =>
      unfold resolveUpvalueIn at hresolve
      split at hresolve
      case h_1 i hi =>
          cases hadd : Compiler.addUpvalue c i .LOCAL with
          | error message =>
              rw [hadd] at hresolve
              cases hresolve
          | ok added =>
              rw [hadd] at hresolve
              cases hresolve
              obtain ⟨hc, hidx, -⟩ := addUpvalue_spec hadd
              have hi' : i < outer.maxLocals := lt_of_lt_of_le (findLocal_lt hi) houter.holds.locals
              have hlinked := linked.addUpvalue hadd (hi'.le.trans houter.holds.maxLocals) fun _ => hi'
              refine ⟨.inside (holds.addUpvalue hadd) hlinked hnested (houter.replace ?_ rfl), ?_, ?_, ?_⟩
              · refine houter.holds.congr rfl ?_ houter.holds.upvalues houter.holds.retvals
                rw [List.length_modify]
                exact houter.holds.locals
              · rw [hc]
              · rw [hc]
              · intro j hj
                cases hj
                exact hidx
      case h_2 =>
          cases hrec : resolveUpvalueIn name outer cs with
          | error message =>
              rw [hrec] at hresolve
              cases hresolve
          | ok resolved =>
              obtain ⟨outer', cs₁, upval⟩ := resolved
              rw [hrec] at hresolve
              obtain ⟨hchain, hmax, hnested', hfound⟩ := ih hrec
              have hnested : outer'.nestedFunctions.length = nested := by rw [hnested', hnested]
              have hlinked' : Linked c outer' := by
                intro uv huv
                rw [hmax]
                exact linked uv huv
              cases upval with
              | none =>
                  cases hresolve
                  exact ⟨.inside holds hlinked' hnested hchain, rfl, rfl, fun idx hidx => nomatch hidx⟩
              | some upval =>
                  cases hadd : Compiler.addUpvalue c upval .UPVALUE with
                  | error message =>
                      simp only [Bind.bind, Except.bind, hadd] at hresolve
                      cases hresolve
                  | ok added =>
                      simp only [Bind.bind, Except.bind, hadd] at hresolve
                      cases hresolve
                      obtain ⟨hc, hidx, -⟩ := addUpvalue_spec hadd
                      have hupval : upval ≤ 65535 := by
                        have := hfound upval rfl
                        have := hchain.holds.upvalues
                        omega
                      have hlinked := hlinked'.addUpvalue hadd hupval fun h => nomatch h
                      refine ⟨.inside (holds.addUpvalue hadd) hlinked hnested hchain, ?_, ?_, ?_⟩
                      · rw [hc]
                      · rw [hc]
                      · intro j hj
                        cases hj
                        exact hidx

theorem resolveUpvalue_known {k : Ledger} {ks : List Outer} {name : CString} :
    Triple (Known k ks) (resolveUpvalue name) fun found s =>
      (s.strayJump = false → ∀ idx, found = some idx → idx ≤ 254) ∧ Known k ks s := by
  refine .get_bind fun s₀ hs => ?_
  split
  case h_1 => exact errorAt_triple
  case h_2 current enclosing found hresolve =>
      refine Triple.bind (Q := fun _ s => (s.strayJump = false → ∀ idx, found = some idx → idx ≤ 254) ∧
        Known k ks s) (.modify ?_) fun _ => .pure fun s hs => hs
      rintro s rfl
      constructor
      · intro hstray idx hidx
        obtain ⟨hchain, -, -, hfound⟩ := resolveUpvalueIn_chain (hs.good hstray).chain hresolve
        have := hfound idx hidx
        have := hchain.holds.upvalues
        omega
      · refine ⟨hs.stray, fun hstray => ?_⟩
        obtain ⟨hchain, -, -, -⟩ := resolveUpvalueIn_chain (hs.good hstray).chain hresolve
        exact ⟨hchain, (hs.good hstray).finished, (hs.good hstray).captures⟩

theorem resolveUpvalue_keeps {name : CString} : Keeps (resolveUpvalue name) :=
  fun _ _ => resolveUpvalue_known.post fun _ _ hs => hs.2

/-- An instruction for the upvalue of a name, or something else where it has none. -/
theorem Keeps.resolveUpvalue_bind {name : CString} {op : OpCode} {f : Option Nat → CompileM Unit}
    (hfields : op.fields = [.upvalue]) (hsome : ∀ idx, f (some idx) = emit op [.upvalue idx])
    (hnone : Keeps (f none)) : Keeps (resolveUpvalue name >>= f) := by
  have hclosure : op ≠ .CLOSURE := by
    rintro rfl
    cases hfields
  refine fun k ks => resolveUpvalue_known.bind fun found => ?_
  cases found with
  | none => exact (hnone k ks).pre fun _ hs => hs.2
  | some idx =>
      rw [hsome]
      refine .modify fun s hs => ⟨hs.2.stray, fun hstray => ?_⟩
      have hgood := hs.2.good hstray
      have hidx := hs.1 hstray idx rfl
      refine hgood.replace (hgood.holds.emit ?_ k.pending (fun _ he => he)
        fun _ he => .inl he) rfl
      refine ⟨.inl ⟨by rw [hfields]; rfl, hclosure⟩, ?_, ?_, ?_⟩
      · simp [Operand.localSlot?]
      · simp [Emitted.entries, Operand.entry?]
      · intro o ho
        rw [List.mem_singleton.mp ho]
        exact .inl (hidx.trans (by decide))

/-! ### Scopes and loops -/

theorem beginScope_keeps : Keeps beginScope :=
  .modifyCurrent (fun _ => rfl) fun _ _ hc => hc.congr rfl hc.locals hc.upvalues hc.retvals

/-- A variable of the function is closed or popped. -/
theorem emitCloseLocal_ready {k : Ledger} {ks : List Outer} {slot : Nat} {l : LocalVariable}
    (hslot : slot < k.slots) : Triple (Known k ks) (emitCloseLocal slot l) fun _ => Known k ks := by
  have hpop : ∀ _ : Unit, Triple (Known k ks) (if l.isStackResident then emitOp .POP else pure ())
      fun _ => Known k ks :=
    fun _ => .ite (fun _ => emitOp_keeps rfl k ks) fun _ => .pure fun s hs => hs
  refine .ite (fun _ => .bind (emit_ready ⟨rfl, ?_, ?_, ?_, by decide⟩) hpop) fun _ => hpop ⟨⟩
  · simpa [Operand.localSlot?] using hslot
  · simp [Operand.entry?]
  · simp [unchecked]

theorem closeLocals_keeps (n : Nat) : Keeps (closeLocals n) := by
  induction n with
  | zero => exact .pure
  | succ n ih =>
      refine fun k ks => .get_bind fun s₀ hs => ?_
      split
      case h_1 => exact .pure fun s hs' => hs' ▸ hs
      case h_2 l hl =>
          refine .ite (fun _ => ?_) fun _ => .pure fun s hs' => hs' ▸ hs
          have hlength : 0 < s₀.current.locals.length := by
            cases hlocals : s₀.current.locals with
            | nil =>
                rw [hlocals] at hl
                cases hl
            | cons => exact Nat.succ_pos _
          refine Triple.bind (Q := fun _ => Known (k.reserve (s₀.current.locals.length - 1)) ks)
            (.modify ?_) fun _ => ?_
          · rintro s rfl
            refine ⟨hs.stray, fun hstray => ?_⟩
            have hgood := hs.good hstray
            have hc := hgood.holds
            refine hgood.replace ?_ rfl
            refine Ledger.Holds.congr (c := s.current) ?_ rfl hc.locals hc.upvalues hc.retvals
            exact { hc with
              slots := max_le hc.slots (by have := hc.locals; omega)
              pending := hc.pending, used := hc.used }
          · refine (emitCloseLocal_ready Ledger.lt_reserve).bind fun _ => ?_
            refine Triple.bind (Q := fun _ => Known k ks) (.modify fun s hs => ⟨hs.stray, fun hstray => ?_⟩) fun _ => ih k ks
            have hgood := hs.release.good hstray
            have hc := hgood.holds
            refine hgood.replace (hc.congr rfl ?_ hc.upvalues hc.retvals) rfl
            rw [List.length_dropLast]
            exact (Nat.sub_le _ _).trans hc.locals

theorem endScope_keeps : Keeps endScope := by
  refine .bind (.modifyCurrent (fun _ => rfl) fun _ _ hc => hc.congr rfl hc.locals hc.upvalues hc.retvals) fun _ => ?_
  exact .getCurrent_bind fun _ => closeLocals_keeps _

theorem startLoop_keeps : Keeps startLoop := .modify fun _ => rfl

theorem endLoop_keeps : Keeps endLoop := by
  refine .get_bind fun s => ?_
  dsimp only
  split
  case h_1 => exact .pure
  case h_2 => exact .bind (.forIn fun _ _ => .bind patchJump_keeps fun _ => .pure) fun _ => .modify fun _ => rfl

/-! ### Nested functions -/

end BytecodeCompiler

theorem CompiledFunction.upvalues_eq (f : CompiledFunction) :
    f.function.upvalues = f.compiler.upvalues := by
  obtain ⟨_, _, _, hmade⟩ := f.made
  rw [hmade]
  rfl

theorem CompiledFunction.nestedFunctions_eq (f : CompiledFunction) :
    f.function.nestedFunctions = f.compiler.nestedFunctions := by
  obtain ⟨_, _, _, hmade⟩ := f.made
  rw [hmade]
  rfl

namespace BytecodeCompiler

/-- A function is nested in the current one. -/
theorem addNestedFunction_known {k : Ledger} {ks : List Outer} {func : CompiledFunction}
    {nestedIdx : Nat} :
    Triple (fun s => Known k ks s ∧ (s.strayJump = false →
        Linked func.compiler s.current ∧ s.current.nestedFunctions.length = nestedIdx))
      (addNestedFunction func)
      fun _ s => Known (k.note (.nested, nestedIdx)) ks s ∧ (s.strayJump = false →
        Linked func.compiler s.current ∧
          s.current.captures nestedIdx = func.function.upvalues.length) := by
  refine .modify ?_
  rintro s ⟨hs, hnested⟩
  constructor
  · refine ⟨hs.stray, fun hstray => ?_⟩
    have hgood := hs.good hstray
    obtain ⟨-, rfl⟩ := hnested hstray
    refine hgood.replace (hgood.holds.note rfl ?_ ?_ ?_ ?_) rfl
    · simp [Compiler.tableSize]
    · intro t
      cases t <;> simp [Compiler.tableSize]
    · intro t m hm
      cases t with
      | constant => exact .inl hm
      | cache => exact .inl hm
      | nested =>
          simp only [Compiler.tableSize, List.length_append, List.length_singleton] at hm ⊢
          rcases Nat.lt_succ_iff_lt_or_eq.mp hm with hm | rfl
          · exact .inl hm
          · exact .inr rfl
    · intro idx hidx
      simp only [Compiler.captures, Compiler.tableSize] at hidx ⊢
      rw [List.getElem?_append_left hidx]
  · intro hstray
    obtain ⟨hlinked, rfl⟩ := hnested hstray
    exact ⟨hlinked, by simp [Compiler.captures]⟩

/-- The closure of a function that has just been nested in the current one. -/
theorem emitCLOSURE_known {k : Ledger} {ks : List Outer} {func : CompiledFunction} {nestedIdx : Nat} :
    Triple (fun s => Known (k.note (.nested, nestedIdx)) ks s ∧ (s.strayJump = false →
        Linked func.compiler s.current ∧
          s.current.captures nestedIdx = func.function.upvalues.length))
      (emitCLOSURE nestedIdx func.function.upvalues) fun _ => Known k ks := by
  refine .modify ?_
  rintro s ⟨hs, hnested⟩
  refine ⟨hs.stray, fun hstray => ?_⟩
  have hgood := hs.good hstray
  obtain ⟨hlinked, hcaptures⟩ := hnested hstray
  have hnone : ∀ uvs : List Upvalue, (uvs.map fun uv =>
      Operand.capture (decide (uv.type = .LOCAL)) uv.index).filterMap Operand.entry? = [] := by
    intro uvs
    rw [List.filterMap_eq_nil_iff]
    intro o ho
    obtain ⟨uv, -, rfl⟩ := List.mem_map.mp ho
    rfl
  refine hgood.replace (hgood.holds.emit ?_ k.pending Ledger.note_sub ?_) rfl
  · refine ⟨.inr ⟨rfl, nestedIdx, _, rfl, ?_, ?_⟩, ?_, ?_, ?_⟩
    · intro o ho
      obtain ⟨uv, -, rfl⟩ := List.mem_map.mp ho
      exact ⟨_, _, rfl⟩
    · rw [List.length_map]
      exact hcaptures.symm
    · intro o ho n hn
      rcases List.mem_cons.mp ho with rfl | ho
      · cases hn
      obtain ⟨uv, huv, rfl⟩ := List.mem_map.mp ho
      rw [func.upvalues_eq] at huv
      simp only [Operand.localSlot?, decide_eq_true_eq, Option.ite_none_right_eq_some,
        Option.some.injEq] at hn
      rw [← hn.2]
      exact .inl ((hlinked uv huv).2 hn.1)
    · intro e he
      simp only [Emitted.entries, List.filterMap_cons, Operand.entry?, hnone,
        List.mem_singleton] at he
      rw [he]
      exact hgood.holds.pending _ List.mem_cons_self
    · intro o ho
      rcases List.mem_cons.mp ho with rfl | ho
      · exact .inr rfl
      obtain ⟨uv, huv, rfl⟩ := List.mem_map.mp ho
      rw [func.upvalues_eq] at huv
      exact .inl (hlinked uv huv).1
  · intro e he
    rcases List.mem_cons.mp he with rfl | he
    · refine .inr ?_
      simp [Emitted.entries, Operand.entry?]
    · exact .inl he

end BytecodeCompiler

end EZLanguage
