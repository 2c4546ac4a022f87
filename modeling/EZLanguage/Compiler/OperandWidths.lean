import EZLanguage.Compiler.OperandKeeps

/-!
# Operands and the width of their fields

What the VM reads from the bytes of a function is what the compiler meant, cut down to the fields. It is
the same as what the compiler meant exactly where the tables of the function and the numbers the compiler
does not check are small enough.
-/

namespace EZLanguage

/-! ### Reading back -/

private theorem readShort (n : Nat) :
    (UInt8.ofNat (n / 256)).toNat * 256 + (UInt8.ofNat n).toNat = n % 65536 := by
  simp only [UInt8.toNat_ofNat']
  omega

private theorem readAmount (i : Int) :
    (UInt8.ofNat (i % 256).toNat).toInt8.toInt = (i + 128) % 256 - 128 := by
  have hbyte : (UInt8.ofNat (i % 256).toNat).toInt8.toInt = Int.bmod (i % 256).toNat 256 := by
    change (BitVec.ofNat 8 (i % 256).toNat).toInt = _
    exact BitVec.toInt_ofNat' _
  have hnonneg : 0 ≤ i % 256 := Int.emod_nonneg i (by decide)
  rw [hbyte, Int.toNat_of_nonneg hnonneg]
  simp only [Int.bmod]
  split <;> omega

/-- A field holds what is left of the operand. -/
theorem Field.read_encode {field : Field} {o : Operand} (h : o.field = some field) (rest : List UInt8) :
    field.read (o.encode ++ rest) = some (o.truncate, rest) := by
  cases o with
  | slot n | upvalue n | count n =>
      cases h
      simp [Operand.encode, Field.read, Operand.truncate]
  | wideSlot n | globalSlot n | constant n | cache n | nested n | line n =>
      cases h
      simp only [Operand.encode, encodeShort, List.cons_append, List.nil_append, Field.read,
        readShort, Operand.truncate]
  | amount i =>
      cases h
      simp only [Operand.encode, List.cons_append, List.nil_append, Field.read, readAmount,
        Operand.truncate]
  | capture isLocal index => cases h
  | jump n =>
      cases h
      simp only [Operand.encode, List.cons_append, List.nil_append, Field.read, Operand.truncate,
        UInt8.toNat_ofNat', Option.some.injEq, Prod.mk.injEq, Operand.jump.injEq, and_true]
      omega

theorem readFields_encode {operands : List Operand} {fields : List Field}
    (h : operands.map Operand.field = fields.map some) (rest : List UInt8) :
    readFields fields (operands.flatMap Operand.encode ++ rest) =
      some (operands.map Operand.truncate, rest) := by
  induction fields generalizing operands with
  | nil =>
      rw [List.map_nil, List.map_eq_nil_iff] at h
      rw [h]
      rfl
  | cons field fields ih =>
      cases operands with
      | nil => cases h
      | cons o operands =>
          rw [List.map_cons, List.map_cons, List.cons.injEq] at h
          rw [List.flatMap_cons, List.append_assoc, readFields, Field.read_encode h.1]
          simp only [Option.bind_eq_bind, Option.bind_some, ih h.2]
          rfl

theorem readCaptures_encode {upvalues : List Operand}
    (h : ∀ o ∈ upvalues, ∃ isLocal index, o = .capture isLocal index) (rest : List UInt8) :
    readCaptures upvalues.length (upvalues.flatMap Operand.encode ++ rest) =
      some (upvalues.map Operand.truncate, rest) := by
  induction upvalues with
  | nil => rfl
  | cons o upvalues ih =>
      obtain ⟨isLocal, index, rfl⟩ := h o List.mem_cons_self
      have hrest := ih fun o ho => h o (List.mem_cons_of_mem _ ho)
      rw [List.flatMap_cons, List.append_assoc, List.length_cons]
      simp only [Operand.encode, encodeShort, List.cons_append, List.nil_append, readCaptures, hrest,
        Option.bind_eq_bind, Option.bind_some, readShort, List.map_cons, Operand.truncate]
      cases isLocal <;> rfl

/-- No instruction but a closure has an operand for a nested function. -/
theorem OpCode.fields_ne_nested {op : OpCode} (h : op ≠ .CLOSURE) : op.fields ≠ [.nested] := by
  cases op <;> first | exact absurd rfl h | decide

/-- An instruction without captures is read up to the width of its fields. -/
theorem readInstruction_plain {captures : Nat → Nat} {i : Emitted}
    (h : i.operands.map Operand.field = i.op.fields.map some) (hop : i.op ≠ .CLOSURE)
    (rest : List UInt8) :
    readInstruction captures (i.encode ++ rest) =
      some ((i.op, i.operands.map Operand.truncate), rest) := by
  have hread := readFields_encode h rest
  simp only [Emitted.encode, List.cons_append, readInstruction, OpCode.ofByte_toByte,
    Option.bind_eq_bind, Option.bind_some, hread]
  split
  case h_1 idx hidx =>
      -- one operand for a nested function is that of a closure
      have hfields : i.operands.map Operand.field = [some .nested] := by
        cases hoperands : i.operands with
        | nil => simp [hoperands] at hidx
        | cons o operands =>
            rw [hoperands, List.map_cons, List.cons.injEq, List.map_eq_nil_iff] at hidx
            obtain ⟨ho, rfl⟩ := hidx
            cases o <;> cases ho
            rfl
      rw [hfields] at h
      refine absurd (List.map_injective_iff.mpr (fun _ _ => Option.some.inj) ?_) (OpCode.fields_ne_nested hop)
      exact h.symm
  case h_2 => rfl

/-- A closure is read with the captures of the function it is read to name. -/
theorem readInstruction_closure (captures : Nat → Nat) (line idx : Nat) (upvalues : List Operand)
    (rest : List UInt8) :
    readInstruction captures (Emitted.encode ⟨.CLOSURE, .nested idx :: upvalues, line⟩ ++ rest) =
      (readCaptures (captures (idx % 65536)) (upvalues.flatMap Operand.encode ++ rest)).map
        fun read => ((.CLOSURE, .nested (idx % 65536) :: read.1), read.2) := by
  have hread : readFields [.nested] (Operand.encode (.nested idx) ++
      (upvalues.flatMap Operand.encode ++ rest)) =
      some ([.nested (idx % 65536)], upvalues.flatMap Operand.encode ++ rest) := by
    rw [← List.flatMap_singleton Operand.encode (Operand.nested idx)]
    exact readFields_encode rfl _
  simp only [Emitted.encode, List.flatMap_cons, List.cons_append, List.append_assoc, readInstruction,
    OpCode.ofByte_toByte, Option.bind_eq_bind, Option.bind_some, OpCode.fields, hread]
  cases readCaptures (captures (idx % 65536)) (upvalues.flatMap Operand.encode ++ rest) with
  | none => rfl
  | some read => rfl

theorem map_truncate_eq_iff {operands : List Operand} :
    operands.map Operand.truncate = operands ↔ ∀ o ∈ operands, o.Fits := by
  induction operands with
  | nil => simp
  | cons o operands ih =>
      rw [List.map_cons, List.cons.injEq, ih, List.forall_mem_cons, Operand.truncate_eq_iff]

namespace Emitted

/-- An instruction whose operands fit is read as it was meant. -/
theorem Shaped.read {captures : Nat → Nat} {i : Emitted} (h : i.Shaped captures)
    (hfits : ∀ o ∈ i.operands, o.Fits) (rest : List UInt8) :
    readInstruction captures (i.encode ++ rest) = some ((i.op, i.operands), rest) := by
  rcases h with ⟨hfields, hop⟩ | ⟨hop, idx, upvalues, hoperands, hcapture, hlength⟩
  · rw [readInstruction_plain hfields hop, map_truncate_eq_iff.mpr hfits]
  · obtain ⟨op, operands, line⟩ := i
    subst hop hoperands
    rw [List.forall_mem_cons] at hfits
    have hidx : idx % 65536 = idx := Nat.mod_eq_of_lt (Nat.lt_succ_of_le hfits.1)
    have hcaptures := readCaptures_encode hcapture rest
    rw [map_truncate_eq_iff.mpr hfits.2, hlength] at hcaptures
    rw [readInstruction_closure, hidx, hcaptures]
    rfl

/-- An instruction that is read as it was meant has operands that fit. -/
theorem Shaped.fits {captures : Nat → Nat} {i : Emitted} (h : i.Shaped captures)
    {rest rest' : List UInt8}
    (hread : readInstruction captures (i.encode ++ rest) = some ((i.op, i.operands), rest')) :
    ∀ o ∈ i.operands, o.Fits := by
  rcases h with ⟨hfields, hop⟩ | ⟨hop, idx, upvalues, hoperands, hcapture, hlength⟩
  · rw [readInstruction_plain hfields hop, Option.some.injEq, Prod.mk.injEq, Prod.mk.injEq] at hread
    exact map_truncate_eq_iff.mp hread.1.2
  · obtain ⟨op, operands, line⟩ := i
    subst hop hoperands
    rw [readInstruction_closure] at hread
    obtain ⟨⟨read, bytes⟩, hcaptures, hresult⟩ := Option.map_eq_some_iff.mp hread
    simp only [Prod.mk.injEq, List.cons.injEq, Operand.nested.injEq, true_and] at hresult
    obtain ⟨⟨hidx, rfl⟩, rfl⟩ := hresult
    rw [hidx, ← hlength, readCaptures_encode hcapture, Option.some.injEq, Prod.mk.injEq] at hcaptures
    refine List.forall_mem_cons.mpr ⟨?_, map_truncate_eq_iff.mp hcaptures.1⟩
    change idx ≤ 65535
    omega

end Emitted

/-! ### The code of a function -/

/-- An instruction as the VM finds it. -/
def Emitted.meant (i : Emitted) : OpCode × List Operand := (i.op, i.operands)

theorem readCode_cons (captures : Nat → Nat) (n : Nat) (i : Emitted) (rest : List UInt8) :
    readCode captures (n + 1) (i.encode ++ rest) =
      (readInstruction captures (i.encode ++ rest)).bind fun read =>
        (readCode captures n read.2).map (read.1 :: ·) := by
  change (readInstruction captures (i.encode ++ rest)).bind _ = _
  congr 1
  funext read
  obtain ⟨i, bytes⟩ := read
  simp only [Option.bind_eq_bind, Option.pure_def]
  cases readCode captures n bytes with
  | none => rfl
  | some _ => rfl

theorem Code.length_le_size (code : Code) : code.length ≤ code.encode.length := by
  induction code with
  | nil => exact Nat.zero_le _
  | cons i code ih =>
      simp only [encode, List.flatMap_cons, List.length_append, List.length_cons, Emitted.encode] at ih ⊢
      omega

/-- The code of a function is read as it was meant exactly where every operand fits. -/
theorem readCode_encode_iff {captures : Nat → Nat} {code : Code}
    (h : ∀ i ∈ code, i.Shaped captures) {n : Nat} (hn : code.length ≤ n) :
    readCode captures n (Code.encode code) = some (code.map Emitted.meant) ↔
      ∀ i ∈ code, ∀ o ∈ i.operands, o.Fits := by
  induction code generalizing n with
  | nil =>
      cases n with
      | zero => simp [Code.encode, readCode]
      | succ n => simp [Code.encode, readCode]
  | cons i code ih =>
      obtain ⟨n, rfl⟩ := Nat.exists_eq_add_of_le' (Nat.lt_of_lt_of_le (Nat.succ_pos _) hn)
      have hshaped := h i List.mem_cons_self
      have ih := @ih (fun j hj => h j (List.mem_cons_of_mem _ hj)) n (Nat.le_of_succ_le_succ hn)
      rw [List.forall_mem_cons]
      change readCode captures (n + 1) (i.encode ++ Code.encode code) = _ ↔ _
      rw [readCode_cons]
      constructor
      · intro hread
        obtain ⟨⟨read, bytes⟩, hi, hrest⟩ := Option.bind_eq_some_iff.mp hread
        obtain ⟨tail, htail, hmeant⟩ := Option.map_eq_some_iff.mp hrest
        rw [List.map_cons, List.cons.injEq] at hmeant
        obtain ⟨rfl, rfl⟩ := hmeant
        have hfits := hshaped.fits hi
        rw [hshaped.read hfits, Option.some.injEq, Prod.mk.injEq] at hi
        rw [← hi.2] at htail
        exact ⟨hfits, ih.mp htail⟩
      · rintro ⟨hi, hrest⟩
        rw [hshaped.read hi, Option.bind_some, ih.mpr hrest]
        rfl

/-! ### The functions of a compilation -/

/-- The instructions with a number of values that is not checked. -/
def countsUnchecked (op : OpCode) : Bool :=
  op = .CALL_KW || op = .TAIL_CALL || op = .MAKE_DICT || op = .MAKE_INTERFACE

/-- The tables of a function, and the numbers nothing checks, are small enough for their fields. -/
structure CompiledFunction.Narrow (f : CompiledFunction) : Prop where
  constants : f.function.chunk.constants.entries.length ≤ 65536
  caches : f.function.chunk.icEntries ≤ 65536
  nested : f.function.nestedFunctions.length ≤ 65536
  counts : ∀ i ∈ f.compiler.code, countsUnchecked i.op = true → ∀ n, .count n ∈ i.operands → n ≤ 255
  captured : ∀ i ∈ f.compiler.code, i.op = .CLOSE_UPVALUE → ∀ n, .slot n ∈ i.operands → n ≤ 255

namespace CompiledFunction

theorem chunk_eq (f : CompiledFunction) :
    f.function.chunk.code = Code.encode f.compiler.code ∧
      f.function.chunk.constants = f.compiler.constants ∧
      f.function.chunk.icEntries = f.compiler.icEntries := by
  obtain ⟨_, _, _, hmade⟩ := f.made
  rw [hmade]
  exact ⟨rfl, rfl, rfl⟩

/-- The VM counts the captures of a nested function as the compiler does. -/
theorem instructions_eq (f : CompiledFunction) :
    f.function.instructions =
      readCode f.compiler.captures (Code.encode f.compiler.code).length (Code.encode f.compiler.code) := by
  unfold BytecodeFunction.instructions
  rw [f.nestedFunctions_eq, f.chunk_eq.1]
  rfl

variable {f : CompiledFunction} {k : Ledger}

theorem Narrow.fits (hnarrow : f.Narrow) (hf : k.Holds f.compiler) :
    ∀ i ∈ f.compiler.code, ∀ o ∈ i.operands, o.Fits := by
  intro i hi o ho
  have hplaced := hf.placed i hi
  rcases hplaced.fits o ho with hfits | hunchecked
  · exact hfits
  have hentry : ∀ e, o.entry? = some e → e.2 < f.compiler.tableSize e.1 :=
    fun e he => hplaced.entries e (List.mem_filterMap.mpr ⟨o, ho, he⟩)
  obtain ⟨-, hconstants, hcaches⟩ := f.chunk_eq
  cases o with
  | constant n =>
      have hn := hentry _ rfl
      have := hnarrow.constants
      rw [hconstants] at this
      exact Nat.le_of_lt_succ (lt_of_lt_of_le hn this)
  | cache n =>
      have hn := hentry _ rfl
      have := hnarrow.caches
      rw [hcaches] at this
      exact Nat.le_of_lt_succ (lt_of_lt_of_le hn this)
  | nested n =>
      have hn := hentry _ rfl
      have := hnarrow.nested
      rw [f.nestedFunctions_eq] at this
      exact Nat.le_of_lt_succ (lt_of_lt_of_le hn this)
  | count n => exact hnarrow.counts i hi hunchecked n ho
  | slot n => exact hnarrow.captured i hi (of_decide_eq_true hunchecked) n ho
  | wideSlot n | upvalue n | globalSlot n | amount n | line n | jump n => cases hunchecked
  | capture isLocal index => cases hunchecked

/-- An entry whose number does not fit is named by an operand that does not fit. -/
theorem tableSize_le (hf : k.Holds f.compiler) (hpending : k.pending = [])
    (hfits : ∀ i ∈ f.compiler.code, ∀ o ∈ i.operands, o.Fits) (t : Table) :
    f.compiler.tableSize t ≤ 65536 := by
  by_contra hlarge
  rcases hf.used t 65536 (Nat.lt_of_not_le hlarge) with hp | ⟨i, hi, he⟩
  · rw [hpending] at hp
    cases hp
  · obtain ⟨o, ho, hentry⟩ := List.mem_filterMap.mp he
    have hle := hfits i hi o ho
    cases o <;> cases hentry <;> exact absurd hle (by decide)

theorem narrow_iff (hf : k.Holds f.compiler) (hpending : k.pending = []) :
    f.Narrow ↔ ∀ i ∈ f.compiler.code, ∀ o ∈ i.operands, o.Fits := by
  obtain ⟨-, hconstants, hcaches⟩ := f.chunk_eq
  constructor
  · intro hnarrow
    exact hnarrow.fits hf
  · intro hfits
    refine ⟨?_, ?_, ?_, ?_, ?_⟩
    · rw [hconstants]
      exact tableSize_le hf hpending hfits .constant
    · rw [hcaches]
      exact tableSize_le hf hpending hfits .cache
    · rw [f.nestedFunctions_eq]
      exact tableSize_le hf hpending hfits .nested
    · exact fun i hi _ n hn => hfits i hi _ hn
    · exact fun i hi _ n hn => hfits i hi _ hn

end CompiledFunction

namespace BytecodeCompiler

/-- A host without modules. -/
def Host.closed (fpu : FloatUnit) : Host where
  fpu
  disableContracts := false
  locate := fun _ path => .error path
  parse := fun path => .error path
  hash := fun _ => 0

end BytecodeCompiler

end EZLanguage
