import Mathlib.Algebra.GroupWithZero.Nat
import Mathlib.Algebra.Group.Int.Defs
import EZLanguage.Compiler.OperandWidths

/-!
# The disassembler

`Chunk::disassemble` goes through the code of a function with the instruction lengths of its own switch.
The VM goes through it with what its handlers read. Where both find the same offsets is decided by the
opcodes whose lengths differ.
-/

namespace EZLanguage

namespace Disassembler

/-- The operand bytes the cases of `disassembleInstruction` go past, those of a closure's upvalues
apart. -/
def operandBytes : OpCode → Nat
  | .LOAD_LOCAL_W | .STORE_LOCAL_W => 2
  | .LOAD_LOCAL | .STORE_LOCAL | .LOAD_UPVALUE | .STORE_UPVALUE | .MAKE_ARRAY | .BUILD_TUPLE
  | .MAKE_DICT | .INC_LOCAL | .DEC_LOCAL | .CALL | .TAIL_CALL | .CALL_KW | .CLOSE_UPVALUE => 1
  | .NEW_INSTANCE => 3
  | .SUPER_CALL => 3
  | .MAKE_INTERFACE => 3
  | .MAKE_CLASS => 5
  | .CLOSURE => 2
  | .LOAD_GLOBAL_SLOT | .STORE_GLOBAL_SLOT => 2
  | .LOAD_CONST | .LOAD_GLOBAL | .STORE_GLOBAL | .LOAD_PROPERTY | .STORE_PROPERTY | .HAS_GLOBAL
  | .GET_METHOD | .INTERCEPTED_STORE_PROPERTY | .RATELIMIT_CHECK | .GET_CACHED_RESULT
  | .STORE_CACHED_RESULT => 2
  | .JUMP | .JUMP_IF_FALSE | .JUMP_IF_TRUE | .JUMP_IF_NIL | .JUMP_IF_NOT_NIL | .TRY_START => 4
  | .LOOP => 4
  | .LOOP_LESS_EQ_LOCAL | .LOOP_GREATER_EQ_LOCAL => 6
  | .ITER_NEXT => 4
  | .ADD_LOCAL_LOCAL | .SUB_LOCAL_LOCAL | .INC_LOCAL_BY => 2
  | .ADD_GLOBAL_LOCAL => 3
  | .INVOKE_METHOD => 5
  | .LINE => 1
  | _ => 0

/-- `disassembleInstruction`: the next offset. There is none where it reads past the end of the code. -/
def disassembleInstruction (captures : Nat → Nat) (code : List UInt8) (offset : Nat) : Option Nat :=
  match code.drop offset with
  | [] => none
  | byte :: operands =>
      match OpCode.ofByte byte with
      | none => some (offset + 1)
      | some op =>
          if operands.length < operandBytes op then none
          else if op = .CLOSURE then
            let upvalueCount := captures (BytecodeFunction.readShort operands)
            if operands.length < 2 + 3 * upvalueCount then none
            else some (offset + 3 + 3 * upvalueCount)
          else some (offset + 1 + operandBytes op)

/-- The offsets `disassemble` visits, of at most so many instructions. -/
def listing (captures : Nat → Nat) (code : List UInt8) : Nat → Nat → Option (List Nat)
  | 0, offset => if offset < code.length then none else some []
  | n + 1, offset =>
      if offset < code.length then
        (disassembleInstruction captures code offset).bind fun next =>
          (listing captures code n next).map (offset :: ·)
      else some []

/-- The offsets at which the VM reads an instruction when it reads on to the end of the code. -/
def boundaries (captures : Nat → Nat) (code : List UInt8) : Nat → Nat → Option (List Nat)
  | 0, offset => if offset < code.length then none else some []
  | n + 1, offset =>
      if offset < code.length then
        (readInstruction captures (code.drop offset)).bind fun read =>
          (boundaries captures code n (code.length - read.2.length)).map (offset :: ·)
      else some []

/-- The opcodes whose operands the disassembler does not go past: the index of an inline cache, and the
second byte of a line. -/
def MisSized (op : OpCode) : Prop :=
  op = .LOAD_PROPERTY ∨ op = .STORE_PROPERTY ∨ op = .INTERCEPTED_STORE_PROPERTY ∨ op = .LINE

instance (op : OpCode) : Decidable (MisSized op) :=
  inferInstanceAs (Decidable (_ ∨ _))

theorem operandBytes_eq {op : OpCode} (hop : ¬MisSized op) : operandBytes op = op.operandBytes := by
  cases op <;> first | rfl | exact absurd (by decide) hop

theorem operandBytes_lt {op : OpCode} (hop : MisSized op) : operandBytes op < op.operandBytes := by
  rcases hop with rfl | rfl | rfl | rfl <;> decide

/-- What is read of the fields of an instruction. -/
theorem Field.read_spec {field : Field} {bytes rest : List UInt8} {o : Operand}
    (hread : field.read bytes = some (o, rest)) :
    field.bytes ≤ bytes.length ∧ rest = bytes.drop field.bytes ∧ o.field = some field := by
  cases field <;> rcases bytes with _ | ⟨a, _ | ⟨b, _ | ⟨c, _ | ⟨d, bytes⟩⟩⟩⟩ <;>
    simp only [Field.read, Option.some.injEq, Prod.mk.injEq, reduceCtorEq] at hread <;>
    obtain ⟨rfl, rfl⟩ := hread <;> simp [Field.bytes, Operand.field]

theorem readFields_spec {fields : List Field} {bytes rest : List UInt8} {operands : List Operand}
    (hread : readFields fields bytes = some (operands, rest)) :
    (fields.map Field.bytes).sum ≤ bytes.length ∧ rest = bytes.drop (fields.map Field.bytes).sum ∧
    operands.map Operand.field = fields.map some := by
  induction fields generalizing bytes operands with
  | nil =>
      cases hread
      exact ⟨Nat.zero_le _, rfl, rfl⟩
  | cons field fields ih =>
      obtain ⟨⟨o, bytes'⟩, hfirst, hrest⟩ := Option.bind_eq_some_iff.mp hread
      obtain ⟨⟨operands', bytes''⟩, hmore, hresult⟩ := Option.bind_eq_some_iff.mp hrest
      cases hresult
      obtain ⟨hle, hdrop, hfield⟩ := Field.read_spec hfirst
      obtain ⟨hle', hdrop', hfields⟩ := ih hmore
      rw [hdrop, List.length_drop] at hle'
      rw [hdrop, List.drop_drop] at hdrop'
      refine ⟨?_, hdrop', ?_⟩
      · rw [List.map_cons, List.sum_cons]
        omega
      · rw [List.map_cons, List.map_cons, hfield, hfields]

theorem readCaptures_spec {n : Nat} {bytes rest : List UInt8} {operands : List Operand}
    (hread : readCaptures n bytes = some (operands, rest)) :
    3 * n ≤ bytes.length ∧ rest = bytes.drop (3 * n) := by
  induction n generalizing bytes operands with
  | zero =>
      cases hread
      exact ⟨Nat.zero_le _, rfl⟩
  | succ n ih =>
      rcases bytes with _ | ⟨a, _ | ⟨b, _ | ⟨c, bytes⟩⟩⟩
      · cases hread
      · cases hread
      · cases hread
      · obtain ⟨⟨operands', bytes'⟩, hmore, hresult⟩ := Option.bind_eq_some_iff.mp hread
        cases hresult
        obtain ⟨hle, hdrop⟩ := ih hmore
        refine ⟨?_, ?_⟩
        · simp only [List.length_cons]
          omega
        · rw [hdrop, Nat.mul_succ]
          rfl

/-- The bytes of a closure's upvalues. -/
def upvalueBytes (captures : Nat → Nat) (op : OpCode) (operands : List UInt8) : Nat :=
  if op = .CLOSURE then 3 * captures (BytecodeFunction.readShort operands) else 0

theorem readInstruction_other {captures : Nat → Nat} {byte : UInt8} {bytes rest : List UInt8}
    {op : OpCode} {operands : List Operand} (hop : OpCode.ofByte byte = some op) (hne : op ≠ .CLOSURE)
    (hfields : readFields op.fields bytes = some (operands, rest)) :
    readInstruction captures (byte :: bytes) = some ((op, operands), rest) := by
  obtain ⟨_, _, hkinds⟩ := readFields_spec hfields
  simp only [readInstruction, hop, hfields, Option.bind_eq_bind, Option.bind_some]
  split
  case h_1 idx =>
      exfalso
      apply OpCode.fields_ne_nested hne
      cases hall : op.fields with
      | nil => simp [hall] at hkinds
      | cons field fields =>
          rw [hall] at hkinds
          simp only [List.map_cons, List.map_nil, Operand.field, List.cons.injEq, Option.some.injEq] at hkinds
          rw [← hkinds.1, List.map_eq_nil_iff.mp hkinds.2.symm]
  case h_2 => rfl

/-- An instruction that is read takes its operand bytes and those of its upvalues. -/
theorem readInstruction_spec {captures : Nat → Nat} {byte : UInt8} {bytes rest : List UInt8}
    {op : OpCode} {operands : List Operand}
    (hread : readInstruction captures (byte :: bytes) = some ((op, operands), rest)) :
    OpCode.ofByte byte = some op ∧
    op.operandBytes + upvalueBytes captures op bytes ≤ bytes.length ∧
    rest = bytes.drop (op.operandBytes + upvalueBytes captures op bytes) := by
  have hunfold := hread
  rw [readInstruction] at hunfold
  obtain ⟨op', hop, hfirst⟩ := Option.bind_eq_some_iff.mp hunfold
  obtain ⟨⟨operands', bytes'⟩, hfields, hthen⟩ := Option.bind_eq_some_iff.mp hfirst
  obtain ⟨hle, hdrop, _⟩ := readFields_spec hfields
  rw [OpCode.fields_bytes] at hle hdrop
  by_cases hclosure : op' = .CLOSURE
  · subst hclosure
    rcases bytes with _ | ⟨hi, _ | ⟨lo, bytes⟩⟩
    · cases hfields
    · cases hfields
    · cases hfields
      obtain ⟨⟨upvalues, bytes''⟩, hcaptures, hresult⟩ := Option.bind_eq_some_iff.mp hthen
      cases hresult
      obtain ⟨hfits, hrest⟩ := readCaptures_spec hcaptures
      refine ⟨hop, ?_, ?_⟩
      · simp only [upvalueBytes, if_true, BytecodeFunction.readShort, List.length_cons, OpCode.operandBytes]
        omega
      · rw [hrest, upvalueBytes, if_pos rfl, BytecodeFunction.readShort, OpCode.operandBytes,
          Nat.add_comm 2]
        rfl
  · rw [readInstruction_other hop hclosure hfields] at hread
    cases hread
    rw [upvalueBytes, if_neg hclosure]
    exact ⟨hop, hle, hdrop⟩

/-- After an instruction the VM can read, the disassembler is at the VM's offset, or before it where it
leaves operand bytes out. -/
theorem disassembleInstruction_spec {captures : Nat → Nat} {code rest : List UInt8} {offset : Nat}
    {op : OpCode} {operands : List Operand} (hinside : offset < code.length)
    (hread : readInstruction captures (code.drop offset) = some ((op, operands), rest)) :
    offset < code.length - rest.length ∧ rest = code.drop (code.length - rest.length) ∧
    ∃ next, disassembleInstruction captures code offset = some next ∧
      (¬MisSized op → next = code.length - rest.length) ∧
      (MisSized op → next < code.length - rest.length) := by
  have hbytes := List.drop_eq_getElem_cons hinside
  rw [hbytes] at hread
  obtain ⟨hop, hle, hdrop⟩ := readInstruction_spec hread
  generalize hsize : op.operandBytes + upvalueBytes captures op (code.drop (offset + 1)) = size at hle hdrop
  rw [List.length_drop] at hle
  have hrest : code.length - rest.length = offset + 1 + size := by
    rw [hdrop, List.length_drop, List.length_drop]
    omega
  refine ⟨by omega, ?_, ?_⟩
  · rw [hrest, hdrop, List.drop_drop]
  · rw [hrest, disassembleInstruction, hbytes]
    simp only [hop, List.length_drop]
    by_cases hclosure : op = .CLOSURE
    · subst hclosure
      have hupvalues : upvalueBytes captures .CLOSURE (code.drop (offset + 1)) =
          3 * captures (BytecodeFunction.readShort (code.drop (offset + 1))) := if_pos rfl
      have htwo : OpCode.operandBytes .CLOSURE = 2 := rfl
      rw [hupvalues, htwo] at hsize
      have hfirst : ¬code.length - (offset + 1) < operandBytes .CLOSURE := by
        change ¬code.length - (offset + 1) < 2
        omega
      have hthen : ¬code.length - (offset + 1) <
          2 + 3 * captures (BytecodeFunction.readShort (code.drop (offset + 1))) := by omega
      rw [if_neg hfirst, if_pos rfl, if_neg hthen]
      refine ⟨_, rfl, ?_, ?_⟩
      · intro _
        omega
      · intro hmissed
        exact absurd hmissed (by decide)
    · have hupvalues : upvalueBytes captures op (code.drop (offset + 1)) = 0 := if_neg hclosure
      rw [hupvalues] at hsize
      have hfits : operandBytes op ≤ op.operandBytes := by
        by_cases hmissed : MisSized op
        · exact Nat.le_of_lt (operandBytes_lt hmissed)
        · exact Nat.le_of_eq (operandBytes_eq hmissed)
      rw [if_neg (by omega), if_neg hclosure]
      refine ⟨_, rfl, ?_, ?_⟩
      · intro hsized
        have hsame := operandBytes_eq hsized
        omega
      · intro hmissed
        have hlt := operandBytes_lt hmissed
        omega

/-- A listing that goes on starts with the offset it is at. -/
theorem head_of_listing {captures : Nat → Nat} {code : List UInt8} {n offset : Nat} {offsets : List Nat}
    (hlisting : listing captures code n offset = some offsets) (hinside : offset < code.length) :
    ∃ rest, offsets = offset :: rest := by
  cases n with
  | zero =>
      rw [listing, if_pos hinside] at hlisting
      cases hlisting
  | succ n =>
      rw [listing, if_pos hinside] at hlisting
      obtain ⟨next, _, hrest⟩ := Option.bind_eq_some_iff.mp hlisting
      obtain ⟨rest, _, rfl⟩ := Option.map_eq_some_iff.mp hrest
      exact ⟨rest, rfl⟩

theorem head_of_boundaries {captures : Nat → Nat} {code : List UInt8} {n offset : Nat}
    {offsets : List Nat} (hboundaries : boundaries captures code n offset = some offsets) :
    offsets = [] ∨ ∃ rest, offsets = offset :: rest := by
  cases n with
  | zero =>
      rw [boundaries] at hboundaries
      split_ifs at hboundaries
      exact .inl (Option.some.inj hboundaries).symm
  | succ n =>
      rw [boundaries] at hboundaries
      split_ifs at hboundaries
      · obtain ⟨read, _, hrest⟩ := Option.bind_eq_some_iff.mp hboundaries
        obtain ⟨rest, _, rfl⟩ := Option.map_eq_some_iff.mp hrest
        exact .inr ⟨rest, rfl⟩
      · exact .inl (Option.some.inj hboundaries).symm

/-- The listing from an offset is the VM's where the VM reads on to the end and no opcode is
mis-sized. -/
theorem listing_iff (captures : Nat → Nat) (code : List UInt8) {n offset : Nat}
    (hoffset : offset ≤ code.length) :
    (∃ offsets, boundaries captures code n offset = some offsets ∧
      listing captures code n offset = some offsets) ↔
    ∃ instructions, readCode captures n (code.drop offset) = some instructions ∧
      ∀ i ∈ instructions, ¬MisSized i.1 := by
  induction n generalizing offset with
  | zero =>
      by_cases hinside : offset < code.length
      · have hbytes := List.drop_eq_getElem_cons hinside
        rw [boundaries, if_pos hinside, hbytes, readCode]
        simp
      · have hbytes : code.drop offset = [] := List.drop_eq_nil_of_le (by omega)
        simp [boundaries, listing, hinside, hbytes, readCode]
  | succ n ih =>
      by_cases hinside : offset < code.length
      · have hbytes := List.drop_eq_getElem_cons hinside
        have hcode : readCode captures (n + 1) (code.drop offset) =
            (readInstruction captures (code.drop offset)).bind fun read =>
              (readCode captures n read.2).bind fun rest => some (read.1 :: rest) := by
          rw [hbytes]
          rfl
        rw [boundaries, listing, if_pos hinside, if_pos hinside, hcode]
        cases hread : readInstruction captures (code.drop offset) with
        | none => simp
        | some read =>
            obtain ⟨⟨op, operands⟩, rest⟩ := read
            obtain ⟨hlater, hrest, next, hnext, hsized, hmissed⟩ :=
              disassembleInstruction_spec hinside hread
            have hthen := @ih (code.length - rest.length) (Nat.sub_le _ _)
            rw [← hrest] at hthen
            rw [hnext, Option.bind_some, Option.bind_some, Option.bind_some]
            by_cases hop : MisSized op
            · constructor
              · rintro ⟨offsets, hvm, hlist⟩
                obtain ⟨vmRest, hvmRest, rfl⟩ := Option.map_eq_some_iff.mp hvm
                obtain ⟨listRest, hlistRest, hsame⟩ := Option.map_eq_some_iff.mp hlist
                cases hsame
                -- the disassembler stands inside the operands, where the VM reads no instruction
                have hbefore := hmissed hop
                obtain ⟨tail, htail⟩ := head_of_listing hlistRest (by omega)
                rcases head_of_boundaries hvmRest with hempty | ⟨tail', htail'⟩
                · rw [htail] at hempty
                  cases hempty
                · rw [htail, List.cons.injEq] at htail'
                  dsimp only at htail'
                  omega
              · rintro ⟨instructions, hinstructions, hall⟩
                obtain ⟨tail, _, hsome⟩ := Option.bind_eq_some_iff.mp hinstructions
                cases hsome
                exact absurd hop (hall (op, operands) List.mem_cons_self)
            · rw [hsized hop]
              constructor
              · rintro ⟨offsets, hvm, hlist⟩
                obtain ⟨vmRest, hvmRest, rfl⟩ := Option.map_eq_some_iff.mp hvm
                obtain ⟨listRest, hlistRest, hsame⟩ := Option.map_eq_some_iff.mp hlist
                cases hsame
                obtain ⟨instructions, hinstructions, hall⟩ := hthen.mp ⟨_, hvmRest, hlistRest⟩
                refine ⟨(op, operands) :: instructions, ?_, ?_⟩
                · rw [hinstructions, Option.bind_some]
                · rw [List.forall_mem_cons]
                  exact ⟨hop, hall⟩
              · rintro ⟨instructions, hinstructions, hall⟩
                obtain ⟨tail, htail, hsome⟩ := Option.bind_eq_some_iff.mp hinstructions
                cases hsome
                rw [List.forall_mem_cons] at hall
                obtain ⟨offsets, hvm, hlist⟩ := hthen.mpr ⟨tail, htail, hall.2⟩
                exact ⟨offset :: offsets, by rw [hvm]; rfl, by rw [hlist]; rfl⟩
      · have hbytes : code.drop offset = [] := List.drop_eq_nil_of_le (by omega)
        simp [boundaries, listing, hinside, hbytes, readCode]

end Disassembler

namespace BytecodeFunction

/-- The upvalues of the functions nested in a function. -/
def captures (f : BytecodeFunction) (idx : Nat) : Nat :=
  (f.nestedFunctions[idx]?.map fun g => g.upvalues.length).getD 0

/-- The offsets the disassembler visits are those at which the VM reads an instruction, to the end of the
code. -/
def ListedAsRun (f : BytecodeFunction) : Prop :=
  ∃ offsets, Disassembler.boundaries f.captures f.chunk.code f.chunk.code.length 0 = some offsets ∧
    Disassembler.listing f.captures f.chunk.code f.chunk.code.length 0 = some offsets

/-- Both find the same offsets, if any. -/
def SameOffsets (f : BytecodeFunction) : Prop :=
  Disassembler.boundaries f.captures f.chunk.code f.chunk.code.length 0 =
    Disassembler.listing f.captures f.chunk.code f.chunk.code.length 0

instance (f : BytecodeFunction) : Decidable f.SameOffsets :=
  inferInstanceAs (Decidable (_ = _))

theorem ListedAsRun.sameOffsets {f : BytecodeFunction} (hlisted : f.ListedAsRun) : f.SameOffsets := by
  obtain ⟨offsets, hvm, hlist⟩ := hlisted
  rw [BytecodeFunction.SameOffsets, hvm, hlist]

/-- The disassembler lists the instructions of a function exactly where the VM can read the function to
its end and finds no property access and no line marker. -/
theorem listedAsRun_iff (f : BytecodeFunction) :
    f.ListedAsRun ↔ ∃ instructions, f.instructions = some instructions ∧
      ∀ i ∈ instructions, ¬Disassembler.MisSized i.1 := by
  have hiff := Disassembler.listing_iff f.captures f.chunk.code (n := f.chunk.code.length)
    (Nat.zero_le _)
  rw [List.drop_zero] at hiff
  exact hiff

end BytecodeFunction

namespace BytecodeCompiler

/-- A narrow function of a compilation is listed as it runs exactly where none of its instructions is one
the disassembler mis-sizes. -/
theorem narrow_listed_iff {host : Host} {session : Session} {statements : List Stmt}
    {result : CompileResult} (h : compile host session statements = .ok result)
    (hstray : result.strayJump = false) {f : CompiledFunction} (hf : f ∈ result.functions)
    (hnarrow : f.Narrow) :
    f.function.ListedAsRun ↔ ∀ i ∈ f.compiler.code, ¬Disassembler.MisSized i.op := by
  obtain ⟨isHarvesting, strayJump, hholds⟩ := (compile_sound h hstray f hf).holds
  have hmeant : f.function.instructions = some (f.compiler.code.map Emitted.meant) := by
    rw [f.instructions_eq]
    apply (readCode_encode_iff (fun i hi => (hholds.placed i hi).shaped) (Code.length_le_size _)).mpr
    exact (CompiledFunction.narrow_iff hholds rfl).mp hnarrow
  have hiff := Disassembler.listing_iff f.function.captures f.function.chunk.code
    (n := f.function.chunk.code.length) (Nat.zero_le _)
  rw [List.drop_zero] at hiff
  rw [BytecodeFunction.ListedAsRun, hiff]
  constructor
  · rintro ⟨instructions, hread, hall⟩ i hi
    have hsame := hmeant.symm.trans hread
    cases hsame
    exact hall i.meant (List.mem_map_of_mem hi)
  · intro hall
    refine ⟨_, hmeant, fun i hi => ?_⟩
    obtain ⟨emitted, hemitted, rfl⟩ := List.mem_map.mp hi
    exact hall emitted hemitted

/-- A property access is listed without its inline-cache index. -/
theorem property_not_listed :
    ¬∀ (host : Host) (session : Session) (statements : List Stmt) (result : CompileResult),
      compile host session statements = .ok result → ∀ f ∈ result.functions, f.function.ListedAsRun := by
  intro hall
  have hlisted := hall (.closed .bare) {} [.mk 1 [] (.OutStmt (.mk 1 5 []
    (.PropertyAccessExpr (.mk 1 5 [] (.LiteralExpr .nil)) (lit "x") false)))]
  have hdiffers : (match compile (.closed .bare) {} [.mk 1 [] (.OutStmt (.mk 1 5 []
      (.PropertyAccessExpr (.mk 1 5 [] (.LiteralExpr .nil)) (lit "x") false)))] with
    | .ok result => result.functions.all fun f => decide (f.function.SameOffsets)
    | .error _ => true) = false := rfl
  split at hdiffers
  case h_1 result hresult =>
      have hall := List.all_eq_true.mpr fun f hf =>
        decide_eq_true (BytecodeFunction.ListedAsRun.sameOffsets (hlisted result hresult f hf))
      rw [hall] at hdiffers
      cases hdiffers
  case h_2 => cases hdiffers

end BytecodeCompiler

end EZLanguage
