import EZLanguage.Compiler.Scoping
import EZLanguage.Support.Runs
import EZLanguage.VM.Value
import Mathlib.Data.List.Nodup

/-!
# Global slots

The compiler gives a global name its slot when it first meets the name, and the virtual machine keeps the
values of the slots. What a compilation asks of the table of slots is a list of names, in the order in
which its code uses them. A file is compiled once, and `eval` compiles with a table read off the virtual
machine. The prompt keeps one table for all its lines, and that table does not learn the names that
`eval` adds.
-/

namespace EZLanguage

namespace GlobalSlots

/-! ### The table of the compiler -/

/-- What the compiler knows of the slots. -/
structure SlotTable where
  globalSlots : List (CString × UInt16)
  nextGlobalSlot : Nat
  deriving DecidableEq

namespace SlotTable

def empty : SlotTable := ⟨[], 0⟩

def globalSlotFor (t : SlotTable) (name : CString) : Option (UInt16 × SlotTable) :=
  match lookup t.globalSlots name with
  | some slot => some (slot, t)
  | none =>
      if t.nextGlobalSlot > 65535 then none
      else
        let slot := UInt16.ofNat t.nextGlobalSlot
        some (slot, ⟨t.globalSlots ++ [(name, slot)], t.nextGlobalSlot + 1⟩)

def setGlobalSlot (t : SlotTable) (name : CString) (slot : UInt16) : SlotTable :=
  ⟨assign t.globalSlots name slot,
    if slot.toNat ≥ t.nextGlobalSlot then slot.toNat + 1 else t.nextGlobalSlot⟩

/-- The names of a compilation, one after the other. It ends where there is no slot left. -/
def requestAll (t : SlotTable) :
    List CString → Option (List (CString × UInt16)) × SlotTable
  | [] => (some [], t)
  | name :: rest =>
      match t.globalSlotFor name with
      | none => (none, t)
      | some (slot, t) =>
          match requestAll t rest with
          | (some operands, t) => (some ((name, slot) :: operands), t)
          | (none, t) => (none, t)

/-- `result.globalSlotNames`. -/
def slotNames (t : SlotTable) : List CString :=
  t.globalSlots.foldl (fun names entry => names.set entry.2.toNat entry.1)
    (List.replicate t.nextGlobalSlot [])

end SlotTable

/-- The table is what the compiler's own request works on. -/
theorem globalSlotFor_run (s : BytecodeCompiler) (name : CString) :
    BytecodeCompiler.globalSlotFor name s =
      match SlotTable.globalSlotFor ⟨s.globalSlots, s.nextGlobalSlot⟩ name with
      | some (slot, t) =>
          .ok (slot.toNat,
            { s with globalSlots := t.globalSlots, nextGlobalSlot := t.nextGlobalSlot })
      | none =>
          .error (.errorAt (lit "Too many global variables (max 65535)") s.currentFile
            s.currentLine) := by
  unfold BytecodeCompiler.globalSlotFor SlotTable.globalSlotFor
  rw [BytecodeCompiler.run_bind (BytecodeCompiler.get_run s)]
  cases hslot : lookup s.globalSlots name with
  | some slot => rfl
  | none =>
      by_cases hfull : s.nextGlobalSlot > 65535
      · simp only [hfull, if_true]
        rfl
      · simp only [hfull, if_false]
        rfl

/-! ### The values of the virtual machine -/

/-- The members of the environment: the table that builtins are defined in, and the names of the slots
with their values. -/
structure Environment where
  vars : List (CString × Value)
  slots : List (CString × Value)

namespace Environment

/-- The value a slot starts with: the builtin of its name, if there is one. -/
def seed (env : Environment) (name : CString) (value : Value) : Value :=
  (lookup env.vars name).getD value

def initGlobalSlots (env : Environment) (slotNames : List CString) : Environment :=
  { env with
    slots := slotNames.mapIdx fun i name =>
      let value := ((env.slots[i]?).map Prod.snd).getD .nil
      (name, if name ≠ [] then env.seed name value else value) }

def growGlobalSlots (env : Environment) (newNames : List CString) : Environment :=
  let resized := env.slots ++ List.replicate (newNames.length - env.slots.length) ([], .nil)
  { env with
    slots := resized.mapIdx fun i slot =>
      match newNames[i]? with
      | none => slot
      | some name =>
          if slot.1 = [] ∧ name ≠ [] then (name, env.seed name slot.2) else slot }

/-- The table `eval` compiles with. -/
def slotTable (env : Environment) : SlotTable :=
  env.slots.zipIdx.foldl
    (fun t slot =>
      if slot.1.1 ≠ [] then t.setGlobalSlot slot.1.1 (UInt16.ofNat slot.2) else t)
    .empty

end Environment

/-! ### Compilations and runs -/

/-- A virtual machine with the compiler of its prompt. `operands` are the names and slots of the code
that was compiled without an error. -/
structure Machine where
  env : Environment
  compiler : SlotTable
  operands : List (CString × UInt16)
  interactive : Bool
  running : Bool

/-- What happens. `names` are the names a compilation asks slots for, `fails` says that it ends with an
error of another kind. -/
inductive Event where
  | main (names : List CString) (fails : Bool)
  | line (names : List CString) (fails : Bool)
  | eval (names : List CString) (fails : Bool)
  | store (name : CString) (slot : UInt16) (value : Value)
  | define (name : CString) (value : Value)
  | finish
  deriving DecidableEq

namespace Machine

/-- A virtual machine with its builtins, before anything is compiled. -/
def fresh (vars : List (CString × Value)) (interactive : Bool) : Machine :=
  { env := { vars, slots := [] }, compiler := .empty, operands := [], interactive,
    running := false }

/-- The command line: compile, initialise the slots, execute. An error ends the process. -/
def main (m : Machine) (names : List CString) (fails : Bool) : Machine :=
  match SlotTable.empty.requestAll names, fails with
  | (some operands, t), false =>
      { m with
        env := m.env.initGlobalSlots t.slotNames, operands := m.operands ++ operands,
        running := true }
  | _, _ => m

/-- A line of the prompt: compile, grow the slots, execute. -/
def line (m : Machine) (names : List CString) (fails : Bool) : Machine :=
  match m.compiler.requestAll names, fails with
  | (some operands, t), false =>
      { m with
        env := m.env.growGlobalSlots t.slotNames, compiler := t,
        operands := m.operands ++ operands, running := true }
  | (_, t), _ => { m with compiler := t }

/-- `eval`. -/
def eval (m : Machine) (names : List CString) (fails : Bool) : Machine :=
  match m.env.slotTable.requestAll names, fails with
  | (some operands, t), false =>
      { m with env := m.env.growGlobalSlots t.slotNames, operands := m.operands ++ operands }
  | _, _ => m

/-- `STORE_GLOBAL_SLOT`. -/
def store (m : Machine) (slot : UInt16) (value : Value) : Machine :=
  { m with
    env.slots := m.env.slots.modify slot.toNat fun entry => (entry.1, value) }

/-- One step. A file is run once and a prompt reads lines; code stores into the slots of its operands
and evaluates while it runs, and a run ends by returning or by an error. No global has an empty name. -/
inductive step : Event → Machine → Machine → Prop
  | main {m : Machine} {names fails} (hfile : m.interactive = false) (hfirst : m.env.slots = [])
      (hidle : m.running = false) (hnames : [] ∉ names) :
      step (.main names fails) m (m.main names fails)
  | line {m : Machine} {names fails} (hprompt : m.interactive = true) (hidle : m.running = false)
      (hnames : [] ∉ names) :
      step (.line names fails) m (m.line names fails)
  | eval {m : Machine} {names fails} (hrunning : m.running = true) (hnames : [] ∉ names) :
      step (.eval names fails) m (m.eval names fails)
  | store {m : Machine} {name slot value} (hrunning : m.running = true)
      (hoperand : (name, slot) ∈ m.operands) :
      step (.store name slot value) m (m.store slot value)
  | define {m : Machine} {name value} :
      step (.define name value) m
        { m with env.vars := assign m.env.vars name value }
  | finish {m : Machine} (hrunning : m.running = true) :
      step .finish m { m with running := false }

/-- A name has a slot in the table of the prompt, in the virtual machine, or in compiled code. -/
def HasSlot (m : Machine) (name : CString) (i : Nat) : Prop :=
  (∃ slot, (name, slot) ∈ m.compiler.globalSlots ∧ slot.toNat = i) ∨
    (∃ value, m.env.slots[i]? = some (name, value)) ∨
    ∃ slot, (name, slot) ∈ m.operands ∧ slot.toNat = i

/-- Every name has one slot and every slot one name, and the slots of compiled code exist. -/
structure Stable (m : Machine) : Prop where
  one : ∀ name i j, m.HasSlot name i → m.HasSlot name j → i = j
  apart : ∀ name other i, m.HasSlot name i → m.HasSlot other i → name = other
  room : ∀ name slot, (name, slot) ∈ m.operands → slot.toNat < m.env.slots.length

/-- A step keeps the slots with their names, and their values unless it stores into one. -/
def Keeps (e : Event) (m m' : Machine) : Prop :=
  (∀ name i, m.HasSlot name i → m'.HasSlot name i) ∧
    ∀ (i : Nat) entry, m.env.slots[i]? = some entry →
      m'.env.slots[i]? = some entry ∨
        ∃ name slot value, e = .store name slot value ∧ slot.toNat = i ∧
          m'.env.slots[i]? = some (entry.1, value)

/-- The names that are not known yet, in the order in which they come. -/
def newNames (known : List CString) : List CString → List CString
  | [] => []
  | name :: rest =>
      if name ∈ known then newNames known rest else name :: newNames (known ++ [name]) rest

/-- The names the prompt knows, in the order of their slots. -/
def knownNames (m : Machine) : List CString := m.compiler.globalSlots.map Prod.fst

/-- The names that a line of the prompt uses for the first time are those that the virtual machine has
from the next slot of the prompt on, as far as it has slots. -/
def Agrees (m : Machine) : Event → Prop
  | .line names _ =>
      ∀ (i : Nat) name entry, (m.knownNames ++ newNames m.knownNames names)[i]? = some name →
        m.env.slots[i]? = some entry → name = entry.1
  | _ => True

end Machine

end GlobalSlots

end EZLanguage
