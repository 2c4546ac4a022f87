import EZLanguage.Compiler.CompileExpr
import EZLanguage.Support.PartialCorrectness
import EZLanguage.VM.Property

/-!
# Writes of fields

A field is assigned by `object.field = value`, by its compound forms, and by a destructuring that has
`object.field` among its targets. The first two are compiled to the instruction that validates, audits and
invalidates; the last is compiled to the one that only stores.
-/

namespace EZLanguage

open PartialCorrectness BytecodeCompiler

/-! ### Validation rules -/

/-- What the rules use of the library. -/
structure Matcher where
  fpu : FloatUnit
  /-- `std::regex_match` of a text and a pattern; false where the pattern is none. -/
  regexMatch : CString → CString → Bool

/-- What a rule says of a value. It is an exception where the rule reads a number or a text that is not
there. -/
inductive Verdict where
  | passed | failed | thrown
  deriving DecidableEq

def Verdict.ofBool (ok : Bool) : Verdict := if ok then .passed else .failed

namespace FieldValidator

variable (m : Matcher)

/-- `asFloat`. -/
def asFloat : Value → Option UInt64
  | .int i => some (m.fpu.ofInt i)
  | .float d => some d
  | _ => none

/-- `asInteger`. -/
def asInteger : Value → Option Int64
  | .int i => some i
  | .float d => some (m.fpu.toInt d)
  | _ => none

/-- A rule about the length of a text. -/
def checkLength (ok : Int64 → Int64 → Bool) (param : Value) : Value → Verdict
  | .string s =>
      match asInteger m param with
      | some n => .ofBool (ok (Int64.ofNat s.length) n)
      | none => .thrown
  | _ => .failed

/-- A rule about a number. -/
def checkNumber (ok : UInt64 → UInt64 → Bool) (param value : Value) : Verdict :=
  match asFloat m value, asFloat m param with
  | some x, some bound => .ofBool (ok x bound)
  | _, _ => .thrown

/-- An `@` with something before it, and a dot somewhere behind it. -/
def isEmail (s : CString) : Bool :=
  match s.findIdx? (· == 0x40) with
  | some at_ => 0 < at_ && at_ + 1 < s.length && (s.drop at_).contains 0x2e
  | none => false

def check (v : FieldValidator) (value : Value) : Verdict :=
  if v.rule = lit "notnull" then .ofBool (!value.isNil)
  else if v.rule = lit "minlen" then checkLength m (fun n bound => bound ≤ n) v.param value
  else if v.rule = lit "maxlen" then checkLength m (fun n bound => n ≤ bound) v.param value
  else if v.rule = lit "min" then checkNumber m (fun x bound => doubleLe bound x) v.param value
  else if v.rule = lit "max" then checkNumber m (fun x bound => doubleLe x bound) v.param value
  else if v.rule = lit "email" then
    match value with
    | .string s => .ofBool (isEmail s)
    | _ => .failed
  else if v.rule = lit "pattern" then
    match value, v.param with
    | .string s, .string pattern => .ofBool (m.regexMatch s pattern)
    | _, _ => .failed
  else .passed

end FieldValidator

namespace Klass

/-- The value passes every rule the class has for the field, where the class validates. -/
def Accepts (m : Matcher) (klass : Klass) (field : CString) (value : Value) : Prop :=
  klass.behaviors.validated = true →
    ∀ v ∈ klass.validators, v.field = field → v.check m value = .passed

/-- The first rule for the field that the value does not pass. -/
def refusing (m : Matcher) (klass : Klass) (field : CString) (value : Value) : Option FieldValidator :=
  klass.validators.find? fun v => v.field == field && v.check m value != .passed

theorem refusing_eq_none_iff {m : Matcher} {klass : Klass} {field : CString} {value : Value} :
    klass.refusing m field value = none ↔
      ∀ v ∈ klass.validators, v.field = field → v.check m value = .passed := by
  unfold refusing
  rw [List.find?_eq_none]
  refine forall₂_congr fun v _ => ?_
  by_cases hfield : v.field = field
  · simp [hfield]
  · simp [hfield]

end Klass

/-- The runtime that validates by the rules. An exception of a rule stands for a refusal with its
message, since it ends the handler as well before anything is stored. -/
def Runtime.validating (rt : Runtime) (m : Matcher) : Runtime :=
  { rt with
    validate := fun klass field value => (klass.refusing m field value).map FieldValidator.message }

/-! ### Statements that write fields -/

/-- The statements that assign a field. A destructuring has been evaluated to a variable by then. -/
inductive FieldWrite where
  | set (object value : Expr) (field : CString) (compoundOp : Option CompoundOp)
  | destructured (object : Expr) (field : CString) (isOptional : Bool) (line column : Nat)
      (filename : CString) (tempVar i : Nat)

namespace FieldWrite

def isDestructured : FieldWrite → Bool
  | set _ _ _ _ => false
  | destructured _ _ _ _ _ _ _ _ => true

def compile (below : Below) : FieldWrite → CompileM Unit
  | set object value field compoundOp => compileSet below object field value compoundOp
  | destructured object field isOptional line column filename tempVar i =>
      compileDestructureTarget below tempVar i
        (.mk line column filename (.PropertyAccessExpr object field isOptional))

/-- The instruction that stores, and what follows it. -/
def opCodes (w : FieldWrite) : List OpCode :=
  if w.isDestructured then [.STORE_PROPERTY, .POP] else [.INTERCEPTED_STORE_PROPERTY]

/-- The handler of the instruction that stores. -/
def store (rt : Runtime) (ctx : Ctx) (w : FieldWrite) : CString → Nat → Local → Proc Exit :=
  if w.isDestructured then Handler.STORE_PROPERTY rt ctx
  else Handler.INTERCEPTED_STORE_PROPERTY rt ctx

end FieldWrite

/-- The code of the current function ends with instructions of these opcodes. -/
def BytecodeCompiler.EndsWith (ops : List OpCode) (s : BytecodeCompiler) : Prop :=
  ops <:+ s.current.code.map Emitted.op

section Compiling

variable {below : Below} {P : BytecodeCompiler → Prop}

private theorem Triple.nothing {α : Type} {m : CompileM α} : Triple P m fun _ _ => True :=
  fun _ _ _ _ _ => trivial

theorem emit_endsWith {op : OpCode} {operands : List Operand} {ops : List OpCode} :
    Triple (EndsWith ops) (emit op operands) fun _ => EndsWith (ops ++ [op]) := by
  refine .modify fun s hs => ?_
  obtain ⟨before, hbefore⟩ := hs
  refine ⟨before, ?_⟩
  rw [← List.append_assoc, hbefore, List.map_append]
  rfl

theorem emit_endsWith_last {op : OpCode} {operands : List Operand} :
    Triple P (emit op operands) fun _ => EndsWith [op] :=
  emit_endsWith.pre fun _ _ => List.nil_suffix

/-- Each of the statements ends in its own instruction. -/
theorem FieldWrite.compile_endsWith (w : FieldWrite) :
    Triple P (w.compile below) fun _ => EndsWith w.opCodes := by
  cases w with
  | set object value field compoundOp =>
      refine .bind Triple.nothing fun _ => .bind Triple.nothing fun n => ?_
      exact .bind Triple.nothing fun _ => .bind Triple.nothing fun _ => emit_endsWith_last
  | destructured object field isOptional line column filename tempVar i =>
      refine .bind Triple.nothing fun _ => .bind Triple.nothing fun _ => ?_
      refine .bind Triple.nothing fun n => .bind Triple.nothing fun icIdx => ?_
      exact .bind emit_endsWith_last fun _ => emit_endsWith

end Compiling

/-! ### What a write has to do -/

namespace Local

/-- The class of an instance. -/
def klassAt (l : Local) (r : Nat) : Klass := l.shared.classes (l.shared.instances r).klass

/-- A cached result that a write of the running method leaves alone. -/
def exempts (l : Local) (r : Nat) (cacheKey : CString) : Bool :=
  l.function.isMethod && l.function.hasCached && l.getLocal 0 == .inst r &&
    Handler.ownCacheKey l.function.name cacheKey

/-- What the audit log gets for a write. -/
def auditEntry (l : Local) (r : Nat) (field : CString) (value : Value) : AuditEntry :=
  { field, oldValue := l.shared.getProperty r field, newValue := value, via := l.function.name }

end Local

/-- The write of a field has been checked and recorded. -/
structure Recorded (m : Matcher) (before after : Local) (r : Nat) (field : CString) (value : Value) :
    Prop where
  accepted : (before.klassAt r).Accepts m field value
  audited : (after.shared.instances r).auditLog = (before.shared.instances r).auditLog ++
    if (before.klassAt r).behaviors.audited then [before.auditEntry r field value] else []
  invalidated : (before.klassAt r).behaviors.hasCached = true →
    (after.shared.instances r).cacheStore = (before.shared.instances r).cacheStore.map fun entry =>
      (entry.1, { entry.2 with dirty := entry.2.dirty || !before.exempts r entry.1 })

/-- A write that goes on has been recorded, and one that is rejected has left the instance alone. -/
def Covered (m : Matcher) (before : Local) (r : Nat) (field : CString) (value : Value) : Exit → Prop
  | .dispatch after => Recorded m before after r field value
  | .raiseFault after | .leave after => after.shared.instances r = before.shared.instances r
  | _ => False

/-- The hook of the class is called in place of the write, or the write is covered. -/
def Covers (rt : Runtime) (ctx : Ctx) (m : Matcher) (before : Local) (r : Nat) (field : CString)
    (value : Value) (p : Proc Exit) : Prop :=
  let hook := before.shared.findSetattrHook r field
  if hook.isCallable then p = Handler.callSetattr rt ctx before r hook field value
  else ∃ exit, p = pure exit ∧ Covered m before r field value exit

/-- There is nothing to do for a write but to store the value, or it is refused before that. -/
def Harmless (m : Matcher) (before : Local) (r : Nat) (field : CString) (icIdx : Nat) (value : Value) :
    Prop :=
  (before.shared.findSetattrHook r field).isCallable = true ∨
    ((before.icEntry icIdx).shape ≠ some (before.shared.instances r).shape ∧
      before.hidden (before.shared.instances r).klass field = true) ∨
    ((before.klassAt r).Accepts m field value ∧ (before.klassAt r).behaviors.audited = false ∧
      ((before.klassAt r).behaviors.hasCached = true →
        ∀ entry ∈ (before.shared.instances r).cacheStore,
          entry.2.dirty = true ∨ before.exempts r entry.1 = true))

/-! ### The instructions -/

/-- `STORE_PROPERTY` on an instance, once its operands are popped. -/
def Handler.storeOnInstance (rt : Runtime) (ctx : Ctx) (l : Local) (r : Nat) (field : CString)
    (icIdx : Nat) (value : Value) : Proc Exit :=
  let hook := l.shared.findSetattrHook r field
  if hook.isCallable then callSetattr rt ctx l r hook field value
  else if (l.icEntry icIdx).shape = some (l.shared.instances r).shape then
    return .dispatch ((storeCached l r icIdx value).push value)
  else if l.hidden (l.shared.instances r).klass field then
    return .leave (l.hiddenError (l.shared.instances r).klass field)
  else return .dispatch ((storeField l r field icIdx value).push value)

/-- `INTERCEPTED_STORE_PROPERTY` on an instance, once its operands are popped. -/
def Handler.interceptedStoreOnInstance (rt : Runtime) (ctx : Ctx) (l : Local) (r : Nat)
    (field : CString) (icIdx : Nat) (value : Value) : Proc Exit :=
  let hook := l.shared.findSetattrHook r field
  if hook.isCallable then callSetattr rt ctx l r hook field value
  else if ¬(l.klassAt r).behaviors.any then
    if l.hidden (l.shared.instances r).klass field then
      return .leave (l.hiddenError (l.shared.instances r).klass field)
    else if (l.icEntry icIdx).shape = some (l.shared.instances r).shape then
      return .dispatch ((storeCached l r icIdx value).push value)
    else return .dispatch ((storeField l r field icIdx value).push value)
  else
    match failedValidation rt (l.klassAt r) field value with
    | some message =>
        return .raiseFault (l.runtimeError
          (lit "ValidationError: " ++ message ++ lit " (field '" ++ field ++ lit "')"))
    | none =>
        if l.hidden (l.shared.instances r).klass field then
          return .leave (l.hiddenError (l.shared.instances r).klass field)
        else
          return .dispatch ((recordWrite (l.withShared (l.shared.setProperty r field value)) r field
            (l.shared.getProperty r field) value).push value)

section Stores

variable {rt : Runtime} {ctx : Ctx} {m : Matcher} {l : Local} {r icIdx : Nat} {field : CString}
  {value : Value}

/-- Storing a field changes neither the log nor the cached results of an instance. -/
theorem setProperty_records (s : Shared) (r : Nat) (field : CString) (value : Value) :
    ((s.setProperty r field value).instances r).klass = (s.instances r).klass ∧
      ((s.setProperty r field value).instances r).auditLog = (s.instances r).auditLog ∧
      ((s.setProperty r field value).instances r).cacheStore = (s.instances r).cacheStore ∧
      (s.setProperty r field value).classes = s.classes ∧
      (s.setProperty r field value).functions = s.functions ∧
      (s.setProperty r field value).cells = s.cells := by
  unfold Shared.setProperty
  dsimp only
  split
  · simp [Shared.updateInstance]
  · simp [Shared.updateInstance]

theorem cacheShape_instances (l : Local) (r : Nat) (field : CString) (icIdx : Nat) :
    (Handler.cacheShape l r field icIdx).shared.instances = l.shared.instances := by
  unfold Handler.cacheShape
  dsimp only
  split
  · rfl
  · rfl

/-- Storing in either way changes neither the log nor the cached results. -/
theorem storeField_records :
    ((Handler.storeField l r field icIdx value).shared.instances r).auditLog =
        (l.shared.instances r).auditLog ∧
      ((Handler.storeField l r field icIdx value).shared.instances r).cacheStore =
        (l.shared.instances r).cacheStore := by
  obtain ⟨-, haudit, hcache, -⟩ := setProperty_records l.shared r field value
  unfold Handler.storeField
  rw [cacheShape_instances]
  exact ⟨haudit, hcache⟩

theorem storeCached_records :
    ((Handler.storeCached l r icIdx value).shared.instances r).auditLog =
        (l.shared.instances r).auditLog ∧
      ((Handler.storeCached l r icIdx value).shared.instances r).cacheStore =
        (l.shared.instances r).cacheStore := by
  simp [Handler.storeCached, Local.withShared, Shared.updateInstance]

/-- Marking the cached results changes none of them, where each is dirty or exempt already. -/
theorem invalidated_eq_self_iff {store : List (CString × CachedResult)} :
    store = (store.map fun entry =>
        (entry.1, { entry.2 with dirty := entry.2.dirty || !l.exempts r entry.1 })) ↔
      ∀ entry ∈ store, entry.2.dirty = true ∨ l.exempts r entry.1 = true := by
  induction store with
  | nil => simp
  | cons entry store ih =>
      rw [List.map_cons, List.cons.injEq, ih, List.forall_mem_cons]
      refine and_congr_left fun _ => ?_
      obtain ⟨key, result, dirty⟩ := entry
      cases dirty <;> cases l.exempts r key <;> simp

/-- A write that only stores is recorded where there is nothing to record. -/
theorem recorded_iff_of_stored {after : Local}
    (hstored : (after.shared.instances r).auditLog = (l.shared.instances r).auditLog ∧
      (after.shared.instances r).cacheStore = (l.shared.instances r).cacheStore) :
    Recorded m l after r field value ↔
      (l.klassAt r).Accepts m field value ∧ (l.klassAt r).behaviors.audited = false ∧
        ((l.klassAt r).behaviors.hasCached = true →
          ∀ entry ∈ (l.shared.instances r).cacheStore,
            entry.2.dirty = true ∨ l.exempts r entry.1 = true) := by
  obtain ⟨haudit, hcache⟩ := hstored
  constructor
  · rintro ⟨haccepted, haudited, hinvalidated⟩
    refine ⟨haccepted, ?_, fun hcached => ?_⟩
    · rw [haudit] at haudited
      cases hcase : (l.klassAt r).behaviors.audited with
      | false => rfl
      | true => simp [hcase] at haudited
    · rw [← invalidated_eq_self_iff, ← hinvalidated hcached, hcache]
  · rintro ⟨haccepted, haudited, hinvalidated⟩
    refine ⟨haccepted, ?_, fun hcached => ?_⟩
    · rw [haudit, haudited]
      simp
    · rw [hcache]
      exact invalidated_eq_self_iff.mpr (hinvalidated hcached)

/-- What the validating instruction records. -/
theorem recordWrite_instances (l : Local) (r : Nat) (field : CString) (oldValue newValue : Value) :
    ((Handler.recordWrite l r field oldValue newValue).shared.instances r).auditLog =
        (if (l.klassAt r).behaviors.audited then (l.shared.instances r).auditLog ++
          [{ field, oldValue, newValue, via := l.function.name }]
        else (l.shared.instances r).auditLog) ∧
      ((Handler.recordWrite l r field oldValue newValue).shared.instances r).cacheStore =
        (if (l.klassAt r).behaviors.hasCached then
          Handler.dirtyCache l r (l.shared.instances r).cacheStore
        else (l.shared.instances r).cacheStore) := by
  simp only [Handler.recordWrite, Local.withShared, Shared.updateInstance, Function.update_self]
  exact ⟨rfl, rfl⟩

theorem dirtyCache_eq (l : Local) (r : Nat) (store : List (CString × CachedResult)) :
    Handler.dirtyCache l r store = store.map fun entry =>
      (entry.1, { entry.2 with dirty := entry.2.dirty || !l.exempts r entry.1 }) := by
  unfold Handler.dirtyCache
  refine List.map_congr_left fun entry _ => ?_
  change (if l.exempts r entry.1 = true then _ else _) = _
  cases l.exempts r entry.1 with
  | true => simp
  | false => simp

/-- What the validating instruction records is what a write has to record. -/
theorem recordWrite_recorded (haccepted : (l.klassAt r).Accepts m field value) :
    Recorded m l (Handler.recordWrite (l.withShared (l.shared.setProperty r field value)) r field
      (l.shared.getProperty r field) value) r field value := by
  obtain ⟨hklass, haudit, hcache, hclasses, hfunctions, hcells⟩ :=
    setProperty_records l.shared r field value
  have hklassAt : (l.withShared (l.shared.setProperty r field value)).klassAt r = l.klassAt r := by
    change (l.shared.setProperty r field value).classes
      ((l.shared.setProperty r field value).instances r).klass = _
    rw [hclasses, hklass]
    rfl
  have hfunction : (l.withShared (l.shared.setProperty r field value)).function = l.function :=
    congrFun hfunctions _
  have hlocal : (l.withShared (l.shared.setProperty r field value)).getLocal 0 = l.getLocal 0 := by
    simp only [Local.getLocal, Local.withShared, hcells]
  have hexempts : (l.withShared (l.shared.setProperty r field value)).exempts r = l.exempts r := by
    funext key
    simp only [Local.exempts, hfunction, hlocal]
  obtain ⟨hlog, hstore⟩ := recordWrite_instances
    (l.withShared (l.shared.setProperty r field value)) r field (l.shared.getProperty r field) value
  rw [hklassAt] at hlog hstore
  change _ = (if _ then ((l.shared.setProperty r field value).instances r).auditLog ++ _
    else ((l.shared.setProperty r field value).instances r).auditLog) at hlog
  change _ = (if _ then Handler.dirtyCache _ r ((l.shared.setProperty r field value).instances r).cacheStore
    else ((l.shared.setProperty r field value).instances r).cacheStore) at hstore
  refine ⟨haccepted, ?_, fun hcached => ?_⟩
  · rw [hlog, haudit, hfunction]
    cases (l.klassAt r).behaviors.audited with
    | true => rfl
    | false => exact (List.append_nil _).symm
  · rw [hstore, if_pos hcached, hcache, dirtyCache_eq, hexempts]

/-- What is recorded does not depend on the operands. -/
theorem Recorded.push {after : Local} (h : Recorded m l after r field value) (v : Value) :
    Recorded m l (after.push v) r field value :=
  ⟨h.accepted, h.audited, h.invalidated⟩

/-- A value no rule refuses is accepted. -/
theorem accepts_of_validated {klass : Klass}
    (h : Handler.failedValidation (rt.validating m) klass field value = none) :
    klass.Accepts m field value := by
  intro hvalidated
  unfold Handler.failedValidation at h
  rw [if_pos hvalidated] at h
  exact Klass.refusing_eq_none_iff.mp (Option.map_eq_none_iff.mp h)

/-- A class without decorators has nothing to record. -/
theorem recorded_of_plain {after : Local} (hplain : (l.klassAt r).behaviors.any = false)
    (hstored : (after.shared.instances r).auditLog = (l.shared.instances r).auditLog ∧
      (after.shared.instances r).cacheStore = (l.shared.instances r).cacheStore) :
    Recorded m l after r field value := by
  simp only [BehaviorFlags.any, Bool.or_eq_false_iff] at hplain
  obtain ⟨⟨⟨⟨haudited, -⟩, -⟩, hvalidated⟩, hcached⟩ := hplain
  refine (recorded_iff_of_stored hstored).mpr ⟨fun h => ?_, haudited, fun h => ?_⟩
  · rw [hvalidated] at h
    cases h
  · rw [hcached] at h
    cases h

/-- The validating instruction covers every write. -/
theorem interceptedStoreOnInstance_covers :
    Covers (rt.validating m) ctx m l r field value
      (Handler.interceptedStoreOnInstance (rt.validating m) ctx l r field icIdx value) := by
  simp only [Covers, Handler.interceptedStoreOnInstance]
  by_cases hhook : (l.shared.findSetattrHook r field).isCallable = true
  · rw [if_pos hhook, if_pos hhook]
  rw [if_neg hhook, if_neg hhook]
  by_cases hany : (l.klassAt r).behaviors.any = true
  · rw [if_neg (not_not.mpr hany)]
    cases hvalid : Handler.failedValidation (rt.validating m) (l.klassAt r) field value with
    | some message => exact ⟨_, rfl, rfl⟩
    | none =>
        by_cases hhidden : l.hidden (l.shared.instances r).klass field = true
        · exact ⟨_, if_pos hhidden, rfl⟩
        · exact ⟨_, if_neg hhidden, (recordWrite_recorded (accepts_of_validated hvalid)).push value⟩
  · rw [if_pos hany]
    have hplain : (l.klassAt r).behaviors.any = false := Bool.eq_false_iff.mpr hany
    by_cases hhidden : l.hidden (l.shared.instances r).klass field = true
    · exact ⟨_, if_pos hhidden, rfl⟩
    rw [if_neg hhidden]
    by_cases hshape : (l.icEntry icIdx).shape = some (l.shared.instances r).shape
    · exact ⟨_, if_pos hshape, (recorded_of_plain hplain storeCached_records).push value⟩
    · exact ⟨_, if_neg hshape, (recorded_of_plain hplain storeField_records).push value⟩

/-- The plain instruction covers the writes that are harmless. -/
theorem storeOnInstance_covers_iff :
    Covers rt ctx m l r field value (Handler.storeOnInstance rt ctx l r field icIdx value) ↔
      Harmless m l r field icIdx value := by
  simp only [Covers, Harmless, Handler.storeOnInstance]
  by_cases hhook : (l.shared.findSetattrHook r field).isCallable = true
  · rw [if_pos hhook, if_pos hhook]
    exact iff_of_true rfl (.inl hhook)
  rw [if_neg hhook, if_neg hhook, or_iff_right hhook]
  by_cases hshape : (l.icEntry icIdx).shape = some (l.shared.instances r).shape
  · rw [if_pos hshape, or_iff_right fun h => h.1 hshape]
    have hstored : Recorded m l (Handler.storeCached l r icIdx value) r field value ↔ _ :=
      recorded_iff_of_stored storeCached_records
    rw [← hstored]
    constructor
    · rintro ⟨exit, hexit, hcovered⟩
      cases hexit
      exact ⟨hcovered.accepted, hcovered.audited, hcovered.invalidated⟩
    · intro hrecorded
      exact ⟨_, rfl, hrecorded.push value⟩
  · rw [if_neg hshape]
    by_cases hhidden : l.hidden (l.shared.instances r).klass field = true
    · rw [if_pos hhidden]
      exact iff_of_true ⟨_, rfl, rfl⟩ (.inl ⟨hshape, hhidden⟩)
    · rw [if_neg hhidden, or_iff_right fun h => hhidden h.2]
      have hstored : Recorded m l (Handler.storeField l r field icIdx value) r field value ↔ _ :=
        recorded_iff_of_stored storeField_records
      rw [← hstored]
      constructor
      · rintro ⟨exit, hexit, hcovered⟩
        cases hexit
        exact ⟨hcovered.accepted, hcovered.audited, hcovered.invalidated⟩
      · intro hrecorded
        exact ⟨_, rfl, hrecorded.push value⟩

end Stores

/-! ### The statements -/

/-- Every statement that assigns a field ends in its instruction, and what that does with an instance is
covered exactly where the statement is no destructuring or has nothing to record. -/
theorem fieldWrites_covered_iff (rt : Runtime) (ctx : Ctx) (m : Matcher) (w : FieldWrite) :
    (∀ (below : Below) (s s' : BytecodeCompiler), w.compile below s = .ok ((), s') →
        EndsWith w.opCodes s') ∧
      ∀ (l : Local) (r : Nat) (field : CString) (icIdx : Nat) (value : Value) (rest : List Value),
        Covers (rt.validating m) ctx m (l.withOps rest) r field value
            (w.store (rt.validating m) ctx field icIdx (l.withOps (value :: .inst r :: rest))) ↔
          (w.isDestructured = true → Harmless m (l.withOps rest) r field icIdx value) := by
  constructor
  · intro below s s' hcompile
    exact (FieldWrite.compile_endsWith (P := fun _ => True) w).run trivial hcompile
  · intro l r field icIdx value rest
    unfold FieldWrite.store
    cases hw : w.isDestructured with
    | false =>
        refine iff_of_true ?_ fun h => nomatch h
        exact interceptedStoreOnInstance_covers
    | true =>
        refine Iff.trans ?_ (forall_prop_of_true rfl).symm
        exact storeOnInstance_covers_iff

/-- The state of a function that has the instance of an audited class at hand. -/
def Local.audited : Local where
  frame := { function := 0, ip := 0, slots := [], ops := [], superCalled := false, closureUpvalues := [] }
  upvalues := []
  shared := .start (.ofProgram [] [{ Klass.ofMethods [] [] with behaviors := { audited := true } }] [])

/-- A destructuring into a field of an audited instance leaves no entry in its log. -/
theorem fieldWrites_not_covered :
    ¬ ∀ (rt : Runtime) (ctx : Ctx) (m : Matcher) (w : FieldWrite) (l : Local) (r : Nat)
        (field : CString) (icIdx : Nat) (value : Value) (rest : List Value),
      Covers (rt.validating m) ctx m (l.withOps rest) r field value
        (w.store (rt.validating m) ctx field icIdx (l.withOps (value :: .inst r :: rest))) := by
  intro h
  have hcovers := h .bare { frameCount := 1, stackBelow := 0 } { fpu := .bare, regexMatch := fun _ _ => false }
    (.destructured (.mk 1 2 [] (.IdentifierExpr (lit "o"))) (lit "f") false 1 2 [] 0 0) .audited 0
    (lit "f") 0 .nil []
  rcases storeOnInstance_covers_iff.mp hcovers with hhook | ⟨-, hhidden⟩ | ⟨-, haudited, -⟩
  · cases hhook
  · cases hhidden
  · cases haudited

end EZLanguage
