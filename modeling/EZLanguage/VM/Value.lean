import EZLanguage.Bytecode.Chunk

/-!
# Values and the heap

Values as the VM passes them around, the objects behind them and the lookups of the object model.
An object is named by a number. A class is made after its parent, so a walk up the parents of class
`r` passes through fewer than `r + 1` classes.
-/

namespace EZLanguage

/-- `Value`. The three representations of a string are one here, and `other` stands for the kinds no
handler of the VM distinguishes (buffers, mutexes, channels, atomics). -/
inductive Value where
  | nil
  | bool (b : Bool)
  | int (i : Int64)
  | float (bits : UInt64)
  | string (s : CString)
  | array (r : Nat)
  | tuple (r : Nat)
  | dictionary (r : Nat)
  | function (r : Nat)
  | nativeFunction (id : Nat)
  | klass (r : Nat)
  | inst (r : Nat)
  | boundMethod (receiver method : Value)
  | closure (r : Nat)
  | super (instRef parentKlass : Nat)
  | future (r : Nat)
  | interface (r : Nat)
  | other (kind : CString) (r : Nat)
  deriving DecidableEq, Inhabited

namespace Value

def isNil : Value → Bool
  | nil => true
  | _ => false

def isCallable : Value → Bool
  | function _ | nativeFunction _ | klass _ | boundMethod _ _ | closure _ => true
  | _ => false

/-- The kinds a declared method can have, which a property read binds to its receiver. -/
def isMethodKind : Value → Bool
  | function _ | closure _ | nativeFunction _ => true
  | _ => false

def isTruthy : Value → Bool
  | nil => false
  | bool b => b
  | _ => true

def isNumber : Value → Bool
  | int _ | float _ => true
  | _ => false

def isString : Value → Bool
  | string _ => true
  | _ => false

def typeName : Value → CString
  | nil => lit "nil"
  | bool _ => lit "bool"
  | int _ => lit "integer"
  | float _ => lit "float"
  | string _ => lit "string"
  | array _ => lit "array"
  | tuple _ => lit "tuple"
  | function _ | nativeFunction _ | boundMethod _ _ | closure _ => lit "function"
  | klass _ => lit "model"
  | inst _ => lit "instance"
  | dictionary _ => lit "dictionary"
  | future _ => lit "future"
  | super _ _ => lit "super"
  | interface _ => lit "interface"
  | other kind _ => kind

@[simp] theorem isNil_nil : isNil nil = true := rfl

theorem isNil_iff {v : Value} : v.isNil = true ↔ v = nil := by
  cases v <;> simp [isNil]

end Value

/-! ### Name tables -/

/-- `map.find(name)`. -/
def lookup {α : Type} (table : List (CString × α)) (name : CString) : Option α :=
  (table.find? fun entry => entry.1 == name).map Prod.snd

/-- `map[name] = value`. -/
def assign {α : Type} (table : List (CString × α)) (name : CString) (value : α) :
    List (CString × α) :=
  if (lookup table name).isSome then
    table.map fun entry => if entry.1 == name then (name, value) else entry
  else table ++ [(name, value)]

theorem lookup_mem {α : Type} {table : List (CString × α)} {name : CString} {value : α}
    (h : lookup table name = some value) : ∃ entry ∈ table, entry.2 = value := by
  obtain ⟨entry, hfind, rfl⟩ := Option.map_eq_some_iff.mp h
  exact ⟨entry, List.mem_of_find?_eq_some hfind, rfl⟩

theorem lookup_cons {α : Type} (entry : CString × α) (table : List (CString × α)) (name : CString) :
    lookup (entry :: table) name = if entry.1 = name then some entry.2 else lookup table name := by
  by_cases h : entry.1 = name
  · simp only [lookup, List.find?_cons, h, beq_self_eq_true, if_true, Option.map_some]
  · simp only [lookup, List.find?_cons, beq_eq_false_iff_ne.mpr h, if_neg h]

theorem lookup_append {α : Type} (table : List (CString × α)) (name name' : CString) (value : α) :
    lookup (table ++ [(name, value)]) name' =
      (lookup table name').or (if name = name' then some value else none) := by
  induction table with
  | nil => rw [List.nil_append, lookup_cons]; rfl
  | cons entry table ih =>
      rw [List.cons_append, lookup_cons, lookup_cons, ih]
      by_cases h : entry.1 = name'
      · rw [if_pos h, if_pos h, Option.some_or]
      · rw [if_neg h, if_neg h]

theorem lookup_replace {α : Type} (table : List (CString × α)) (name name' : CString) (value : α) :
    lookup (table.map fun entry => if entry.1 == name then (name, value) else entry) name' =
      (lookup table name').map fun old => if name = name' then value else old := by
  induction table with
  | nil => rfl
  | cons entry table ih =>
      rw [List.map_cons, lookup_cons, lookup_cons, ih]
      by_cases hentry : entry.1 = name
      · rw [if_pos (beq_iff_eq.mpr hentry), hentry]
        by_cases h : name = name'
        · rw [if_pos h, if_pos h, Option.map_some, if_pos h]
        · rw [if_neg h, if_neg h]
      · simp only [beq_eq_false_iff_ne.mpr hentry, Bool.false_eq_true, if_false]
        by_cases h : entry.1 = name'
        · rw [if_pos h, if_pos h, Option.map_some, if_neg fun hname => hentry (h.trans hname.symm)]
        · rw [if_neg h, if_neg h]

theorem lookup_assign {α : Type} (table : List (CString × α)) (name name' : CString) (value : α) :
    lookup (assign table name value) name' =
      if name = name' then some value else lookup table name' := by
  rw [assign]
  by_cases hsome : (lookup table name).isSome = true
  · rw [if_pos hsome, lookup_replace]
    by_cases h : name = name'
    · subst h
      obtain ⟨old, hold⟩ := Option.isSome_iff_exists.mp hsome
      rw [hold, Option.map_some, if_pos rfl, if_pos rfl]
    · simp only [if_neg h, Option.map_id']
  · rw [if_neg hsome, lookup_append]
    by_cases h : name = name'
    · subst h
      rw [Option.not_isSome_iff_eq_none.mp hsome, if_pos rfl, Option.none_or]
    · rw [if_neg h, if_neg h, Option.or_none]

/-! ### Objects -/

/-- `EZShape`: the root it grew from and the properties added since, in order. Transitions are
memoised, so shapes are the same object exactly when they agree in both. -/
structure Shape where
  root : Nat
  names : List CString
  deriving DecidableEq

namespace Shape

def getOffset (shape : Shape) (name : CString) : Option Nat := shape.names.findIdx? (· == name)

def transition (shape : Shape) (name : CString) : Shape :=
  { shape with names := shape.names ++ [name] }

end Shape

/-- `AuditEntry`, less its timestamp. -/
structure AuditEntry where
  field : CString
  oldValue : Value
  newValue : Value
  via : CString

/-- `CachedResult`. Nothing reads its `deps`. -/
structure CachedResult where
  result : Value
  dirty : Bool

/-- `EZInstance`. -/
structure Inst where
  klass : Nat
  shape : Shape
  propertyValues : List Value
  auditLog : List AuditEntry := []
  cacheStore : List (CString × CachedResult) := []

structure BehaviorFlags where
  audited : Bool := false
  snapshot : Bool := false
  persistent : Bool := false
  validated : Bool := false
  hasCached : Bool := false

def BehaviorFlags.any (b : BehaviorFlags) : Bool :=
  b.audited || b.snapshot || b.persistent || b.validated || b.hasCached

/-- A rule of `@validate`: the field it is for, its name, its parameter and its message. -/
structure FieldValidator where
  field : CString
  rule : CString
  param : Value
  message : CString

/-- `EZClass`. `persists` is whether the class is persistent with a path to persist to. -/
structure Klass where
  name : CString
  parent : Option Nat
  interfaces : List CString
  methods : List (CString × Value)
  staticMembers : List (CString × Value)
  visibility : List (CString × Bool)
  hasGetattrHook : Bool
  hasSetattrHook : Bool
  behaviors : BehaviorFlags
  persists : Bool
  validators : List FieldValidator := []

/-- `EZClosure`: the function it runs and the variables it captured. -/
structure Closure where
  function : Nat
  upvalues : List (Option Nat)

/-- `ICCacheEntry`. -/
structure ICCacheEntry where
  shape : Option Shape
  klass : Option Nat
  offset : Nat
  methodValue : Value
  deriving DecidableEq

def ICCacheEntry.empty : ICCacheEntry := { shape := none, klass := none, offset := 0, methodValue := .nil }

end EZLanguage
