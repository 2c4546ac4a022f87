import EZLanguage.VM.State

/-!
# Faults and the object model

How a fault is recorded, and the property, method and hook lookups over the shared state.
-/

namespace EZLanguage

namespace Shared

/-- A fault is recorded for the dispatch to deliver. The first one recorded is the one kept. -/
def recordFault (s : Shared) (exc : Value) : Shared :=
  { s with
    pendingException := if s.pendingException.isNil then exc else s.pendingException
    running := false }

/-- `runtimeError` while the dispatch is live. -/
def runtimeError (s : Shared) (message : CString) : Shared := s.recordFault (.string message)

/-! ### Classes and instances -/

/-- The classes from `r` upwards, `fuel` of them at most. -/
def ancestorsFrom (s : Shared) : Nat → Nat → List Nat
  | 0, _ => []
  | fuel + 1, r => r :: match (s.classes r).parent with
    | some p => s.ancestorsFrom fuel p
    | none => []

/-- A class and its ancestors, nearest first. -/
def ancestors (s : Shared) (r : Nat) : List Nat := s.ancestorsFrom (r + 1) r

/-- The first class from `r` upwards that has the method itself. -/
def chainMethod (s : Shared) (r : Nat) (name : CString) : Value :=
  ((s.ancestors r).findSome? fun c => lookup (s.classes c).methods name).getD .nil

/-- `findMethod`: the first method from `r` upwards that is not nil. -/
def findMethod (s : Shared) (r : Nat) (name : CString) : Value :=
  ((s.ancestors r).findSome? fun c =>
    (lookup (s.classes c).methods name).filter fun v => !v.isNil).getD .nil

/-- `findStaticMember`. -/
def findStaticMember (s : Shared) (r : Nat) (name : CString) : Value :=
  ((s.ancestors r).findSome? fun c =>
    (lookup (s.classes c).staticMembers name).filter fun v => !v.isNil).getD .nil

/-- `getStaticMember`, which looks at the class alone. -/
def getStaticMember (s : Shared) (r : Nat) (name : CString) : Value :=
  (lookup (s.classes r).staticMembers name).getD .nil

def hasProperty (s : Shared) (r : Nat) (name : CString) : Bool :=
  ((s.instances r).shape.getOffset name).isSome

/-- `EZInstance::getProperty`. -/
def getProperty (s : Shared) (r : Nat) (name : CString) : Value :=
  if name = lit "__class__" then .klass (s.instances r).klass
  else
    match (s.instances r).shape.getOffset name with
    | some offset => ((s.instances r).propertyValues[offset]?).getD .nil
    | none => s.chainMethod (s.instances r).klass name

def updateInstance (s : Shared) (r : Nat) (i : Inst) : Shared :=
  { s with instances := Function.update s.instances r i }

/-- `EZInstance::setProperty`. -/
def setProperty (s : Shared) (r : Nat) (name : CString) (value : Value) : Shared :=
  let i := s.instances r
  match i.shape.getOffset name with
  | some offset => s.updateInstance r { i with propertyValues := i.propertyValues.set offset value }
  | none =>
      s.updateInstance r
        { i with shape := i.shape.transition name, propertyValues := i.propertyValues ++ [value] }

/-- `std::make_shared<EZInstance>(klass)`. -/
def newInstance (s : Shared) (klass : Nat) : Nat × Shared :=
  (s.next,
    { s with
      next := s.next + 1
      instances := Function.update s.instances s.next
        { klass := klass, shape := { root := klass, names := [] }, propertyValues := [] } })

def newArray (s : Shared) (elements : List Value) : Nat × Shared :=
  (s.next,
    { s with next := s.next + 1, arrays := Function.update s.arrays s.next elements })

def newCell (s : Shared) (v : Value) : Nat × Shared :=
  (s.next, { s with next := s.next + 1, cells := Function.update s.cells s.next v })

def newClosure (s : Shared) (function : Nat) (upvalues : List (Option Nat)) : Nat × Shared :=
  (s.next,
    { s with
      next := s.next + 1
      closures := Function.update s.closures s.next { function, upvalues } })

/-- `globalEnv->get(name)`. -/
def getGlobal (s : Shared) (name : CString) : Value := (lookup s.globalVariables name).getD .nil

/-- `throwException` while the dispatch is live: an instance of the class, or a plain runtime error
where the name is not a class. -/
def throwException (s : Shared) (className message : CString) : Shared :=
  match s.getGlobal className with
  | .klass k =>
      let made := s.newInstance k
      (made.2.setProperty made.1 (lit "message") (.string message)).recordFault (.inst made.1)
  | _ => s.runtimeError message

theorem throwException_running (s : Shared) (className message : CString) :
    (s.throwException className message).running = false := by
  unfold throwException
  split <;> rfl

/-- `findGetattrHook`. -/
def findGetattrHook (s : Shared) (obj : Value) (name : CString) : Value :=
  if name = lit "__getattr__" ∨ name = lit "__setattr__" then .nil
  else
    match obj with
    | .inst r =>
        let k := (s.instances r).klass
        if (s.classes k).hasGetattrHook then s.findMethod k (lit "__getattr__") else .nil
    | .klass k =>
        if (s.classes k).hasGetattrHook then s.findStaticMember k (lit "__getattr__") else .nil
    | _ => .nil

/-- `findSetattrHook`. -/
def findSetattrHook (s : Shared) (r : Nat) (name : CString) : Value :=
  let k := (s.instances r).klass
  if ¬(s.classes k).hasSetattrHook then .nil
  else if name = lit "__getattr__" ∨ name = lit "__setattr__" then .nil
  else s.findMethod k (lit "__setattr__")

/-- `ezInstanceNames`. -/
def instanceNames (s : Shared) (r : Nat) : List CString :=
  (s.instances r).shape.names ++
    (s.ancestors (s.instances r).klass).flatMap fun c => (s.classes c).methods.map Prod.fst

end Shared

namespace Local

/-- Whether `CHECK_VISIBILITY` refuses the access: the member is hidden and the running function
belongs to none of the class's ancestors. -/
def hidden (l : Local) (klass : Nat) (propName : CString) : Bool :=
  lookup (l.shared.classes klass).visibility propName == some false &&
    !(!l.function.className.isEmpty &&
      (l.shared.ancestors klass).any fun c => (l.shared.classes c).name == l.function.className)

/-- The error of `CHECK_VISIBILITY`. -/
def hiddenError (l : Local) (klass : Nat) (propName : CString) : Local :=
  l.withShared (l.shared.runtimeError
    (lit "Cannot access hidden member '" ++ propName ++ lit "' of model '" ++
      (l.shared.classes klass).name ++ lit "'."))

def runtimeError (l : Local) (message : CString) : Local :=
  l.withShared (l.shared.runtimeError message)

def throwException (l : Local) (className message : CString) : Local :=
  l.withShared (l.shared.throwException className message)

/-- The inline cache of the running instruction. -/
def icEntry (l : Local) (icIdx : Nat) : ICCacheEntry :=
  (l.function.icEntries[icIdx]?).getD ICCacheEntry.empty

def setIC (l : Local) (icIdx : Nat) (entry : ICCacheEntry) : Local :=
  let f := l.function
  l.withShared
    { l.shared with
      functions := Function.update l.shared.functions l.frame.function
        { f with icEntries := f.icEntries.set icIdx entry } }

@[simp] theorem hidden_withOps (l : Local) (ops : List Value) (klass : Nat) (propName : CString) :
    (l.withOps ops).hidden klass propName = l.hidden klass propName := rfl

@[simp] theorem icEntry_withOps (l : Local) (ops : List Value) (icIdx : Nat) :
    (l.withOps ops).icEntry icIdx = l.icEntry icIdx := rfl

end Local

end EZLanguage
