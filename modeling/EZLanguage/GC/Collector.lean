import EZLanguage.Bytecode.Chunk
import EZLanguage.Support.FloodFill
import Mathlib.Logic.Function.Basic

/-!
# The cycle collector

A collection runs on a snapshot of the heap: every mutator is stopped. Objects, upvalues and stack slots
are named by their place in the snapshot. A bound method is made of values that exist by then, so the
bound methods are listed newest first and each is named by the number of older ones.

The collector subtracts from the use count of a candidate the references it comes to while it traverses
the candidates. A closure leads it to what an upvalue holds, whoever owns the upvalue and even if that
is a stack slot, and a bound method to its two halves each time a candidate holds it.
-/

namespace EZLanguage

namespace CycleCollector

/-- What a `Value`, or a `shared_ptr` to an object, refers to. -/
inductive Ref where
  | plain
  | object (x : Nat)
  | super (x : Nat)
  | boundMethod (b : Nat)
  deriving DecidableEq

/-- `EZBoundMethod`. -/
structure BoundMethod where
  receiver : Ref
  method : Ref

/-- `UpvalueObj`: `location` points to a stack slot or to `closed`. -/
inductive Upvalue where
  | onStack (slot : Nat)
  | closed (v : Ref)

/-- The objects the collector is told about, with the references they hold. The environments of an
`EZFunction` are not among them. -/
inductive Contents where
  | array (elements : List Ref)
  | tuple (elements : List Ref)
  | dictionary (map : List (CString × Ref))
  | inst (klass : Option Nat) (propertyValues : List Ref) (auditLog : List (Ref × Ref))
      (cacheStore : List (CString × Ref))
  | klass (parent : Option Nat) (methods staticMembers : List (CString × Ref))
      (validators : List Ref)
  | function
  | closure (upvalues : List (Option Nat))
  | super (inst parentKlass : Option Nat)
  deriving DecidableEq

/-- The heap while the mutators are stopped. `others` are the references held by anything else than the
objects, the upvalues, the bound methods and the stack slots: global variables and slots, constants,
environments, native code. -/
structure Snapshot where
  objects : List Contents
  upvalues : List Upvalue
  boundMethods : List BoundMethod
  stack : List Ref
  others : List Ref

/-- The tracked objects a collection looks at. An object is tracked once, when it is made. -/
structure Candidates where
  objects : List Nat
  nodup : objects.Nodup

namespace Contents

/-- The references an object owns. -/
def owned : Contents → List Ref
  | array elements | tuple elements => elements
  | dictionary map => map.map Prod.snd
  | inst itsClass propertyValues auditLog cacheStore =>
      itsClass.toList.map .object ++ propertyValues ++
        auditLog.flatMap (fun entry => [entry.1, entry.2]) ++ cacheStore.map Prod.snd
  | klass parent methods staticMembers validators =>
      parent.toList.map .object ++ methods.map Prod.snd ++ staticMembers.map Prod.snd ++ validators
  | function | closure _ => []
  | super receiver parentKlass => receiver.toList.map .object ++ parentKlass.toList.map .object

end Contents

namespace Snapshot

variable (h : Snapshot)

/-- `loc ? *loc : uv->closed`. -/
def upvalueValue (u : Nat) : Ref :=
  match h.upvalues[u]? with
  | some (.onStack slot) => h.stack[slot]?.getD .plain
  | some (.closed v) => v
  | none => .plain

def closureTraverse (upvalues : List (Option Nat)) : List Ref :=
  upvalues.filterMap fun uv => uv.map h.upvalueValue

/-- `traverseObject`: the references its visitor is called with. It has no case for `SUPER`. -/
def traverseObject (x : Nat) : List Ref :=
  match h.objects[x]? with
  | some (.closure upvalues) => h.closureTraverse upvalues
  | some (.super _ _) | none => []
  | some contents => contents.owned

/-- The references the object owns. -/
def ownedBy (x : Nat) : List Ref := (h.objects[x]?).elim [] Contents.owned

end Snapshot

/-- The objects behind a reference, with a bound method looked through to its halves. -/
def throughBound (raw : Ref → Option Nat) : List BoundMethod → Ref → List Nat
  | bound :: older, .boundMethod b =>
      if b = older.length then
        throughBound raw older bound.receiver ++ throughBound raw older bound.method
      else throughBound raw older (.boundMethod b)
  | [], .boundMethod _ => []
  | _, v => (raw v).toList

/-- `extractRawPtr`, which has no case for `SUPER`. -/
def extractRawPtr : Ref → Option Nat
  | .object x => some x
  | .plain | .super _ | .boundMethod _ => none

/-- `forEachReferencedPtr`: the objects it passes to its sink. -/
def forEachReferencedPtr : List BoundMethod → Ref → List Nat := throughBound extractRawPtr

namespace Snapshot

variable (h : Snapshot)

/-- The objects the collector comes to from an object. -/
def references (x : Nat) : List Nat :=
  (h.traverseObject x).flatMap (forEachReferencedPtr h.boundMethods)

end Snapshot

/-- The object a reference keeps alive, which is its own for a bound method. -/
def Ref.target : Ref → Option Nat
  | .object x | .super x => some x
  | .plain | .boundMethod _ => none

/-- What an upvalue owns: nothing while it points to a stack slot. -/
def Upvalue.owned : Upvalue → List Ref
  | .onStack _ => []
  | .closed v => [v]

namespace Snapshot

variable (h : Snapshot)

/-- Every reference there is, once for each owner. -/
def owners : List Ref :=
  (List.range h.objects.length).flatMap h.ownedBy ++ h.upvalues.flatMap Upvalue.owned ++
    h.boundMethods.flatMap (fun bound => [bound.receiver, bound.method]) ++ h.stack ++ h.others

/-- `use_count()`, without the collector's own reference, which it subtracts. -/
def useCount (x : Nat) : Nat := (h.owners.filterMap Ref.target).count x

/-! ### The phases -/

/-- `phase1_purgeExpired`. -/
def phase1PurgeExpired (candidates : Candidates) : List Nat :=
  candidates.objects.filter fun x => x < h.objects.length

/-- `adjustedRC[it->second]--`, for a reference to a candidate. -/
def decrement (live : List Nat) (adjustedRC : Nat → Int) (raw : Nat) : Nat → Int :=
  if raw ∈ live then Function.update adjustedRC raw (adjustedRC raw - 1) else adjustedRC

/-- `phase2_buildCandidates`: the adjusted counts of the candidates. -/
def phase2BuildCandidates (live : List Nat) : Nat → Int :=
  (live.flatMap h.references).foldl (decrement live) fun x => h.useCount x

/-- `phase3_findGarbage`. -/
def phase3FindGarbage (live : List Nat) (adjustedRC : Nat → Int) : List Nat :=
  let seeds := live.filter fun x => 0 < adjustedRC x
  let liveFlag :=
    FloodFill.fill (fun x => (h.references x).filter (· ∈ live)) live.length seeds
  live.filter (· ∉ liveFlag)

end Snapshot

/-- `clearObject`. -/
def clearObject : Contents → Contents
  | .array _ => .array []
  | .tuple _ => .tuple []
  | .dictionary _ => .dictionary []
  | .inst _ _ _ _ => .inst none [] [] []
  | .klass _ _ _ validators => .klass none [] [] (validators.map fun _ => .plain)
  | .function => .function
  | .closure _ => .closure []
  | .super inst parentKlass => .super inst parentKlass

namespace Snapshot

variable (h : Snapshot)

/-- `phase4_breakCycles`. -/
def phase4BreakCycles (garbage : List Nat) : Snapshot :=
  { h with objects := garbage.foldl (fun objects x => objects.modify x clearObject) h.objects }

/-- The objects `collect_internal` clears. -/
def garbage (candidates : Candidates) : List Nat :=
  let live := h.phase1PurgeExpired candidates
  h.phase3FindGarbage live (h.phase2BuildCandidates live)

/-- `collect_internal`, before the cleared objects are freed. -/
def collectInternal (candidates : Candidates) : Snapshot := h.phase4BreakCycles (h.garbage candidates)

end Snapshot

end CycleCollector

end EZLanguage
