import Mathlib.Data.Fintype.Card
import Mathlib.Data.List.Forall2
import Mathlib.Logic.Function.Basic
import Mathlib.Logic.Relation

/-!
# The copy a new thread gets

`spawn` copies the closure it is given, and its arguments, with the closures that can be reached through
captured variables. A table of the closures copied so far keeps the copy finite. Every upvalue of every
closure becomes a cell of its own, and a value that is neither a closure nor a bound method is handed over
as it is. A bound method cannot change, so which bound methods are one object is left out.
-/

namespace EZLanguage

namespace Spawn

/-- A value as `closeUpvals` sees it. -/
inductive Captured (Closure Plain : Type) where
  | closure (r : Closure)
  | boundMethod (receiver method : Captured Closure Plain)
  | plain (v : Plain)
  deriving DecidableEq

/-- The closures of the parent with their upvalues, what the captured variables hold when `spawn` is
called, and the closures a plain value leads to through its elements and fields. -/
structure Graph (Closure Cell Plain : Type) where
  function : Closure → Nat
  upvalues : Closure → List (Option Cell)
  contents : Cell → Captured Closure Plain
  leads : Plain → List Closure

/-- The closures and cells of the child made so far, and the table `seen`. -/
structure Copy (Closure Plain : Type) where
  seen : Closure → Option Nat
  closures : List (Nat × List (Option Nat))
  cells : List (Captured Nat Plain)

variable {Closure Cell Plain : Type}

namespace Copy

def empty : Copy Closure Plain := { seen := fun _ => none, closures := [], cells := [] }

/-- A new closure, known in the table before its upvalues are copied. -/
def register [DecidableEq Closure] (s : Copy Closure Plain) (r : Closure) (function : Nat) :
    Copy Closure Plain :=
  { s with
    seen := Function.update s.seen r (some s.closures.length)
    closures := s.closures ++ [(function, [])] }

/-- `newCl->upvalues.push_back`. -/
def pushUpvalue (s : Copy Closure Plain) (n : Nat) (uv : Option Nat) : Copy Closure Plain :=
  { s with closures := s.closures.modify n fun cl => (cl.1, cl.2 ++ [uv]) }

/-- A new upvalue that holds `closed`, pushed to a closure. -/
def pushCell (s : Copy Closure Plain) (n : Nat) (closed : Captured Nat Plain) :
    Copy Closure Plain :=
  { s with cells := s.cells ++ [closed] }.pushUpvalue n (some s.cells.length)

end Copy

variable (g : Graph Closure Cell Plain)

/-- `closeUpvals` of a value, given what it does to a closure. -/
def closeValue (visit : Closure → Copy Closure Plain → Option (Nat × Copy Closure Plain)) :
    Captured Closure Plain → Copy Closure Plain →
      Option (Captured Nat Plain × Copy Closure Plain)
  | .closure r, s => (visit r s).map fun (n, s) => (.closure n, s)
  | .boundMethod receiver method, s => do
      let (receiver, s) ← closeValue visit receiver s
      let (method, s) ← closeValue visit method s
      return (.boundMethod receiver method, s)
  | .plain v, s => some (.plain v, s)

/-- The loop over the upvalues of a closure, for its copy `n`. -/
def closeUpvalues (visit : Closure → Copy Closure Plain → Option (Nat × Copy Closure Plain))
    (n : Nat) : List (Option Cell) → Copy Closure Plain → Option (Copy Closure Plain)
  | [], s => some s
  | none :: rest, s => closeUpvalues visit n rest (s.pushUpvalue n none)
  | some cell :: rest, s => do
      let (closed, s) ← closeValue visit (g.contents cell) s
      closeUpvalues visit n rest (s.pushCell n closed)

/-- `closeUpvals` of a closure. The first argument bounds the depth of the recursion. -/
def closeUpvals [DecidableEq Closure] :
    Nat → Closure → Copy Closure Plain → Option (Nat × Copy Closure Plain)
  | 0, _, _ => none
  | depth + 1, r, s =>
      match s.seen r with
      | some n => some (n, s)
      | none =>
          let n := s.closures.length
          (closeUpvalues g (closeUpvals depth) n (g.upvalues r)
            (s.register r (g.function r))).map fun s => (n, s)

/-- `closedFunc` and `closedArgs`. -/
def closeAll [DecidableEq Closure] (depth : Nat) :
    List (Captured Closure Plain) → Copy Closure Plain →
      Option (List (Captured Nat Plain) × Copy Closure Plain)
  | [], s => some ([], s)
  | v :: rest, s => do
      let (v, s) ← closeValue (closeUpvals g depth) v s
      let (rest, s) ← closeAll depth rest s
      return (v :: rest, s)

/-! ### What the copy has to be -/

/-- The closures in a value. -/
def Captured.closures {Ref : Type} : Captured Ref Plain → List Ref
  | .closure r => [r]
  | .boundMethod receiver method => receiver.closures ++ method.closures
  | .plain _ => []

/-- The plain values in a value. -/
def Captured.plains {Ref : Type} : Captured Ref Plain → List Plain
  | .closure _ => []
  | .boundMethod receiver method => receiver.plains ++ method.plains
  | .plain v => [v]

def Captured.map {Ref Ref' : Type} (f : Ref → Ref') : Captured Ref Plain → Captured Ref' Plain
  | .closure r => .closure (f r)
  | .boundMethod receiver method => .boundMethod (receiver.map f) (method.map f)
  | .plain v => .plain v

/-- A closure can be reached from some values through captured variables. -/
inductive Reached (roots : List (Captured Closure Plain)) : Closure → Prop
  | root {v : Captured Closure Plain} {r : Closure} (hroot : v ∈ roots) (hr : r ∈ v.closures) :
      Reached roots r
  | captured {r r' : Closure} {cell : Cell} (hreached : Reached roots r)
      (hcell : some cell ∈ g.upvalues r) (hr : r' ∈ (g.contents cell).closures) : Reached roots r'

/-- A captured variable of a closure that can be reached. -/
def Holds (roots : List (Captured Closure Plain)) (cell : Cell) : Prop :=
  ∃ r, Reached g roots r ∧ some cell ∈ g.upvalues r

/-- The closures and cells that can be reached correspond one to one to those of the copy. -/
structure Isomorphic (roots : List (Captured Closure Plain)) (roots' : List (Captured Nat Plain))
    (s : Copy Closure Plain) (φ : Closure → Nat) (ψ : Cell → Nat) : Prop where
  values : roots' = roots.map (Captured.map φ)
  closures : ∀ r, Reached g roots r →
    s.closures[φ r]? = some (g.function r, (g.upvalues r).map (Option.map ψ))
  cells : ∀ cell, Holds g roots cell → s.cells[ψ cell]? = some ((g.contents cell).map φ)
  closures_inj : ∀ r r', Reached g roots r → Reached g roots r' → φ r = φ r' → r = r'
  cells_inj : ∀ c c', Holds g roots c → Holds g roots c' → ψ c = ψ c' → c = c'
  closures_onto : ∀ n < s.closures.length, ∃ r, Reached g roots r ∧ φ r = n
  cells_onto : ∀ u < s.cells.length, ∃ cell, Holds g roots cell ∧ ψ cell = u

/-- No plain value of the child leads to a captured variable of the parent. -/
def Separate (roots' : List (Captured Nat Plain)) (s : Copy Closure Plain) : Prop :=
  ∀ w, w ∈ roots' ∨ w ∈ s.cells → ∀ v ∈ w.plains, ∀ r ∈ g.leads v, ∀ uv ∈ g.upvalues r, uv = none

/-- The copy is one consistent snapshot: it has the shape of the parent's graph and nothing in common
with it. -/
def Snapshot (roots : List (Captured Closure Plain)) (roots' : List (Captured Nat Plain))
    (s : Copy Closure Plain) : Prop :=
  (∃ φ ψ, Isomorphic g roots roots' s φ ψ) ∧ Separate g roots' s

/-- No two upvalues of the closures that can be reached are the same cell. -/
def Unshared (roots : List (Captured Closure Plain)) : Prop :=
  ∀ (r r' : Closure) (i j : Nat) cell, Reached g roots r → Reached g roots r' →
    (g.upvalues r)[i]? = some (some cell) → (g.upvalues r')[j]? = some (some cell) →
      r = r' ∧ i = j

/-- No plain value among the arguments or in a captured variable leads to a closure that captures. -/
def Unlinked (roots : List (Captured Closure Plain)) : Prop :=
  ∀ w, (w ∈ roots ∨ ∃ cell, Holds g roots cell ∧ g.contents cell = w) →
    ∀ v ∈ w.plains, ∀ r ∈ g.leads v, ∀ uv ∈ g.upvalues r, uv = none

end Spawn

end EZLanguage
