import Mathlib.Logic.Function.Basic
import Mathlib.Tactic.Common

/-!
# Arrays by reference

A heap of arrays that grow and change in place. What a computation does to the arrays that were there
before it is a frame: all but the ones it owns stay as they are.
-/

namespace ArrayHeap

/-- The arrays by their references, of which those below `next` have been made. -/
@[ext]
structure Arrays (α : Type*) where
  next : Nat
  read : Nat → List α

variable {α : Type*}

namespace Arrays

/-- A new array. -/
def alloc (h : Arrays α) (xs : List α) : Nat × Arrays α :=
  (h.next, { next := h.next + 1, read := Function.update h.read h.next xs })

def write (h : Arrays α) (r : Nat) (xs : List α) : Arrays α :=
  { h with read := Function.update h.read r xs }

def push (h : Arrays α) (r : Nat) (x : α) : Arrays α := h.write r (h.read r ++ [x])

def set (h : Arrays α) (r : Nat) (i : Nat) (x : α) : Arrays α := h.write r ((h.read r).set i x)

@[simp] theorem alloc_fst (h : Arrays α) (xs : List α) : (h.alloc xs).1 = h.next := rfl

@[simp] theorem alloc_next (h : Arrays α) (xs : List α) : (h.alloc xs).2.next = h.next + 1 := rfl

@[simp] theorem alloc_read (h : Arrays α) (xs : List α) (q : Nat) :
    (h.alloc xs).2.read q = if q = h.next then xs else h.read q :=
  Function.update_apply h.read h.next xs q

@[simp] theorem write_next (h : Arrays α) (r : Nat) (xs : List α) : (h.write r xs).next = h.next := rfl

@[simp] theorem write_read (h : Arrays α) (r : Nat) (xs : List α) (q : Nat) :
    (h.write r xs).read q = if q = r then xs else h.read q :=
  Function.update_apply h.read r xs q

@[simp] theorem write_write (h : Arrays α) (r : Nat) (xs ys : List α) :
    (h.write r xs).write r ys = h.write r ys := by
  unfold write
  rw [Function.update_idem]

theorem write_self (h : Arrays α) (r : Nat) : h.write r (h.read r) = h := by
  unfold write
  rw [Function.update_eq_self]

/-- `get b in xs { push(r, b) }`. -/
def pushAll (h : Arrays α) (r : Nat) : List α → Arrays α
  | [] => h
  | x :: xs => (h.push r x).pushAll r xs

@[simp] theorem pushAll_eq (h : Arrays α) (r : Nat) (xs : List α) :
    h.pushAll r xs = h.write r (h.read r ++ xs) := by
  induction xs generalizing h with
  | nil => rw [pushAll, List.append_nil, write_self]
  | cons x xs ih => simp [pushAll, ih, push]

/-! ### Frames -/

/-- Of the arrays there were before, at most the owned one has changed. -/
structure Frame (own : Nat → Prop) (h h' : Arrays α) : Prop where
  next : h.next ≤ h'.next
  read : ∀ q < h.next, ¬own q → h'.read q = h.read q

variable {own : Nat → Prop} {h h' h'' : Arrays α}

theorem Frame.refl (h : Arrays α) : Frame own h h := ⟨Nat.le_refl _, fun _ _ _ => rfl⟩

theorem Frame.trans (hfirst : Frame own h h') (hsecond : Frame own h' h'') : Frame own h h'' where
  next := Nat.le_trans hfirst.next hsecond.next
  read := fun q hq hown =>
    (hsecond.read q (Nat.lt_of_lt_of_le hq hfirst.next) hown).trans (hfirst.read q hq hown)

theorem Frame.mono {own' : Nat → Prop} (h₁ : Frame own h h') (hown : ∀ q < h.next, own q → own' q) :
    Frame own' h h' :=
  ⟨h₁.next, fun q hq hq' => h₁.read q hq fun howns => hq' (hown q hq howns)⟩

theorem Frame.alloc (h : Arrays α) (xs : List α) : Frame own h (h.alloc xs).2 where
  next := Nat.le_succ _
  read := by
    intro q hq _
    rw [alloc_read, if_neg (Nat.ne_of_lt hq)]

theorem Frame.write {r : Nat} (hr : own r) (xs : List α) : Frame own h (h.write r xs) where
  next := Nat.le_refl _
  read := by
    intro q _ hq
    rw [write_read, if_neg fun heq : q = r => hq (heq.symm ▸ hr)]

end Arrays

end ArrayHeap
