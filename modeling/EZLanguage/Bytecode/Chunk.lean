import Mathlib.Data.List.Basic

/-!
# Chunks and their constant pools

A chunk is the code of one function with one source line for every code byte, the constants it names
and its inline caches. The pool is only ever extended through `addConstant`, which answers with the
index of an equal entry when there is one, so its entries are pairwise distinct. Both facts are
fields here.
-/

namespace EZLanguage

/-- A `std::string`, which is a sequence of bytes. -/
abbrev CString := List UInt8

/-- The bytes of a string literal of the source. -/
def lit (s : String) : CString := s.toList.map fun c => UInt8.ofNat c.toNat

/-- `==` on doubles given by their bit patterns: a NaN equals nothing and the two zeros are equal. -/
def doubleEq (a b : UInt64) : Bool :=
  let isNaN := fun (d : UInt64) => 0x7FF0000000000000 < d &&& 0x7FFFFFFFFFFFFFFF
  let isZero := fun (d : UInt64) => d &&& 0x7FFFFFFFFFFFFFFF == 0
  !isNaN a && !isNaN b && (a == b || (isZero a && isZero b))

/-- A constant pool entry. A double is its bit pattern. Functions and models carry no payload that
compiled code uses. -/
inductive Constant where
  | nil
  | bool (b : Bool)
  | int (i : Int64)
  | double (bits : UInt64)
  | string (s : CString)
  | function
  | model
  | arrayConst (indices : List UInt64)
  deriving DecidableEq

/-- The test `addConstant` reuses an entry by. Functions, models and arrays are never reused. -/
def Constant.same : Constant → Constant → Bool
  | .nil, .nil => true
  | .bool a, .bool b => a == b
  | .int a, .int b => a == b
  | .double a, .double b => doubleEq a b
  | .string a, .string b => a == b
  | _, _ => false

/-- The constants of a chunk, no two of them the same to `addConstant`. -/
structure ConstantPool where
  entries : List Constant
  distinct : entries.Pairwise fun earlier later => earlier.same later = false

namespace ConstantPool

def empty : ConstantPool := ⟨[], List.Pairwise.nil⟩

/-- The pool after `Chunk::addConstant`, and the index it returns. -/
def addConstant (pool : ConstantPool) (constant : Constant) : ConstantPool × Nat :=
  match h : pool.entries.findIdx? fun c => c.same constant with
  | some i => (pool, i)
  | none =>
      (⟨pool.entries ++ [constant], by
        have hnew := List.findIdx?_eq_none_iff.mp h
        refine List.pairwise_append.mpr ⟨pool.distinct, List.pairwise_singleton _ _, ?_⟩
        intro c hc d hd
        rw [List.mem_singleton.mp hd]
        exact hnew c hc⟩, pool.entries.length)

/-- Inserting a list of constants one after the other. -/
def addConstants (pool : ConstantPool) (constants : List Constant) : ConstantPool :=
  constants.foldl (fun pool c => (pool.addConstant c).1) pool

theorem ext_entries {p q : ConstantPool} (h : p.entries = q.entries) : p = q := by
  obtain ⟨ps, hp⟩ := p
  obtain ⟨qs, hq⟩ := q
  subst h
  rfl

/-- A constant no entry is the same as goes to the end. -/
theorem addConstant_fresh {pool : ConstantPool} {c : Constant}
    (hnew : ∀ e ∈ pool.entries, e.same c = false) :
    (pool.addConstant c).1.entries = pool.entries ++ [c] := by
  have hnone : (pool.entries.findIdx? fun e => e.same c) = none := by
    rw [List.findIdx?_eq_none_iff]
    exact hnew
  unfold addConstant
  split
  case h_1 i hi => rw [hnone] at hi; cases hi
  case h_2 => rfl

/-- The index is one of an entry, and no entry but that one is new. -/
theorem addConstant_spec (pool : ConstantPool) (c : Constant) :
    (pool.addConstant c).2 < (pool.addConstant c).1.entries.length ∧
      pool.entries.length ≤ (pool.addConstant c).1.entries.length ∧
      ∀ n < (pool.addConstant c).1.entries.length,
        n < pool.entries.length ∨ n = (pool.addConstant c).2 := by
  unfold addConstant
  split
  case h_1 i hi =>
      obtain ⟨hlt, -⟩ := List.findIdx?_eq_some_iff_getElem.mp hi
      exact ⟨hlt, Nat.le_refl _, fun n hn => .inl hn⟩
  case h_2 =>
      refine ⟨by simp, by simp, fun n hn => ?_⟩
      simp only [List.length_append, List.length_singleton] at hn
      omega

/-- Inserting constants adds some of them, in order. -/
theorem addConstants_sublist (pool : ConstantPool) (constants : List Constant) :
    (pool.addConstants constants).entries.Sublist (pool.entries ++ constants) := by
  induction constants generalizing pool with
  | nil => simp [addConstants]
  | cons c cs ih =>
      have hone : (pool.addConstant c).1.entries.Sublist (pool.entries ++ [c]) := by
        unfold addConstant
        split
        case h_1 => exact List.sublist_append_left _ _
        case h_2 => exact List.Sublist.refl _
      have hrest := (ih (pool.addConstant c).1).trans (hone.append_right cs)
      rwa [List.append_assoc, List.singleton_append] at hrest

private theorem addConstants_entries (pool : ConstantPool) (constants : List Constant)
    (h : (pool.entries ++ constants).Pairwise fun earlier later => earlier.same later = false) :
    (pool.addConstants constants).entries = pool.entries ++ constants := by
  induction constants generalizing pool with
  | nil => simp [addConstants]
  | cons c cs ih =>
      have hnew : ∀ e ∈ pool.entries, e.same c = false := fun e he =>
        (List.pairwise_append.mp h).2.2 e he c List.mem_cons_self
      have hone := addConstant_fresh hnew
      have hstep : pool.addConstants (c :: cs) = (pool.addConstant c).1.addConstants cs := rfl
      rw [hstep, ih _ (by rw [hone]; simpa using h), hone]
      simp

/-- Re-inserting the entries of a pool, in order, rebuilds it at the same indices. -/
theorem addConstants_rebuild (pool : ConstantPool) : empty.addConstants pool.entries = pool := by
  apply ext_entries
  have h := addConstants_entries empty pool.entries (by simpa [empty] using pool.distinct)
  simpa [empty] using h

end ConstantPool

/-- The code of one function. `icEntries` counts the inline caches, each of which is empty until the
VM fills it. -/
structure Chunk where
  code : List UInt8
  lines : List UInt64
  constants : ConstantPool
  icEntries : Nat
  lines_length : lines.length = code.length

end EZLanguage
