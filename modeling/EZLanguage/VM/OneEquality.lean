import EZLanguage.Runtime.ConcatString
import EZLanguage.VM.ValueEquals

/-!
# One equality

`==`, `!=`, `in`, equality inside of containers and the arms of a match. They go by `Value::equals`, but for
the fast paths of the opcodes, which compare integers exactly, and the overloads of an instance, which only
the opcode of their own name looks for.
-/

namespace EZLanguage

namespace OneEquality

open ValueEquals MemoBisimulation

/-! ### Instances -/

/-- The callable members of instances, by name and address: what a call with an argument gives, and none
where it raises an exception. -/
abbrev Members := CString → Nat → Option (HeapValue → Option HeapValue)

/-- `getProperty` of an instance, where what it finds is callable. -/
def overload (members : Members) (op : CString) : HeapValue → Option (HeapValue → Option HeapValue)
  | .OBJECT type address => if type = lit "instance" then members op address else none
  | _ => none

def isTruthy : HeapValue → Bool
  | .NIL => false
  | .BOOL b => b
  | _ => true

/-! ### The operators -/

variable (fpu : FloatUnit) (heap : ContainerHeap) (fuel : Nat) (members : Members)

/-- `doEqual` and `doNotEqual`. -/
def doCompare (result : Bool → Bool) : List HeapValue → Option (List HeapValue)
  | b :: a :: ops => (equals fpu heap fuel a b .empty).map fun r => .BOOL (result r.1) :: ops
  | _ => none

/-- The handlers of `EQUAL` and `NOT_EQUAL`, run to the end of the overload they call. -/
def comparison (op : CString) (result : Bool → Bool) : List HeapValue → Option (List HeapValue)
  | .INTEGER b :: .INTEGER a :: ops => some (.BOOL (result (a == b)) :: ops)
  | .FLOAT b :: .FLOAT a :: ops => some (.BOOL (result (doubleEq a b)) :: ops)
  | .BOOL b :: .BOOL a :: ops => some (.BOOL (result (a == b)) :: ops)
  | .NIL :: .NIL :: ops => some (.BOOL (result true) :: ops)
  | b :: a :: ops =>
      match overload members op a with
      | some method => (method b).map (· :: ops)
      | none => doCompare fpu heap fuel result (b :: a :: ops)
  | _ => none

def EQUAL : List HeapValue → Option (List HeapValue) :=
  comparison fpu heap fuel members (lit "==") id

def NOT_EQUAL : List HeapValue → Option (List HeapValue) :=
  comparison fpu heap fuel members (lit "!=") not

/-- The loop of `MEMBER_IN` over the elements of an array or a tuple. -/
def anyEquals (needle : HeapValue) : List HeapValue → Option Bool
  | [] => some false
  | element :: elements =>
      match equals fpu heap fuel element needle .empty with
      | none => none
      | some (true, _) => some true
      | some (false, _) => anyEquals needle elements

/-- `MEMBER_IN`. None stands for the type errors too; a needle is looked up in a dictionary by its text. -/
def MEMBER_IN (toString : HeapValue → CString) : List HeapValue → Option (List HeapValue)
  | .CONTAINER r :: needle :: ops =>
      match heap[r]? with
      | some (.ARRAY arr) => (anyEquals fpu heap fuel needle arr).map (.BOOL · :: ops)
      | some (.TUPLE tup) => (anyEquals fpu heap fuel needle tup).map (.BOOL · :: ops)
      | some (.DICTIONARY d) =>
          some (.BOOL (d.entries.any fun entry => entry.1 == toString needle) :: ops)
      | none => none
  | .STRING s :: .STRING t :: ops => some (.BOOL (Operator.contains s t) :: ops)
  | _ => none

/-! ### The arms of a match -/

inductive ArmEnd where
  /-- Into the body, without the subject. -/
  | taken (ops : List HeapValue)
  /-- On to the next arm. -/
  | next (ops : List HeapValue)

/-- `DUP`, the pattern, `EQUAL`, `JUMP_IF_FALSE` and, where it does not jump, `POP`. The pattern is no
name of a type. -/
def matchArm (pattern : HeapValue) : List HeapValue → Option ArmEnd
  | subject :: ops =>
      match EQUAL fpu heap fuel members (pattern :: subject :: subject :: ops) with
      | some (v :: left) => some (if isTruthy v then .taken left.tail else .next left)
      | _ => none
  | [] => none

/-- `MAKE_ARRAY` of two array literals, one after the other. -/
def makeArrays (a b : HeapValue) : ContainerHeap := heap ++ [.ARRAY [a], .ARRAY [b]]

variable {fpu heap fuel members}

/-! ### More containers -/

/-- The container a value names is there. -/
def InHeap (heap : ContainerHeap) : HeapValue → Prop
  | .CONTAINER r => r < heap.length
  | _ => True

/-- Every value names a container that is there. -/
def Closed (heap : ContainerHeap) : Prop := ∀ c ∈ heap, ∀ v ∈ c.values, InHeap heap v

theorem forall₂_imp_mem {α β : Type} {R S : α → β → Prop} {xs : List α} {ys : List β}
    (h : List.Forall₂ R xs ys) (hRS : ∀ x ∈ xs, ∀ y ∈ ys, R x y → S x y) : List.Forall₂ S xs ys := by
  induction h with
  | nil => exact .nil
  | cons hxy _ ih =>
      refine .cons (hRS _ List.mem_cons_self _ List.mem_cons_self hxy) (ih fun x hx y hy => ?_)
      exact hRS x (List.mem_cons_of_mem _ hx) y (List.mem_cons_of_mem _ hy)

theorem related_imp_mem {R S : HeapValue → HeapValue → Prop} {c d : ValueEquals.Container} (h : Related R c d)
    (hRS : ∀ x ∈ c.values, ∀ y ∈ d.values, R x y → S x y) : Related S c d := by
  cases c with
  | ARRAY xs =>
      cases d with
      | ARRAY ys => exact forall₂_imp_mem (show List.Forall₂ R xs ys from h) hRS
      | TUPLE ys => exact h.elim
      | DICTIONARY m => exact h.elim
  | TUPLE xs =>
      cases d with
      | ARRAY ys => exact h.elim
      | TUPLE ys => exact forall₂_imp_mem (show List.Forall₂ R xs ys from h) hRS
      | DICTIONARY m => exact h.elim
  | DICTIONARY m =>
      cases d with
      | ARRAY ys => exact h.elim
      | TUPLE ys => exact h.elim
      | DICTIONARY m' =>
          refine ⟨h.1, fun e he => ?_⟩
          obtain ⟨v, hv, hR⟩ := h.2 e he
          exact ⟨v, hv, hRS _ (List.mem_map_of_mem he) _ (List.mem_map_of_mem hv) hR⟩

/-- New containers make no difference to the values there were. -/
theorem bisimilar_append_iff {more : ContainerHeap} (hclosed : Closed heap) {a b : HeapValue}
    (ha : InHeap heap a) (hb : InHeap heap b) :
    Bisimilar fpu (heap ++ more) true a b ↔ Bisimilar fpu heap true a b := by
  have hold : ∀ {r : Nat}, r < heap.length → (heap ++ more)[r]? = heap[r]? := by
    intro r hr
    exact List.getElem?_append_left hr
  constructor
  · rintro ⟨R, hR, hab⟩
    refine ⟨fun x y => R x y ∧ InHeap heap x ∧ InHeap heap y, ?_, hab, ha, hb⟩
    rintro x y ⟨hxy, hx, hy⟩
    obtain hleaf | ⟨r, s, c, d, rfl, rfl, hc, hd, hbelow⟩ := hR x y hxy
    · exact .inl hleaf
    · rw [hold hx] at hc
      rw [hold hy] at hd
      refine .inr ⟨r, s, c, d, rfl, rfl, hc, hd, hbelow.imp_left fun hrelated => ?_⟩
      apply related_imp_mem hrelated
      intro v hv w hw hvw
      exact ⟨hvw, hclosed c (List.mem_of_getElem? hc) v hv, hclosed d (List.mem_of_getElem? hd) w hw⟩
  · rintro ⟨R, hR, hab⟩
    refine ⟨R, ?_, hab⟩
    intro x y hxy
    obtain hleaf | ⟨r, s, c, d, rfl, rfl, hc, hd, hbelow⟩ := hR x y hxy
    · exact .inl hleaf
    · have hr : r < heap.length := (List.getElem?_eq_some_iff.1 hc).1
      have hs : s < heap.length := (List.getElem?_eq_some_iff.1 hd).1
      exact .inr ⟨r, s, c, d, rfl, rfl, (hold hr).trans hc, (hold hs).trans hd, hbelow⟩

/-- Two arrays of one element each. -/
theorem bisimilar_arrays_iff {r s : Nat} (hne : r ≠ s) {a b : HeapValue}
    (hr : heap[r]? = some (.ARRAY [a])) (hs : heap[s]? = some (.ARRAY [b])) :
    Bisimilar fpu heap true (.CONTAINER r) (.CONTAINER s) ↔ Bisimilar fpu heap true a b := by
  constructor
  · rintro ⟨R, hR, hab⟩
    refine ⟨R, hR, ?_⟩
    obtain hleaf | ⟨r', s', c, d, hr', hs', hc, hd, hbelow⟩ := hR _ _ hab
    · cases hleaf
    · obtain rfl := HeapValue.CONTAINER.inj hr'
      obtain rfl := HeapValue.CONTAINER.inj hs'
      obtain rfl := Option.some.inj (hr.symm.trans hc)
      obtain rfl := Option.some.inj (hs.symm.trans hd)
      obtain hrelated | ⟨-, hsame⟩ := hbelow
      · exact (List.forall₂_cons.1 hrelated).1
      · exact absurd hsame hne
  · rintro ⟨R, hR, hab⟩
    refine ⟨fun x y => R x y ∨ x = .CONTAINER r ∧ y = .CONTAINER s, ?_, .inr ⟨rfl, rfl⟩⟩
    rintro x y (hxy | ⟨rfl, rfl⟩)
    · obtain hleaf | ⟨r', s', c, d, rfl, rfl, hc, hd, hbelow⟩ := hR x y hxy
      · exact .inl hleaf
      · refine .inr ⟨r', s', c, d, rfl, rfl, hc, hd, hbelow.imp_left fun hrelated => ?_⟩
        exact related_imp_mem hrelated fun v _ w _ hvw => .inl hvw
    · exact .inr ⟨r, s, _, _, rfl, rfl, hr, hs, .inl (.cons (.inl hab) .nil)⟩

/-! ### The opcodes -/

/-- A comparison that looks at no containers. -/
theorem eq_of_look {a b : HeapValue} {r r' : Bool}
    (hends : equals fpu heap fuel a b .empty = some (r, .empty))
    (hlook : look fpu heap a b = .decided r' ∨ look fpu heap a b = .framed r') : r = r' := by
  cases fuel with
  | zero => cases hends
  | succ n =>
      unfold equals MemoBisimulation.compare at hends
      obtain hlook | hlook := hlook
      · rw [hlook] at hends
        exact (Prod.mk.inj (Option.some.inj hends)).1.symm
      · rw [hlook] at hends
        exact (Prod.mk.inj (Option.some.inj hends)).1.symm

/-- Two integers have one double only where they are one integer. -/
def ExactIntegers (fpu : FloatUnit) (a b : HeapValue) : Prop :=
  ∀ x y, a = .INTEGER x → b = .INTEGER y → (doubleEq (fpu.ofInt x) (fpu.ofInt y) = true ↔ x = y)

/-- What the overload of an instance gives goes before the comparison. -/
theorem comparison_eq {a b : HeapValue} {r : Bool} (hexact : ExactIntegers fpu a b)
    (hends : equals fpu heap fuel a b .empty = some (r, .empty)) (op : CString)
    (result : Bool → Bool) (ops : List HeapValue) :
    comparison fpu heap fuel members op result (b :: a :: ops) =
      match overload members op a with
      | some method => (method b).map (· :: ops)
      | none => some (.BOOL (result r) :: ops) := by
  unfold comparison
  split
  · next y x ops' hops =>
      cases hops
      have hr : r = (x == y) := by
        rw [eq_of_look hends (.inl rfl), Bool.eq_iff_iff, beq_iff_eq]
        exact hexact x y rfl rfl
      rw [hr]
      rfl
  · next y x ops' hops =>
      cases hops
      rw [eq_of_look hends (.inl rfl)]
      rfl
  · next y x ops' hops =>
      cases hops
      rw [eq_of_look hends (.inr rfl)]
      rfl
  · next ops' hops =>
      cases hops
      rw [eq_of_look hends (.inr rfl)]
      rfl
  · next y x ops' _ _ _ _ hops =>
      cases hops
      cases overload members op a with
      | some method => rfl
      | none =>
          rw [doCompare, hends]
          rfl
  · next hnone => exact absurd rfl (hnone b a ops)

/-- An array of one element, from the other side. -/
theorem MEMBER_IN_eq {a b : HeapValue} {r : Bool} {s : Nat} (hs : heap[s]? = some (.ARRAY [b]))
    (hends : equals fpu heap fuel b a .empty = some (r, .empty)) (toString : HeapValue → CString)
    (ops : List HeapValue) :
    MEMBER_IN fpu heap fuel toString (.CONTAINER s :: a :: ops) = some (.BOOL r :: ops) := by
  unfold MEMBER_IN
  dsimp only
  rw [hs]
  dsimp only
  cases r with
  | true => rw [anyEquals, hends, Option.map_some]
  | false =>
      rw [anyEquals, hends]
      rfl

theorem fuel_of_more {more : ContainerHeap} {n : Nat} (hmore : more.length ≤ n)
    (hfuel : (heap.length + n) * (heap.length + n) < fuel) :
    (heap ++ more).length * (heap ++ more).length < fuel := by
  have hlength : (heap ++ more).length ≤ heap.length + n := by
    rw [List.length_append]
    omega
  exact Nat.lt_of_le_of_lt (Nat.mul_le_mul hlength hlength) hfuel

/-- Whether two values are equal in one heap and in one with more containers. -/
theorem equals_append {more : ContainerHeap} (hclosed : Closed heap) {a b : HeapValue} {r : Bool}
    (ha : InHeap heap a) (hb : InHeap heap b)
    (hfuel : (heap ++ more).length * (heap ++ more).length < fuel)
    (hr : r = true ↔ Bisimilar fpu heap true a b) :
    equals fpu (heap ++ more) fuel a b .empty = some (r, .empty) := by
  obtain ⟨r', hends, hr'⟩ := @equals_iff_bisimilar fpu (heap ++ more) fuel hfuel a b
  have hsame : r' = r :=
    Bool.eq_iff_iff.2 ((hr'.trans (bisimilar_append_iff hclosed ha hb)).trans hr.symm)
  rw [hends, hsame]

/-- `[a] == [b]` -/
theorem EQUAL_arrays (hclosed : Closed heap) {a b : HeapValue} {r : Bool} (ha : InHeap heap a)
    (hb : InHeap heap b) (hfuel : (heap.length + 2) * (heap.length + 2) < fuel)
    (hr : r = true ↔ Bisimilar fpu heap true a b) (ops : List HeapValue) :
    EQUAL fpu (makeArrays heap a b) fuel members
        (.CONTAINER (heap.length + 1) :: .CONTAINER heap.length :: ops) =
      some (.BOOL r :: ops) := by
  have hfirst : (makeArrays heap a b)[heap.length]? = some (.ARRAY [a]) := by
    rw [makeArrays, List.getElem?_append_right (Nat.le_refl _), Nat.sub_self]
    rfl
  have hsecond : (makeArrays heap a b)[heap.length + 1]? = some (.ARRAY [b]) := by
    rw [makeArrays, List.getElem?_append_right (Nat.le_add_right _ 1), Nat.add_sub_cancel_left]
    rfl
  obtain ⟨r', hends, hr'⟩ := @equals_iff_bisimilar fpu (makeArrays heap a b) fuel
    (fuel_of_more (Nat.le_refl 2) hfuel) (.CONTAINER heap.length) (.CONTAINER (heap.length + 1))
  have hsame : r' = r := by
    rw [Bool.eq_iff_iff, hr', hr, bisimilar_arrays_iff (Nat.ne_of_lt (Nat.lt_succ_self _)) hfirst hsecond]
    exact bisimilar_append_iff hclosed ha hb
  have hexact : ExactIntegers fpu (.CONTAINER heap.length) (.CONTAINER (heap.length + 1)) :=
    fun _ _ h => by cases h
  rw [EQUAL, comparison_eq hexact hends, hsame]
  rfl

/-! ### Strings -/

section Strings

open Rope

/-- The string branch of `equals`, of which the walks do so many rounds at most. None is the end of a walk
that throws or goes on. -/
def stringEquals (fuel : Nat) (nodes : Nodes) (a b : StringValue) : Option (Bool × Nodes) :=
  if stringLength nodes a ≠ stringLength nodes b then some (false, nodes)
  else
    match a, b with
    | .SHORT_STRING s, .SHORT_STRING t => some (s.val == t.val, nodes)
    | a, b =>
        match asString fuel nodes a with
        | some (.result s, nodes) =>
            match asString fuel nodes b with
            | some (.result t, nodes) => some (s == t, nodes)
            | _ => none
        | _ => none

/-- A walk takes a round for each leaf and for each node. -/
theorem rounds_leaves {nodes : Nodes} (hacyclic : Acyclic nodes) (n : Nat) : ∀ v : StringValue,
    v.Below n → n ≤ nodes.length → rounds nodes v + 1 = 2 * (leaves nodes v).length := by
  induction n using Nat.strongRecOn with
  | ind n ih =>
      intro v hv hn
      cases v with
      | SHORT_STRING s => rfl
      | STRING s => rfl
      | CONCAT_STRING r =>
          have hr : r < n := hv
          obtain ⟨cs, hcs⟩ : ∃ cs, nodes[r]? = some cs :=
            ⟨_, List.getElem?_eq_getElem (Nat.lt_of_lt_of_le hr hn)⟩
          obtain ⟨hleft, hright⟩ := hacyclic r cs hcs
          have hrn : r ≤ nodes.length := Nat.le_of_lt (Nat.lt_of_lt_of_le hr hn)
          have hl := ih r hr cs.left hleft hrn
          have hr' := ih r hr cs.right hright hrn
          have hleaves : leaves nodes (.CONCAT_STRING r) = leaves nodes cs.left ++ leaves nodes cs.right :=
            fold_node hacyclic hcs
          rw [rounds_node hacyclic hcs, hleaves, List.length_append]
          omega

/-- Two strings are equal where their texts are, in whatever representations. -/
theorem stringEquals_text {nodes : Nodes} (h : Sound nodes) {a b : StringValue}
    (ha : a.Below nodes.length) (hb : b.Below nodes.length) {fuel : Nat}
    (hafuel : rounds nodes a < fuel) (hbfuel : rounds nodes b < fuel) :
    ∃ nodes', stringEquals fuel nodes a b = some (text nodes a == text nodes b, nodes') ∧
      Sound nodes' ∧ leaves nodes' = leaves nodes := by
  unfold stringEquals
  by_cases hlength : stringLength nodes a = stringLength nodes b
  · rw [if_neg (not_not.2 hlength)]
    have hwalk : ∃ nodes', (match asString fuel nodes a with
        | some (.result s, nodes) =>
            match asString fuel nodes b with
            | some (.result t, nodes) => some (s == t, nodes)
            | _ => none
        | _ => none) = some (text nodes a == text nodes b, nodes') ∧
        Sound nodes' ∧ leaves nodes' = leaves nodes := by
      obtain ⟨first, hfirst⟩ := h.asString_ends ha hafuel
      obtain ⟨-, hsound, hsame, hleaves⟩ := h.asString_result ha hfirst
      have hb' : b.Below first.length := by rwa [hsame]
      have hrounds : rounds first b < fuel := by
        have hold := rounds_leaves h.acyclic _ b hb (Nat.le_refl _)
        have hnew := rounds_leaves hsound.acyclic _ b hb' (Nat.le_refl _)
        rw [hleaves] at hnew
        omega
      obtain ⟨second, hsecond⟩ := hsound.asString_ends hb' hrounds
      obtain ⟨-, hsound', -, hleaves'⟩ := hsound.asString_result hb' hsecond
      have htext : text first b = text nodes b := by rw [text, text, hleaves]
      rw [hfirst]
      dsimp only
      rw [hsecond, htext]
      exact ⟨second, rfl, hsound', hleaves'.trans hleaves⟩
    cases a with
    | SHORT_STRING s =>
        cases b with
        | SHORT_STRING t =>
            refine ⟨nodes, ?_, h, rfl⟩
            simp [text, leaves, fold, StringValue.foldIn]
        | STRING t => exact hwalk
        | CONCAT_STRING r => exact hwalk
    | STRING s => exact hwalk
    | CONCAT_STRING r => exact hwalk
  · have hne : text nodes a ≠ text nodes b := by
      intro htext
      rw [h.stringLength_eq ha, h.stringLength_eq hb, htext] at hlength
      exact hlength rfl
    rw [if_pos hlength, beq_eq_false_iff_ne.2 hne]
    exact ⟨nodes, rfl, h, rfl⟩

end Strings

/-! ### The five of them -/

/-- There is one equality of values: `==`, a match, `==` of arrays that hold them and `in` agree, and `!=`
is the negation, but that an overload of the instance on the left goes before the opcode of its name. -/
theorem one_equality {a b : HeapValue} (hclosed : Closed heap) (ha : InHeap heap a)
    (hb : InHeap heap b) (hfuel : (heap.length + 2) * (heap.length + 2) < fuel)
    (hexact : ExactIntegers fpu a b) (toString : HeapValue → CString) (ops : List HeapValue) :
    ∃ r, (r = true ↔ Bisimilar fpu heap true a b) ∧
      EQUAL fpu heap fuel members (b :: a :: ops) =
        (match overload members (lit "==") a with
        | some method => (method b).map (· :: ops)
        | none => some (.BOOL r :: ops)) ∧
      matchArm fpu heap fuel members b (a :: ops) =
        (match overload members (lit "==") a with
        | some method => (method b).map fun v => if isTruthy v then .taken ops else .next (a :: ops)
        | none => some (if r then .taken ops else .next (a :: ops))) ∧
      NOT_EQUAL fpu heap fuel members (b :: a :: ops) =
        (match overload members (lit "!=") a with
        | some method => (method b).map (· :: ops)
        | none => some (.BOOL (!r) :: ops)) ∧
      EQUAL fpu (makeArrays heap a b) fuel members
        (.CONTAINER (heap.length + 1) :: .CONTAINER heap.length :: ops) = some (.BOOL r :: ops) ∧
      MEMBER_IN fpu (heap ++ [.ARRAY [b]]) fuel toString (.CONTAINER heap.length :: a :: ops) =
        some (.BOOL r :: ops) := by
  have hsmall : heap.length * heap.length < fuel :=
    Nat.lt_of_le_of_lt (Nat.mul_le_mul (Nat.le_add_right _ 2) (Nat.le_add_right _ 2)) hfuel
  obtain ⟨r, hends, hr⟩ := @equals_iff_bisimilar fpu heap fuel hsmall a b
  refine ⟨r, hr, comparison_eq hexact hends _ _ _, ?_, comparison_eq hexact hends _ _ _,
    EQUAL_arrays hclosed ha hb hfuel hr ops, ?_⟩
  · unfold matchArm
    dsimp only
    rw [EQUAL, comparison_eq hexact hends]
    cases overload members (lit "==") a with
    | none => rfl
    | some method =>
        dsimp only
        cases method b <;> rfl
  · apply MEMBER_IN_eq
    · rw [List.getElem?_append_right (Nat.le_refl _), Nat.sub_self]
      rfl
    · exact equals_append hclosed hb ha (fuel_of_more (Nat.le_succ 1) hfuel)
        (hr.trans ⟨fun h => h.symm, fun h => h.symm⟩)

/-- Two instances, of which the first has an `==` that finds it equal to everything. -/
def alwaysEqual : Members
  | op, 1 => if op = lit "==" then some fun _ => some (.BOOL true) else none
  | _, _ => none

theorem one_equality_instances :
    EQUAL .bare [] 5 alwaysEqual [.OBJECT (lit "instance") 2, .OBJECT (lit "instance") 1] =
      some [.BOOL true] ∧
    ∃ r, MEMBER_IN .bare [.ARRAY [.OBJECT (lit "instance") 2]] 5 (fun _ => [])
      [.CONTAINER 0, .OBJECT (lit "instance") 1] = some [.BOOL r] := by
  obtain ⟨r, -, hequal, -, -, -, hin⟩ := @one_equality .bare [] 5 alwaysEqual
    (.OBJECT (lit "instance") 1) (.OBJECT (lit "instance") 2) nofun trivial trivial (by decide) nofun
    (fun _ => []) []
  exact ⟨hequal, r, hin⟩

/-- With an `==` of its own an instance is equal to another, but not in an array. -/
theorem overload_not_in_array :
    ¬∀ (fpu : FloatUnit) (fuel : Nat) (members : Members) (a b : HeapValue),
      EQUAL fpu [] fuel members [b, a] = some [.BOOL true] →
      MEMBER_IN fpu [.ARRAY [b]] fuel (fun _ => []) [.CONTAINER 0, a] = some [.BOOL true] := by
  intro h
  have hin := h .bare 5 alwaysEqual (.OBJECT (lit "instance") 1) (.OBJECT (lit "instance") 2) rfl
  cases hin

end OneEquality

end EZLanguage
