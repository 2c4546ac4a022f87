import Mathlib.Algebra.GroupWithZero.Nat
import Mathlib.Algebra.Group.Int.Defs
import EZLanguage.Bytecode.Chunk
import Mathlib.Data.List.Induction
import Mathlib.Logic.Relation

/-!
# Rope strings

A string value is short, on the heap, or a concatenation whose text is made when it is first asked for.
`doAdd` makes one node for a concatenation; `flattenConcatString` walks the nodes with a stack of its own
and keeps the text in the node it started from.
-/

namespace EZLanguage

namespace Rope

/-- `Value`, of the kinds `isString` knows. A node is named by its place in the order of allocation. -/
inductive StringValue where
  | SHORT_STRING (s : { s : CString // s.length < 14 })
  | STRING (s : CString)
  | CONCAT_STRING (r : Nat)

/-- `EZConcatString`. -/
structure EZConcatString where
  left : StringValue
  right : StringValue
  length : Nat
  /-- `isFlattened`, with the text. -/
  flattened : Option CString

/-- The nodes there are, the oldest first. -/
abbrev Nodes := List EZConcatString

/-! ### The operations -/

/-- `stringLength`. -/
def stringLength (nodes : Nodes) : StringValue → Nat
  | .SHORT_STRING s => s.val.length
  | .STRING s => s.length
  | .CONCAT_STRING r =>
      match nodes[r]? with
      | some cs => cs.length
      | none => 0

/-- 4 GiB. -/
def kMaxStringBytes : Nat := 2 ^ 32

/-- `doAdd` on two strings. None where the result is too large. -/
def doAdd (nodes : Nodes) (a b : StringValue) : Option (StringValue × Nodes) :=
  let la := stringLength nodes a
  let lb := stringLength nodes b
  if kMaxStringBytes < lb ∨ kMaxStringBytes - lb < la then none
  else
    some (.CONCAT_STRING nodes.length,
      nodes ++ [{ left := a, right := b, length := la + lb, flattened := none }])

/-- The loop of `flattenConcatString`: the stack, the top first, and the bytes before `offset`. -/
structure Walk where
  stack : List StringValue
  written : CString

/-- How the walk ends: out of its own memory or with the buffer. -/
inductive Ended where
  | overrun
  | result (s : CString)

/-- `memcpy`, behind the check of the bounds. -/
def Walk.write (size : Nat) (s : CString) (w : Walk) : Except Ended Walk :=
  if size < w.written.length + s.length then .error .overrun
  else .ok { w with written := w.written ++ s }

/-- One round of the loop. The buffer was zeroed by `resize`. -/
def Walk.round (nodes : Nodes) (size : Nat) (w : Walk) : Except Ended Walk :=
  match w.stack with
  | [] => .error (.result (w.written ++ List.replicate (size - w.written.length) 0))
  | val :: stack =>
      let w := { w with stack }
      match val with
      | .CONCAT_STRING r =>
          match nodes[r]? with
          | none => .ok w
          | some cs =>
              match cs.flattened with
              | some s => w.write size s
              | none => .ok { w with stack := cs.left :: cs.right :: stack }
      | .STRING s => w.write size s
      | .SHORT_STRING s => w.write size s.val

/-- The loop, for so many rounds at most. -/
def Walk.loop (nodes : Nodes) (size : Nat) : Nat → Walk → Option Ended
  | 0, _ => none
  | rounds + 1, w =>
      match w.round nodes size with
      | .ok w => w.loop nodes size rounds
      | .error ended => some ended

/-- `flattenConcatString`, of which the loop does so many rounds at most. Nothing is left behind by an
overrun, which is thrown. -/
def flattenConcatString (rounds : Nat) (nodes : Nodes) (r : Nat) : Option (Ended × Nodes) :=
  match nodes[r]? with
  | none => none
  | some cs =>
      match cs.flattened with
      | some s => some (.result s, nodes)
      | none =>
          match Walk.loop nodes cs.length rounds { stack := [.CONCAT_STRING r], written := [] } with
          | none => none
          | some .overrun => some (.overrun, nodes)
          | some (.result s) => some (.result s, nodes.set r { cs with flattened := some s })

/-- `asString`, and `asStringPtr`. -/
def asString (rounds : Nat) (nodes : Nodes) : StringValue → Option (Ended × Nodes)
  | .SHORT_STRING s => some (.result s.val, nodes)
  | .STRING s => some (.result s, nodes)
  | .CONCAT_STRING r => flattenConcatString rounds nodes r

/-! ### Folds over shared nodes -/

variable {β : Type}

/-- A fold of a value, where the folds of the nodes are known. -/
def StringValue.foldIn (leaf : CString → β) (known : List β) : StringValue → β
  | .SHORT_STRING s => leaf s.val
  | .STRING s => leaf s
  | .CONCAT_STRING r => (known[r]?).getD (leaf [])

/-- The folds of all nodes, each over older ones. -/
def foldNodes (leaf : CString → β) (join : β → β → β) (nodes : Nodes) : List β :=
  nodes.foldl (fun known cs => known ++ [join (cs.left.foldIn leaf known) (cs.right.foldIn leaf known)])
    []

/-- The fold of a value over the tree that its nodes stand for. -/
def fold (leaf : CString → β) (join : β → β → β) (nodes : Nodes) (v : StringValue) : β :=
  v.foldIn leaf (foldNodes leaf join nodes)

/-- The value is a leaf or one of the first so many nodes. -/
def StringValue.Below (n : Nat) : StringValue → Prop
  | .CONCAT_STRING r => r < n
  | _ => True

theorem StringValue.Below.mono {m n : Nat} (hmn : m ≤ n) {v : StringValue} (hv : v.Below m) :
    v.Below n := by
  cases v with
  | SHORT_STRING s => trivial
  | STRING s => trivial
  | CONCAT_STRING r => exact Nat.lt_of_lt_of_le hv hmn

/-- Nodes are made of older values. -/
def Acyclic (nodes : Nodes) : Prop :=
  ∀ (r : Nat) (cs : EZConcatString), nodes[r]? = some cs → cs.left.Below r ∧ cs.right.Below r

section Fold

variable {leaf : CString → β} {join : β → β → β} {nodes : Nodes}

theorem foldNodes_concat (cs : EZConcatString) :
    foldNodes leaf join (nodes ++ [cs]) =
      foldNodes leaf join nodes ++ [join (fold leaf join nodes cs.left) (fold leaf join nodes cs.right)] := by
  rw [foldNodes, List.foldl_append]
  rfl

theorem foldNodes_length : (foldNodes leaf join nodes).length = nodes.length := by
  induction nodes using List.reverseRecOn with
  | nil => rfl
  | append_singleton nodes cs ih =>
      rw [foldNodes_concat, List.length_append, List.length_append, ih]
      rfl

/-- A new node changes the fold of no older value. -/
theorem fold_concat {v : StringValue} (hv : v.Below nodes.length) (cs : EZConcatString) :
    fold leaf join (nodes ++ [cs]) v = fold leaf join nodes v := by
  cases v with
  | SHORT_STRING s => rfl
  | STRING s => rfl
  | CONCAT_STRING r =>
      have hr : r < (foldNodes leaf join nodes).length := by
        rw [foldNodes_length]
        exact hv
      rw [fold, fold, foldNodes_concat, StringValue.foldIn, StringValue.foldIn,
        List.getElem?_append_left hr]

/-- The fold looks at the children alone. -/
theorem fold_congr {nodes' : Nodes}
    (hsame : nodes.map (fun cs => (cs.left, cs.right)) = nodes'.map fun cs => (cs.left, cs.right)) :
    fold leaf join nodes = fold leaf join nodes' := by
  have hfold : ∀ nodes : Nodes, foldNodes leaf join nodes =
      (nodes.map fun cs => (cs.left, cs.right)).foldl
        (fun known c => known ++ [join (c.1.foldIn leaf known) (c.2.foldIn leaf known)]) [] := by
    intro nodes
    rw [List.foldl_map]
    rfl
  funext v
  rw [fold, fold, hfold, hfold, hsame]

/-- The fold of a node joins those of its children. -/
theorem fold_node (hacyclic : Acyclic nodes) {r : Nat} {cs : EZConcatString}
    (hcs : nodes[r]? = some cs) :
    fold leaf join nodes (.CONCAT_STRING r) =
      join (fold leaf join nodes cs.left) (fold leaf join nodes cs.right) := by
  induction nodes using List.reverseRecOn with
  | nil => cases hcs
  | append_singleton nodes last ih =>
      have hbelow : Acyclic nodes := by
        intro r cs hcs
        have hr := (List.getElem?_eq_some_iff.1 hcs).1
        exact hacyclic r cs (by rw [List.getElem?_append_left hr, hcs])
      by_cases hr : r < nodes.length
      · rw [List.getElem?_append_left hr] at hcs
        obtain ⟨hleft, hright⟩ := hbelow r cs hcs
        rw [fold_concat (v := .CONCAT_STRING r) hr, ih hbelow hcs, fold_concat (hleft.mono (Nat.le_of_lt hr)),
          fold_concat (hright.mono (Nat.le_of_lt hr))]
      · have hlt := (List.getElem?_eq_some_iff.1 hcs).1
        rw [List.length_append, List.length_singleton] at hlt
        obtain rfl : r = nodes.length := by omega
        obtain ⟨hleft, hright⟩ := hacyclic _ cs hcs
        rw [List.getElem?_append_right (Nat.le_refl _), Nat.sub_self] at hcs
        obtain rfl : last = cs := Option.some.inj hcs
        rw [fold_concat hleft, fold_concat hright, fold, StringValue.foldIn, foldNodes_concat,
          List.getElem?_append_right (Nat.le_of_eq foldNodes_length), foldNodes_length, Nat.sub_self]
        rfl

end Fold

/-! ### Leaves -/

/-- The leaves of a value from left to right. -/
def leaves : Nodes → StringValue → List CString := fold (fun s => [s]) fun l r => l ++ r

/-- The text of a value. -/
def text (nodes : Nodes) (v : StringValue) : CString := (leaves nodes v).flatten

/-- The rounds of a walk from a value that meets no text made before. -/
def rounds : Nodes → StringValue → Nat := fold (fun _ => 1) fun l r => 1 + (l + r)

theorem text_node {nodes : Nodes} (hacyclic : Acyclic nodes) {r : Nat} {cs : EZConcatString}
    (hcs : nodes[r]? = some cs) :
    text nodes (.CONCAT_STRING r) = text nodes cs.left ++ text nodes cs.right := by
  rw [text, leaves, fold_node hacyclic hcs, List.flatten_append]
  rfl

theorem rounds_node {nodes : Nodes} (hacyclic : Acyclic nodes) {r : Nat} {cs : EZConcatString}
    (hcs : nodes[r]? = some cs) :
    rounds nodes (.CONCAT_STRING r) = 1 + (rounds nodes cs.left + rounds nodes cs.right) :=
  fold_node hacyclic hcs

/-! ### The invariant -/

/-- What holds of the nodes: they are made of older values, every cached length is that of the text, and
so is every text that was made. -/
structure Sound (nodes : Nodes) : Prop where
  acyclic : Acyclic nodes
  length_eq : ∀ (r : Nat) (cs : EZConcatString), nodes[r]? = some cs →
    cs.length = (text nodes (.CONCAT_STRING r)).length
  bounded : ∀ (r : Nat) (cs : EZConcatString), nodes[r]? = some cs → cs.length ≤ kMaxStringBytes
  flattened_eq : ∀ (r : Nat) (cs : EZConcatString) s, nodes[r]? = some cs → cs.flattened = some s →
    s = text nodes (.CONCAT_STRING r)

namespace Sound

variable {nodes : Nodes}

theorem empty : Sound [] where
  acyclic := by
    rintro r cs ⟨⟩
  length_eq := by
    rintro r cs ⟨⟩
  bounded := by
    rintro r cs ⟨⟩
  flattened_eq := by
    rintro r cs s ⟨⟩

/-- `stringLength` is the length of the text. -/
theorem stringLength_eq (h : Sound nodes) {v : StringValue} (hv : v.Below nodes.length) :
    stringLength nodes v = (text nodes v).length := by
  cases v with
  | SHORT_STRING s => simp [stringLength, text, leaves, fold, StringValue.foldIn]
  | STRING s => simp [stringLength, text, leaves, fold, StringValue.foldIn]
  | CONCAT_STRING r =>
      obtain ⟨cs, hcs⟩ : ∃ cs, nodes[r]? = some cs := ⟨_, List.getElem?_eq_getElem hv⟩
      rw [stringLength, hcs]
      exact h.length_eq r cs hcs

/-- A concatenation is a new node, with the text of the left operand before that of the right one. -/
theorem doAdd (h : Sound nodes) {a b v : StringValue} {nodes' : Nodes} (ha : a.Below nodes.length)
    (hb : b.Below nodes.length) (hadd : doAdd nodes a b = some (v, nodes')) :
    Sound nodes' ∧ v.Below nodes'.length ∧ text nodes' v = text nodes a ++ text nodes b := by
  unfold Rope.doAdd at hadd
  dsimp only at hadd
  split at hadd
  · cases hadd
  rename_i hsmall
  simp only [Option.some.injEq, Prod.mk.injEq] at hadd
  obtain ⟨rfl, hnodes⟩ := hadd
  obtain ⟨new, hnew⟩ : ∃ new : EZConcatString,
      new = ⟨a, b, stringLength nodes a + stringLength nodes b, none⟩ := ⟨_, rfl⟩
  rw [← hnew] at hnodes
  subst hnodes
  have hat : (nodes ++ [new])[nodes.length]? = some new := by
    rw [List.getElem?_append_right (Nat.le_refl _), Nat.sub_self]
    rfl
  -- a node is an older one or the new one
  have hcases : ∀ (r : Nat) (cs : EZConcatString), (nodes ++ [new])[r]? = some cs →
      r < nodes.length ∧ nodes[r]? = some cs ∨ r = nodes.length ∧ new = cs := by
    intro r cs hcs
    by_cases hr : r < nodes.length
    · rw [List.getElem?_append_left hr] at hcs
      exact .inl ⟨hr, hcs⟩
    · have hlt := (List.getElem?_eq_some_iff.1 hcs).1
      rw [List.length_append, List.length_singleton] at hlt
      obtain rfl : r = nodes.length := by omega
      rw [hat] at hcs
      exact .inr ⟨rfl, Option.some.inj hcs⟩
  have hacyclic : Acyclic (nodes ++ [new]) := by
    intro r cs hcs
    obtain ⟨-, hold⟩ | ⟨rfl, rfl⟩ := hcases r cs hcs
    · exact h.acyclic r cs hold
    · rw [hnew]
      exact ⟨ha, hb⟩
  have hstays : ∀ {w : StringValue}, w.Below nodes.length → text (nodes ++ [new]) w = text nodes w := by
    intro w hw
    rw [text, leaves, fold_concat hw]
    rfl
  have htext : text (nodes ++ [new]) (.CONCAT_STRING nodes.length) = text nodes a ++ text nodes b := by
    have hleft : new.left = a := by rw [hnew]
    have hright : new.right = b := by rw [hnew]
    rw [text_node hacyclic hat, hleft, hright, hstays ha, hstays hb]
  have hlengths : new.length = (text nodes a).length + (text nodes b).length := by
    rw [hnew, ← h.stringLength_eq ha, ← h.stringLength_eq hb]
  refine ⟨⟨hacyclic, ?_, ?_, ?_⟩, ?_, htext⟩
  · intro r cs hcs
    obtain ⟨hr, hold⟩ | ⟨rfl, rfl⟩ := hcases r cs hcs
    · rw [hstays (w := .CONCAT_STRING r) hr]
      exact h.length_eq r cs hold
    · rw [htext, hlengths, List.length_append]
  · intro r cs hcs
    obtain ⟨-, hold⟩ | ⟨rfl, rfl⟩ := hcases r cs hcs
    · exact h.bounded r cs hold
    · rw [hnew]
      dsimp only
      omega
  · intro r cs s hcs hs
    obtain ⟨hr, hold⟩ | ⟨rfl, rfl⟩ := hcases r cs hcs
    · rw [hstays (w := .CONCAT_STRING r) hr]
      exact h.flattened_eq r cs s hold hs
    · rw [hnew] at hs
      cases hs
  · rw [List.length_append, List.length_singleton]
    exact Nat.lt_succ_self _

/-! ### The walk -/

/-- The text still to be written. -/
def remaining (nodes : Nodes) (stack : List StringValue) : CString :=
  (stack.map (text nodes)).flatten

theorem write_fits {size : Nat} {s more : CString} (w : Walk)
    (hsize : w.written.length + (s ++ more).length = size) :
    w.write size s = .ok { w with written := w.written ++ s } := by
  rw [List.length_append] at hsize
  rw [Walk.write, if_neg (by omega)]

/-- A round writes the next text or opens the next node, and what is written with what remains stays the
same. -/
theorem round_spec (h : Sound nodes) {size : Nat} {val : StringValue} {stack : List StringValue}
    {written : CString} (hbelow : ∀ v ∈ val :: stack, v.Below nodes.length)
    (hsize : (written ++ remaining nodes (val :: stack)).length = size) :
    ∃ w : Walk, Walk.round nodes size { stack := val :: stack, written } = .ok w ∧
      (∀ v ∈ w.stack, v.Below nodes.length) ∧
      w.written ++ remaining nodes w.stack = written ++ remaining nodes (val :: stack) ∧
      (w.stack.map (rounds nodes)).sum < ((val :: stack).map (rounds nodes)).sum := by
  have hstack : ∀ v ∈ stack, v.Below nodes.length := fun v hv => hbelow v (List.mem_cons_of_mem _ hv)
  have hremaining : remaining nodes (val :: stack) = text nodes val ++ remaining nodes stack := rfl
  -- where the text of the value is written whole
  have hwritten : ∀ s, s = text nodes val → 0 < rounds nodes val →
      ∃ w : Walk, Walk.write size s { stack, written } = .ok w ∧
        (∀ v ∈ w.stack, v.Below nodes.length) ∧
        w.written ++ remaining nodes w.stack = written ++ remaining nodes (val :: stack) ∧
        (w.stack.map (rounds nodes)).sum < ((val :: stack).map (rounds nodes)).sum := by
    rintro s rfl hpos
    rw [hremaining] at hsize ⊢
    rw [List.length_append] at hsize
    refine ⟨_, write_fits _ hsize, hstack, ?_, ?_⟩
    · exact List.append_assoc _ _ _
    · rw [List.map_cons, List.sum_cons]
      exact Nat.lt_add_of_pos_left hpos
  cases val with
  | SHORT_STRING s => exact hwritten s.val (List.append_nil _).symm Nat.one_pos
  | STRING s => exact hwritten s (List.append_nil _).symm Nat.one_pos
  | CONCAT_STRING r =>
      have hr : r < nodes.length := hbelow _ List.mem_cons_self
      obtain ⟨cs, hcs⟩ : ∃ cs, nodes[r]? = some cs := ⟨_, List.getElem?_eq_getElem hr⟩
      have hrounds := rounds_node h.acyclic hcs
      unfold Walk.round
      simp only [hcs]
      cases hflat : cs.flattened with
      | some s => exact hwritten s (h.flattened_eq r cs s hcs hflat) (by omega)
      | none =>
          obtain ⟨hleft, hright⟩ := h.acyclic r cs hcs
          refine ⟨_, rfl, ?_, ?_, ?_⟩
          · intro v hv
            obtain rfl | hv := List.mem_cons.1 hv
            · exact hleft.mono (Nat.le_of_lt hr)
            · obtain rfl | hv := List.mem_cons.1 hv
              · exact hright.mono (Nat.le_of_lt hr)
              · exact hstack v hv
          · rw [hremaining, text_node h.acyclic hcs]
            simp only [remaining, List.map_cons, List.flatten_cons, List.append_assoc]
          · simp only [List.map_cons, List.sum_cons, hrounds]
            omega

/-- The walk ends with the whole text in the buffer, which it fills. -/
theorem loop_spec (h : Sound nodes) (size fuel : Nat) : ∀ {w : Walk},
    (∀ v ∈ w.stack, v.Below nodes.length) → (w.written ++ remaining nodes w.stack).length = size →
    (w.stack.map (rounds nodes)).sum < fuel →
    w.loop nodes size fuel = some (.result (w.written ++ remaining nodes w.stack)) := by
  induction fuel with
  | zero =>
      intro w _ _ hfuel
      omega
  | succ fuel ih =>
      rintro ⟨stack, written⟩ hbelow hsize hfuel
      rw [Walk.loop]
      cases stack with
      | nil =>
          have hlength : written.length = size := by
            simpa [remaining] using hsize
          simp [Walk.round, remaining, hlength]
      | cons val stack =>
          obtain ⟨w, hround, hbelow', htext, hless⟩ := h.round_spec hbelow hsize
          rw [hround]
          dsimp only
          rw [← htext] at hsize ⊢
          apply ih hbelow' hsize
          simp only at hfuel
          omega

/-- The walk needs no more rounds than there are nodes and leaves in the tree. -/
theorem loop_mono {nodes : Nodes} {size fuel more : Nat} {w : Walk} {ended : Ended}
    (hends : w.loop nodes size fuel = some ended) : w.loop nodes size (fuel + more) = some ended := by
  induction fuel generalizing w with
  | zero => cases hends
  | succ fuel ih =>
      rw [Nat.add_right_comm, Walk.loop]
      rw [Walk.loop] at hends
      cases hround : w.round nodes size with
      | ok w =>
          rw [hround] at hends
          exact ih hends
      | error e =>
          rw [hround] at hends
          exact hends

/-- Where the text of a node is kept, everything but that is as before. -/
theorem keep (h : Sound nodes) {r : Nat} {cs : EZConcatString} (hcs : nodes[r]? = some cs) :
    let nodes' := nodes.set r { cs with flattened := some (text nodes (.CONCAT_STRING r)) }
    Sound nodes' ∧ leaves nodes' = leaves nodes := by
  intro nodes'
  have hr : r < nodes.length := (List.getElem?_eq_some_iff.1 hcs).1
  have hat : ∀ (q : Nat) (cs' : EZConcatString), nodes'[q]? = some cs' →
      ∃ old, nodes[q]? = some old ∧ cs'.left = old.left ∧ cs'.right = old.right ∧
        cs'.length = old.length ∧
        (cs'.flattened = old.flattened ∨ cs'.flattened = some (text nodes (.CONCAT_STRING q))) := by
    intro q cs' hcs'
    by_cases hq : r = q
    · subst hq
      rw [List.getElem?_set_self hr] at hcs'
      obtain rfl := Option.some.inj hcs'
      exact ⟨cs, hcs, rfl, rfl, rfl, .inr rfl⟩
    · rw [List.getElem?_set_ne hq] at hcs'
      exact ⟨cs', hcs', rfl, rfl, rfl, .inl rfl⟩
  have hsame : nodes'.map (fun cs => (cs.left, cs.right)) = nodes.map fun cs => (cs.left, cs.right) := by
    rw [List.map_set]
    apply List.ext_getElem?
    intro q
    by_cases hq : r = q
    · subst hq
      rw [List.getElem?_set_self (by rwa [List.length_map]), List.getElem?_map, hcs]
      rfl
    · rw [List.getElem?_set_ne hq]
  have hleaves : leaves nodes' = leaves nodes := fold_congr hsame
  have htext : text nodes' = text nodes := by
    funext v
    rw [text, text, hleaves]
  refine ⟨⟨?_, ?_, ?_, ?_⟩, hleaves⟩
  · intro q cs' hcs'
    obtain ⟨old, hold, hleft, hright, -, -⟩ := hat q cs' hcs'
    rw [hleft, hright]
    exact h.acyclic q old hold
  · intro q cs' hcs'
    obtain ⟨old, hold, -, -, hlength, -⟩ := hat q cs' hcs'
    rw [hlength, htext]
    exact h.length_eq q old hold
  · intro q cs' hcs'
    obtain ⟨old, hold, -, -, hlength, -⟩ := hat q cs' hcs'
    rw [hlength]
    exact h.bounded q old hold
  · intro q cs' s hcs' hs
    obtain ⟨old, hold, -, -, -, hkept | hmade⟩ := hat q cs' hcs'
    · rw [htext]
      exact h.flattened_eq q old s hold (hkept.symm.trans hs)
    · rw [htext]
      exact Option.some.inj (hs.symm.trans hmade)

/-- With enough rounds the text of a value is made. -/
theorem asString_ends (h : Sound nodes) {v : StringValue} (hv : v.Below nodes.length) {fuel : Nat}
    (hfuel : rounds nodes v < fuel) :
    ∃ nodes', asString fuel nodes v = some (.result (text nodes v), nodes') := by
  cases v with
  | SHORT_STRING s => exact ⟨nodes, by simp [asString, text, leaves, fold, StringValue.foldIn]⟩
  | STRING s => exact ⟨nodes, by simp [asString, text, leaves, fold, StringValue.foldIn]⟩
  | CONCAT_STRING r =>
      obtain ⟨cs, hcs⟩ : ∃ cs, nodes[r]? = some cs := ⟨_, List.getElem?_eq_getElem hv⟩
      rw [asString, flattenConcatString, hcs]
      dsimp only
      cases hflat : cs.flattened with
      | some s => exact ⟨nodes, by rw [h.flattened_eq r cs s hcs hflat]⟩
      | none =>
          have hremaining : remaining nodes [.CONCAT_STRING r] = text nodes (.CONCAT_STRING r) :=
            List.append_nil _
          have hloop := h.loop_spec cs.length fuel
            (w := { stack := [.CONCAT_STRING r], written := [] })
            (by
              intro w hw
              obtain rfl := List.mem_singleton.1 hw
              exact hv)
            (by
              rw [hremaining, List.nil_append]
              exact (h.length_eq r cs hcs).symm)
            hfuel
          rw [hloop, hremaining]
          exact ⟨_, rfl⟩

/-- However many rounds there are, what is made is the text, and nothing else changes. -/
theorem asString_result (h : Sound nodes) {v : StringValue} (hv : v.Below nodes.length) {fuel : Nat}
    {ended : Ended} {nodes' : Nodes} (hends : asString fuel nodes v = some (ended, nodes')) :
    ended = .result (text nodes v) ∧ Sound nodes' ∧ nodes'.length = nodes.length ∧
      leaves nodes' = leaves nodes := by
  cases v with
  | SHORT_STRING s =>
      cases hends
      exact ⟨by simp [text, leaves, fold, StringValue.foldIn], h, rfl, rfl⟩
  | STRING s =>
      cases hends
      exact ⟨by simp [text, leaves, fold, StringValue.foldIn], h, rfl, rfl⟩
  | CONCAT_STRING r =>
      obtain ⟨cs, hcs⟩ : ∃ cs, nodes[r]? = some cs := ⟨_, List.getElem?_eq_getElem hv⟩
      obtain ⟨hkeep, hleaves⟩ := h.keep hcs
      rw [asString, flattenConcatString, hcs] at hends
      dsimp only at hends
      cases hflat : cs.flattened with
      | some s =>
          rw [hflat] at hends
          cases hends
          exact ⟨by rw [h.flattened_eq r cs s hcs hflat], h, rfl, rfl⟩
      | none =>
          have hremaining : remaining nodes [.CONCAT_STRING r] = text nodes (.CONCAT_STRING r) :=
            List.append_nil _
          have hloop := h.loop_spec cs.length
            (fuel + (rounds nodes (.CONCAT_STRING r) + 1))
            (w := { stack := [.CONCAT_STRING r], written := [] })
            (by
              intro w hw
              obtain rfl := List.mem_singleton.1 hw
              exact hv)
            (by
              rw [hremaining, List.nil_append]
              exact (h.length_eq r cs hcs).symm)
            (by
              rw [List.map_singleton, List.sum_singleton]
              omega)
          rw [hflat] at hends
          dsimp only at hends
          cases hwalk : Walk.loop nodes cs.length fuel { stack := [.CONCAT_STRING r], written := [] } with
          | none =>
              rw [hwalk] at hends
              cases hends
          | some walked =>
              have hwalked := (loop_mono hwalk).symm.trans hloop
              obtain rfl := Option.some.inj hwalked
              rw [hwalk, hremaining] at hends
              cases hends
              exact ⟨rfl, hkeep, List.length_set, hleaves⟩

end Sound

/-! ### Runs -/

/-- A concatenation that is not too large, or the text of a value. -/
inductive Step : Nodes → Nodes → Prop
  | add {nodes nodes' : Nodes} {a b v : StringValue} (ha : a.Below nodes.length)
      (hb : b.Below nodes.length) (h : doAdd nodes a b = some (v, nodes')) : Step nodes nodes'
  | asString {nodes nodes' : Nodes} {v : StringValue} {fuel : Nat} {ended : Ended}
      (hv : v.Below nodes.length) (h : asString fuel nodes v = some (ended, nodes')) :
      Step nodes nodes'

/-- A step keeps the invariant, and the leaves of every value there is. -/
theorem Step.sound {nodes nodes' : Nodes} (hstep : Step nodes nodes') (h : Sound nodes) :
    Sound nodes' ∧ nodes.length ≤ nodes'.length ∧
      ∀ v : StringValue, v.Below nodes.length → leaves nodes' v = leaves nodes v := by
  cases hstep with
  | asString hv hends =>
      obtain ⟨-, hsound, hlength, hleaves⟩ := h.asString_result hv hends
      exact ⟨hsound, Nat.le_of_eq hlength.symm, fun w _ => by rw [hleaves]⟩
  | add ha hb hadd =>
      obtain ⟨hsound, -, -⟩ := h.doAdd ha hb hadd
      unfold doAdd at hadd
      dsimp only at hadd
      split at hadd
      · cases hadd
      · simp only [Option.some.injEq, Prod.mk.injEq] at hadd
        obtain ⟨rfl, rfl⟩ := hadd
        refine ⟨hsound, ?_, ?_⟩
        · rw [List.length_append]
          exact Nat.le_add_right _ _
        · intro w hw
          exact fold_concat hw _

theorem run_sound {nodes nodes' : Nodes} (hrun : Relation.ReflTransGen Step nodes nodes')
    (h : Sound nodes) :
    Sound nodes' ∧ nodes.length ≤ nodes'.length ∧
      ∀ v : StringValue, v.Below nodes.length → leaves nodes' v = leaves nodes v := by
  induction hrun with
  | refl => exact ⟨h, Nat.le_refl _, fun _ _ => rfl⟩
  | tail _ hstep ih =>
      obtain ⟨hsound, hlength, hleaves⟩ := ih
      obtain ⟨hsound', hlength', hleaves'⟩ := hstep.sound hsound
      refine ⟨hsound', Nat.le_trans hlength hlength', ?_⟩
      intro v hv
      rw [hleaves' v (hv.mono hlength), hleaves v hv]

/-- Whatever was concatenated and flattened before and is afterwards, a value has the text of its leaves
from left to right and that length, and the walk that makes the text ends and never runs over. -/
theorem text_of_run {nodes nodes' : Nodes} (hrun : Relation.ReflTransGen Step [] nodes)
    (hlater : Relation.ReflTransGen Step nodes nodes') {v : StringValue} (hv : v.Below nodes.length) :
    leaves nodes' v = leaves nodes v ∧
      stringLength nodes' v = (leaves nodes v).flatten.length ∧
      (∀ fuel, rounds nodes' v < fuel →
        ∃ after, asString fuel nodes' v = some (.result (leaves nodes v).flatten, after)) ∧
      (∀ fuel ended after, asString fuel nodes' v = some (ended, after) →
        ended = .result (leaves nodes v).flatten) ∧
      ∀ (w u : StringValue) (after : Nodes), w.Below nodes'.length → doAdd nodes' v w = some (u, after) →
        (leaves after u).flatten = (leaves nodes v).flatten ++ (leaves nodes' w).flatten := by
  obtain ⟨hsound, -, -⟩ := run_sound hrun Sound.empty
  obtain ⟨hsound', hlength, hleaves⟩ := run_sound hlater hsound
  have hv' : v.Below nodes'.length := hv.mono hlength
  have htext : text nodes' v = (leaves nodes v).flatten := by
    rw [text, hleaves v hv]
  refine ⟨hleaves v hv, ?_, ?_, ?_, ?_⟩
  · rw [← htext]
    exact hsound'.stringLength_eq hv'
  · intro fuel hfuel
    rw [← htext]
    exact hsound'.asString_ends hv' hfuel
  · intro fuel ended after hends
    rw [← htext]
    exact (hsound'.asString_result hv' hends).1
  · intro w u after hw hadd
    rw [← htext]
    exact (hsound'.doAdd hv' hw hadd).2.2

/-- "ab" + "cd", not asked for yet. -/
def ropeNode : EZConcatString := ⟨.STRING (lit "ab"), .STRING (lit "cd"), 4, none⟩

/-- The node is asked for its text and then used twice. -/
theorem text_of_run_shared :
    ∃ nodes : Nodes, leaves nodes (.CONCAT_STRING 1) =
        [lit "ab", lit "cd", lit "ab", lit "cd"] ∧
      stringLength nodes (.CONCAT_STRING 1) = 8 := by
  have hab : Step [] [ropeNode] :=
    @Step.add _ _ (.STRING (lit "ab")) (.STRING (lit "cd")) _ trivial trivial rfl
  have htext : Step [ropeNode] [{ ropeNode with flattened := some (lit "abcd") }] :=
    @Step.asString _ _ (.CONCAT_STRING 0) 4 _ Nat.one_pos rfl
  have habab : Step [{ ropeNode with flattened := some (lit "abcd") }] _ :=
    @Step.add _ _ (.CONCAT_STRING 0) (.CONCAT_STRING 0) _ Nat.one_pos Nat.one_pos rfl
  have hrun := ((Relation.ReflTransGen.single hab).tail htext).tail habab
  have hv : (StringValue.CONCAT_STRING 1).Below 2 := Nat.one_lt_two
  obtain ⟨hleaves, hlength, -⟩ := text_of_run hrun .refl hv
  exact ⟨_, hleaves, hlength⟩

end Rope

end EZLanguage
