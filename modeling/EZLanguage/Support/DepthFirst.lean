import Mathlib.Data.List.Basic
import Mathlib.Data.List.Nodup
import Mathlib.Logic.Relation

/-!
# Depth first traversal

A recursive traversal of a graph that marks a node before it goes on to its successors. Finding the
successors may fail, which ends the traversal. The fuel bounds the depth of the recursion; a finite graph
needs no more than one for each of its nodes.
-/

namespace EZLanguage

namespace DepthFirst

variable {Node ε : Type*} [DecidableEq Node] (edges : Node → Except ε (List Node))

/-- The marked nodes after a visit, in the order they were marked in. An error without a value is that the
fuel is used up. -/
def visit : Nat → Node → List Node → Except (Option ε) (List Node)
  | 0, _, _ => .error none
  | fuel + 1, x, marked =>
      if x ∈ marked then .ok marked
      else
        match edges x with
        | .error e => .error (some e)
        | .ok targets => targets.foldlM (fun marked y => visit fuel y marked) (marked ++ [x])

def visitAll (fuel : Nat) (targets : List Node) (marked : List Node) : Except (Option ε) (List Node) :=
  targets.foldlM (fun marked y => visit edges fuel y marked) marked

def Edge (x y : Node) : Prop := ∃ targets, edges x = .ok targets ∧ y ∈ targets

def Reachable : Node → Node → Prop := Relation.ReflTransGen (Edge edges)

/-- What a traversal from some nodes adds to the marked nodes: each of them once, all of them reachable,
with all their successors. -/
structure Grown (starts marked marked' : List Node) : Prop where
  extends_ : ∃ added, marked' = marked ++ added
  nodup : marked.Nodup → marked'.Nodup
  starts_marked : ∀ x ∈ starts, x ∈ marked'
  sound : ∀ y ∈ marked', y ∈ marked ∨ ∃ x ∈ starts, Reachable edges x y
  closed : ∀ y ∈ marked', y ∉ marked → ∃ targets, edges y = .ok targets ∧ ∀ z ∈ targets, z ∈ marked'

/-- The traversal fails only when finding successors does. -/
def Ends (starts marked : List Node) (result : Except (Option ε) (List Node)) : Prop :=
  (∃ e x, result = .error (some e) ∧ edges x = .error e ∧ ∃ y ∈ starts, Reachable edges y x) ∨
    ∃ marked', result = .ok marked' ∧ Grown edges starts marked marked'

variable {edges}

theorem visit_marked {fuel : Nat} {x : Node} {marked : List Node} (hx : x ∈ marked) :
    visit edges (fuel + 1) x marked = .ok marked := if_pos hx

theorem visit_error {fuel : Nat} {x : Node} {marked : List Node} {e : ε} (hx : x ∉ marked)
    (hedges : edges x = .error e) : visit edges (fuel + 1) x marked = .error (some e) :=
  (if_neg hx).trans (by rw [hedges])

theorem visit_ok {fuel : Nat} {x : Node} {marked targets : List Node} (hx : x ∉ marked)
    (hedges : edges x = .ok targets) :
    visit edges (fuel + 1) x marked = visitAll edges fuel targets (marked ++ [x]) :=
  (if_neg hx).trans (by rw [hedges]; rfl)

theorem Grown.subset {starts marked marked' : List Node} (h : Grown edges starts marked marked') :
    ∀ x ∈ marked, x ∈ marked' := by
  obtain ⟨added, rfl⟩ := h.extends_
  exact fun x hx => List.mem_append_left _ hx

theorem Grown.refl_of_mem {x : Node} {marked : List Node} (hx : x ∈ marked) :
    Grown edges [x] marked marked where
  extends_ := ⟨[], (List.append_nil _).symm⟩
  nodup := id
  starts_marked y hy := by rwa [List.mem_singleton.mp hy]
  sound y hy := Or.inl hy
  closed y hy hnot := absurd hy hnot

theorem Grown.nil (marked : List Node) : Grown edges [] marked marked where
  extends_ := ⟨[], (List.append_nil _).symm⟩
  nodup := id
  starts_marked y hy := absurd hy List.not_mem_nil
  sound y hy := Or.inl hy
  closed y hy hnot := absurd hy hnot

theorem Grown.cons {x : Node} {starts marked between marked' : List Node}
    (hfirst : Grown edges [x] marked between) (hrest : Grown edges starts between marked') :
    Grown edges (x :: starts) marked marked' where
  extends_ := by
    obtain ⟨added, rfl⟩ := hfirst.extends_
    obtain ⟨more, rfl⟩ := hrest.extends_
    exact ⟨added ++ more, List.append_assoc ..⟩
  nodup h := hrest.nodup (hfirst.nodup h)
  starts_marked y hy := by
    rcases List.mem_cons.mp hy with rfl | hy
    · exact hrest.subset _ (hfirst.starts_marked _ List.mem_cons_self)
    · exact hrest.starts_marked y hy
  sound y hy := by
    rcases hrest.sound y hy with hbetween | ⟨start, hstart, hreach⟩
    · rcases hfirst.sound y hbetween with hmarked | ⟨start, hstart, hreach⟩
      · exact Or.inl hmarked
      · exact Or.inr ⟨start, List.mem_cons.mpr (Or.inl (List.mem_singleton.mp hstart)), hreach⟩
    · exact Or.inr ⟨start, List.mem_cons_of_mem _ hstart, hreach⟩
  closed y hy hnot := by
    by_cases hbetween : y ∈ between
    · obtain ⟨targets, htargets, hall⟩ := hfirst.closed y hbetween hnot
      exact ⟨targets, htargets, fun z hz => hrest.subset z (hall z hz)⟩
    · exact hrest.closed y hy hbetween

/-- A node that was not marked, with all its successors. -/
theorem Grown.node {x : Node} {targets marked marked' : List Node} (hx : x ∉ marked)
    (hedges : edges x = .ok targets) (h : Grown edges targets (marked ++ [x]) marked') :
    Grown edges [x] marked marked' where
  extends_ := by
    obtain ⟨added, rfl⟩ := h.extends_
    exact ⟨[x] ++ added, List.append_assoc ..⟩
  nodup hnodup := by
    apply h.nodup
    rw [List.nodup_append]
    refine ⟨hnodup, List.nodup_singleton x, ?_⟩
    intro a ha b hb heq
    rw [List.mem_singleton.mp hb] at heq
    exact hx (heq ▸ ha)
  starts_marked y hy := by
    rw [List.mem_singleton.mp hy]
    exact h.subset x (List.mem_append_right _ List.mem_cons_self)
  sound y hy := by
    rcases h.sound y hy with hmarked | ⟨start, hstart, hreach⟩
    · rcases List.mem_append.mp hmarked with hmarked | hself
      · exact Or.inl hmarked
      · rw [List.mem_singleton.mp hself]
        exact Or.inr ⟨x, List.mem_cons_self, .refl⟩
    · exact Or.inr ⟨x, List.mem_cons_self, .head ⟨targets, hedges, hstart⟩ hreach⟩
  closed y hy hnot := by
    by_cases hself : y = x
    · rw [hself]
      exact ⟨targets, hedges, h.starts_marked⟩
    · apply h.closed y hy
      rw [List.mem_append, List.mem_singleton]
      exact fun hor => hor.elim hnot hself

/-- The nodes that are still to be marked. -/
def unmarked (nodes marked : List Node) : Nat := (nodes.filter fun x => x ∉ marked).length

theorem unmarked_mono {nodes marked marked' : List Node} (h : ∀ x ∈ marked, x ∈ marked') :
    unmarked nodes marked' ≤ unmarked nodes marked := by
  apply List.Sublist.length_le
  apply List.monotone_filter_right
  intro x hx
  simp only [decide_eq_true_eq] at hx ⊢
  exact fun hmem => hx (h x hmem)

theorem unmarked_lt {nodes marked : List Node} {x : Node} (hnode : x ∈ nodes) (hx : x ∉ marked) :
    unmarked nodes (marked ++ [x]) < unmarked nodes marked := by
  induction nodes with
  | nil => exact absurd hnode List.not_mem_nil
  | cons y nodes ih =>
      have hle : unmarked nodes (marked ++ [x]) ≤ unmarked nodes marked :=
        unmarked_mono fun z hz => List.mem_append_left _ hz
      unfold unmarked at ih hle ⊢
      by_cases hy : y = x
      · subst hy
        rw [List.filter_cons_of_neg (by simp), List.filter_cons_of_pos (by simpa using hx)]
        exact Nat.lt_succ_of_le hle
      · have hbelow := ih ((List.mem_cons.mp hnode).resolve_left (Ne.symm hy))
        by_cases hmem : y ∈ marked
        · rwa [List.filter_cons_of_neg (by simp [hmem]), List.filter_cons_of_neg (by simp [hmem])]
        · rw [List.filter_cons_of_pos (by simp [hmem, hy]), List.filter_cons_of_pos (by simp [hmem])]
          exact Nat.succ_lt_succ hbelow

variable {nodes : List Node}

theorem visitAll_ends {fuel : Nat}
    (hvisit : ∀ x ∈ nodes, ∀ marked, unmarked nodes marked < fuel →
      Ends edges [x] marked (visit edges fuel x marked))
    (starts : List Node) (hstarts : ∀ x ∈ starts, x ∈ nodes) (marked : List Node)
    (hfuel : unmarked nodes marked < fuel) :
    Ends edges starts marked (visitAll edges fuel starts marked) := by
  induction starts generalizing marked with
  | nil => exact Or.inr ⟨marked, rfl, Grown.nil marked⟩
  | cons x starts ih =>
      rw [visitAll, List.foldlM_cons]
      rcases hvisit x (hstarts x List.mem_cons_self) marked hfuel with
        ⟨e, y, herror, hedges, start, hstart, hreach⟩ | ⟨between, hok, hfirst⟩
      · rw [herror]
        exact Or.inl ⟨e, y, rfl, hedges, start,
          List.mem_cons.mpr (Or.inl (List.mem_singleton.mp hstart)), hreach⟩
      · rw [hok]
        rcases ih (fun y hy => hstarts y (List.mem_cons_of_mem _ hy)) between
            (Nat.lt_of_le_of_lt (unmarked_mono hfirst.subset) hfuel) with
          ⟨e, y, herror, hedges, start, hstart, hreach⟩ | ⟨marked', hok', hrest⟩
        · exact Or.inl ⟨e, y, herror, hedges, start, List.mem_cons_of_mem _ hstart, hreach⟩
        · exact Or.inr ⟨marked', hok', hfirst.cons hrest⟩

/-- A visit within a finite part of the graph that no edge leaves ends with the fuel for its nodes. -/
theorem visit_ends (hclosed : ∀ x ∈ nodes, ∀ y, Edge edges x y → y ∈ nodes) (fuel : Nat) :
    ∀ x ∈ nodes, ∀ marked, unmarked nodes marked < fuel →
      Ends edges [x] marked (visit edges fuel x marked) := by
  induction fuel with
  | zero => exact fun _ _ _ h => absurd h (Nat.not_lt_zero _)
  | succ fuel ih =>
      intro x hx marked hfuel
      by_cases hmem : x ∈ marked
      · rw [visit_marked hmem]
        exact Or.inr ⟨marked, rfl, Grown.refl_of_mem hmem⟩
      · cases hedges : edges x with
        | error e =>
            rw [visit_error hmem hedges]
            exact Or.inl ⟨e, x, rfl, hedges, x, List.mem_cons_self, .refl⟩
        | ok targets =>
            have hlt := unmarked_lt hx hmem
            have hall := visitAll_ends ih targets (fun y hy => hclosed x hx y ⟨targets, hedges, hy⟩)
              (marked ++ [x]) (by omega)
            rw [visit_ok hmem hedges]
            obtain ⟨e, y, herror, hfails, start, hstart, hreach⟩ | ⟨marked', hok, hgrown⟩ := hall
            · exact Or.inl ⟨e, y, herror, hfails, x, List.mem_cons_self,
                .head ⟨targets, hedges, hstart⟩ hreach⟩
            · exact Or.inr ⟨marked', hok, hgrown.node hmem hedges⟩

/-- From a marked node whose successors are the starts exactly the reachable nodes get marked. -/
theorem Grown.mem_iff {root : Node} {starts marked' : List Node}
    (hedges : edges root = .ok starts) (h : Grown edges starts [root] marked') (y : Node) :
    y ∈ marked' ↔ Reachable edges root y := by
  constructor
  · intro hy
    rcases h.sound y hy with hroot | ⟨start, hstart, hreach⟩
    · rw [List.mem_singleton.mp hroot]
      exact .refl
    · exact .head ⟨starts, hedges, hstart⟩ hreach
  · intro hreach
    induction hreach with
    | refl => exact h.subset root List.mem_cons_self
    | @tail y z _ hedge ih =>
        obtain ⟨targets, htargets, hz⟩ := hedge
        by_cases hroot : y = root
        · subst hroot
          rw [htargets] at hedges
          cases hedges
          exact h.starts_marked z hz
        · obtain ⟨targets', htargets', hall⟩ := h.closed y ih (by simpa using hroot)
          rw [htargets] at htargets'
          cases htargets'
          exact hall z hz

end DepthFirst

end EZLanguage
