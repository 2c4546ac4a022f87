import Mathlib.Logic.Function.Iterate
import Mathlib.Logic.Relation
import Mathlib.Data.List.Perm.Subperm

/-!
# Flood fill with a worklist

A fill marks nodes of a graph and keeps the marked nodes whose edges it has not followed on a stack.
Each node enters the stack at most once, when it is marked, so as many steps as there are nodes empty
the stack, and what is marked then is what the seeds lead to.
-/

namespace EZLanguage

namespace FloodFill

variable {Node : Type*} [DecidableEq Node]

/-- The marked nodes, and those of them whose edges are still to be followed. -/
structure Progress (Node : Type*) where
  marked : List Node
  worklist : List Node

/-- Mark a node the fill has come to. -/
def visit (p : Progress Node) (x : Node) : Progress Node :=
  if x ∈ p.marked then p else { marked := x :: p.marked, worklist := x :: p.worklist }

/-- Take a node off the worklist and follow its edges. -/
def step (edges : Node → List Node) (p : Progress Node) : Progress Node :=
  match p.worklist with
  | [] => p
  | x :: rest => (edges x).foldl visit { p with worklist := rest }

/-- The nodes marked after a number of steps. -/
def fill (edges : Node → List Node) (steps : Nat) (seeds : List Node) : List Node :=
  ((step edges)^[steps] { marked := seeds, worklist := seeds }).marked

/-- After a number of steps there is nothing left to follow. -/
def Finished (edges : Node → List Node) (steps : Nat) (seeds : List Node) : Prop :=
  ((step edges)^[steps] { marked := seeds, worklist := seeds }).worklist = []

/-- What a fill of the graph within `nodes` keeps. `pending` are the nodes whose edges are being
followed. -/
structure Sound (edges : Node → List Node) (nodes seeds : List Node) (pending : List Node)
    (p : Progress Node) : Prop where
  nodup : p.marked.Nodup
  within : ∀ x ∈ p.marked, x ∈ nodes
  work : ∀ x ∈ p.worklist, x ∈ p.marked
  seeded : ∀ x ∈ seeds, x ∈ p.marked
  reached : ∀ x ∈ p.marked, ∃ s ∈ seeds, Relation.ReflTransGen (fun a b => b ∈ edges a) s x
  closed : ∀ x ∈ p.marked, x ∉ p.worklist → x ∉ pending → ∀ y ∈ edges x, y ∈ p.marked

variable {edges : Node → List Node} {nodes seeds : List Node}

theorem mem_visit {p : Progress Node} {x y : Node} :
    y ∈ (visit p x).marked ↔ y = x ∨ y ∈ p.marked := by
  rw [visit]
  by_cases hx : x ∈ p.marked
  · rw [if_pos hx]
    constructor
    · exact Or.inr
    · rintro (rfl | hy)
      · exact hx
      · exact hy
  · rw [if_neg hx]
    exact List.mem_cons

/-- As many nodes stay followed: a visit marks as many nodes as it puts on the worklist. -/
theorem visit_length (p : Progress Node) (x : Node) :
    (visit p x).marked.length + p.worklist.length =
      p.marked.length + (visit p x).worklist.length := by
  rw [visit]
  by_cases hx : x ∈ p.marked
  · rw [if_pos hx]
  · rw [if_neg hx]
    simp only [List.length_cons]
    omega

theorem Sound.visit {pending : List Node} {p : Progress Node} {parent x : Node}
    (h : Sound edges nodes seeds pending p) (hfrom : parent ∈ p.marked) (hedge : x ∈ edges parent)
    (hx : x ∈ nodes) : Sound edges nodes seeds pending (visit p x) := by
  by_cases hmarked : x ∈ p.marked
  · rw [FloodFill.visit, if_pos hmarked]
    exact h
  · have hvisit : FloodFill.visit p x =
        { marked := x :: p.marked, worklist := x :: p.worklist } := by
      rw [FloodFill.visit, if_neg hmarked]
    rw [hvisit]
    refine ⟨List.nodup_cons.mpr ⟨hmarked, h.nodup⟩, ?_, ?_, ?_, ?_, ?_⟩
    · intro y hy
      rcases List.mem_cons.mp hy with rfl | hy
      · exact hx
      · exact h.within y hy
    · intro y hy
      rcases List.mem_cons.mp hy with rfl | hy
      · exact List.mem_cons_self
      · exact List.mem_cons_of_mem x (h.work y hy)
    · exact fun y hy => List.mem_cons_of_mem x (h.seeded y hy)
    · intro y hy
      rcases List.mem_cons.mp hy with rfl | hy
      · obtain ⟨s, hs, hpath⟩ := h.reached parent hfrom
        exact ⟨s, hs, hpath.tail hedge⟩
      · exact h.reached y hy
    · intro y hy hwork hpending z hz
      rcases List.mem_cons.mp hy with rfl | hy
      · exact absurd List.mem_cons_self hwork
      · have hrest : y ∉ p.worklist := fun hin => hwork (List.mem_cons_of_mem x hin)
        exact List.mem_cons_of_mem x (h.closed y hy hrest hpending z hz)

theorem foldl_visit_marked (targets : List Node) (p : Progress Node) (y : Node) :
    y ∈ (targets.foldl visit p).marked ↔ y ∈ targets ∨ y ∈ p.marked := by
  induction targets generalizing p with
  | nil => simp
  | cons x rest ih =>
      rw [List.foldl_cons, ih, mem_visit, List.mem_cons]
      tauto

theorem foldl_visit_length (targets : List Node) (p : Progress Node) :
    (targets.foldl visit p).marked.length + p.worklist.length =
      p.marked.length + (targets.foldl visit p).worklist.length := by
  induction targets generalizing p with
  | nil => rfl
  | cons x rest ih =>
      have hrest := ih (FloodFill.visit p x)
      have hvisit := visit_length p x
      rw [List.foldl_cons]
      omega

theorem Sound.foldl_visit {pending : List Node} {p : Progress Node} {parent : Node}
    (targets : List Node) (h : Sound edges nodes seeds pending p) (hfrom : parent ∈ p.marked)
    (hedges : ∀ x ∈ targets, x ∈ edges parent) (hwithin : ∀ x ∈ targets, x ∈ nodes) :
    Sound edges nodes seeds pending (targets.foldl FloodFill.visit p) := by
  induction targets generalizing p with
  | nil => exact h
  | cons x rest ih =>
      refine ih (h.visit hfrom (hedges x List.mem_cons_self) (hwithin x List.mem_cons_self))
        (mem_visit.mpr (Or.inr hfrom)) ?_ ?_
      · exact fun y hy => hedges y (List.mem_cons_of_mem x hy)
      · exact fun y hy => hwithin y (List.mem_cons_of_mem x hy)

/-- A step keeps the fill sound and follows one more node. -/
theorem Sound.step {p : Progress Node} (hgraph : ∀ x ∈ nodes, ∀ y ∈ edges x, y ∈ nodes)
    (h : Sound edges nodes seeds [] p) : Sound edges nodes seeds [] (step edges p) := by
  rw [FloodFill.step]
  cases hwork : p.worklist with
  | nil => exact h
  | cons x rest =>
      have hx : x ∈ p.marked := h.work x (hwork ▸ List.mem_cons_self)
      have htaken : Sound edges nodes seeds [x] { p with worklist := rest } := by
        refine ⟨h.nodup, h.within, ?_, h.seeded, h.reached, ?_⟩
        · exact fun y hy => h.work y (hwork ▸ List.mem_cons_of_mem x hy)
        · intro y hy hrest hpending
          refine h.closed y hy ?_ List.not_mem_nil
          rw [hwork, List.mem_cons]
          rintro (rfl | hin)
          · exact hpending (List.mem_singleton.mpr rfl)
          · exact hrest hin
      have hfold := htaken.foldl_visit (edges x) hx (fun y hy => hy)
        (fun y hy => hgraph x (h.within x hx) y hy)
      refine { hfold with closed := ?_ }
      intro y hy hrest _ z hz
      by_cases hyx : y = x
      · subst hyx
        exact (foldl_visit_marked _ _ z).mpr (Or.inl hz)
      · exact hfold.closed y hy hrest (by simpa using hyx) z hz

theorem step_length (p : Progress Node) (h : p.worklist ≠ []) :
    (step edges p).marked.length + p.worklist.length =
      p.marked.length + (step edges p).worklist.length + 1 := by
  cases hwork : p.worklist with
  | nil => exact absurd hwork h
  | cons x rest =>
      have hfold := foldl_visit_length (edges x) { p with worklist := rest }
      rw [step, hwork]
      simp only [List.length_cons] at hfold ⊢
      omega

/-- After `steps` steps the worklist is empty, or that many nodes have been followed. -/
theorem followed_of_steps (steps : Nat) (p : Progress Node)
    (hp : p.worklist.length ≤ p.marked.length) :
    ((step edges)^[steps] p).worklist = [] ∨
      steps + ((step edges)^[steps] p).worklist.length ≤ ((step edges)^[steps] p).marked.length := by
  induction steps with
  | zero =>
      right
      rw [Function.iterate_zero_apply]
      omega
  | succ steps ih =>
      rw [Function.iterate_succ_apply']
      generalize (step edges)^[steps] p = q at ih ⊢
      by_cases hempty : q.worklist = []
      · left
        rw [step, hempty]
        exact hempty
      · right
        have hstep : (step edges q).marked.length + q.worklist.length =
            q.marked.length + (step edges q).worklist.length + 1 := step_length q hempty
        have hfollowed := ih.resolve_left hempty
        omega

theorem Sound.iterate {p : Progress Node} (hgraph : ∀ x ∈ nodes, ∀ y ∈ edges x, y ∈ nodes)
    (h : Sound edges nodes seeds [] p) (steps : Nat) :
    Sound edges nodes seeds [] ((FloodFill.step edges)^[steps] p) := by
  induction steps with
  | zero => exact h
  | succ steps ih =>
      rw [Function.iterate_succ_apply']
      exact ih.step hgraph

theorem sound_of_steps (hseeds : seeds.Nodup) (hwithin : ∀ x ∈ seeds, x ∈ nodes)
    (hgraph : ∀ x ∈ nodes, ∀ y ∈ edges x, y ∈ nodes) (steps : Nat) :
    Sound edges nodes seeds []
      ((FloodFill.step edges)^[steps] { marked := seeds, worklist := seeds }) := by
  apply Sound.iterate hgraph
  exact ⟨hseeds, hwithin, fun _ hy => hy, fun _ hy => hy, fun y hy => ⟨y, hy, .refl⟩,
    fun y hy hwork => absurd hy hwork⟩

/-- One step a node is enough. -/
theorem finished (hseeds : seeds.Nodup) (hwithin : ∀ x ∈ seeds, x ∈ nodes)
    (hgraph : ∀ x ∈ nodes, ∀ y ∈ edges x, y ∈ nodes) : Finished edges nodes.length seeds := by
  have hend := sound_of_steps hseeds hwithin hgraph nodes.length
  refine (followed_of_steps nodes.length _ (Nat.le_refl _)).elim id fun hfollowed => ?_
  have hfits := (List.subperm_of_subset hend.nodup hend.within).length_le
  exact List.eq_nil_of_length_eq_zero (by omega)

/-- With one step a node, the fill marks the nodes that the seeds lead to. -/
theorem mem_fill_iff (hseeds : seeds.Nodup) (hwithin : ∀ x ∈ seeds, x ∈ nodes)
    (hgraph : ∀ x ∈ nodes, ∀ y ∈ edges x, y ∈ nodes) (x : Node) :
    x ∈ fill edges nodes.length seeds ↔
      ∃ s ∈ seeds, Relation.ReflTransGen (fun a b => b ∈ edges a) s x := by
  have hend := sound_of_steps hseeds hwithin hgraph nodes.length
  have hempty : _ = [] := finished hseeds hwithin hgraph
  constructor
  · exact hend.reached x
  · rintro ⟨s, hs, hpath⟩
    induction hpath with
    | refl => exact hend.seeded s hs
    | tail _ hedge ih => exact hend.closed _ ih (hempty ▸ List.not_mem_nil) List.not_mem_nil _ hedge

end FloodFill

end EZLanguage
