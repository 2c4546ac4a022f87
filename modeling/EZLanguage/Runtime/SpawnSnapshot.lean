import EZLanguage.Runtime.SpawnWalk
import EZLanguage.Support.Pointwise

/-!
# When the copy is a snapshot

Cells are not in the table: the copy of a cell is made where an upvalue refers to it, so that a cell of two
upvalues becomes two cells. Plain values are not copied: a closure in an array still has the variables of
the parent.
-/

namespace EZLanguage

namespace Spawn

open Pointwise

variable {Closure Cell Plain : Type} {g : Graph Closure Cell Plain}
  {roots : List (Captured Closure Plain)} {roots' : List (Captured Nat Plain)}
  {s : Copy Closure Plain}

/-- The copy has come to its end. -/
structure Finished (g : Graph Closure Cell Plain) (roots : List (Captured Closure Plain))
    (roots' : List (Captured Nat Plain)) (s : Copy Closure Plain) : Prop where
  inv : Inv g (Reached g roots) s
  complete : ∀ r n, s.seen r = some n → Complete g s r n
  mapped : List.Forall₂ (Mapped s.seen) roots roots'

/-- The walk always comes to its end. -/
theorem closeAll_finished [DecidableEq Closure] [Fintype Closure] (g : Graph Closure Cell Plain)
    (roots : List (Captured Closure Plain)) :
    ∃ roots' s, closeAll g (Fintype.card Closure + 1) roots .empty = some (roots', s) ∧
      Finished g roots roots' s := by
  have hvisit : Visits g (Reached g roots) (Fintype.card Closure + 1)
      (closeUpvals g (Fintype.card Closure + 1)) :=
    closeUpvals_spec (fun r hr cell hcell r' hr' => .captured hr hcell hr') _
  have hunseen : unseen (Copy.empty : Copy Closure Plain) < Fintype.card Closure + 1 :=
    Nat.lt_succ_of_le (Finset.card_le_univ _)
  obtain ⟨roots', s, hrun, hinv, hgrows, hmapped⟩ :=
    closeAll_spec hvisit roots (fun v hv r hr => .root hv hr) Inv.empty hunseen
  exact ⟨roots', s, hrun, hinv, fun r n hr => hgrows.complete r n hr rfl, hmapped⟩

/-! ### The maps between the graphs -/

/-- The closure of the child for a closure of the parent. -/
def Copy.closureOf (s : Copy Closure Plain) (r : Closure) : Nat := (s.seen r).getD 0

/-- A cell of the child was made for an upvalue that is the cell of the parent. -/
def CopyOf (g : Graph Closure Cell Plain) (s : Copy Closure Plain) (cell : Cell) (u : Nat) : Prop :=
  ∃ r n i, s.seen r = some n ∧ (g.upvalues r)[i]? = some (some cell) ∧ s.At n i u

theorem closureOf_eq {r : Closure} {n : Nat} (hseen : s.seen r = some n) : s.closureOf r = n := by
  simp [Copy.closureOf, hseen]

theorem Mapped.seen_of_mem {seen : Closure → Option Nat} {v : Captured Closure Plain}
    {w : Captured Nat Plain} (hmapped : Mapped seen v w) {r : Closure} (hr : r ∈ v.closures) :
    ∃ n, seen r = some n := by
  induction v generalizing w with
  | closure r' =>
      cases w with
      | closure n => exact ⟨n, List.mem_singleton.mp hr ▸ hmapped⟩
      | _ => cases hmapped
  | boundMethod a b iha ihb =>
      cases w with
      | boundMethod a' b' =>
          obtain ha | hb := List.mem_append.mp hr
          · exact iha hmapped.1 ha
          · exact ihb hmapped.2 hb
      | _ => cases hmapped
  | plain v => cases hr

theorem Mapped.eq_map {v : Captured Closure Plain} {w : Captured Nat Plain}
    (hmapped : Mapped s.seen v w) : w = v.map s.closureOf := by
  induction v generalizing w with
  | closure r =>
      cases w with
      | closure n => exact congrArg Captured.closure (closureOf_eq hmapped).symm
      | _ => cases hmapped
  | boundMethod a b iha ihb =>
      cases w with
      | boundMethod a' b' =>
          rw [iha hmapped.1, ihb hmapped.2]
          rfl
      | _ => cases hmapped
  | plain v =>
      cases w with
      | plain v' => exact congrArg Captured.plain hmapped.symm
      | _ => cases hmapped

theorem plains_map {Ref Ref' : Type} (f : Ref → Ref') (v : Captured Ref Plain) :
    (v.map f).plains = v.plains := by
  induction v with
  | closure r => rfl
  | boundMethod a b iha ihb => simp only [Captured.map, Captured.plains, iha, ihb]
  | plain v => rfl

namespace Finished

variable (hfin : Finished g roots roots' s)

include hfin

theorem mapped_of_root {v : Captured Closure Plain} (hv : v ∈ roots) : ∃ w, Mapped s.seen v w := by
  obtain ⟨w, _, hmapped⟩ := exists_of_left hfin.mapped hv
  exact ⟨w, hmapped⟩

/-- An upvalue of a closure that was met, and the cell of the child made for it. -/
theorem upvalue_at {r : Closure} {n i : Nat} {cell : Cell} (hr : s.seen r = some n)
    (hcell : (g.upvalues r)[i]? = some (some cell)) :
    ∃ u w, s.At n i u ∧ s.cells[u]? = some w ∧ Mapped s.seen (g.contents cell) w := by
  obtain ⟨ups, hups, hmatched⟩ := hfin.complete r n hr
  obtain ⟨b, hb, hmatch⟩ := getElem?_of_left hmatched hcell
  cases b with
  | none => cases hmatch
  | some u =>
      obtain ⟨w, hw, hmapped⟩ := hmatch
      exact ⟨u, w, ⟨_, hups, hb⟩, hw, hmapped⟩

/-- The table knows exactly the closures that can be reached. -/
theorem seen_of_reached {r : Closure} (hr : Reached g roots r) : ∃ n, s.seen r = some n := by
  induction hr with
  | root hroot hr =>
      obtain ⟨w, hmapped⟩ := hfin.mapped_of_root hroot
      exact hmapped.seen_of_mem hr
  | captured _ hcell hr ih =>
      obtain ⟨n, hn⟩ := ih
      obtain ⟨i, hi⟩ := List.mem_iff_getElem?.mp hcell
      obtain ⟨_, w, _, _, hmapped⟩ := hfin.upvalue_at hn hi
      exact hmapped.seen_of_mem hr

theorem seen_closureOf {r : Closure} (hr : Reached g roots r) :
    s.seen r = some (s.closureOf r) := by
  obtain ⟨n, hn⟩ := hfin.seen_of_reached hr
  rw [closureOf_eq hn, hn]

theorem copyOf_of_holds {cell : Cell} (hcell : Holds g roots cell) : ∃ u, CopyOf g s cell u := by
  obtain ⟨r, hr, hmem⟩ := hcell
  obtain ⟨i, hi⟩ := List.mem_iff_getElem?.mp hmem
  obtain ⟨u, _, hat, _⟩ := hfin.upvalue_at (hfin.seen_closureOf hr) hi
  exact ⟨u, r, _, i, hfin.seen_closureOf hr, hi, hat⟩

theorem contents_of_copyOf {cell : Cell} {u : Nat} (hcopy : CopyOf g s cell u) :
    s.cells[u]? = some ((g.contents cell).map s.closureOf) := by
  obtain ⟨r, n, i, hr, hi, cl, hcl, hu⟩ := hcopy
  obtain ⟨u', w, ⟨cl', hcl', hu'⟩, hw, hmapped⟩ := hfin.upvalue_at hr hi
  obtain rfl := Option.some.inj (hcl'.symm.trans hcl)
  obtain rfl := Option.some.inj (Option.some.inj (hu'.symm.trans hu))
  rw [hw, hmapped.eq_map]

/-- A cell of the child was made for one cell of the parent. -/
theorem copyOf_inj {c c' : Cell} {u : Nat} (hcopy : CopyOf g s c u) (hcopy' : CopyOf g s c' u) :
    c = c' := by
  obtain ⟨r, n, i, hr, hi, hat⟩ := hcopy
  obtain ⟨r', n', i', hr', hi', hat'⟩ := hcopy'
  obtain ⟨rfl, rfl⟩ := hfin.inv.distinct n i n' i' u hat hat'
  obtain rfl := hfin.inv.inj r r' n hr hr'
  exact Option.some.inj (Option.some.inj (hi.symm.trans hi'))

/-- Without sharing, one cell of the child was made for a cell of the parent. -/
theorem copyOf_unique (hunshared : Unshared g roots) {c : Cell} {u u' : Nat}
    (hcopy : CopyOf g s c u) (hcopy' : CopyOf g s c u') : u = u' := by
  obtain ⟨r, n, i, hr, hi, cl, hcl, hu⟩ := hcopy
  obtain ⟨r', n', i', hr', hi', cl', hcl', hu'⟩ := hcopy'
  obtain ⟨rfl, rfl⟩ := hunshared r r' i i' c (hfin.inv.reached r n hr)
    (hfin.inv.reached r' n' hr') hi hi'
  obtain rfl := Option.some.inj (hr.symm.trans hr')
  obtain rfl := Option.some.inj (hcl.symm.trans hcl')
  exact Option.some.inj (Option.some.inj (hu.symm.trans hu'))

/-- Every cell of the child was made for some cell of the parent. -/
theorem copyOf_onto {u : Nat} (hu : u < s.cells.length) :
    ∃ cell, Holds g roots cell ∧ CopyOf g s cell u := by
  obtain ⟨n, i, cl, hcl, hi⟩ := hfin.inv.used u hu
  obtain ⟨r, hr⟩ := hfin.inv.onto n (List.getElem?_eq_some_iff.mp hcl).1
  obtain ⟨ups, hups, hmatched⟩ := hfin.complete r n hr
  obtain rfl := Option.some.inj (hups.symm.trans hcl)
  obtain ⟨a, ha, hmatch⟩ := getElem?_of_right hmatched hi
  cases a with
  | none => cases hmatch
  | some cell =>
      have hmem : some cell ∈ g.upvalues r := List.mem_iff_getElem?.mpr ⟨i, ha⟩
      exact ⟨cell, ⟨r, hfin.inv.reached r n hr, hmem⟩, r, n, i, hr, ha, _, hcl, hi⟩

theorem roots_eq : roots' = roots.map (Captured.map s.closureOf) :=
  eq_map hfin.mapped fun _ _ hmapped => hmapped.eq_map

/-- Without sharing, the copies of the cells make the copies of the closures. -/
theorem closures_eq (hunshared : Unshared g roots) {ψ : Cell → Nat}
    (hψ : ∀ cell, Holds g roots cell → CopyOf g s cell (ψ cell)) {r : Closure}
    (hr : Reached g roots r) :
    s.closures[s.closureOf r]? = some (g.function r, (g.upvalues r).map (Option.map ψ)) := by
  obtain ⟨ups, hups, hmatched⟩ := hfin.complete r _ (hfin.seen_closureOf hr)
  have heq : ups = (g.upvalues r).map (Option.map ψ) := by
    apply List.ext_getElem?
    intro i
    rw [List.getElem?_map]
    obtain ⟨hnone, hnone'⟩ | ⟨a, b, ha, hb, hab⟩ := getElem?_cases hmatched i
    · rw [hnone, hnone']
      rfl
    · rw [ha, hb]
      cases a with
      | none =>
          cases b with
          | none => rfl
          | some u => cases hab
      | some cell =>
          cases b with
          | none => cases hab
          | some u =>
              have hmem : some cell ∈ g.upvalues r := List.mem_iff_getElem?.mpr ⟨i, ha⟩
              have hcopy : CopyOf g s cell u :=
                ⟨r, _, i, hfin.seen_closureOf hr, ha, _, hups, hb⟩
              have hu := hfin.copyOf_unique hunshared hcopy (hψ cell ⟨r, hr, hmem⟩)
              rw [hu]
              rfl
  rw [hups, heq]

theorem isomorphic (hunshared : Unshared g roots) :
    ∃ φ ψ, Isomorphic g roots roots' s φ ψ := by
  have hcopy : ∀ cell, ∃ u, Holds g roots cell → CopyOf g s cell u := by
    intro cell
    by_cases hcell : Holds g roots cell
    · obtain ⟨u, hu⟩ := hfin.copyOf_of_holds hcell
      exact ⟨u, fun _ => hu⟩
    · exact ⟨0, fun h => absurd h hcell⟩
  choose ψ hψ using hcopy
  exact ⟨s.closureOf, ψ,
    { values := hfin.roots_eq
      closures := fun r hr => hfin.closures_eq hunshared hψ hr
      cells := fun cell hcell => hfin.contents_of_copyOf (hψ cell hcell)
      closures_inj := fun r r' hr hr' heq => by
        have hseen := hfin.seen_closureOf hr
        rw [heq] at hseen
        exact hfin.inv.inj r r' _ hseen (hfin.seen_closureOf hr')
      cells_inj := fun c c' hc hc' heq => by
        have hcopy := hψ c hc
        rw [heq] at hcopy
        exact hfin.copyOf_inj hcopy (hψ c' hc')
      closures_onto := fun n hn => by
        obtain ⟨r, hr⟩ := hfin.inv.onto n hn
        exact ⟨r, hfin.inv.reached r n hr, closureOf_eq hr⟩
      cells_onto := fun u hu => by
        obtain ⟨cell, hcell, hcopy⟩ := hfin.copyOf_onto hu
        exact ⟨cell, hcell, hfin.copyOf_unique hunshared (hψ cell hcell) hcopy⟩ }⟩

/-- A cell of two upvalues has two copies, and a map of the cells gives it one. -/
theorem unshared {φ : Closure → Nat} {ψ : Cell → Nat} (hiso : Isomorphic g roots roots' s φ ψ) :
    Unshared g roots := by
  intro r r' i j cell hr hr' hi hj
  have hat : ∀ {r i}, Reached g roots r → (g.upvalues r)[i]? = some (some cell) →
      s.At (φ r) i (ψ cell) := by
    intro r i hr hi
    exact ⟨_, hiso.closures r hr, by simp [hi]⟩
  obtain ⟨heq, hij⟩ := hfin.inv.distinct _ _ _ _ _ (hat hr hi) (hat hr' hj)
  exact ⟨hiso.closures_inj r r' hr hr' heq, hij⟩

/-- The plain values of the child are those of the parent. -/
theorem separate_iff : Separate g roots' s ↔ Unlinked g roots := by
  constructor
  · rintro hseparate w (hroot | ⟨cell, hcell, rfl⟩) v hv
    · apply hseparate (w.map s.closureOf)
      · left
        rw [hfin.roots_eq]
        exact List.mem_map_of_mem hroot
      · rwa [plains_map]
    · obtain ⟨u, hu⟩ := hfin.copyOf_of_holds hcell
      apply hseparate ((g.contents cell).map s.closureOf)
      · right
        exact List.mem_iff_getElem?.mpr ⟨u, hfin.contents_of_copyOf hu⟩
      · rwa [plains_map]
  · rintro hunlinked w (hroot | hcell) v hv
    · rw [hfin.roots_eq] at hroot
      obtain ⟨w', hw', rfl⟩ := List.mem_map.mp hroot
      rw [plains_map] at hv
      exact hunlinked w' (Or.inl hw') v hv
    · obtain ⟨u, hu⟩ := List.mem_iff_getElem?.mp hcell
      obtain ⟨cell, hholds, hcopy⟩ := hfin.copyOf_onto (List.getElem?_eq_some_iff.mp hu).1
      obtain rfl := Option.some.inj ((hfin.contents_of_copyOf hcopy).symm.trans hu)
      rw [plains_map] at hv
      exact hunlinked _ (Or.inr ⟨cell, hholds, rfl⟩) v hv

theorem snapshot_iff : Snapshot g roots roots' s ↔ Unshared g roots ∧ Unlinked g roots := by
  constructor
  · intro ⟨⟨_, _, hiso⟩, hseparate⟩
    exact ⟨hfin.unshared hiso, hfin.separate_iff.mp hseparate⟩
  · intro ⟨hunshared, hunlinked⟩
    exact ⟨hfin.isomorphic hunshared, hfin.separate_iff.mpr hunlinked⟩

end Finished

/-- The copy always ends, and it is a snapshot exactly when no captured variable has two upvalues and no
plain value leads to a captured variable. -/
theorem spawn_snapshot_iff [DecidableEq Closure] [Fintype Closure] (g : Graph Closure Cell Plain)
    (roots : List (Captured Closure Plain)) :
    ∃ roots' s, closeAll g (Fintype.card Closure + 1) roots .empty = some (roots', s) ∧
      (Snapshot g roots roots' s ↔ Unshared g roots ∧ Unlinked g roots) := by
  obtain ⟨roots', s, hrun, hfin⟩ := closeAll_finished g roots
  exact ⟨roots', s, hrun, hfin.snapshot_iff⟩

/-- A closure that captures two others, `inc` and `get`, which share a counter. -/
def sharedCounter : Graph (Fin 3) (Fin 3) Nat where
  function r := r
  upvalues r := if r = 0 then [some 0, some 1] else [some 2]
  contents cell := if cell = 0 then .closure 1 else if cell = 1 then .closure 2 else .plain 0
  leads _ := []

theorem sharedCounter_not_snapshot : ¬ ∃ roots' s,
    closeAll sharedCounter (Fintype.card (Fin 3) + 1) [.closure 0] .empty = some (roots', s) ∧
      Snapshot sharedCounter [.closure 0] roots' s := by
  intro ⟨roots', s, hrun, hsnapshot⟩
  obtain ⟨roots₁, s₁, hrun₁, hfin⟩ := closeAll_finished sharedCounter [.closure 0]
  obtain ⟨rfl, rfl⟩ := Prod.mk.inj (Option.some.inj (hrun₁.symm.trans hrun))
  have hmain : Reached sharedCounter [.closure 0] 0 :=
    .root (List.mem_singleton.mpr rfl) (List.mem_singleton.mpr rfl)
  have hinc : Reached sharedCounter [.closure 0] 1 :=
    .captured hmain (by decide : some 0 ∈ sharedCounter.upvalues 0) (by decide)
  have hget : Reached sharedCounter [.closure 0] 2 :=
    .captured hmain (by decide : some 1 ∈ sharedCounter.upvalues 0) (by decide)
  have hequal := (hfin.snapshot_iff.mp hsnapshot).1 1 2 0 0 2 hinc hget rfl rfl
  exact absurd hequal.1 (by decide)

end Spawn

end EZLanguage
