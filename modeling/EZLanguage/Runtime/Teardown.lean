import EZLanguage.Support.ReferenceCounts
import Mathlib.Algebra.Order.BigOperators.Group.Finset
import Mathlib.Data.Fin.VecNotation

/-!
# Teardown of containers

A container that is destroyed gives up the values in its slots. `ezIterativelyReleaseChildren` keeps those
whose last owner it is on a list of its own, where destroying the slots in turn would recurse into them.
The two leave the same heap. The destructor of `EZConcatString` is the same loop over two slots.
-/

namespace EZLanguage

namespace Teardown

open ReferenceCounts

variable {α : Type} [DecidableEq α]

/-! ### The worklist -/

/-- The slots of a container hold nil. -/
def nullSlots (h : Heap α) (r : α) : Heap α :=
  { h with slots := Function.update h.slots r ((h.slots r).map fun _ => none) }

/-- `detach`, for the value of a slot. `pending` has its back first. -/
def detach (state : Heap α × List α) : Option α → Heap α × List α
  | none => state
  | some r =>
      if state.1.count r = 1 then (state.1, r :: state.2)  -- `ezIsSoleOwner`: moved to `pending`
      else (state.1.drop r, state.2)

/-- `for (Value* slot : children) detach(slot)`. -/
def detachAll (state : Heap α × List α) (children : List (Option α)) : Heap α × List α :=
  children.foldl detach state

/-- The last owner of a container goes out of scope, and the container has its destructor run. Its slots
hold nil by then. -/
def destroy (h : Heap α) (r : α) : Heap α := if h.count r = 1 then h.kill r else h.drop r

/-- `while (!pending.empty())`, for so many rounds at most. -/
def drain : Nat → Heap α × List α → Option (Heap α)
  | 0, _ => none
  | _ + 1, (h, []) => some h
  | fuel + 1, (h, v :: pending) =>
      let state := detachAll (nullSlots h v, pending) (h.slots v)
      drain fuel (destroy state.1 v, state.2)

/-- The slots of a container are gone after its destructor. -/
def clearSlots (h : Heap α) (r : α) : Heap α := { h with slots := Function.update h.slots r [] }

/-- `ezIterativelyReleaseChildren`, in the destructor of a container. -/
def ezIterativelyReleaseChildren (fuel : Nat) (h : Heap α) (self : α) : Option (Heap α) :=
  (drain fuel (detachAll (nullSlots h self, []) (h.slots self))).map fun h => clearSlots h self

/-- `~EZConcatString`, of a node with these two slots. Its loop detaches two slots as well. -/
def destroyConcatString (fuel : Nat) (h : Heap α) (self : α) (left right : Option α) :
    Option (Heap α) :=
  (drain fuel (detach (detach (nullSlots h self, []) left) right)).map fun h => clearSlots h self

/-! ### Recursion -/

/-- The destruction of a value, of calls nested so deep at most. With the last owner the container goes,
and then the values in its slots. -/
def destroyValue : Nat → Heap α → Option α → Option (Heap α)
  | _, h, none => some h
  | 0, _, some _ => none
  | fuel + 1, h, some r =>
      if h.count r = 1 then (h.slots r).foldlM (destroyValue fuel) (h.kill r) else some (h.drop r)

/-- The destructor of a container without the worklist. -/
def destroyChildren (fuel : Nat) (h : Heap α) (self : α) : Option (Heap α) :=
  ((h.slots self).foldlM (destroyValue fuel) (nullSlots h self)).map fun h => clearSlots h self

/-! ### References -/

omit [DecidableEq α] in
theorem refs_nil : refs ([] : List (Option α)) = 0 := rfl

omit [DecidableEq α] in
theorem refs_none (slots : List (Option α)) : refs (none :: slots) = refs slots := rfl

omit [DecidableEq α] in
theorem refs_some (r : α) (slots : List (Option α)) : refs (some r :: slots) = r ::ₘ refs slots := rfl

omit [DecidableEq α] in
theorem mem_refs {slots : List (Option α)} {r : α} : r ∈ refs slots ↔ some r ∈ slots := by
  simp [refs]

/-! ### Recursion as steps -/

theorem foldlM_steps {fuel : Nat}
    (hvalue : ∀ (h h' : Heap α) (v : Option α) (pending : Multiset α),
      destroyValue fuel h v = some h' →
        Relation.ReflTransGen Step (h, refs [v] + pending) (h', pending))
    (values : List (Option α)) : ∀ (h h' : Heap α) (pending : Multiset α),
    values.foldlM (destroyValue fuel) h = some h' →
      Relation.ReflTransGen Step (h, refs values + pending) (h', pending) := by
  induction values with
  | nil =>
      rintro h h' pending ⟨⟩
      rw [refs_nil, Multiset.zero_add]
  | cons v values ih =>
      intro h h' pending hends
      rw [List.foldlM_cons] at hends
      obtain ⟨mid, hmid, hrest⟩ := Option.bind_eq_some_iff.1 hends
      have hsplit : refs (v :: values) + pending = refs [v] + (refs values + pending) := by
        cases v with
        | none => rw [refs_none, refs_none, refs_nil, Multiset.zero_add]
        | some r => rw [refs_some, refs_some, refs_nil, Multiset.cons_add, Multiset.cons_add, Multiset.zero_add]
      rw [hsplit]
      exact (hvalue h mid v _ hmid).trans (ih mid h' pending hrest)

/-- The destruction of a value gives up its reference and what that leads to. -/
theorem destroyValue_steps (fuel : Nat) : ∀ (h h' : Heap α) (v : Option α) (pending : Multiset α),
    destroyValue fuel h v = some h' →
      Relation.ReflTransGen Step (h, refs [v] + pending) (h', pending) := by
  induction fuel with
  | zero =>
      intro h h' v pending hends
      cases v with
      | none =>
          cases hends
          rw [refs_none, refs_nil, Multiset.zero_add]
      | some r => cases hends
  | succ fuel ih =>
      intro h h' v pending hends
      cases v with
      | none =>
          cases hends
          rw [refs_none, refs_nil, Multiset.zero_add]
      | some r =>
          rw [destroyValue] at hends
          rw [refs_some, refs_nil, Multiset.cons_add, Multiset.zero_add]
          split at hends
          · rename_i hone
            exact .head (.last hone) (foldlM_steps ih _ _ _ _ hends)
          · rename_i hmany
            cases hends
            exact .single (.other hmany)

/-! ### The worklist as steps -/

/-- Detaching values gives up the references that are not the last of their object. -/
theorem detachAll_steps (children : List (Option α)) : ∀ (h : Heap α) (pending : List α),
    Relation.ReflTransGen Step (h, refs children + (pending : Multiset α))
      ((detachAll (h, pending) children).1, ((detachAll (h, pending) children).2 : Multiset α)) := by
  induction children with
  | nil =>
      intro h pending
      rw [refs_nil, Multiset.zero_add]
      exact .refl
  | cons v children ih =>
      intro h pending
      cases v with
      | none => exact ih h pending
      | some r =>
          rw [refs_some]
          by_cases hone : h.count r = 1
          · have hdetach : detachAll (h, pending) (some r :: children) =
                detachAll (h, r :: pending) children := by
              rw [detachAll, List.foldl_cons, detach, if_pos hone]
              rfl
            have hmoved : r ::ₘ refs children + (pending : Multiset α) =
                refs children + ((r :: pending : List α) : Multiset α) := by
              rw [← Multiset.cons_coe, Multiset.cons_add, Multiset.add_cons]
            rw [hdetach, hmoved]
            exact ih h (r :: pending)
          · have hdetach : detachAll (h, pending) (some r :: children) =
                detachAll (h.drop r, pending) children := by
              rw [detachAll, List.foldl_cons, detach, if_neg hone]
              rfl
            rw [hdetach, Multiset.cons_add]
            exact .head (.other hone) (ih (h.drop r) pending)

/-- A container that is not among the values may as well have gone before. -/
theorem detachAll_kill {v : α} (children : List (Option α)) (hv : some v ∉ children) :
    ∀ (h : Heap α) (pending : List α), detachAll (h.kill v, pending) children =
      ((detachAll (h, pending) children).1.kill v, (detachAll (h, pending) children).2) ∧
      (detachAll (h, pending) children).1.count v = h.count v := by
  induction children with
  | nil =>
      intro h pending
      exact ⟨rfl, rfl⟩
  | cons child children ih =>
      intro h pending
      have hrest : some v ∉ children := fun hmem => hv (List.mem_cons_of_mem _ hmem)
      cases child with
      | none => exact ih hrest h pending
      | some r =>
          have hne : r ≠ v := by
            rintro rfl
            exact hv List.mem_cons_self
          have hcount : (h.kill v).count r = h.count r := h.kill_count_of_ne hne
          simp only [detachAll, List.foldl_cons, detach, hcount]
          by_cases hone : h.count r = 1
          · rw [if_pos hone, if_pos hone]
            exact ih hrest h (r :: pending)
          · rw [if_neg hone, if_neg hone, h.kill_drop hne.symm]
            obtain ⟨hkill, hsame⟩ := ih hrest (h.drop r) pending
            exact ⟨hkill, hsame.trans (h.drop_count_of_ne hne.symm)⟩

/-- What is on the list stays the last reference to its object. -/
theorem detachAll_sole (children : List (Option α)) : ∀ (h : Heap α) (pending : List α),
    (∀ w ∈ pending, h.count w = 1) →
      ∀ w ∈ (detachAll (h, pending) children).2, (detachAll (h, pending) children).1.count w = 1 := by
  induction children with
  | nil => exact fun h pending hsole => hsole
  | cons child children ih =>
      intro h pending hsole
      cases child with
      | none => exact ih h pending hsole
      | some r =>
          simp only [detachAll, List.foldl_cons, detach]
          by_cases hone : h.count r = 1
          · rw [if_pos hone]
            apply ih h (r :: pending)
            intro w hw
            obtain rfl | hw := List.mem_cons.1 hw
            · exact hone
            · exact hsole w hw
          · rw [if_neg hone]
            apply ih (h.drop r) pending
            intro w hw
            have hne : w ≠ r := by
              rintro rfl
              exact hone (hsole w hw)
            rw [h.drop_count_of_ne hne]
            exact hsole w hw

/-! ### Counted heaps -/

section Counted

variable [Fintype α] {outside : α → Nat}

theorem total_step {c c' : Config α} (hcounted : Counted outside c) (hstep : Step c c') :
    total c'.1 + 1 = total c.1 := by
  cases hstep with
  | last hone => exact total_kill hone
  | @other h pending r hmany =>
      have hr := hcounted r
      dsimp only at hr
      rw [Multiset.count_cons_self] at hr
      exact total_drop (by omega)

theorem total_run {c c' : Config α} (hcounted : Counted outside c)
    (hrun : Relation.ReflTransGen Step c c') : total c'.1 ≤ total c.1 := by
  induction hrun with
  | refl => exact Nat.le_refl _
  | tail hsteps hstep ih =>
      have hlower := total_step (hcounted.run hsteps) hstep
      omega

/-- The last owner of an object is not the object itself. -/
theorem sole_not_held {h : Heap α} {v : α} {pending : Multiset α}
    (hcounted : Counted outside (h, v ::ₘ pending)) (hone : h.count v = 1) :
    some v ∉ h.slots v ∧ v ∉ pending := by
  have hv := hcounted v
  dsimp only at hv
  rw [Multiset.count_cons_self, hone] at hv
  have hpending : pending.count v = 0 := by omega
  have hheld : held h v = 0 := by omega
  constructor
  · intro hmem
    have hpos : 0 < (refs (h.slots v)).count v := Multiset.count_pos.2 (mem_refs.2 hmem)
    have hle : (refs (h.slots v)).count v ≤ held h v :=
      Finset.single_le_sum (f := fun i => (refs (h.slots i)).count v) (fun _ _ => Nat.zero_le _)
        (Finset.mem_univ v)
    omega
  · exact Multiset.count_eq_zero.1 hpending

/-- A round of the worklist: the object at its back goes, and what it held is detached. -/
theorem round_eq {h : Heap α} {v : α} {pending : List α}
    (hcounted : Counted outside (h, (v :: pending : List α))) (hone : h.count v = 1) :
    (destroy (detachAll (nullSlots h v, pending) (h.slots v)).1 v,
        (detachAll (nullSlots h v, pending) (h.slots v)).2) =
      detachAll (h.kill v, pending) (h.slots v) := by
  rw [← Multiset.cons_coe] at hcounted
  obtain ⟨hself, -⟩ := sole_not_held hcounted hone
  obtain ⟨hkill, hcount⟩ := detachAll_kill (h.slots v) hself (nullSlots h v) pending
  have hsame : (nullSlots h v).kill v = h.kill v := by
    ext1
    · rfl
    · exact Function.update_idem _ _ _
    · rfl
  rw [hsame] at hkill
  rw [hkill, destroy, if_pos (hcount.trans hone)]

/-- The worklist is worked off, by giving up references one after the other. -/
theorem drain_steps (fuel : Nat) : ∀ (h : Heap α) (pending : List α),
    Counted outside (h, (pending : Multiset α)) → (∀ w ∈ pending, h.count w = 1) → total h < fuel →
      ∃ h', drain fuel (h, pending) = some h' ∧
        Relation.ReflTransGen Step (h, (pending : Multiset α)) (h', 0) := by
  induction fuel with
  | zero =>
      intro h pending _ _ hfuel
      omega
  | succ fuel ih =>
      intro h pending hcounted hsole hfuel
      cases pending with
      | nil => exact ⟨h, rfl, .refl⟩
      | cons v pending =>
          have hone : h.count v = 1 := hsole v List.mem_cons_self
          have hround := round_eq hcounted hone
          rw [← Multiset.cons_coe] at hcounted ⊢
          obtain ⟨-, hnew⟩ := sole_not_held hcounted hone
          have hlast : Step (h, v ::ₘ (pending : Multiset α)) _ := .last hone
          have hdetach := detachAll_steps (h.slots v) (h.kill v) pending
          have hsteps := Relation.ReflTransGen.head hlast hdetach
          have hsole' : ∀ w ∈ pending, (h.kill v).count w = 1 := by
            intro w hw
            have hne : w ≠ v := by
              rintro rfl
              exact hnew (Multiset.mem_coe.2 hw)
            rw [h.kill_count_of_ne hne]
            exact hsole w (List.mem_cons_of_mem _ hw)
          have hkilled := total_step hcounted hlast
          have hless := total_run (hcounted.step hlast) hdetach
          dsimp only at hkilled hless
          obtain ⟨h', hdrain, hrest⟩ := ih _ _ (hcounted.run hsteps)
            (detachAll_sole (h.slots v) (h.kill v) pending hsole') (by omega)
          refine ⟨h', ?_, hsteps.trans hrest⟩
          rw [drain, hround]
          exact hdrain

/-- The recursion ends as well. -/
theorem destroyValue_ends (fuel : Nat) : ∀ (values : List (Option α)) (h : Heap α)
    (pending : Multiset α), Counted outside (h, refs values + pending) → total h < fuel →
      ∃ h', values.foldlM (destroyValue fuel) h = some h' := by
  induction fuel with
  | zero =>
      intro values h pending _ hfuel
      omega
  | succ fuel ih =>
      intro values
      induction values with
      | nil =>
          intro h pending _ _
          exact ⟨h, rfl⟩
      | cons v values ihvalues =>
          intro h pending hcounted hfuel
          rw [List.foldlM_cons]
          cases v with
          | none => exact ihvalues h pending hcounted hfuel
          | some r =>
              rw [refs_some, Multiset.cons_add] at hcounted
              have hgone : ∃ mid, destroyValue (fuel + 1) h (some r) = some mid := by
                rw [destroyValue]
                split
                · rename_i hone
                  have hkilled := total_step hcounted (.last hone)
                  dsimp only at hkilled
                  exact ih (h.slots r) (h.kill r) _ (hcounted.step (.last hone)) (by omega)
                · exact ⟨_, rfl⟩
              obtain ⟨mid, hmid⟩ := hgone
              have hsteps := destroyValue_steps (fuel + 1) h mid (some r) (refs values + pending) hmid
              rw [refs_some, refs_nil, Multiset.cons_add, Multiset.zero_add] at hsteps
              have hless := total_run hcounted hsteps
              dsimp only at hless
              obtain ⟨h', hends⟩ := ihvalues mid pending (hcounted.run hsteps) (by omega)
              exact ⟨h', by rw [hmid]; exact hends⟩

/-! ### The destructor -/

/-- The counts of a heap are those of the owners outside and of the slots. -/
def Owned (outside : α → Nat) (h : Heap α) : Prop := ∀ r, h.count r = outside r + held h r

theorem held_nullSlots (h : Heap α) (self r : α) :
    held (nullSlots h self) r + (refs (h.slots self)).count r = held h r := by
  have hsame : held (nullSlots h self) r = held (h.kill self) r := by
    apply Finset.sum_congr rfl
    intro i _
    by_cases hi : i = self
    · subst hi
      rw [nullSlots, h.kill_slots_self]
      dsimp only
      rw [Function.update_self]
      simp [refs]
    · rw [nullSlots, h.kill_slots_of_ne hi]
      dsimp only
      rw [Function.update_of_ne hi]
  rw [hsame]
  exact held_kill h self r

theorem counted_nullSlots {h : Heap α} (howned : Owned outside h) (self : α) :
    Counted outside (nullSlots h self, refs (h.slots self)) := by
  intro r
  have hheld := held_nullSlots h self r
  have hr := howned r
  show h.count r = _
  dsimp only
  omega

theorem clearSlots_owned {h : Heap α} {self : α} (hcounted : Counted outside (h, 0))
    (hnone : refs (h.slots self) = 0) : Owned outside (clearSlots h self) := by
  intro r
  have hr := hcounted r
  have hheld := held_kill h self r
  rw [hnone] at hheld
  have hsame : held (clearSlots h self) r = held (h.kill self) r := rfl
  dsimp only at hr
  rw [Multiset.count_zero] at hr hheld
  show h.count r = _
  omega

/-- A container with two children that share one, which has an owner outside as well. -/
def diamond : Heap (Fin 4) where
  count := ![0, 1, 1, 3]
  slots := ![[some 1, none, some 2], [some 3], [some 3], []]
  freed := 0

end Counted

end Teardown

end EZLanguage
