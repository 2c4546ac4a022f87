import Mathlib.Algebra.BigOperators.Group.Finset.Basic
import Mathlib.Data.Fintype.Basic
import Mathlib.Data.Multiset.AddSub
import Mathlib.Logic.Relation

/-!
# Reference counts

Objects hold references in slots and are counted. Giving up a reference lowers the count of its object;
with the last one the object goes, and its own references are given up. Whatever the order, the same
objects are left in the end, with the same counts.
-/

namespace EZLanguage

namespace ReferenceCounts

variable {α : Type} [DecidableEq α]

/-- The objects by their names. An empty slot is none. -/
@[ext]
structure Heap (α : Type) where
  count : α → Nat
  slots : α → List (Option α)
  freed : Multiset α

/-- The references in a list of slots. -/
def refs (slots : List (Option α)) : Multiset α := (slots.filterMap id : List α)

namespace Heap

/-- The object goes. -/
def kill (h : Heap α) (r : α) : Heap α where
  count := Function.update h.count r 0
  slots := Function.update h.slots r []
  freed := r ::ₘ h.freed

/-- One of several references to the object goes. -/
def drop (h : Heap α) (r : α) : Heap α :=
  { h with count := Function.update h.count r (h.count r - 1) }

theorem kill_comm (h : Heap α) {r s : α} (hne : r ≠ s) : (h.kill r).kill s = (h.kill s).kill r := by
  ext1
  · exact Function.update_comm hne _ _ _
  · exact Function.update_comm hne _ _ _
  · exact Multiset.cons_swap _ _ _

theorem kill_drop (h : Heap α) {r s : α} (hne : r ≠ s) : (h.kill r).drop s = (h.drop s).kill r := by
  ext1
  · rw [drop, kill, kill, drop]
    dsimp only
    rw [Function.update_of_ne hne.symm, Function.update_comm hne]
  · rfl
  · rfl

theorem drop_comm (h : Heap α) {r s : α} (hne : r ≠ s) : (h.drop r).drop s = (h.drop s).drop r := by
  ext1
  · rw [drop, drop, drop, drop]
    dsimp only
    rw [Function.update_of_ne hne.symm, Function.update_of_ne hne, Function.update_comm hne]
  · rfl
  · rfl

@[simp] theorem kill_count_of_ne (h : Heap α) {r s : α} (hne : s ≠ r) :
    (h.kill r).count s = h.count s := Function.update_of_ne hne _ _

@[simp] theorem drop_count_of_ne (h : Heap α) {r s : α} (hne : s ≠ r) :
    (h.drop r).count s = h.count s := Function.update_of_ne hne _ _

@[simp] theorem kill_slots_of_ne (h : Heap α) {r s : α} (hne : s ≠ r) :
    (h.kill r).slots s = h.slots s := Function.update_of_ne hne _ _

@[simp] theorem kill_count_self (h : Heap α) (r : α) : (h.kill r).count r = 0 :=
  Function.update_self _ _ _

@[simp] theorem kill_slots_self (h : Heap α) (r : α) : (h.kill r).slots r = [] :=
  Function.update_self _ _ _

@[simp] theorem drop_count_self (h : Heap α) (r : α) : (h.drop r).count r = h.count r - 1 :=
  Function.update_self _ _ _

@[simp] theorem drop_slots (h : Heap α) (r : α) : (h.drop r).slots = h.slots := rfl

end Heap

/-- A heap and the references that are given up. -/
abbrev Config (α : Type) := Heap α × Multiset α

/-- One of the references goes: the last one of an object or another one. -/
inductive Step : Config α → Config α → Prop
  | last {h : Heap α} {pending : Multiset α} {r : α} (hone : h.count r = 1) :
      Step (h, r ::ₘ pending) (h.kill r, refs (h.slots r) + pending)
  | other {h : Heap α} {pending : Multiset α} {r : α} (hmany : h.count r ≠ 1) :
      Step (h, r ::ₘ pending) (h.drop r, pending)

/-! ### The order does not matter -/

/-- What a reference does to a configuration. -/
def release (c : Config α) (r : α) : Config α :=
  if c.1.count r = 1 then (c.1.kill r, refs (c.1.slots r) + c.2) else (c.1.drop r, c.2)

theorem step_iff {c c' : Config α} :
    Step c c' ↔ ∃ r pending, c.2 = r ::ₘ pending ∧ c' = release (c.1, pending) r := by
  constructor
  · rintro (hone | hmany)
    · exact ⟨_, _, rfl, by rw [release, if_pos hone]⟩
    · exact ⟨_, _, rfl, by rw [release, if_neg hmany]⟩
  · obtain ⟨h, all⟩ := c
    rintro ⟨r, pending, hall, rfl⟩
    dsimp only at hall
    subst hall
    unfold release
    split
    · exact .last ‹_›
    · exact .other ‹_›

theorem release_pending (h : Heap α) (more pending : Multiset α) (r : α) :
    release (h, more + pending) r = ((release (h, pending) r).1, more + (release (h, pending) r).2) := by
  unfold release
  split
  · rw [add_left_comm]
  · rfl

/-- Two references to different objects go in either order. -/
theorem release_comm (h : Heap α) (pending : Multiset α) {r s : α} (hne : r ≠ s) :
    release (release (h, pending) r) s = release (release (h, pending) s) r := by
  by_cases hr : h.count r = 1 <;> by_cases hs : h.count s = 1 <;>
    simp [release, hr, hs, hne, hne.symm, h.kill_comm hne, h.kill_drop hne, h.kill_drop hne.symm,
      h.drop_comm hne, add_left_comm]

theorem step_diamond {a b c : Config α} (hab : Step a b) (hac : Step a c) :
    ∃ d, Relation.ReflGen Step b d ∧ Relation.ReflTransGen Step c d := by
  obtain ⟨r, afterR, hr, rfl⟩ := step_iff.1 hab
  obtain ⟨s, afterS, hs, rfl⟩ := step_iff.1 hac
  by_cases hne : r = s
  · subst hne
    obtain rfl : afterR = afterS := Multiset.cons_inj_right r |>.1 (hr.symm.trans hs)
    exact ⟨_, .refl, .refl⟩
  · -- both references are still pending
    obtain ⟨rest, rfl, rfl⟩ : ∃ rest, afterR = s ::ₘ rest ∧ afterS = r ::ₘ rest := by
      obtain ⟨hsame, -⟩ | ⟨-, rest, hR, hS⟩ := Multiset.cons_eq_cons.1 (hr.symm.trans hs)
      · exact absurd hsame hne
      · exact ⟨rest, hR, hS⟩
    have hstep : ∀ x y : α, Step (release (a.1, y ::ₘ rest) x) (release (release (a.1, rest) x) y) := by
      intro x y
      rw [step_iff]
      refine ⟨y, (release (a.1, rest) x).2, ?_, ?_⟩
      · rw [← Multiset.singleton_add, release_pending, Multiset.singleton_add]
      · rw [← Multiset.singleton_add, release_pending]
    refine ⟨release (release (a.1, rest) r) s, .single (hstep r s), ?_⟩
    rw [release_comm a.1 rest hne]
    exact .single (hstep s r)

/-- Nothing happens where nothing is given up. -/
theorem no_step {h : Heap α} {c : Config α} : ¬Step (h, 0) c := by
  intro hstep
  obtain ⟨r, pending, hnone, -⟩ := step_iff.1 hstep
  exact Multiset.zero_ne_cons hnone

/-- All orders lead to one heap. -/
theorem outcome_unique {c : Config α} {h h' : Heap α} (hc : Relation.ReflTransGen Step c (h, 0))
    (hc' : Relation.ReflTransGen Step c (h', 0)) : h = h' := by
  obtain ⟨d, hd, hd'⟩ := Relation.church_rosser (fun _ _ _ => step_diamond) hc hc'
  have hstuck : ∀ {h : Heap α}, Relation.ReflTransGen Step (h, 0) d → d = (h, 0) := by
    intro h hrun
    obtain rfl | ⟨e, hstep, -⟩ := Relation.ReflTransGen.cases_head hrun
    · rfl
    · exact absurd hstep no_step
  exact congrArg Prod.fst ((hstuck hd).symm.trans (hstuck hd'))

/-! ### Counts -/

section Counted

variable [Fintype α]

/-- The references to an object from the slots of all objects. -/
def held (h : Heap α) (r : α) : Nat := ∑ i, (refs (h.slots i)).count r

/-- Every count is that of the owners outside, of the references that are given up and of the slots. -/
def Counted (outside : α → Nat) (c : Config α) : Prop :=
  ∀ r, c.1.count r = outside r + c.2.count r + held c.1 r

theorem held_kill (h : Heap α) (r s : α) :
    held (h.kill r) s + (refs (h.slots r)).count s = held h s := by
  unfold held
  rw [← Finset.add_sum_erase Finset.univ _ (Finset.mem_univ r),
    ← Finset.add_sum_erase Finset.univ (fun i => (refs (h.slots i)).count s) (Finset.mem_univ r)]
  have hothers : ∀ i ∈ Finset.univ.erase r,
      (refs ((h.kill r).slots i)).count s = (refs (h.slots i)).count s := by
    intro i hi
    rw [h.kill_slots_of_ne (Finset.ne_of_mem_erase hi)]
  rw [Finset.sum_congr rfl hothers, h.kill_slots_self]
  have hnone : (refs ([] : List (Option α))).count s = 0 := Multiset.count_zero s
  rw [hnone]
  omega

/-- A step keeps the counts right. -/
theorem Counted.step {outside : α → Nat} {c c' : Config α} (h : Counted outside c)
    (hstep : Step c c') : Counted outside c' := by
  cases hstep with
  | @last heap pending r hone =>
      intro s
      have hs := h s
      have hheld := held_kill heap r s
      dsimp only at hs ⊢
      rw [Multiset.count_add]
      by_cases hsame : s = r
      · subst hsame
        rw [Multiset.count_cons_self] at hs
        rw [heap.kill_count_self]
        omega
      · rw [Multiset.count_cons_of_ne hsame] at hs
        rw [heap.kill_count_of_ne hsame]
        omega
  | @other heap pending r hmany =>
      intro s
      have hs := h s
      have hheld : held (heap.drop r) s = held heap s := rfl
      dsimp only at hs ⊢
      rw [hheld]
      by_cases hsame : s = r
      · subst hsame
        rw [Multiset.count_cons_self] at hs
        rw [heap.drop_count_self]
        omega
      · rw [Multiset.count_cons_of_ne hsame] at hs
        rw [heap.drop_count_of_ne hsame]
        omega

theorem Counted.run {outside : α → Nat} {c c' : Config α} (h : Counted outside c)
    (hrun : Relation.ReflTransGen Step c c') : Counted outside c' := by
  induction hrun with
  | refl => exact h
  | tail _ hstep ih => exact ih.step hstep

/-- All counts together, which every step lowers. -/
def total (h : Heap α) : Nat := ∑ i, h.count i

theorem total_kill {h : Heap α} {r : α} (hone : h.count r = 1) : total (h.kill r) + 1 = total h := by
  unfold total
  rw [← Finset.add_sum_erase Finset.univ _ (Finset.mem_univ r),
    ← Finset.add_sum_erase Finset.univ (fun i => h.count i) (Finset.mem_univ r), h.kill_count_self, hone]
  have hothers : ∑ i ∈ Finset.univ.erase r, (h.kill r).count i =
      ∑ i ∈ Finset.univ.erase r, h.count i :=
    Finset.sum_congr rfl fun i hi => h.kill_count_of_ne (Finset.ne_of_mem_erase hi)
  omega

theorem total_drop {h : Heap α} {r : α} (hpos : 0 < h.count r) : total (h.drop r) + 1 = total h := by
  unfold total
  rw [← Finset.add_sum_erase Finset.univ _ (Finset.mem_univ r),
    ← Finset.add_sum_erase Finset.univ (fun i => h.count i) (Finset.mem_univ r), h.drop_count_self]
  have hothers : ∑ i ∈ Finset.univ.erase r, (h.drop r).count i =
      ∑ i ∈ Finset.univ.erase r, h.count i :=
    Finset.sum_congr rfl fun i hi => h.drop_count_of_ne (Finset.ne_of_mem_erase hi)
  omega

/-- How a heap has come out of an earlier one: objects went once each, with their last owner, and the
others keep their slots and an owner. -/
structure Outcome (before after : Heap α) (gone : Multiset α) : Prop where
  freed_eq : after.freed = gone + before.freed
  nodup : gone.Nodup
  gone_spec : ∀ r ∈ gone, 0 < before.count r ∧ after.count r = 0 ∧ after.slots r = []
  kept_spec : ∀ r, r ∉ gone → after.slots r = before.slots r ∧
    (0 < before.count r → 0 < after.count r) ∧ after.count r ≤ before.count r

omit [DecidableEq α] [Fintype α] in
theorem Outcome.refl (h : Heap α) : Outcome h h 0 where
  freed_eq := (Multiset.zero_add _).symm
  nodup := Multiset.nodup_zero
  gone_spec := fun _ hr => absurd hr (Multiset.notMem_zero _)
  kept_spec := fun _ _ => ⟨rfl, id, Nat.le_refl _⟩

theorem Outcome.step {outside : α → Nat} {before : Heap α} {c c' : Config α} {gone : Multiset α}
    (h : Outcome before c.1 gone) (hcounted : Counted outside c) (hstep : Step c c') :
    ∃ gone', Outcome before c'.1 gone' := by
  cases hstep with
  | @last heap pending r hone =>
      have hnew : r ∉ gone := by
        intro hr
        obtain ⟨-, hzero, -⟩ := h.gone_spec r hr
        dsimp only at hzero
        omega
      obtain ⟨-, -, hle⟩ := h.kept_spec r hnew
      dsimp only at hle
      refine ⟨r ::ₘ gone, ?_, ?_, ?_, ?_⟩
      · show r ::ₘ heap.freed = _
        rw [h.freed_eq, Multiset.cons_add]
      · exact Multiset.nodup_cons.2 ⟨hnew, h.nodup⟩
      · intro s hs
        by_cases hsame : s = r
        · subst hsame
          exact ⟨by omega, heap.kill_count_self s, heap.kill_slots_self s⟩
        · obtain hs | hs := Multiset.mem_cons.1 hs
          · exact absurd hs hsame
          · obtain ⟨hpos, hzero, hempty⟩ := h.gone_spec s hs
            exact ⟨hpos, by rw [heap.kill_count_of_ne hsame]; exact hzero,
              by rw [heap.kill_slots_of_ne hsame]; exact hempty⟩
      · intro s hs
        rw [Multiset.mem_cons, not_or] at hs
        obtain ⟨hslots, hpos, hle⟩ := h.kept_spec s hs.2
        rw [heap.kill_slots_of_ne hs.1, heap.kill_count_of_ne hs.1]
        exact ⟨hslots, hpos, hle⟩
  | @other heap pending r hmany =>
      have hpending := hcounted r
      dsimp only at hpending
      rw [Multiset.count_cons_self] at hpending
      have hnew : r ∉ gone := by
        intro hr
        obtain ⟨-, hzero, -⟩ := h.gone_spec r hr
        dsimp only at hzero
        omega
      refine ⟨gone, h.freed_eq, h.nodup, ?_, ?_⟩
      · intro s hs
        have hsame : s ≠ r := by
          rintro rfl
          exact hnew hs
        obtain ⟨hpos, hzero, hempty⟩ := h.gone_spec s hs
        exact ⟨hpos, by rw [heap.drop_count_of_ne hsame]; exact hzero, hempty⟩
      · intro s hs
        obtain ⟨hslots, hpos, hle⟩ := h.kept_spec s hs
        dsimp only at hpos hle
        refine ⟨hslots, ?_⟩
        by_cases hsame : s = r
        · subst hsame
          rw [heap.drop_count_self]
          omega
        · rw [heap.drop_count_of_ne hsame]
          exact ⟨hpos, hle⟩

theorem Outcome.run {outside : α → Nat} {c c' : Config α} (hcounted : Counted outside c)
    (hrun : Relation.ReflTransGen Step c c') : ∃ gone, Outcome c.1 c'.1 gone := by
  induction hrun with
  | refl => exact ⟨0, .refl _⟩
  | tail hsteps hstep ih =>
      obtain ⟨gone, hgone⟩ := ih
      exact hgone.step (hcounted.run hsteps) hstep

end Counted

end ReferenceCounts

end EZLanguage
