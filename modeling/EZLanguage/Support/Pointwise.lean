import Mathlib.Data.List.Forall2

/-!
# Lists that are related one by one

What a relation between the elements of two lists says about one element of either, and the relation a
function that may fail leaves between a list and its results.
-/

namespace EZLanguage

namespace Pointwise

variable {α β ε : Type} {R : α → β → Prop} {l : List α} {l' : List β}

theorem getElem?_cases (hrelated : List.Forall₂ R l l') (i : Nat) :
    (l[i]? = none ∧ l'[i]? = none) ∨ ∃ a b, l[i]? = some a ∧ l'[i]? = some b ∧ R a b := by
  induction hrelated generalizing i with
  | nil => exact Or.inl ⟨rfl, rfl⟩
  | @cons a b l l' hhead _ ih =>
      cases i with
      | zero => exact Or.inr ⟨a, b, rfl, rfl, hhead⟩
      | succ i => simpa using ih i

theorem getElem?_of_left (hrelated : List.Forall₂ R l l') {i : Nat} {a : α} (ha : l[i]? = some a) :
    ∃ b, l'[i]? = some b ∧ R a b := by
  obtain ⟨hnone, _⟩ | ⟨a', b, ha', hb, hab⟩ := getElem?_cases hrelated i
  · rw [hnone] at ha
    cases ha
  · obtain rfl := Option.some.inj (ha'.symm.trans ha)
    exact ⟨b, hb, hab⟩

theorem getElem?_of_right (hrelated : List.Forall₂ R l l') {i : Nat} {b : β}
    (hb : l'[i]? = some b) : ∃ a, l[i]? = some a ∧ R a b := by
  obtain ⟨_, hnone⟩ | ⟨a, b', ha, hb', hab⟩ := getElem?_cases hrelated i
  · rw [hnone] at hb
    cases hb
  · obtain rfl := Option.some.inj (hb'.symm.trans hb)
    exact ⟨a, ha, hab⟩

theorem exists_of_left (hrelated : List.Forall₂ R l l') {a : α} (ha : a ∈ l) :
    ∃ b ∈ l', R a b := by
  obtain ⟨i, hi⟩ := List.mem_iff_getElem?.mp ha
  obtain ⟨b, hb, hab⟩ := getElem?_of_left hrelated hi
  exact ⟨b, List.mem_iff_getElem?.mpr ⟨i, hb⟩, hab⟩

/-- A list whose elements are the images of those of another is its image. -/
theorem eq_map {f : α → β} (hrelated : List.Forall₂ R l l') (himage : ∀ a b, R a b → b = f a) :
    l' = l.map f := by
  induction hrelated with
  | nil => rfl
  | cons hhead _ ih => rw [List.map_cons, himage _ _ hhead, ih]

/-! ### Mapping a function that may fail -/

variable {f : α → Except ε β}

theorem forall₂_of_mapM (hrun : l.mapM f = .ok l') :
    List.Forall₂ (fun a b => f a = .ok b) l l' := by
  induction l generalizing l' with
  | nil =>
      cases hrun
      exact .nil
  | cons a l ih =>
      rw [List.mapM_cons] at hrun
      cases ha : f a with
      | error e =>
          rw [ha] at hrun
          cases hrun
      | ok b =>
          cases hl : l.mapM f with
          | error e =>
              rw [ha, hl] at hrun
              cases hrun
          | ok rest =>
              rw [ha, hl] at hrun
              cases hrun
              exact .cons ha (ih hl)

theorem mapM_of_forall (hok : ∀ a ∈ l, ∃ b, f a = .ok b) : ∃ l', l.mapM f = .ok l' := by
  induction l with
  | nil => exact ⟨[], rfl⟩
  | cons a l ih =>
      obtain ⟨b, hb⟩ := hok a (List.mem_cons_self ..)
      obtain ⟨rest, hrest⟩ := ih fun a' ha' => hok a' (List.mem_cons_of_mem _ ha')
      have hcons : (a :: l).mapM f = .ok (b :: rest) := by
        rw [List.mapM_cons, hb, hrest]
        rfl
      exact ⟨b :: rest, hcons⟩

end Pointwise

end EZLanguage
