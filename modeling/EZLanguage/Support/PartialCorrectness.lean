import Mathlib.Data.List.Basic

/-!
# Programs with a state that may fail

What is true after a program that ends without an error, given what is true before it. A program is a
function in a state monad over errors; the rules follow its syntax.
-/

namespace EZLanguage

namespace PartialCorrectness

variable {σ ε α β : Type}

/-- Whenever `m` ends without an error from a state with `P`, its result and its last state have `Q`. -/
def Triple (P : σ → Prop) (m : StateT σ (Except ε) α) (Q : α → σ → Prop) : Prop :=
  ∀ s, P s → ∀ a s', m s = .ok (a, s') → Q a s'

namespace Triple

variable {P P' : σ → Prop} {Q Q' : α → σ → Prop} {R : β → σ → Prop}
  {m : StateT σ (Except ε) α} {f : α → StateT σ (Except ε) β}

theorem run (h : Triple P m Q) {s s' : σ} {a : α} (hs : P s) (hm : m s = .ok (a, s')) : Q a s' :=
  h s hs a s' hm

/-! ### Consequence -/

theorem weaken (h : Triple P m Q) (hP : ∀ s, P' s → P s) (hQ : ∀ a s, Q a s → Q' a s) :
    Triple P' m Q' := by
  intro s hs a s' hm
  exact hQ a s' (h s (hP s hs) a s' hm)

theorem pre (h : Triple P m Q) (hP : ∀ s, P' s → P s) : Triple P' m Q :=
  h.weaken hP fun _ _ hq => hq

theorem post (h : Triple P m Q) (hQ : ∀ a s, Q a s → Q' a s) : Triple P m Q' :=
  h.weaken (fun _ hs => hs) hQ

theorem and (h : Triple P m Q) (h' : Triple P' m Q') :
    Triple (fun s => P s ∧ P' s) m fun a s => Q a s ∧ Q' a s := by
  rintro s ⟨hs, hs'⟩ a s₁ hm
  exact ⟨h s hs a s₁ hm, h' s hs' a s₁ hm⟩

/-- The states before it may be taken one at a time. -/
theorem of_forall (h : ∀ s₀, P s₀ → Triple (fun s => s = s₀) m Q) : Triple P m Q := by
  intro s hs
  exact h s hs s rfl

theorem of_exists {ι : Type} {P : ι → σ → Prop} (h : ∀ i, Triple (P i) m Q) :
    Triple (fun s => ∃ i, P i s) m Q := by
  rintro s ⟨i, hs⟩
  exact h i s hs

theorem of_and {p : Prop} (h : p → Triple P m Q) : Triple (fun s => p ∧ P s) m Q := by
  rintro s ⟨hp, hs⟩
  exact h hp s hs

/-! ### Steps -/

theorem pure {a : α} (h : ∀ s, P s → Q a s) :
    Triple P (Pure.pure a : StateT σ (Except ε) α) Q := by
  intro s hs b s' hb
  cases hb
  exact h s hs

theorem throw {e : ε} : Triple P (MonadExcept.throw e : StateT σ (Except ε) α) Q := by
  intro s hs a s' h
  cases h

theorem bind (hm : Triple P m Q) (hf : ∀ a, Triple (Q a) (f a) R) : Triple P (m >>= f) R := by
  intro s hs b s' hb
  simp only [Bind.bind, StateT.bind, Except.bind] at hb
  split at hb
  case h_1 => cases hb
  case h_2 r hm₁ => exact hf r.1 r.2 (hm s hs r.1 r.2 hm₁) b s' hb

theorem map {g : α → β} (hm : Triple P m fun a => R (g a)) : Triple P (g <$> m) R := by
  have h := hm.bind (f := fun a => Pure.pure (g a)) fun a => Triple.pure fun s hs => hs
  exact h

theorem get {Q : σ → σ → Prop} (h : ∀ s, P s → Q s s) :
    Triple P (MonadState.get : StateT σ (Except ε) σ) Q := by
  intro s hs a s' hm
  cases hm
  exact h s hs

/-- The state that is read is the one before the rest. -/
theorem get_bind {f : σ → StateT σ (Except ε) β}
    (h : ∀ s₀, P s₀ → Triple (fun s => s = s₀) (f s₀) R) :
    Triple P (MonadState.get >>= f) R := by
  intro s hs b s' hb
  exact h s hs s rfl b s' hb

theorem modify {g : σ → σ} {Q : PUnit → σ → Prop} (h : ∀ s, P s → Q ⟨⟩ (g s)) :
    Triple P (modify g : StateT σ (Except ε) PUnit) Q := by
  intro s hs a s' hm
  cases hm
  exact h s hs

/-! ### Branches -/

theorem ite {c : Prop} [Decidable c] {m₁ m₂ : StateT σ (Except ε) α}
    (h₁ : c → Triple P m₁ Q) (h₂ : ¬c → Triple P m₂ Q) : Triple P (if c then m₁ else m₂) Q := by
  split
  case isTrue hc => exact h₁ hc
  case isFalse hc => exact h₂ hc

end Triple

/-! ### Loops -/

namespace Triple

variable {ι : Type}

/-- A loop over a list, with what is true when a rest of the list is still to come. -/
theorem forIn_rest {P : List ι → σ → Prop} {body : ι → PUnit → StateT σ (Except ε) (ForInStep PUnit)}
    (xs : List ι)
    (h : ∀ x rest, x ∈ xs →
      Triple (P (x :: rest)) (body x ⟨⟩) fun next s => next = .yield ⟨⟩ ∧ P rest s) :
    Triple (P xs) (forIn xs PUnit.unit body) fun _ => P [] := by
  induction xs with
  | nil => exact .pure fun s hs => hs
  | cons x rest ih =>
      rw [List.forIn_cons]
      refine (h x rest List.mem_cons_self).bind fun next => ?_
      refine of_and fun hnext => ?_
      rw [hnext]
      exact ih fun y rest hy => h y rest (List.mem_cons_of_mem _ hy)

/-- A loop that keeps something, however it ends. -/
theorem forIn {P : σ → Prop} {body : ι → PUnit → StateT σ (Except ε) (ForInStep PUnit)} (xs : List ι)
    (h : ∀ x ∈ xs, Triple P (body x ⟨⟩) fun _ => P) :
    Triple P (forIn xs PUnit.unit body) fun _ => P := by
  induction xs with
  | nil => exact .pure fun s hs => hs
  | cons x rest ih =>
      rw [List.forIn_cons]
      refine (h x List.mem_cons_self).bind fun next => ?_
      cases next with
      | done => exact .pure fun s hs => hs
      | yield => exact ih fun y hy => h y (List.mem_cons_of_mem _ hy)

theorem mapM {P : σ → Prop} {R : α → Prop} {body : ι → StateT σ (Except ε) α} (xs : List ι)
    (h : ∀ x ∈ xs, Triple P (body x) fun a s => R a ∧ P s) :
    Triple P (xs.mapM body) fun as s => (∀ a ∈ as, R a) ∧ P s := by
  induction xs with
  | nil =>
      rw [List.mapM_nil]
      exact .pure fun s hs => ⟨by simp, hs⟩
  | cons x rest ih =>
      rw [List.mapM_cons]
      refine (h x List.mem_cons_self).bind fun a => of_and fun ha => ?_
      refine (ih fun y hy => h y (List.mem_cons_of_mem _ hy)).bind fun as => of_and fun has => ?_
      refine .pure fun s hs => ⟨?_, hs⟩
      simpa [ha] using has

end Triple

end PartialCorrectness

end EZLanguage
