import Mathlib.Data.List.Basic

/-!
# Readers over an input stream

A reader consumes a prefix of its input or fails with an error. Three facts about a reader carry a
format proof, and each of them composes: that it is stable under appending to the input, that a given
block of input parses to a given value, and that everything it returns satisfies a property.
-/

namespace Support

universe u v w

/-- A reader of `τ` tokens with errors in `ε`. -/
def Reader (τ : Type u) (ε : Type v) (α : Type w) := List τ → Except ε (α × List τ)

namespace Reader

variable {τ : Type u} {ε : Type v} {α β : Type w}

protected def pure (a : α) : Reader τ ε α := fun s => .ok (a, s)

protected def bind (r : Reader τ ε α) (f : α → Reader τ ε β) : Reader τ ε β := fun s =>
  match r s with
  | .ok (a, rest) => f a rest
  | .error e => .error e

protected def fail (e : ε) : Reader τ ε α := fun _ => .error e

instance : Monad (Reader τ ε) where
  pure := Reader.pure
  bind := Reader.bind

/-- Read exactly `n` tokens. -/
def take (n : Nat) (e : ε) : Reader τ ε (List τ) := fun s =>
  if n ≤ s.length then .ok (s.take n, s.drop n) else .error e

/-- Read with a postcondition that everything the reader returns satisfies. -/
def attach {P : α → Prop} (r : Reader τ ε α) (h : ∀ s a rest, r s = .ok (a, rest) → P a) :
    Reader τ ε { a // P a } := fun s =>
  match hr : r s with
  | .ok (a, rest) => .ok (⟨a, h s a rest hr⟩, rest)
  | .error e => .error e

/-- Run a reader `n` times and collect what it returns. -/
def times (r : Reader τ ε α) : Nat → Reader τ ε (List α)
  | 0 => pure []
  | n + 1 => r >>= fun a => times r n >>= fun as => pure (a :: as)

theorem bind_ok {r : Reader τ ε α} {f : α → Reader τ ε β} {s rest : List τ} {b : β} :
    (r >>= f) s = .ok (b, rest) ↔ ∃ a mid, r s = .ok (a, mid) ∧ f a mid = .ok (b, rest) := by
  change Reader.bind r f s = _ ↔ _
  unfold Reader.bind
  cases h : r s with
  | error e => simp
  | ok p =>
      obtain ⟨a, mid⟩ := p
      simp

theorem pure_ok {a b : α} {s rest : List τ} :
    (pure a : Reader τ ε α) s = .ok (b, rest) ↔ a = b ∧ s = rest := by
  change Except.ok (a, s) = Except.ok (b, rest) ↔ _
  simp

theorem attach_ok {P : α → Prop} {r : Reader τ ε α} {h : ∀ s a rest, r s = .ok (a, rest) → P a}
    {s rest : List τ} {a : { a // P a }} :
    attach r h s = .ok (a, rest) ↔ r s = .ok (a.val, rest) := by
  unfold attach
  split
  case h_1 b mid hr =>
    constructor
    · intro hok
      cases hok
      exact hr
    · intro hok
      cases hr.symm.trans hok
      rfl
  case h_2 e hr =>
    constructor
    · intro hok
      cases hok
    · intro hok
      cases hr.symm.trans hok

/-! ### Stability -/

/-- More input after what a reader consumed changes nothing but the rest. -/
def Stable (r : Reader τ ε α) : Prop :=
  ∀ s a rest more, r s = .ok (a, rest) → r (s ++ more) = .ok (a, rest ++ more)

theorem Stable.pure (a : α) : Stable (pure a : Reader τ ε α) := by
  intro s b rest more h
  obtain ⟨rfl, rfl⟩ := pure_ok.mp h
  rfl

theorem Stable.fail (e : ε) : Stable (Reader.fail e : Reader τ ε α) := by
  intro s b rest more h
  cases h

theorem Stable.bind {r : Reader τ ε α} {f : α → Reader τ ε β} (hr : Stable r)
    (hf : ∀ a, Stable (f a)) : Stable (r >>= f) := by
  intro s b rest more h
  obtain ⟨a, mid, hra, hfb⟩ := bind_ok.mp h
  exact bind_ok.mpr ⟨a, mid ++ more, hr s a mid more hra, hf a mid b rest more hfb⟩

theorem Stable.ite {c : Prop} [Decidable c] {r r' : Reader τ ε α} (hr : Stable r)
    (hr' : Stable r') : Stable (if c then r else r') := by
  split
  · exact hr
  · exact hr'

theorem Stable.take (n : Nat) (e : ε) : Stable (take n e : Reader τ ε (List τ)) := by
  intro s a rest more h
  unfold Reader.take at h ⊢
  split at h
  case isTrue hn =>
    cases h
    rw [if_pos (by simp only [List.length_append]; omega), List.take_append_of_le_length hn,
      List.drop_append_of_le_length hn]
  case isFalse => cases h

theorem Stable.attach {P : α → Prop} {r : Reader τ ε α}
    {h : ∀ s a rest, r s = .ok (a, rest) → P a} (hr : Stable r) : Stable (attach r h) := by
  intro s a rest more ha
  exact attach_ok.mpr (hr s a.val rest more (attach_ok.mp ha))

theorem Stable.times {r : Reader τ ε α} (hr : Stable r) (n : Nat) : Stable (times r n) := by
  induction n with
  | zero => exact Stable.pure []
  | succ n ih => exact hr.bind fun a => ih.bind fun as => Stable.pure (a :: as)

/-- A stable reader that consumes all of an input rejects every strict prefix of it. -/
theorem Stable.error_of_strict_prefix {r : Reader τ ε α} (hr : Stable r) {s p : List τ} {a : α}
    (hs : r s = .ok (a, [])) (hp : p <+: s) (hne : p ≠ s) : ∃ e, r p = .error e := by
  obtain ⟨t, rfl⟩ := hp
  cases h : r p with
  | error e => exact ⟨e, rfl⟩
  | ok q =>
      obtain ⟨b, rest⟩ := q
      have hmore := hr p b rest t h
      rw [hmore] at hs
      have hnil : rest ++ t = [] := congrArg Prod.snd (Except.ok.inj hs)
      have ht : t = [] := (List.append_eq_nil_iff.mp hnil).2
      exact absurd (by rw [ht, List.append_nil]) hne

/-! ### Parsing a known block -/

/-- The block `bs` parses to `a`, whatever follows it. -/
def Parses (r : Reader τ ε α) (bs : List τ) (a : α) : Prop :=
  ∀ more, r (bs ++ more) = .ok (a, more)

theorem Parses.pure (a : α) : Parses (pure a : Reader τ ε α) [] a := fun _ => rfl

theorem Parses.bind {r : Reader τ ε α} {f : α → Reader τ ε β} {bs cs : List τ} {a : α} {b : β}
    (hr : Parses r bs a) (hf : Parses (f a) cs b) : Parses (r >>= f) (bs ++ cs) b := by
  intro more
  rw [List.append_assoc]
  exact bind_ok.mpr ⟨a, cs ++ more, hr _, hf more⟩

theorem Parses.map {r : Reader τ ε α} {g : α → β} {bs : List τ} {a : α} (hr : Parses r bs a) :
    Parses (r >>= fun x => Pure.pure (g x)) bs (g a) := by
  have h := hr.bind (f := fun x => Pure.pure (g x)) (Parses.pure (g a))
  rwa [List.append_nil] at h

theorem Parses.take (bs : List τ) (e : ε) :
    Parses (take bs.length e : Reader τ ε (List τ)) bs bs := by
  intro more
  unfold Reader.take
  rw [if_pos (by simp), List.take_left, List.drop_left]

theorem Parses.attach {P : α → Prop} {r : Reader τ ε α}
    {h : ∀ s a rest, r s = .ok (a, rest) → P a} {bs : List τ} {a : { a // P a }}
    (hr : Parses r bs a.val) : Parses (attach r h) bs a := fun more => attach_ok.mpr (hr more)

theorem Parses.times {γ : Type w} {r : Reader τ ε α} {enc : γ → List τ} {d : γ → α} (as : List γ)
    (h : ∀ a ∈ as, Parses r (enc a) (d a)) :
    Parses (times r as.length) (as.flatMap enc) (as.map d) := by
  induction as with
  | nil => exact Parses.pure []
  | cons a as ih =>
      rw [List.flatMap_cons]
      exact (h a List.mem_cons_self).bind
        (ih fun b hb => h b (List.mem_cons_of_mem a hb)).map

/-! ### Properties of what is returned -/

/-- Everything the reader returns satisfies `P`. -/
def Returns (r : Reader τ ε α) (P : α → Prop) : Prop := ∀ s a rest, r s = .ok (a, rest) → P a

theorem Returns.pure {P : α → Prop} {a : α} (h : P a) : Returns (pure a : Reader τ ε α) P := by
  intro s b rest hb
  obtain ⟨rfl, -⟩ := pure_ok.mp hb
  exact h

theorem Returns.fail {P : α → Prop} (e : ε) : Returns (Reader.fail e : Reader τ ε α) P := by
  intro s b rest hb
  cases hb

theorem Returns.bind {r : Reader τ ε α} {f : α → Reader τ ε β} {Q : α → Prop} {P : β → Prop}
    (hr : Returns r Q) (hf : ∀ a, Q a → Returns (f a) P) : Returns (r >>= f) P := by
  intro s b rest h
  obtain ⟨a, mid, hra, hfb⟩ := bind_ok.mp h
  exact hf a (hr s a mid hra) mid b rest hfb

theorem Returns.bind' {r : Reader τ ε α} {f : α → Reader τ ε β} {P : β → Prop}
    (hf : ∀ a, Returns (f a) P) : Returns (r >>= f) P := by
  intro s b rest h
  obtain ⟨a, mid, -, hfb⟩ := bind_ok.mp h
  exact hf a mid b rest hfb

theorem Returns.take (n : Nat) (e : ε) :
    Returns (take n e : Reader τ ε (List τ)) fun as => as.length = n := by
  intro s a rest h
  unfold Reader.take at h
  split at h
  case isTrue hn =>
    cases h
    exact List.length_take_of_le hn
  case isFalse => cases h

theorem Returns.times {r : Reader τ ε α} {P : α → Prop} (hr : Returns r P) (n : Nat) :
    Returns (times r n) fun as => as.length = n ∧ ∀ a ∈ as, P a := by
  induction n with
  | zero => exact Returns.pure ⟨rfl, by simp⟩
  | succ n ih =>
      refine hr.bind fun a ha => ih.bind fun as has => Returns.pure ⟨?_, ?_⟩
      · rw [List.length_cons, has.1]
      · intro b hb
        rcases List.mem_cons.mp hb with rfl | hb
        · exact ha
        · exact has.2 b hb

end Reader

end Support
