import EZLanguage.Support.Reader

/-!
# Readers that go on

A chain reads a first item and then extends it for as long as there is something to extend it with: a
left-associative operator, a postfix, a list with separators. What a reader makes of a block of input may
depend on what follows, so the facts about it are for all inputs that go on in a given way.
-/

namespace Support

namespace Reader

universe u v w

variable {τ : Type u} {ε : Type v} {α β : Type w}

/-- Extend `a` for as long as `step` does, at most `fuel` times. -/
def iterate (step : α → Reader τ ε (Option α)) : Nat → α → Reader τ ε α
  | 0, a, s => .ok (a, s)
  | fuel + 1, a, s =>
      match step a s with
      | .ok (some b, rest) => iterate step fuel b rest
      | .ok (none, rest) => .ok (a, rest)
      | .error e => .error e

/-- `first`, and then its extensions. Each consumes input, so that its length is fuel enough. -/
def chain (first : Reader τ ε α) (step : α → Reader τ ε (Option α)) : Reader τ ε α := fun s =>
  match first s with
  | .ok (a, rest) => iterate step rest.length a rest
  | .error e => .error e

theorem bind_of_ok {r : Reader τ ε α} {f : α → Reader τ ε β} {s rest : List τ} {a : α}
    (h : r s = .ok (a, rest)) : (r >>= f) s = f a rest := by
  change Reader.bind r f s = _
  rw [Reader.bind, h]

theorem bind_of_error {r : Reader τ ε α} {f : α → Reader τ ε β} {s : List τ} {e : ε}
    (h : r s = .error e) : (r >>= f) s = .error e := by
  change Reader.bind r f s = _
  rw [Reader.bind, h]

theorem chain_of_error {first : Reader τ ε α} {step : α → Reader τ ε (Option α)} {s : List τ} {e : ε}
    (h : first s = .error e) : chain first step s = .error e := by
  rw [chain, h]

/-- `block` reads as `a`, whatever follows it in one of the ways of `follow`. -/
def ReadsBefore (r : Reader τ ε α) (follow : List τ → Prop) (block : List τ) (a : α) : Prop :=
  ∀ rest, follow rest → r (block ++ rest) = .ok (a, rest)

/-- After `block` the reader is left with `a` to extend. -/
def Chains (r : Reader τ ε α) (step : α → Reader τ ε (Option α)) (follow : List τ → Prop)
    (block : List τ) (a : α) : Prop :=
  ∀ rest, follow rest → ∃ fuel, rest.length ≤ fuel ∧ r (block ++ rest) = iterate step fuel a rest

theorem ReadsBefore.mono {r : Reader τ ε α} {follow follow' : List τ → Prop} {block : List τ} {a : α}
    (h : r.ReadsBefore follow block a) (hfollow : ∀ rest, follow' rest → follow rest) :
    r.ReadsBefore follow' block a := by
  intro rest hrest
  exact h rest (hfollow rest hrest)

namespace Chains

variable {r first : Reader τ ε α} {step : α → Reader τ ε (Option α)}
  {follow follow' : List τ → Prop} {block more : List τ} {a b : α}

theorem of_first (h : first.ReadsBefore follow block a) :
    Chains (chain first step) step follow block a := by
  intro rest hrest
  refine ⟨rest.length, Nat.le_refl _, ?_⟩
  rw [chain, h rest hrest]

/-- An extension that is there is taken. -/
theorem extend (h : Chains r step follow block a) (hmore : more ≠ [])
    (hfollow : ∀ rest, follow' rest → follow (more ++ rest))
    (hstep : ∀ rest, follow' rest → step a (more ++ rest) = .ok (some b, rest)) :
    Chains r step follow' (block ++ more) b := by
  intro rest hrest
  obtain ⟨fuel, hfuel, hread⟩ := h (more ++ rest) (hfollow rest hrest)
  have hlength := List.length_pos_iff.mpr hmore
  rw [List.length_append] at hfuel
  obtain ⟨left, rfl⟩ : ∃ left, fuel = left + 1 := ⟨fuel - 1, by omega⟩
  refine ⟨left, by omega, ?_⟩
  rw [List.append_assoc, hread, iterate, hstep rest hrest]

/-- Where there is none the reader ends. -/
theorem ends (h : Chains r step follow block a)
    (hend : ∀ rest, follow' rest → follow rest ∧ step a rest = .ok (none, rest)) :
    r.ReadsBefore follow' block a := by
  intro rest hrest
  obtain ⟨hfollow, hstep⟩ := hend rest hrest
  obtain ⟨fuel, -, hread⟩ := h rest hfollow
  rw [hread]
  cases fuel with
  | zero => rfl
  | succ fuel => rw [iterate, hstep]

theorem mono (h : Chains r step follow block a) (hfollow : ∀ rest, follow' rest → follow rest) :
    Chains r step follow' block a := by
  intro rest hrest
  exact h rest (hfollow rest hrest)

end Chains

end Reader

end Support
