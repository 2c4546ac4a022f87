/-!
# Code that asks and goes on

A `Resumption` is a piece of code that runs by itself until it is done or has to ask its surroundings
for something, and goes on with the reply. `Sat` is a postcondition of such code under an assumption on
the replies.
-/

namespace EZLanguage

inductive Resumption (Ask : Type) (Reply : Ask → Type) (α : Type) where
  | done (a : α)
  | ask (q : Ask) (k : Reply q → Resumption Ask Reply α)

namespace Resumption

variable {Ask : Type} {Reply : Ask → Type} {α β γ δ : Type}

protected def bind : Resumption Ask Reply α → (α → Resumption Ask Reply β) → Resumption Ask Reply β
  | done a, f => f a
  | ask q k, f => ask q fun r => (k r).bind f

instance : Monad (Resumption Ask Reply) where
  pure := done
  bind := Resumption.bind

/-- The code that asks and is done with the reply. -/
def query (q : Ask) : Resumption Ask Reply (Reply q) := ask q done

@[simp] theorem pure_eq (a : α) : (pure a : Resumption Ask Reply α) = done a := rfl

@[simp] theorem done_bind (a : α) (f : α → Resumption Ask Reply β) : done a >>= f = f a := rfl

@[simp] theorem ask_bind (q : Ask) (k : Reply q → Resumption Ask Reply α)
    (f : α → Resumption Ask Reply β) : ask q k >>= f = ask q fun r => k r >>= f := rfl

@[simp] theorem query_bind (q : Ask) (f : Reply q → Resumption Ask Reply β) :
    query q >>= f = ask q f := rfl

private theorem bind_done_right (x : Resumption Ask Reply α) : x.bind done = x := by
  induction x with
  | done a => rfl
  | ask q k ih => exact congrArg (ask q) (funext ih)

private theorem bind_bind (x : Resumption Ask Reply α) (f : α → Resumption Ask Reply β)
    (g : β → Resumption Ask Reply γ) : (x.bind f).bind g = x.bind fun a => (f a).bind g := by
  induction x with
  | done a => rfl
  | ask q k ih => exact congrArg (ask q) (funext ih)

instance : LawfulMonad (Resumption Ask Reply) :=
  LawfulMonad.mk' _ (fun x => bind_done_right x) (fun _ _ => rfl) (fun x f g => bind_bind x f g)

/-! ### Postconditions -/

/-- Everything the code asks satisfies `pre`, and when every reply satisfies `reply`, so does its result
`Q`. -/
def Sat (pre : Ask → Prop) (reply : (q : Ask) → Reply q → Prop) (Q : α → Prop) :
    Resumption Ask Reply α → Prop
  | done a => Q a
  | ask q k => pre q ∧ ∀ r, reply q r → (k r).Sat pre reply Q

variable {pre : Ask → Prop} {reply : (q : Ask) → Reply q → Prop}

@[simp] theorem sat_done {Q : α → Prop} {a : α} : (done a).Sat pre reply Q ↔ Q a := Iff.rfl

@[simp] theorem sat_ask {Q : α → Prop} {q : Ask} {k : Reply q → Resumption Ask Reply α} :
    (ask q k).Sat pre reply Q ↔ pre q ∧ ∀ r, reply q r → (k r).Sat pre reply Q := Iff.rfl

theorem Sat.bind {Q : α → Prop} {R : β → Prop} {x : Resumption Ask Reply α}
    {f : α → Resumption Ask Reply β} (hx : x.Sat pre reply Q)
    (hf : ∀ a, Q a → (f a).Sat pre reply R) : (x >>= f).Sat pre reply R := by
  induction x with
  | done a => exact hf a hx
  | ask q k ih => exact ⟨hx.1, fun r hr => ih r (hx.2 r hr)⟩

theorem Sat.mono {Q R : α → Prop} {x : Resumption Ask Reply α} (hx : x.Sat pre reply Q)
    (h : ∀ a, Q a → R a) : x.Sat pre reply R := by
  induction x with
  | done a => exact h a hx
  | ask q k ih => exact ⟨hx.1, fun r hr => ih r (hx.2 r hr)⟩

end Resumption

end EZLanguage
