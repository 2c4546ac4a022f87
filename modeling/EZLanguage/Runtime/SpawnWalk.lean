import EZLanguage.Runtime.SpawnCopy

/-!
# The walk over the closures

The copy keeps the closures apart and together as they were, since the table knows every closure it has
met, and it ends, since every step down meets a new one.
-/

namespace EZLanguage

namespace Spawn

variable {Closure Cell Plain : Type} {g : Graph Closure Cell Plain} {P : Closure → Prop}
  {s s' s'' : Copy Closure Plain}

/-! ### What holds of a copy in the making -/

/-- Upvalue `i` of the child's closure `n` is the cell `u`. -/
def Copy.At (s : Copy Closure Plain) (n i u : Nat) : Prop :=
  ∃ cl, s.closures[n]? = some cl ∧ cl.2[i]? = some (some u)

/-- The table gives the child's closures one by one, and every cell of the child is one upvalue of one
closure. -/
structure Inv (g : Graph Closure Cell Plain) (P : Closure → Prop) (s : Copy Closure Plain) :
    Prop where
  seen : ∀ r n, s.seen r = some n → ∃ ups, s.closures[n]? = some (g.function r, ups)
  inj : ∀ r r' n, s.seen r = some n → s.seen r' = some n → r = r'
  onto : ∀ n < s.closures.length, ∃ r, s.seen r = some n
  reached : ∀ r n, s.seen r = some n → P r
  owned : ∀ n i u, s.At n i u → u < s.cells.length
  distinct : ∀ n i m j u, s.At n i u → s.At m j u → n = m ∧ i = j
  used : ∀ u < s.cells.length, ∃ n i, s.At n i u

/-- A value of the child is the copy of a value of the parent. -/
def Mapped (seen : Closure → Option Nat) : Captured Closure Plain → Captured Nat Plain → Prop
  | .closure r, .closure n => seen r = some n
  | .boundMethod a b, .boundMethod a' b' => Mapped seen a a' ∧ Mapped seen b b'
  | .plain v, .plain v' => v = v'
  | _, _ => False

/-- An upvalue of the child is the copy of an upvalue of the parent. -/
def MatchedUpvalue (g : Graph Closure Cell Plain) (s : Copy Closure Plain) :
    Option Cell → Option Nat → Prop
  | none, none => True
  | some cell, some u => ∃ w, s.cells[u]? = some w ∧ Mapped s.seen (g.contents cell) w
  | _, _ => False

/-- A closure of the child has all its upvalues. -/
def Complete (g : Graph Closure Cell Plain) (s : Copy Closure Plain) (r : Closure) (n : Nat) :
    Prop :=
  ∃ ups, s.closures[n]? = some (g.function r, ups) ∧
    List.Forall₂ (MatchedUpvalue g s) (g.upvalues r) ups

/-- What a copy keeps while it goes on, but for the closure that is `pending`. -/
structure Grows (g : Graph Closure Cell Plain) (pending : Option Nat) (s s' : Copy Closure Plain) :
    Prop where
  seen : ∀ r n, s.seen r = some n → s'.seen r = some n
  cells : s.cells <+: s'.cells
  length : s.closures.length ≤ s'.closures.length
  closures : ∀ n < s.closures.length, pending ≠ some n → s'.closures[n]? = s.closures[n]?
  complete : ∀ r n, s'.seen r = some n → s.seen r = none → Complete g s' r n

theorem Mapped.mono {seen seen' : Closure → Option Nat}
    (hseen : ∀ r n, seen r = some n → seen' r = some n) {v : Captured Closure Plain}
    {w : Captured Nat Plain} (hmapped : Mapped seen v w) : Mapped seen' v w := by
  induction v generalizing w with
  | closure r =>
      cases w with
      | closure n => exact hseen r n hmapped
      | _ => cases hmapped
  | boundMethod a b iha ihb =>
      cases w with
      | boundMethod a' b' => exact ⟨iha hmapped.1, ihb hmapped.2⟩
      | _ => cases hmapped
  | plain v =>
      cases w with
      | plain v' => exact hmapped
      | _ => cases hmapped

theorem MatchedUpvalue.mono {pending : Option Nat} (hgrows : Grows g pending s s')
    {uv : Option Cell} {uv' : Option Nat} (hmatched : MatchedUpvalue g s uv uv') :
    MatchedUpvalue g s' uv uv' := by
  cases uv with
  | none =>
      cases uv' with
      | none => trivial
      | some u => cases hmatched
  | some cell =>
      cases uv' with
      | none => cases hmatched
      | some u =>
          obtain ⟨w, hw, hmapped⟩ := hmatched
          obtain ⟨rest, hrest⟩ := hgrows.cells
          have hu := (List.getElem?_eq_some_iff.mp hw).1
          have hw' : s'.cells[u]? = some w := by
            rw [← hrest, List.getElem?_append_left hu, hw]
          exact ⟨w, hw', hmapped.mono hgrows.seen⟩

theorem Complete.mono {pending : Option Nat} (hgrows : Grows g pending s s') {r : Closure}
    {n : Nat} (hcomplete : Complete g s r n) (hn : pending ≠ some n) : Complete g s' r n := by
  obtain ⟨ups, hups, hmatched⟩ := hcomplete
  have hlt := (List.getElem?_eq_some_iff.mp hups).1
  have hups' : s'.closures[n]? = some (g.function r, ups) := by
    rw [hgrows.closures n hlt hn, hups]
  exact ⟨ups, hups', hmatched.imp fun _ _ h => h.mono hgrows⟩

theorem Grows.refl {pending : Option Nat} : Grows g pending s s where
  seen _ _ h := h
  cells := List.prefix_rfl
  length := Nat.le_refl _
  closures _ _ _ := rfl
  complete r n hseen hnone := by
    rw [hnone] at hseen
    cases hseen

theorem Grows.weaken {pending : Option Nat} (hgrows : Grows g none s s') :
    Grows g pending s s' where
  seen := hgrows.seen
  cells := hgrows.cells
  length := hgrows.length
  closures n hn _ := hgrows.closures n hn nofun
  complete := hgrows.complete

/-- A closure that is pending was known before, so none that became known since is pending. -/
theorem Grows.trans {pending : Option Nat} (hinv : Inv g P s')
    (hpending : ∀ n, pending = some n → ∃ r, s.seen r = some n)
    (hfirst : Grows g pending s s') (hsecond : Grows g pending s' s'') :
    Grows g pending s s'' where
  seen r n h := hsecond.seen r n (hfirst.seen r n h)
  cells := hfirst.cells.trans hsecond.cells
  length := hfirst.length.trans hsecond.length
  closures n hn hne := by
    rw [hsecond.closures n (Nat.lt_of_lt_of_le hn hfirst.length) hne, hfirst.closures n hn hne]
  complete r n hseen hnone := by
    cases hmiddle : s'.seen r with
    | none => exact hsecond.complete r n hseen hmiddle
    | some m =>
        obtain rfl : m = n := Option.some.inj ((hsecond.seen r m hmiddle).symm.trans hseen)
        apply (hfirst.complete r m hmiddle hnone).mono hsecond
        intro hm
        obtain ⟨r₀, hr₀⟩ := hpending m hm
        have heq : r₀ = r := hinv.inj r₀ r m (hfirst.seen r₀ m hr₀) hmiddle
        rw [heq, hnone] at hr₀
        cases hr₀

theorem Inv.lt_of_seen (hinv : Inv g P s) {r : Closure} {n : Nat} (hseen : s.seen r = some n) :
    n < s.closures.length := by
  obtain ⟨_, hups⟩ := hinv.seen r n hseen
  exact (List.getElem?_eq_some_iff.mp hups).1

theorem Inv.empty : Inv g P (Copy.empty : Copy Closure Plain) where
  seen _ _ h := nomatch h
  inj _ _ _ h := nomatch h
  onto _ h := nomatch h
  reached _ _ h := nomatch h
  owned _ _ _ h := by
    obtain ⟨_, hcl, _⟩ := h
    cases hcl
  distinct _ _ _ _ _ h := by
    obtain ⟨_, hcl, _⟩ := h
    cases hcl
  used _ h := nomatch h

/-! ### Registering a closure -/

section Register

variable [DecidableEq Closure] {r : Closure} {f : Nat}

theorem register_seen_self : (s.register r f).seen r = some s.closures.length := by
  simp [Copy.register]

theorem register_seen_ne {r' : Closure} (hne : r' ≠ r) : (s.register r f).seen r' = s.seen r' := by
  simp [Copy.register, hne]

theorem register_old {n : Nat} (hn : n < s.closures.length) :
    (s.register r f).closures[n]? = s.closures[n]? := by
  simp [Copy.register, List.getElem?_append_left hn]

theorem register_new : (s.register r f).closures[s.closures.length]? = some (f, []) := by
  simp [Copy.register]

theorem register_at {n i u : Nat} : (s.register r f).At n i u ↔ s.At n i u := by
  constructor
  · intro ⟨cl, hcl, hi⟩
    rw [Copy.register, List.getElem?_append] at hcl
    split at hcl
    · exact ⟨cl, hcl, hi⟩
    · rw [List.getElem?_singleton] at hcl
      split at hcl
      · cases hcl
        cases hi
      · cases hcl
  · intro ⟨cl, hcl, hi⟩
    have hn := (List.getElem?_eq_some_iff.mp hcl).1
    exact ⟨cl, (register_old hn).trans hcl, hi⟩

theorem Inv.register (hinv : Inv g P s) (hnone : s.seen r = none) (hr : P r) :
    Inv g P (s.register r (g.function r)) where
  seen r' n hseen := by
    by_cases heq : r' = r
    · subst heq
      rw [register_seen_self] at hseen
      cases hseen
      exact ⟨[], register_new⟩
    · rw [register_seen_ne heq] at hseen
      obtain ⟨ups, hups⟩ := hinv.seen r' n hseen
      exact ⟨ups, (register_old (hinv.lt_of_seen hseen)).trans hups⟩
  inj r₁ r₂ n h₁ h₂ := by
    by_cases heq₁ : r₁ = r <;> by_cases heq₂ : r₂ = r
    · rw [heq₁, heq₂]
    · subst heq₁
      rw [register_seen_self] at h₁
      rw [register_seen_ne heq₂] at h₂
      cases h₁
      exact absurd (hinv.lt_of_seen h₂) (Nat.lt_irrefl _)
    · subst heq₂
      rw [register_seen_self] at h₂
      rw [register_seen_ne heq₁] at h₁
      cases h₂
      exact absurd (hinv.lt_of_seen h₁) (Nat.lt_irrefl _)
    · rw [register_seen_ne heq₁] at h₁
      rw [register_seen_ne heq₂] at h₂
      exact hinv.inj r₁ r₂ n h₁ h₂
  onto n hn := by
    have hlength : (s.register r (g.function r)).closures.length = s.closures.length + 1 := by
      simp [Copy.register]
    rcases Nat.lt_or_eq_of_le (Nat.le_of_lt_succ (hlength ▸ hn)) with hlt | heq
    · obtain ⟨r', hr'⟩ := hinv.onto n hlt
      have hne : r' ≠ r := by
        intro heq
        rw [heq, hnone] at hr'
        cases hr'
      exact ⟨r', (register_seen_ne hne).trans hr'⟩
    · exact ⟨r, heq ▸ register_seen_self⟩
  reached r' n hseen := by
    by_cases heq : r' = r
    · exact heq ▸ hr
    · rw [register_seen_ne heq] at hseen
      exact hinv.reached r' n hseen
  owned n i u hat := hinv.owned n i u (register_at.mp hat)
  distinct n i m j u hn hm := hinv.distinct n i m j u (register_at.mp hn) (register_at.mp hm)
  used u hu := by
    obtain ⟨n, i, hat⟩ := hinv.used u hu
    exact ⟨n, i, register_at.mpr hat⟩

end Register

/-! ### Pushing an upvalue -/

section Push

variable {n : Nat} {uv : Option Nat} {w : Captured Nat Plain}

theorem pushUpvalue_ne {m : Nat} (hne : n ≠ m) :
    (s.pushUpvalue n uv).closures[m]? = s.closures[m]? := by
  simp [Copy.pushUpvalue, hne]

theorem pushUpvalue_self {f : Nat} {ups : List (Option Nat)} (hn : s.closures[n]? = some (f, ups)) :
    (s.pushUpvalue n uv).closures[n]? = some (f, ups ++ [uv]) := by
  simp [Copy.pushUpvalue, hn]

theorem pushUpvalue_length : (s.pushUpvalue n uv).closures.length = s.closures.length := by
  simp [Copy.pushUpvalue]

/-- An upvalue of the child is an old one or the one that was pushed. -/
theorem pushUpvalue_at {f : Nat} {ups : List (Option Nat)} (hn : s.closures[n]? = some (f, ups))
    {m i u : Nat} :
    (s.pushUpvalue n uv).At m i u ↔ s.At m i u ∨ m = n ∧ i = ups.length ∧ uv = some u := by
  by_cases hne : n = m
  · subst hne
    simp only [Copy.At, pushUpvalue_self hn, hn, Option.some.injEq, exists_eq_left', true_and]
    rw [List.getElem?_append]
    split
    next hi =>
      have hne : i ≠ ups.length := Nat.ne_of_lt hi
      simp [hne]
    next hi =>
      have hnone : ups[i]? = none := List.getElem?_eq_none (Nat.le_of_not_lt hi)
      rw [List.getElem?_singleton, hnone]
      have hiff : i - ups.length = 0 ↔ i = ups.length := by omega
      simp [hiff]
  · have hne' : m ≠ n := fun h => hne h.symm
    simp [Copy.At, pushUpvalue_ne hne, hne']

theorem pushUpvalue_known {m f : Nat} (hknown : ∃ ups, s.closures[m]? = some (f, ups)) :
    ∃ ups, (s.pushUpvalue n uv).closures[m]? = some (f, ups) := by
  obtain ⟨ups, hups⟩ := hknown
  by_cases hne : n = m
  · subst hne
    exact ⟨_, pushUpvalue_self hups⟩
  · exact ⟨ups, (pushUpvalue_ne hne).trans hups⟩

theorem Inv.pushNone (hinv : Inv g P s) (hn : ∃ r, s.seen r = some n) :
    Inv g P (s.pushUpvalue n none) := by
  obtain ⟨r₀, hr₀⟩ := hn
  obtain ⟨ups, hups⟩ := hinv.seen r₀ n hr₀
  have hat : ∀ m i u, (s.pushUpvalue n none).At m i u ↔ s.At m i u := by
    intro m i u
    simp [pushUpvalue_at hups]
  exact
    { seen := fun r m hr => pushUpvalue_known (hinv.seen r m hr)
      inj := hinv.inj
      onto := fun m hm => hinv.onto m (pushUpvalue_length ▸ hm)
      reached := hinv.reached
      owned := fun m i u h => hinv.owned m i u ((hat m i u).mp h)
      distinct := fun m i m' j u h h' =>
        hinv.distinct m i m' j u ((hat m i u).mp h) ((hat m' j u).mp h')
      used := fun u hu => by
        obtain ⟨m, i, h⟩ := hinv.used u hu
        exact ⟨m, i, (hat m i u).mpr h⟩ }

theorem Inv.pushCell (hinv : Inv g P s) (hn : ∃ r, s.seen r = some n) :
    Inv g P (s.pushCell n w) := by
  obtain ⟨r₀, hr₀⟩ := hn
  obtain ⟨ups, hups⟩ := hinv.seen r₀ n hr₀
  have hat : ∀ m i u, (s.pushCell n w).At m i u ↔
      s.At m i u ∨ m = n ∧ i = ups.length ∧ s.cells.length = u := by
    intro m i u
    have h : (s.pushCell n w).At m i u ↔
        s.At m i u ∨ m = n ∧ i = ups.length ∧ some s.cells.length = some u :=
      pushUpvalue_at hups
    rw [h, Option.some.injEq]
  have hlength : (s.pushCell n w).cells.length = s.cells.length + 1 := by
    simp [Copy.pushCell, Copy.pushUpvalue]
  exact
    { seen := fun r m hr => by
        have hknown : ∃ ups, ({ s with cells := s.cells ++ [w] } : Copy Closure Plain).closures[m]?
            = some (g.function r, ups) := hinv.seen r m hr
        exact pushUpvalue_known hknown
      inj := hinv.inj
      onto := fun m hm => hinv.onto m (by simpa [Copy.pushCell, Copy.pushUpvalue] using hm)
      reached := hinv.reached
      owned := fun m i u h => by
        rw [hlength]
        obtain hold | ⟨_, _, hu⟩ := (hat m i u).mp h
        · have := hinv.owned m i u hold
          omega
        · omega
      distinct := fun m i m' j u h h' => by
        obtain hold | ⟨hm, hi, hu⟩ := (hat m i u).mp h <;>
          obtain hold' | ⟨hm', hj, hu'⟩ := (hat m' j u).mp h'
        · exact hinv.distinct m i m' j u hold hold'
        · have := hinv.owned m i u hold
          omega
        · have := hinv.owned m' j u hold'
          omega
        · omega
      used := fun u hu => by
        rw [hlength] at hu
        rcases Nat.lt_or_eq_of_le (Nat.le_of_lt_succ hu) with hlt | heq
        · obtain ⟨m, i, h⟩ := hinv.used u hlt
          exact ⟨m, i, (hat m i u).mpr (Or.inl h)⟩
        · exact ⟨n, ups.length, (hat n ups.length u).mpr (Or.inr ⟨rfl, rfl, heq.symm⟩)⟩ }

theorem grows_pushNone : Grows g (some n) s (s.pushUpvalue n none) where
  seen _ _ h := h
  cells := List.prefix_rfl
  length := Nat.le_of_eq pushUpvalue_length.symm
  closures m _ hne := pushUpvalue_ne fun heq => hne (congrArg some heq)
  complete r m hseen hnone := by
    have hsome : s.seen r = some m := hseen
    rw [hnone] at hsome
    cases hsome

theorem grows_pushCell : Grows g (some n) s (s.pushCell n w) where
  seen _ _ h := h
  cells := List.prefix_append _ _
  length := by simp [Copy.pushCell, Copy.pushUpvalue]
  closures m _ hne := pushUpvalue_ne fun heq => hne (congrArg some heq)
  complete r m hseen hnone := by
    have hsome : s.seen r = some m := hseen
    rw [hnone] at hsome
    cases hsome

end Push

/-! ### The walk -/

section Walk

variable [Fintype Closure]

/-- How many closures the table does not know. -/
def unseen (s : Copy Closure Plain) : Nat := (Finset.univ.filter fun r => s.seen r = none).card

theorem Grows.unseen_le {pending : Option Nat} (hgrows : Grows g pending s s') :
    unseen s' ≤ unseen s := by
  apply Finset.card_le_card
  intro r hr
  simp only [Finset.mem_filter, Finset.mem_univ, true_and] at hr ⊢
  cases hseen : s.seen r with
  | none => rfl
  | some n =>
      rw [hgrows.seen r n hseen] at hr
      cases hr

/-- A closure is copied: the copy exists and goes on from `s`. -/
def Visits (g : Graph Closure Cell Plain) (P : Closure → Prop) (depth : Nat)
    (visit : Closure → Copy Closure Plain → Option (Nat × Copy Closure Plain)) : Prop :=
  ∀ r s, P r → Inv g P s → unseen s < depth →
    ∃ n s', visit r s = some (n, s') ∧ Inv g P s' ∧ Grows g none s s' ∧ s'.seen r = some n

section Visits

variable {depth : Nat} {visit : Closure → Copy Closure Plain → Option (Nat × Copy Closure Plain)}

theorem closeValue_spec (hvisit : Visits g P depth visit) (v : Captured Closure Plain)
    (hv : ∀ r ∈ v.closures, P r) (hinv : Inv g P s) (hunseen : unseen s < depth) :
    ∃ w s', closeValue visit v s = some (w, s') ∧ Inv g P s' ∧ Grows g none s s' ∧
      Mapped s'.seen v w := by
  induction v generalizing s with
  | closure r =>
      obtain ⟨n, s', hrun, hinv', hgrows, hseen⟩ :=
        hvisit r s (hv r (List.mem_singleton.mpr rfl)) hinv hunseen
      exact ⟨.closure n, s', by simp [closeValue, hrun], hinv', hgrows, hseen⟩
  | boundMethod a b iha ihb =>
      have ha : ∀ r ∈ a.closures, P r := fun r hr => hv r (List.mem_append_left _ hr)
      have hb : ∀ r ∈ b.closures, P r := fun r hr => hv r (List.mem_append_right _ hr)
      obtain ⟨wa, s₁, hruna, hinv₁, hgrows₁, hmappeda⟩ := iha ha hinv hunseen
      obtain ⟨wb, s₂, hrunb, hinv₂, hgrows₂, hmappedb⟩ :=
        ihb hb hinv₁ (Nat.lt_of_le_of_lt hgrows₁.unseen_le hunseen)
      have hgrows : Grows g none s s₂ := Grows.trans hinv₁ nofun hgrows₁ hgrows₂
      exact ⟨.boundMethod wa wb, s₂, by simp [closeValue, hruna, hrunb], hinv₂, hgrows,
        hmappeda.mono hgrows₂.seen, hmappedb⟩
  | plain v => exact ⟨.plain v, s, rfl, hinv, Grows.refl, rfl⟩

/-- The loop adds to closure `n` the copies of the upvalues. -/
theorem closeUpvalues_spec (hvisit : Visits g P depth visit) {n : Nat} (uvs : List (Option Cell))
    (huvs : ∀ cell, some cell ∈ uvs → ∀ r ∈ (g.contents cell).closures, P r)
    (hinv : Inv g P s) (hn : ∃ r, s.seen r = some n) (hunseen : unseen s < depth)
    {f : Nat} {ups : List (Option Nat)} (hups : s.closures[n]? = some (f, ups)) :
    ∃ news s', closeUpvalues g visit n uvs s = some s' ∧ Inv g P s' ∧ Grows g (some n) s s' ∧
      s'.closures[n]? = some (f, ups ++ news) ∧ List.Forall₂ (MatchedUpvalue g s') uvs news := by
  induction uvs generalizing s ups with
  | nil => exact ⟨[], s, rfl, hinv, Grows.refl, by simpa using hups, .nil⟩
  | cons uv rest ih =>
      have hrest : ∀ cell, some cell ∈ rest → ∀ r ∈ (g.contents cell).closures, P r :=
        fun cell hcell => huvs cell (List.mem_cons_of_mem _ hcell)
      have hpending : ∀ m, some n = some m → ∃ r, s.seen r = some m := fun m hm =>
        Option.some.inj hm ▸ hn
      cases uv with
      | none =>
          have hinv₁ := hinv.pushNone hn
          have hgrows₁ : Grows g (some n) s (s.pushUpvalue n none) := grows_pushNone
          obtain ⟨news, s', hrun, hinv', hgrows', hnews, hmatched⟩ :=
            ih hrest hinv₁ hn hunseen (pushUpvalue_self hups)
          have hnews' : s'.closures[n]? = some (f, ups ++ none :: news) := by
            rw [hnews, List.append_assoc]
            rfl
          exact ⟨none :: news, s', hrun, hinv', Grows.trans hinv₁ hpending hgrows₁ hgrows',
            hnews', .cons trivial hmatched⟩
      | some cell =>
          have hcell := huvs cell (List.mem_cons_self ..)
          obtain ⟨w, s₁, hrun₁, hinv₁, hgrows₁, hmapped⟩ :=
            closeValue_spec hvisit (g.contents cell) hcell hinv hunseen
          obtain ⟨r₀, hr₀⟩ := hn
          have hn₁ : ∃ r, s₁.seen r = some n := ⟨r₀, hgrows₁.seen r₀ n hr₀⟩
          have hups₁ : s₁.closures[n]? = some (f, ups) := by
            rw [hgrows₁.closures n (hinv.lt_of_seen hr₀) nofun, hups]
          have hinv₂ : Inv g P (s₁.pushCell n w) := hinv₁.pushCell hn₁
          have hgrows₂ : Grows g (some n) s (s₁.pushCell n w) :=
            Grows.trans hinv₁ hpending hgrows₁.weaken grows_pushCell
          have hunseen₂ : unseen (s₁.pushCell n w) < depth :=
            Nat.lt_of_le_of_lt hgrows₂.unseen_le hunseen
          have hups₂ : (s₁.pushCell n w).closures[n]? = some (f, ups ++ [some s₁.cells.length]) :=
            pushUpvalue_self hups₁
          obtain ⟨news, s', hrun, hinv', hgrows', hnews, hmatched⟩ :=
            ih hrest hinv₂ hn₁ hunseen₂ hups₂
          have hfresh : MatchedUpvalue g (s₁.pushCell n w) (some cell) (some s₁.cells.length) := by
            refine ⟨w, ?_, hmapped⟩
            simp [Copy.pushCell, Copy.pushUpvalue]
          have hnews' : s'.closures[n]? = some (f, ups ++ some s₁.cells.length :: news) := by
            rw [hnews, List.append_assoc]
            rfl
          exact ⟨some s₁.cells.length :: news, s', by simp [closeUpvalues, hrun₁, hrun], hinv',
            Grows.trans hinv₂ hpending hgrows₂ hgrows', hnews',
            .cons (hfresh.mono hgrows') hmatched⟩

end Visits

variable [DecidableEq Closure]

theorem unseen_register {r : Closure} {f : Nat} (hnone : s.seen r = none) :
    unseen (s.register r f) < unseen s := by
  apply Finset.card_lt_card
  rw [Finset.ssubset_iff_of_subset]
  · have hmem : r ∉ Finset.univ.filter fun r' => (s.register r f).seen r' = none := by
      simp [register_seen_self]
    exact ⟨r, by simpa using hnone, hmem⟩
  · intro r' hr'
    simp only [Finset.mem_filter, Finset.mem_univ, true_and] at hr' ⊢
    by_cases heq : r' = r
    · exact heq ▸ hnone
    · exact (register_seen_ne heq).symm.trans hr'

/-- The walk meets a new closure at every level, so it ends within as many levels as there are
closures. -/
theorem closeUpvals_spec
    (hclosed : ∀ r, P r → ∀ cell, some cell ∈ g.upvalues r → ∀ r' ∈ (g.contents cell).closures, P r')
    (depth : Nat) : Visits g P depth (closeUpvals g depth) := by
  induction depth with
  | zero =>
      intro r s _ _ hunseen
      exact absurd hunseen (Nat.not_lt_zero _)
  | succ depth ih =>
      intro r s hr hinv hunseen
      cases hseen : s.seen r with
      | some n => exact ⟨n, s, by simp [closeUpvals, hseen], hinv, Grows.refl, hseen⟩
      | none =>
          have hinv₀ := hinv.register hseen hr
          have hn : ∃ r', (s.register r (g.function r)).seen r' = some s.closures.length :=
            ⟨r, register_seen_self⟩
          have hunseen₀ : unseen (s.register r (g.function r)) < depth :=
            Nat.lt_of_lt_of_le (unseen_register hseen) (Nat.le_of_lt_succ hunseen)
          obtain ⟨news, s', hrun, hinv', hgrows, hnews, hmatched⟩ :=
            closeUpvalues_spec ih (g.upvalues r) (hclosed r hr) hinv₀ hn hunseen₀ register_new
          have hcomplete : Complete g s' r s.closures.length := ⟨news, hnews, hmatched⟩
          have hself : s'.seen r = some s.closures.length := hgrows.seen r _ register_seen_self
          have hstep : Grows g none s s' :=
            { seen := fun r' m hm => by
                have hne : r' ≠ r := by
                  intro heq
                  rw [heq, hseen] at hm
                  cases hm
                exact hgrows.seen r' m ((register_seen_ne hne).trans hm)
              cells := hgrows.cells
              length := Nat.le_trans (by simp [Copy.register]) hgrows.length
              closures := fun m hm _ => by
                have hlt : m < (s.register r (g.function r)).closures.length := by
                  simp only [Copy.register, List.length_append, List.length_singleton]
                  omega
                have hne : some s.closures.length ≠ some m := by
                  intro heq
                  have := Option.some.inj heq
                  omega
                rw [hgrows.closures m hlt hne, register_old hm]
              complete := fun r' m hm hnone => by
                by_cases heq : r' = r
                · subst heq
                  obtain rfl := Option.some.inj (hself.symm.trans hm)
                  exact hcomplete
                · exact hgrows.complete r' m hm ((register_seen_ne heq).trans hnone) }
          exact ⟨s.closures.length, s', by simp [closeUpvals, hseen, hrun], hinv', hstep, hself⟩

/-- All closures known at the end are complete, and the values of the child are copies. -/
theorem closeAll_spec {depth : Nat} (hvisit : Visits g P depth (closeUpvals g depth))
    (roots : List (Captured Closure Plain)) (hroots : ∀ v ∈ roots, ∀ r ∈ v.closures, P r)
    (hinv : Inv g P s) (hunseen : unseen s < depth) :
    ∃ roots' s', closeAll g depth roots s = some (roots', s') ∧ Inv g P s' ∧ Grows g none s s' ∧
      List.Forall₂ (Mapped s'.seen) roots roots' := by
  induction roots generalizing s with
  | nil => exact ⟨[], s, rfl, hinv, Grows.refl, .nil⟩
  | cons v rest ih =>
      obtain ⟨w, s₁, hrun₁, hinv₁, hgrows₁, hmapped⟩ :=
        closeValue_spec hvisit v (hroots v (List.mem_cons_self ..)) hinv hunseen
      obtain ⟨rest', s', hrun, hinv', hgrows', hrest⟩ :=
        ih (fun v hv => hroots v (List.mem_cons_of_mem _ hv)) hinv₁
          (Nat.lt_of_le_of_lt hgrows₁.unseen_le hunseen)
      exact ⟨w :: rest', s', by simp [closeAll, hrun₁, hrun], hinv',
        Grows.trans hinv₁ nofun hgrows₁ hgrows', .cons (hmapped.mono hgrows'.seen) hrest⟩

end Walk

end Spawn

end EZLanguage
