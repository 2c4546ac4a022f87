import Mathlib.Data.Finset.Card

/-!
# Comparing graphs with a memo

Two values are looked at: the answer is there at once, or it is that of several pairs of values below. A
pair that was met before is taken for equal. The memo lives as long as the outermost comparison. What comes
out is bisimilarity, since every difference ends the whole comparison.
-/

namespace EZLanguage

namespace MemoBisimulation

/-- What looking at two values shows. A pair below that cannot be formed is none. -/
inductive Verdict (Key V : Type) where
  | decided (r : Bool)
  /-- Decided within a frame of the memo. -/
  | framed (r : Bool)
  | descend (key : Key) (below : List (Option (V × V)))

/-- The pairs met so far, and the frames there are. -/
structure Memo (Key : Type) where
  pairs : List Key
  depth : Nat

namespace Memo

variable {Key : Type}

def empty : Memo Key := { pairs := [], depth := 0 }

def enter (m : Memo Key) : Memo Key := { m with depth := m.depth + 1 }

/-- The outermost frame clears the memo. -/
def leave (m : Memo Key) : Memo Key :=
  if m.depth - 1 = 0 then empty else { m with depth := m.depth - 1 }

def insert (m : Memo Key) (key : Key) : Memo Key := { m with pairs := key :: m.pairs }

theorem leave_enter {m m' : Memo Key} (hdepth : 0 < m.depth) (hsame : m'.depth = m.depth + 1) :
    m'.leave = { m' with depth := m.depth } := by
  rw [leave, hsame, Nat.add_sub_cancel, if_neg (Nat.ne_of_gt hdepth)]

theorem leave_outermost {m' : Memo Key} (hsame : m'.depth = 1) : m'.leave = empty := by
  rw [leave, hsame]
  rfl

end Memo

section

variable {Key V : Type} [DecidableEq Key] (look : V → V → Verdict Key V)

/-- The pairs below, up to the first that differs. -/
def compareAll (equal : V → V → Memo Key → Option (Bool × Memo Key)) :
    List (Option (V × V)) → Memo Key → Option (Bool × Memo Key)
  | [], memo => some (true, memo)
  | none :: _, memo => some (false, memo)
  | some (a, b) :: rest, memo =>
      match equal a b memo with
      | some (true, memo) => compareAll equal rest memo
      | ended => ended

/-- The comparison, of calls nested so deep at most. -/
def compare : Nat → V → V → Memo Key → Option (Bool × Memo Key)
  | 0, _, _, _ => none
  | fuel + 1, a, b, memo =>
      match look a b with
      | .decided r => some (r, memo)
      | .framed r => some (r, memo.enter.leave)
      | .descend key below =>
          let memo := memo.enter
          if key ∈ memo.pairs then some (true, memo.leave)
          else
            match compareAll (compare fuel) below (memo.insert key) with
            | some (r, memo) => some (r, memo.leave)
            | none => none

example (a b : V) (memo : Memo Key) : compare look 0 a b memo = none := by simp [compare]

/-! ### Bisimilarity -/

/-- Two values match up to a relation below them. -/
def Matches (R : V → V → Prop) (a b : V) : Prop :=
  match look a b with
  | .decided r => r = true
  | .framed r => r = true
  | .descend _ below => ∀ p ∈ below, ∃ c : V × V, p = some c ∧ R c.1 c.2

def IsBisimulation (R : V → V → Prop) : Prop := ∀ a b, R a b → Matches look R a b

def Bisimilar (a b : V) : Prop := ∃ R, IsBisimulation look R ∧ R a b

variable {look}

omit [DecidableEq Key] in
theorem Matches.mono {R S : V → V → Prop} (hRS : ∀ a b, R a b → S a b) {a b : V}
    (h : Matches look R a b) : Matches look S a b := by
  unfold Matches at h ⊢
  cases hlook : look a b with
  | decided r =>
      rw [hlook] at h
      exact h
  | framed r =>
      rw [hlook] at h
      exact h
  | descend key below =>
      rw [hlook] at h
      intro p hp
      obtain ⟨c, hc, hR⟩ := h p hp
      exact ⟨c, hc, hRS _ _ hR⟩

omit [DecidableEq Key] in
/-- Bisimilarity is itself a bisimulation. -/
theorem bisimilar_matches {a b : V} (h : Bisimilar look a b) : Matches look (Bisimilar look) a b := by
  obtain ⟨R, hR, hab⟩ := h
  exact (hR a b hab).mono fun c d hcd => ⟨R, hR, hcd⟩

/-! ### A difference is a difference -/

omit [DecidableEq Key] in
theorem compareAll_false {equal : V → V → Memo Key → Option (Bool × Memo Key)}
    (hequal : ∀ a b memo memo', equal a b memo = some (false, memo') → ¬Bisimilar look a b)
    {below : List (Option (V × V))} {memo memo' : Memo Key}
    (hfalse : compareAll equal below memo = some (false, memo')) :
    ∃ p ∈ below, ∀ c : V × V, p = some c → ¬Bisimilar look c.1 c.2 := by
  induction below generalizing memo with
  | nil => cases hfalse
  | cons p rest ih =>
      cases p with
      | none =>
          refine ⟨none, List.mem_cons_self, ?_⟩
          rintro c ⟨⟩
      | some c =>
          rw [compareAll] at hfalse
          split at hfalse
          · obtain ⟨p, hp, hdiffers⟩ := ih hfalse
            exact ⟨p, List.mem_cons_of_mem _ hp, hdiffers⟩
          · refine ⟨some c, List.mem_cons_self, ?_⟩
            rintro _ ⟨⟩
            exact hequal _ _ _ _ hfalse

theorem not_bisimilar_of_false (fuel : Nat) : ∀ {a b : V} {memo memo' : Memo Key},
    compare look fuel a b memo = some (false, memo') → ¬Bisimilar look a b := by
  induction fuel with
  | zero =>
      rintro a b memo memo' ⟨⟩
  | succ fuel ih =>
      intro a b memo memo' hfalse hbisimilar
      have hmatches := bisimilar_matches hbisimilar
      unfold Matches at hmatches
      rw [compare] at hfalse
      cases hlook : look a b with
      | decided r =>
          rw [hlook] at hfalse hmatches
          cases hfalse
          cases hmatches
      | framed r =>
          rw [hlook] at hfalse hmatches
          cases hfalse
          cases hmatches
      | descend key below =>
          rw [hlook] at hfalse hmatches
          dsimp only at hfalse hmatches
          split at hfalse
          · cases hfalse
          · cases hall : compareAll (compare look fuel) below (memo.enter.insert key) with
            | none =>
                rw [hall] at hfalse
                cases hfalse
            | some ended =>
                rw [hall] at hfalse
                obtain ⟨r, after⟩ := ended
                cases hfalse
                obtain ⟨p, hp, hdiffers⟩ := compareAll_false (fun _ _ _ _ => ih) hall
                obtain ⟨c, hc, hbelow⟩ := hmatches p hp
                exact hdiffers c hc hbelow

/-! ### The depth -/

omit [DecidableEq Key] in
theorem compareAll_depth {equal : V → V → Memo Key → Option (Bool × Memo Key)}
    (hequal : ∀ a b memo r memo', 0 < memo.depth → equal a b memo = some (r, memo') →
      memo'.depth = memo.depth)
    {below : List (Option (V × V))} {memo memo' : Memo Key} {r : Bool} (hdepth : 0 < memo.depth)
    (hends : compareAll equal below memo = some (r, memo')) : memo'.depth = memo.depth := by
  induction below generalizing memo with
  | nil =>
      cases hends
      rfl
  | cons p rest ih =>
      cases p with
      | none =>
          cases hends
          rfl
      | some c =>
          rw [compareAll] at hends
          split at hends
          · rename_i after hone
            have hafter := hequal _ _ _ _ _ hdepth hone
            exact (ih (hafter ▸ hdepth) hends).trans hafter
          · exact hequal _ _ _ _ _ hdepth hends

/-- Within a frame the depth comes back to what it was. -/
theorem compare_depth (fuel : Nat) : ∀ (a b : V) (memo : Memo Key) (r : Bool) (memo' : Memo Key),
    0 < memo.depth → compare look fuel a b memo = some (r, memo') → memo'.depth = memo.depth := by
  induction fuel with
  | zero =>
      rintro a b memo r memo' - ⟨⟩
  | succ fuel ih =>
      intro a b memo r memo' hdepth hends
      have hleave : memo.enter.leave = memo := Memo.leave_enter hdepth rfl
      rw [compare] at hends
      cases hlook : look a b with
      | decided r =>
          rw [hlook] at hends
          cases hends
          rfl
      | framed r =>
          rw [hlook] at hends
          cases hends
          rw [hleave]
      | descend key below =>
          rw [hlook] at hends
          dsimp only at hends
          split at hends
          · cases hends
            rw [hleave]
          · cases hall : compareAll (compare look fuel) below (memo.enter.insert key) with
            | none =>
                rw [hall] at hends
                cases hends
            | some ended =>
                rw [hall] at hends
                obtain ⟨r', after⟩ := ended
                cases hends
                have hafter : after.depth = memo.depth + 1 :=
                  compareAll_depth ih (Nat.succ_pos _) hall
                rw [Memo.leave_enter hdepth hafter]

/-! ### What is taken for equal -/

variable (look) in
/-- The values are equal at once, or a pair met before. -/
def Covered (S : List Key) (a b : V) : Prop :=
  match look a b with
  | .decided r => r = true
  | .framed r => r = true
  | .descend key _ => key ∈ S

variable (look) in
/-- All pairs below a key are covered. -/
def Expanded (S : List Key) (key : Key) : Prop :=
  ∀ a b below, look a b = .descend key below →
    ∀ p ∈ below, ∃ c : V × V, p = some c ∧ Covered look S c.1 c.2

variable (look) in
/-- The memo kept its pairs, and below every new one all was covered. -/
structure Grows (m m' : Memo Key) : Prop where
  kept : m.pairs ⊆ m'.pairs
  expanded : ∀ key ∈ m'.pairs, key ∉ m.pairs → Expanded look m'.pairs key

omit [DecidableEq Key] in
theorem Covered.mono {S S' : List Key} (hS : S ⊆ S') {a b : V} (h : Covered look S a b) :
    Covered look S' a b := by
  unfold Covered at h ⊢
  cases hlook : look a b with
  | decided r =>
      rw [hlook] at h
      exact h
  | framed r =>
      rw [hlook] at h
      exact h
  | descend key below =>
      rw [hlook] at h
      exact hS h

omit [DecidableEq Key] in
theorem Expanded.mono {S S' : List Key} (hS : S ⊆ S') {key : Key} (h : Expanded look S key) :
    Expanded look S' key := by
  intro a b below hlook p hp
  obtain ⟨c, hc, hcovered⟩ := h a b below hlook p hp
  exact ⟨c, hc, hcovered.mono hS⟩

omit [DecidableEq Key] in
theorem Grows.refl (m : Memo Key) : Grows look m m where
  kept := fun _ h => h
  expanded := fun _ h hnew => absurd h hnew

theorem Grows.trans {m m' m'' : Memo Key} (h : Grows look m m') (h' : Grows look m' m'') :
    Grows look m m'' where
  kept := fun _ hkey => h'.kept (h.kept hkey)
  expanded := by
    intro key hkey hnew
    by_cases hmid : key ∈ m'.pairs
    · exact (h.expanded key hmid hnew).mono h'.kept
    · exact h'.expanded key hkey hmid

omit [DecidableEq Key] in
/-- Where everything below a set of pairs is covered, what the set covers is bisimilar. -/
theorem bisimilar_of_covered {S : List Key} (hS : ∀ key ∈ S, Expanded look S key) {a b : V}
    (h : Covered look S a b) : Bisimilar look a b := by
  refine ⟨Covered look S, ?_, h⟩
  intro c d hcd
  unfold Matches
  cases hlook : look c d with
  | decided r =>
      rw [Covered, hlook] at hcd
      exact hcd
  | framed r =>
      rw [Covered, hlook] at hcd
      exact hcd
  | descend key below =>
      rw [Covered, hlook] at hcd
      exact hS key hcd c d below hlook

theorem compareAll_true {equal : V → V → Memo Key → Option (Bool × Memo Key)}
    (hequal : ∀ a b memo memo', 0 < memo.depth → equal a b memo = some (true, memo') →
      memo'.depth = memo.depth ∧ Grows look memo memo' ∧ Covered look memo'.pairs a b)
    {below : List (Option (V × V))} {memo memo' : Memo Key} (hdepth : 0 < memo.depth)
    (htrue : compareAll equal below memo = some (true, memo')) :
    Grows look memo memo' ∧
      ∀ p ∈ below, ∃ c : V × V, p = some c ∧ Covered look memo'.pairs c.1 c.2 := by
  induction below generalizing memo with
  | nil =>
      cases htrue
      refine ⟨.refl _, ?_⟩
      rintro p ⟨⟩
  | cons p rest ih =>
      cases p with
      | none => cases htrue
      | some c =>
          rw [compareAll] at htrue
          split at htrue
          · rename_i after hone
            obtain ⟨hafter, hgrows, hcovered⟩ := hequal _ _ _ _ hdepth hone
            obtain ⟨hgrows', hrest⟩ := ih (hafter ▸ hdepth) htrue
            refine ⟨hgrows.trans hgrows', ?_⟩
            intro p hp
            obtain rfl | hp := List.mem_cons.1 hp
            · exact ⟨c, rfl, hcovered.mono hgrows'.kept⟩
            · exact hrest p hp
          · rename_i hone
            exact absurd htrue (hone memo')

/-- A key stands for the pairs below it. -/
def KeysDetermine (look : V → V → Verdict Key V) : Prop :=
  ∀ a b a' b' key below below', look a b = .descend key below → look a' b' = .descend key below' →
    below = below'

/-- Where the pairs below a new key are covered in the end, so is everything new. -/
theorem grows_insert (hkeys : KeysDetermine look) {a b : V} {key : Key}
    {below : List (Option (V × V))} {memo after : Memo Key} (hlook : look a b = .descend key below)
    (hgrows : Grows look (memo.enter.insert key) after)
    (hbelow : ∀ p ∈ below, ∃ c : V × V, p = some c ∧ Covered look after.pairs c.1 c.2) :
    Grows look memo after ∧ key ∈ after.pairs := by
  have hkey : key ∈ after.pairs := hgrows.kept List.mem_cons_self
  refine ⟨⟨fun k hk => hgrows.kept (List.mem_cons_of_mem _ hk), ?_⟩, hkey⟩
  intro k hk hnew
  by_cases hsame : k = key
  · subst hsame
    intro a' b' below' hlook'
    rw [hkeys a' b' a b k below' below hlook' hlook]
    exact hbelow
  · apply hgrows.expanded k hk
    intro hmem
    obtain hmem | hmem := List.mem_cons.1 hmem
    · exact hsame hmem
    · exact hnew hmem

/-- Within a frame a comparison that comes out true covers its values and everything new below. -/
theorem compare_true (hkeys : KeysDetermine look) (fuel : Nat) :
    ∀ (a b : V) (memo memo' : Memo Key), 0 < memo.depth →
      compare look fuel a b memo = some (true, memo') →
      memo'.depth = memo.depth ∧ Grows look memo memo' ∧ Covered look memo'.pairs a b := by
  induction fuel with
  | zero =>
      rintro a b memo memo' - ⟨⟩
  | succ fuel ih =>
      intro a b memo memo' hdepth htrue
      refine ⟨compare_depth _ _ _ _ _ _ hdepth htrue, ?_⟩
      have hleave : memo.enter.leave = memo := Memo.leave_enter hdepth rfl
      rw [compare] at htrue
      unfold Covered
      cases hlook : look a b with
      | decided r =>
          rw [hlook] at htrue
          cases htrue
          exact ⟨.refl _, rfl⟩
      | framed r =>
          rw [hlook] at htrue
          cases htrue
          rw [hleave]
          exact ⟨.refl _, rfl⟩
      | descend key below =>
          rw [hlook] at htrue
          dsimp only at htrue ⊢
          split at htrue
          · rename_i hseen
            cases htrue
            rw [hleave]
            exact ⟨.refl _, hseen⟩
          · cases hall : compareAll (compare look fuel) below (memo.enter.insert key) with
            | none =>
                rw [hall] at htrue
                cases htrue
            | some ended =>
                rw [hall] at htrue
                obtain ⟨r', after⟩ := ended
                cases htrue
                have hafter : after.depth = memo.depth + 1 :=
                  compareAll_depth (compare_depth fuel) (Nat.succ_pos _) hall
                obtain ⟨hgrows, hbelow⟩ := compareAll_true ih (Nat.succ_pos _) hall
                rw [Memo.leave_enter hdepth hafter]
                obtain ⟨hgrown, hkey⟩ := grows_insert hkeys hlook hgrows hbelow
                exact ⟨⟨hgrown.kept, hgrown.expanded⟩, hkey⟩

/-! ### The outermost comparison -/

/-- The outermost comparison leaves the memo empty, and is true of bisimilar values alone. -/
theorem compare_outermost (hkeys : KeysDetermine look) {fuel : Nat} {a b : V} {r : Bool}
    {memo' : Memo Key} (hends : compare look fuel a b .empty = some (r, memo')) :
    memo' = .empty ∧ (r = true → Bisimilar look a b) := by
  cases fuel with
  | zero => cases hends
  | succ fuel =>
      rw [compare] at hends
      cases hlook : look a b with
      | decided r' =>
          rw [hlook] at hends
          cases hends
          refine ⟨rfl, fun hr => bisimilar_of_covered (S := []) (by rintro key ⟨⟩) ?_⟩
          rw [Covered, hlook]
          exact hr
      | framed r' =>
          rw [hlook] at hends
          cases hends
          refine ⟨rfl, fun hr => bisimilar_of_covered (S := []) (by rintro key ⟨⟩) ?_⟩
          rw [Covered, hlook]
          exact hr
      | descend key below =>
          rw [hlook] at hends
          dsimp only at hends
          rw [if_neg (by rintro ⟨⟩)] at hends
          cases hall : compareAll (compare look fuel) below (Memo.empty.enter.insert key) with
          | none =>
              rw [hall] at hends
              cases hends
          | some ended =>
              rw [hall] at hends
              obtain ⟨r', after⟩ := ended
              cases hends
              have hafter : after.depth = 1 :=
                compareAll_depth (compare_depth fuel) (Nat.succ_pos _) hall
              refine ⟨Memo.leave_outermost hafter, ?_⟩
              rintro rfl
              obtain ⟨hgrows, hbelow⟩ :=
                compareAll_true (compare_true hkeys fuel) (Nat.succ_pos _) hall
              obtain ⟨hgrown, hkey⟩ := grows_insert hkeys hlook hgrows hbelow
              refine bisimilar_of_covered (S := after.pairs) ?_ ?_
              · intro k hk
                exact hgrown.expanded k hk (by rintro ⟨⟩)
              · rw [Covered, hlook]
                exact hkey

/-! ### The end -/

/-- The pairs not met yet. -/
def unmet (U : Finset Key) (memo : Memo Key) : Finset Key := U.filter fun key => key ∉ memo.pairs

theorem unmet_mono {U : Finset Key} {m m' : Memo Key} (h : m.pairs ⊆ m'.pairs) :
    (unmet U m').card ≤ (unmet U m).card := by
  apply Finset.card_le_card
  intro key hkey
  obtain ⟨hU, hnew⟩ := Finset.mem_filter.1 hkey
  exact Finset.mem_filter.2 ⟨hU, fun hmem => hnew (h hmem)⟩

theorem unmet_insert {U : Finset Key} {memo : Memo Key} {key : Key} (hU : key ∈ U)
    (hnew : key ∉ memo.pairs) : (unmet U (memo.insert key)).card < (unmet U memo).card := by
  apply Finset.card_lt_card
  rw [Finset.ssubset_iff_of_subset]
  · refine ⟨key, Finset.mem_filter.2 ⟨hU, hnew⟩, ?_⟩
    intro hmem
    exact (Finset.mem_filter.1 hmem).2 List.mem_cons_self
  · intro k hk
    obtain ⟨hkU, hknew⟩ := Finset.mem_filter.1 hk
    exact Finset.mem_filter.2 ⟨hkU, fun hmem => hknew (List.mem_cons_of_mem _ hmem)⟩

theorem compareAll_ends {U : Finset Key} {n : Nat}
    {equal : V → V → Memo Key → Option (Bool × Memo Key)}
    (hequal : ∀ a b memo, 0 < memo.depth → (unmet U memo).card < n → ∃ ended, equal a b memo = some ended)
    (hgrows : ∀ a b memo memo', 0 < memo.depth → equal a b memo = some (true, memo') →
      memo'.depth = memo.depth ∧ memo.pairs ⊆ memo'.pairs)
    (below : List (Option (V × V))) (memo : Memo Key) (hdepth : 0 < memo.depth)
    (hfuel : (unmet U memo).card < n) : ∃ ended, compareAll equal below memo = some ended := by
  induction below generalizing memo with
  | nil => exact ⟨_, rfl⟩
  | cons p rest ih =>
      cases p with
      | none => exact ⟨_, rfl⟩
      | some c =>
          obtain ⟨⟨r, after⟩, hone⟩ := hequal c.1 c.2 memo hdepth hfuel
          rw [compareAll, hone]
          cases r with
          | false => exact ⟨_, rfl⟩
          | true =>
              obtain ⟨hafter, hkept⟩ := hgrows _ _ _ _ hdepth hone
              exact ih _ (hafter ▸ hdepth) (Nat.lt_of_le_of_lt (unmet_mono hkept) hfuel)

/-- Calls are nested no deeper than there are pairs to meet. -/
theorem compare_ends (hkeys : KeysDetermine look) {U : Finset Key}
    (hU : ∀ a b key below, look a b = .descend key below → below ≠ [] → key ∈ U) (fuel : Nat) :
    ∀ (a b : V) (memo : Memo Key), (unmet U memo).card < fuel →
      ∃ ended, compare look fuel a b memo = some ended := by
  induction fuel with
  | zero =>
      intro a b memo hfuel
      omega
  | succ fuel ih =>
      intro a b memo hfuel
      rw [compare]
      cases hlook : look a b with
      | decided r => exact ⟨_, rfl⟩
      | framed r => exact ⟨_, rfl⟩
      | descend key below =>
          dsimp only
          by_cases hseen : key ∈ memo.enter.pairs
          · rw [if_pos hseen]
            exact ⟨_, rfl⟩
          · rw [if_neg hseen]
            cases below with
            | nil => exact ⟨_, rfl⟩
            | cons p rest =>
                have hless : (unmet U (memo.enter.insert key)).card < (unmet U memo).card :=
                  unmet_insert (hU a b key _ hlook (List.cons_ne_nil _ _)) hseen
                have hgrows : ∀ a b memo memo', 0 < memo.depth →
                    compare look fuel a b memo = some (true, memo') →
                    memo'.depth = memo.depth ∧ memo.pairs ⊆ memo'.pairs := by
                  intro a b memo memo' hdepth htrue
                  obtain ⟨hsame, hgrown, -⟩ := compare_true hkeys fuel a b memo memo' hdepth htrue
                  exact ⟨hsame, hgrown.kept⟩
                obtain ⟨ended, hall⟩ := compareAll_ends (fun a b memo _ => ih a b memo) hgrows
                  (p :: rest) (memo.enter.insert key) (Nat.succ_pos _) (by omega)
                rw [hall]
                exact ⟨_, rfl⟩

/-- The comparison of two values ends, leaves the memo empty and tells whether they are bisimilar. -/
theorem compare_iff_bisimilar (hkeys : KeysDetermine look) {U : Finset Key}
    (hU : ∀ a b key below, look a b = .descend key below → below ≠ [] → key ∈ U) {fuel : Nat}
    (hfuel : U.card < fuel) (a b : V) :
    ∃ r, compare look fuel a b .empty = some (r, .empty) ∧ (r = true ↔ Bisimilar look a b) := by
  have hunmet : (unmet U (Memo.empty : Memo Key)).card < fuel :=
    Nat.lt_of_le_of_lt (Finset.card_filter_le _ _) hfuel
  obtain ⟨⟨r, memo'⟩, hends⟩ := compare_ends hkeys hU fuel a b .empty hunmet
  obtain ⟨rfl, htrue⟩ := compare_outermost hkeys hends
  refine ⟨r, hends, htrue, ?_⟩
  intro hbisimilar
  cases r with
  | true => rfl
  | false => exact absurd hbisimilar (not_bisimilar_of_false fuel hends)

end

end MemoBisimulation

end EZLanguage
