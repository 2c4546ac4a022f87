import Mathlib.Algebra.GroupWithZero.Nat
import Mathlib.Algebra.Group.Int.Defs
import EZLanguage.GC.Collector
import Mathlib.Algebra.BigOperators.Group.List.Basic

/-!
# What a collection may clear

A collection should clear only objects that neither a root nor anything outside its candidates leads to.
It does when each candidate that is referred to from a place the collector does not follow can be reached
from a candidate with a surplus: one that has more owners the collector does not come past than there
are upvalues and bound methods that lead it there.
-/

namespace EZLanguage

namespace CycleCollector

namespace Snapshot

variable (h : Snapshot) (live : List Nat)

/-! ### The graph the program sees -/

/-- The objects behind a reference. -/
def pointees : Ref → List Nat := throughBound Ref.target h.boundMethods

/-- The references the program finds in an object: for a closure, what its upvalues hold. -/
def found (x : Nat) : List Ref :=
  match h.objects[x]? with
  | some (.closure upvalues) => h.closureTraverse upvalues
  | some contents => contents.owned
  | none => []

def LeadsTo (x y : Nat) : Prop := y ∈ (h.found x).flatMap h.pointees

/-- The objects that a stack slot, another holder or an object outside the candidates leads to. -/
inductive Reachable : Nat → Prop
  | root {v : Ref} {x : Nat} (hroot : v ∈ h.stack ++ h.others) (hx : x ∈ h.pointees v) : Reachable x
  | outside {x : Nat} (hexists : x < h.objects.length) (hx : x ∉ live) : Reachable x
  | leads {x y : Nat} (hx : Reachable x) (hy : h.LeadsTo x y) : Reachable y

/-! ### The condition -/

/-- The object is referred to from a place the collector does not follow. -/
inductive Entered (x : Nat) : Prop
  | root {v : Ref} (hroot : v ∈ h.stack ++ h.others) (hx : x ∈ h.pointees v)
  | unfollowed {y : Nat} (hy : h.Reachable live y) (hx : h.LeadsTo y x)
      (hskipped : ¬(y ∈ live ∧ x ∈ h.references y))

end Snapshot

def Ref.isSuper : Ref → Bool
  | .super _ => true
  | _ => false

def Ref.isBoundMethod : Ref → Bool
  | .boundMethod _ => true
  | _ => false

namespace Snapshot

variable (h : Snapshot) (live : List Nat)

/-- The references of an object that the collector does not come past as references to their targets. -/
def uncountedIn (x : Nat) : List Ref :=
  match h.objects[x]? with
  | some (.super receiver parentKlass) => (Contents.super receiver parentKlass).owned
  | some contents => if x ∈ live then contents.owned.filter Ref.isSuper else contents.owned
  | none => []

/-- The references the collector does not come past, once for each owner. -/
def uncounted : List Ref :=
  (List.range h.objects.length).flatMap (h.uncountedIn live) ++ h.upvalues.flatMap Upvalue.owned ++
    h.boundMethods.flatMap (fun bound => [bound.receiver, bound.method]) ++ h.stack ++ h.others

/-- The objects that the upvalues of a closure or the bound methods in an object lead to. -/
def indirectIn (x : Nat) : List Nat :=
  match h.objects[x]? with
  | some (.closure upvalues) =>
      (h.closureTraverse upvalues).flatMap (forEachReferencedPtr h.boundMethods)
  | some (.super _ _) | none => []
  | some contents =>
      (contents.owned.filter Ref.isBoundMethod).flatMap (forEachReferencedPtr h.boundMethods)

/-- More owners the collector does not come past than ways through upvalues and bound methods. -/
def Surplus (x : Nat) : Prop :=
  (live.flatMap h.indirectIn).count x < ((h.uncounted live).filterMap Ref.target).count x

def Follows (x y : Nat) : Prop := y ∈ (h.references x).filter (· ∈ live)

end Snapshot

/-! ### The adjusted counts -/

theorem foldl_decrement (live : List Nat) (raws : List Nat) (adjustedRC : Nat → Int) {x : Nat}
    (hx : x ∈ live) :
    raws.foldl (Snapshot.decrement live) adjustedRC x = adjustedRC x - raws.count x := by
  induction raws generalizing adjustedRC with
  | nil => simp
  | cons raw rest ih =>
      rw [List.foldl_cons, ih, List.count_cons, Snapshot.decrement]
      by_cases hraw : raw = x
      · subst hraw
        rw [if_pos hx, Function.update_self]
        simp only [BEq.rfl, if_true]
        omega
      · have hother : (if raw ∈ live then Function.update adjustedRC raw (adjustedRC raw - 1)
            else adjustedRC) x = adjustedRC x := by
          by_cases hlive : raw ∈ live
          · rw [if_pos hlive, Function.update_of_ne (Ne.symm hraw)]
          · rw [if_neg hlive]
        rw [hother]
        simp [hraw]

/-- A reference counts once: as an owner of its target that the collector does not come past, or as one
that it does, and a bound method counts for what it leads to. -/
theorem count_references (bms : List BoundMethod) (refs : List Ref) (x : Nat) :
    (refs.filterMap Ref.target).count x +
        ((refs.filter Ref.isBoundMethod).flatMap (forEachReferencedPtr bms)).count x =
      ((refs.filter Ref.isSuper).filterMap Ref.target).count x +
        (refs.flatMap (forEachReferencedPtr bms)).count x := by
  induction refs with
  | nil => rfl
  | cons v rest ih =>
      rw [List.flatMap_cons, List.count_append]
      cases v with
      | plain =>
          have hnone : forEachReferencedPtr bms .plain = [] := by cases bms <;> rfl
          rw [hnone]
          simpa only [List.filterMap_cons, Ref.target, List.filter_cons, Ref.isBoundMethod,
            Ref.isSuper, Bool.false_eq_true, if_false, List.count_nil, Nat.zero_add] using ih
      | object y =>
          have hself : forEachReferencedPtr bms (.object y) = [y] := by cases bms <;> rfl
          rw [hself]
          simp only [List.filterMap_cons, Ref.target, List.filter_cons, Ref.isBoundMethod,
            Ref.isSuper, Bool.false_eq_true, if_false, List.count_cons, List.count_nil] at ih ⊢
          omega
      | super y =>
          have hnone : forEachReferencedPtr bms (.super y) = [] := by cases bms <;> rfl
          rw [hnone]
          simp only [List.filterMap_cons, Ref.target, List.filter_cons, Ref.isBoundMethod,
            Ref.isSuper, Bool.false_eq_true, if_false, if_true, List.count_cons,
            List.count_nil] at ih ⊢
          omega
      | boundMethod b =>
          simp only [List.filterMap_cons, Ref.target, List.filter_cons, Ref.isBoundMethod,
            Ref.isSuper, Bool.false_eq_true, if_false, if_true, List.flatMap_cons,
            List.count_append] at ih ⊢
          omega

/-- The same for the references of one object. -/
theorem Snapshot.count_object (h : Snapshot) (live : List Nat) (y x : Nat) :
    ((h.ownedBy y).filterMap Ref.target).count x +
        (if y ∈ live then (h.indirectIn y).count x else 0) =
      ((h.uncountedIn live y).filterMap Ref.target).count x +
        (if y ∈ live then (h.references y).count x else 0) := by
  rw [Snapshot.ownedBy, Snapshot.indirectIn, Snapshot.uncountedIn, Snapshot.references,
    Snapshot.traverseObject]
  cases hy : h.objects[y]? with
  | none => simp
  | some contents =>
      by_cases hlive : y ∈ live
      · cases contents with
        | closure upvalues => simp [hlive, Contents.owned]
        | super receiver parentKlass => simp [hlive]
        | _ =>
            simp only [hlive, if_true, Option.elim]
            exact count_references _ _ x
      · cases contents with
        | closure upvalues => simp [hlive, Contents.owned]
        | super receiver parentKlass => simp [hlive]
        | _ => simp [hlive]

theorem count_flatMap_live {live : List Nat} (hnodup : live.Nodup) (n : Nat)
    (hlive : ∀ y ∈ live, y < n) (f : Nat → List Nat) (x : Nat) :
    (live.flatMap f).count x =
      ((List.range n).map fun y => if y ∈ live then (f y).count x else 0).sum := by
  have hperm : live.Perm ((List.range n).filter (· ∈ live)) := by
    rw [List.perm_ext_iff_of_nodup hnodup (List.nodup_range.filter _)]
    intro y
    rw [List.mem_filter, List.mem_range, decide_eq_true_iff]
    exact ⟨fun hy => ⟨hlive y hy, hy⟩, And.right⟩
  rw [(hperm.flatMap_right f).count_eq, List.count_flatMap]
  induction List.range n with
  | nil => rfl
  | cons y rest ih =>
      by_cases hy : y ∈ live
      · simp only [List.filter_cons, hy, decide_true, if_true, List.map_cons, List.sum_cons, ih]
        rfl
      · simp only [List.filter_cons, hy, decide_false, Bool.false_eq_true, if_false, List.map_cons,
          List.sum_cons, ih]
        omega

theorem count_filterMap_flatMap (l : List Nat) (f : Nat → List Ref) (x : Nat) :
    ((l.flatMap f).filterMap Ref.target).count x =
      (l.map fun y => ((f y).filterMap Ref.target).count x).sum := by
  rw [List.filterMap_flatMap, List.count_flatMap]
  rfl

theorem Snapshot.useCount_add_indirect (h : Snapshot) {live : List Nat} (hnodup : live.Nodup)
    (hlive : ∀ y ∈ live, y < h.objects.length) (x : Nat) :
    h.useCount x + (live.flatMap h.indirectIn).count x =
      ((h.uncounted live).filterMap Ref.target).count x +
        (live.flatMap h.references).count x := by
  have hsum : ((List.range h.objects.length).map fun y =>
        ((h.ownedBy y).filterMap Ref.target).count x +
          (if y ∈ live then (h.indirectIn y).count x else 0)).sum =
      ((List.range h.objects.length).map fun y =>
        ((h.uncountedIn live y).filterMap Ref.target).count x +
          (if y ∈ live then (h.references y).count x else 0)).sum := by
    congr 1
    exact List.map_congr_left fun y _ => h.count_object live y x
  rw [List.sum_map_add, List.sum_map_add] at hsum
  rw [Snapshot.useCount, Snapshot.owners, Snapshot.uncounted, count_flatMap_live hnodup _ hlive,
    count_flatMap_live hnodup _ hlive]
  simp only [List.filterMap_append, List.count_append, count_filterMap_flatMap]
  omega

/-- The adjusted count of a candidate is positive exactly when it has a surplus. -/
theorem Snapshot.adjustedRC_pos_iff (h : Snapshot) {live : List Nat} (hnodup : live.Nodup)
    (hlive : ∀ y ∈ live, y < h.objects.length) {x : Nat} (hx : x ∈ live) :
    0 < h.phase2BuildCandidates live x ↔ h.Surplus live x := by
  have hcounts := h.useCount_add_indirect hnodup hlive x
  rw [Snapshot.phase2BuildCandidates, foldl_decrement live _ _ hx, Snapshot.Surplus]
  omega

/-! ### The flood fill -/

namespace Snapshot

variable (h : Snapshot) (candidates : Candidates)

theorem mem_phase1PurgeExpired {x : Nat} :
    x ∈ h.phase1PurgeExpired candidates ↔ x ∈ candidates.objects ∧ x < h.objects.length := by
  rw [phase1PurgeExpired, List.mem_filter, decide_eq_true_iff]

theorem phase1PurgeExpired_nodup : (h.phase1PurgeExpired candidates).Nodup :=
  candidates.nodup.filter _

/-- The collector clears the candidates it cannot reach from one with a surplus. -/
theorem mem_garbage {x : Nat} :
    x ∈ h.garbage candidates ↔ x ∈ h.phase1PurgeExpired candidates ∧
      ¬∃ y ∈ h.phase1PurgeExpired candidates, h.Surplus (h.phase1PurgeExpired candidates) y ∧
        Relation.ReflTransGen (h.Follows (h.phase1PurgeExpired candidates)) y x := by
  have hnodup := h.phase1PurgeExpired_nodup candidates
  have hlive : ∀ y ∈ h.phase1PurgeExpired candidates, y < h.objects.length :=
    fun y hy => ((h.mem_phase1PurgeExpired candidates).mp hy).2
  rw [garbage, phase3FindGarbage]
  generalize h.phase1PurgeExpired candidates = live at hnodup hlive ⊢
  rw [List.mem_filter, decide_eq_true_iff, FloodFill.mem_fill_iff (hnodup.filter _)]
  · refine and_congr_right fun _ => not_congr ⟨?_, ?_⟩
    · rintro ⟨y, hy, hpath⟩
      obtain ⟨hin, hpos⟩ := List.mem_filter.mp hy
      exact ⟨y, hin, (h.adjustedRC_pos_iff hnodup hlive hin).mp (of_decide_eq_true hpos), hpath⟩
    · rintro ⟨y, hin, hsurplus, hpath⟩
      have hpos := (h.adjustedRC_pos_iff hnodup hlive hin).mpr hsurplus
      exact ⟨y, List.mem_filter.mpr ⟨hin, decide_eq_true hpos⟩, hpath⟩
  · exact fun y hy => (List.mem_filter.mp hy).1
  · exact fun _ _ y hy => of_decide_eq_true (List.mem_filter.mp hy).2

/-- Every reachable candidate is reached by the fill: from the last reference on the way to it that the
collector does not follow. -/
theorem sound_of_entries
    (hentries : ∀ x ∈ h.phase1PurgeExpired candidates,
      h.Entered (h.phase1PurgeExpired candidates) x →
        ∃ y ∈ h.phase1PurgeExpired candidates, h.Surplus (h.phase1PurgeExpired candidates) y ∧
          Relation.ReflTransGen (h.Follows (h.phase1PurgeExpired candidates)) y x) :
    ∀ x ∈ h.garbage candidates, ¬h.Reachable (h.phase1PurgeExpired candidates) x := by
  have hmarked : ∀ x, h.Reachable (h.phase1PurgeExpired candidates) x →
      x ∈ h.phase1PurgeExpired candidates →
      ∃ y ∈ h.phase1PurgeExpired candidates, h.Surplus (h.phase1PurgeExpired candidates) y ∧
        Relation.ReflTransGen (h.Follows (h.phase1PurgeExpired candidates)) y x := by
    intro x hreachable
    induction hreachable with
    | root hroot hin => exact fun hx => hentries _ hx (.root hroot hin)
    | outside _ hout => exact fun hx => absurd hx hout
    | @leads y x hy hin ih =>
        intro hx
        by_cases hfollowed : y ∈ h.phase1PurgeExpired candidates ∧ x ∈ h.references y
        · obtain ⟨s, hs, hsurplus, hpath⟩ := ih hfollowed.1
          have hedge : h.Follows (h.phase1PurgeExpired candidates) y x :=
            List.mem_filter.mpr ⟨hfollowed.2, decide_eq_true hx⟩
          exact ⟨s, hs, hsurplus, hpath.tail hedge⟩
        · exact hentries x hx (.unfollowed hy hin hfollowed)
  intro x hgarbage hreachable
  obtain ⟨hx, hmissed⟩ := (h.mem_garbage candidates).mp hgarbage
  exact hmissed (hmarked x hreachable hx)

/-- A collection clears nothing that a root or something outside its candidates leads to, exactly when
every candidate that is referred to from a place the collector does not follow can be reached from a
candidate with a surplus. -/
theorem collection_sound_iff :
    (∀ x ∈ h.garbage candidates, ¬h.Reachable (h.phase1PurgeExpired candidates) x) ↔
      ∀ x ∈ h.phase1PurgeExpired candidates, h.Entered (h.phase1PurgeExpired candidates) x →
        ∃ y ∈ h.phase1PurgeExpired candidates, h.Surplus (h.phase1PurgeExpired candidates) y ∧
          Relation.ReflTransGen (h.Follows (h.phase1PurgeExpired candidates)) y x := by
  refine ⟨?_, h.sound_of_entries candidates⟩
  intro hsound x hx hentered
  have hreachable : h.Reachable (h.phase1PurgeExpired candidates) x := by
    cases hentered with
    | root hroot hin => exact .root hroot hin
    | unfollowed hy hin _ => exact .leads hy hin
  by_contra hmissed
  exact hsound x ((h.mem_garbage candidates).mpr ⟨hx, hmissed⟩) hreachable

end Snapshot

/-- `task probe() { a = []; push(a, || a); ... }`: the array of a local variable holds a closure that
captured the variable, which still is on the stack. -/
def selfHolding : Snapshot where
  objects := [.array [.object 1], .closure [some 0]]
  upvalues := [.onStack 0]
  boundMethods := []
  stack := [.object 0]
  others := []

def bothTracked : Candidates := ⟨[0, 1], by decide⟩

/-- The collection clears the array of the local variable. -/
theorem selfHolding_cleared :
    ¬∀ x ∈ selfHolding.garbage bothTracked,
      ¬selfHolding.Reachable (selfHolding.phase1PurgeExpired bothTracked) x := by
  intro hsound
  have hcleared : 0 ∈ selfHolding.garbage bothTracked := by decide
  have hlocal : selfHolding.Reachable (selfHolding.phase1PurgeExpired bothTracked) 0 :=
    .root (v := .object 0) (by decide) (by decide)
  exact hsound 0 hcleared hlocal

/-! ### What the condition excludes -/

namespace Snapshot

variable (h : Snapshot) (candidates : Candidates)

/-- The candidates hold plain data: no closure is among them, and none holds a bound method. -/
def PlainData (live : List Nat) : Prop :=
  ∀ x ∈ live, (∀ upvalues, h.objects[x]? ≠ some (.closure upvalues)) ∧
    ∀ v ∈ h.ownedBy x, v.isBoundMethod = false

theorem indirectIn_of_plainData {live : List Nat} (hplain : h.PlainData live) :
    live.flatMap h.indirectIn = [] := by
  rw [List.flatMap_eq_nil_iff]
  intro x hx
  obtain ⟨hclosure, hbound⟩ := hplain x hx
  rw [indirectIn]
  rw [ownedBy] at hbound
  cases hobject : h.objects[x]? with
  | none => rfl
  | some contents =>
      rw [hobject] at hclosure hbound
      have hnone : contents.owned.filter Ref.isBoundMethod = [] := by
        rw [List.filter_eq_nil_iff]
        intro v hv
        rw [hbound v hv]
        exact Bool.false_ne_true
      cases contents with
      | closure upvalues => exact absurd rfl (hclosure upvalues)
      | super _ _ => rfl
      | _ => simp only [hnone, List.flatMap_nil]

theorem mem_throughBound {raw : Ref → Option Nat} {bms : List BoundMethod} {v : Ref} {x : Nat}
    (hx : x ∈ throughBound raw bms v) :
    raw v = some x ∨ ∃ bound ∈ bms, raw bound.receiver = some x ∨ raw bound.method = some x := by
  induction bms generalizing v with
  | nil => cases v <;> first | exact Or.inl (Option.mem_toList.mp hx) | cases hx
  | cons bound older ih =>
      have hlater : ∀ w, x ∈ throughBound raw older w → raw w = some x ∨
          ∃ bound ∈ older, raw bound.receiver = some x ∨ raw bound.method = some x := fun w => ih
      cases v with
      | boundMethod b =>
          rw [throughBound] at hx
          by_cases hb : b = older.length
          · rw [if_pos hb, List.mem_append] at hx
            right
            rcases hx with hx | hx
            · rcases hlater _ hx with hself | ⟨other, hin, hother⟩
              · exact ⟨bound, List.mem_cons_self, Or.inl hself⟩
              · exact ⟨other, List.mem_cons_of_mem _ hin, hother⟩
            · rcases hlater _ hx with hself | ⟨other, hin, hother⟩
              · exact ⟨bound, List.mem_cons_self, Or.inr hself⟩
              · exact ⟨other, List.mem_cons_of_mem _ hin, hother⟩
          · rw [if_neg hb] at hx
            rcases hlater _ hx with hself | ⟨other, hin, hother⟩
            · exact Or.inl hself
            · exact Or.inr ⟨other, List.mem_cons_of_mem _ hin, hother⟩
      | _ => exact Or.inl (Option.mem_toList.mp hx)

/-- What an upvalue holds is on the stack or is its own. -/
theorem mem_closureTraverse {upvalues : List (Option Nat)} {v : Ref}
    (hv : v ∈ h.closureTraverse upvalues) :
    v = .plain ∨ v ∈ h.stack ∨ v ∈ h.upvalues.flatMap Upvalue.owned := by
  obtain ⟨uv, -, huv⟩ := List.mem_filterMap.mp hv
  obtain ⟨u, rfl, hu⟩ := Option.map_eq_some_iff.mp huv
  rw [← hu, upvalueValue]
  cases hupvalue : h.upvalues[u]? with
  | none => exact Or.inl rfl
  | some upvalue =>
      cases upvalue with
      | onStack slot =>
          cases hslot : h.stack[slot]? with
          | none => exact Or.inl (by simp only [hslot, Option.getD_none])
          | some w =>
              right; left
              simp only [hslot, Option.getD_some]
              exact List.mem_of_getElem? hslot
      | closed w =>
          right; right
          exact List.mem_flatMap.mpr ⟨_, List.mem_of_getElem? hupvalue, List.mem_singleton.mpr rfl⟩

theorem owner_of_bound {live : List Nat} {bound : BoundMethod} {x : Nat}
    (hin : bound ∈ h.boundMethods)
    (hx : bound.receiver.target = some x ∨ bound.method.target = some x) :
    ∃ v ∈ h.uncounted live, v.target = some x := by
  rcases hx with hx | hx
  · refine ⟨bound.receiver, ?_, hx⟩
    simp only [uncounted, List.mem_append, List.mem_flatMap]
    exact Or.inl (Or.inl (Or.inr ⟨bound, hin, List.mem_cons_self⟩))
  · refine ⟨bound.method, ?_, hx⟩
    simp only [uncounted, List.mem_append, List.mem_flatMap]
    exact Or.inl (Or.inl (Or.inr ⟨bound, hin, List.mem_cons_of_mem _ List.mem_cons_self⟩))

/-- An object referred to from a place the collector does not follow has an owner it does not come
past. -/
theorem owner_of_entered {live : List Nat} {x : Nat} (hentered : h.Entered live x) :
    ∃ v ∈ h.uncounted live, v.target = some x := by
  cases hentered with
  | @root v hroot hx =>
      rcases mem_throughBound hx with hself | ⟨bound, hin, hhalf⟩
      · refine ⟨v, ?_, hself⟩
        simp only [uncounted, List.mem_append] at hroot ⊢
        tauto
      · exact h.owner_of_bound hin hhalf
  | @unfollowed y _ hleads hskipped =>
      obtain ⟨v, hv, hx⟩ := List.mem_flatMap.mp hleads
      rcases mem_throughBound hx with hself | ⟨bound, hin, hhalf⟩
      · refine ⟨v, ?_, hself⟩
        have hheld : v ∈ h.uncountedIn live y → v ∈ h.uncounted live := by
          intro hin
          have hy : y < h.objects.length := by
            by_contra hlarge
            rw [uncountedIn, List.getElem?_eq_none (Nat.not_lt.mp hlarge)] at hin
            cases hin
          simp only [uncounted, List.mem_append, List.mem_flatMap]
          exact Or.inl (Or.inl (Or.inl (Or.inl ⟨y, List.mem_range.mpr hy, hin⟩)))
        rw [found] at hv
        cases hobject : h.objects[y]? with
        | none =>
            rw [hobject] at hv
            cases hv
        | some contents =>
            rw [hobject] at hv
            cases contents with
            | closure upvalues =>
                rcases h.mem_closureTraverse hv with rfl | hstack | hcell
                · cases hself
                · simp only [uncounted, List.mem_append]
                  exact Or.inl (Or.inr hstack)
                · simp only [uncounted, List.mem_append]
                  exact Or.inl (Or.inl (Or.inl (Or.inr hcell)))
            | super receiver parentKlass =>
                apply hheld
                rw [uncountedIn, hobject]
                exact hv
            | _ =>
                apply hheld
                rw [uncountedIn, hobject]
                by_cases hlive : y ∈ live
                · simp only [if_pos hlive]
                  refine List.mem_filter.mpr ⟨hv, ?_⟩
                  cases v with
                  | plain | boundMethod b => cases hself
                  | super z => rfl
                  | object z =>
                      obtain rfl : z = x := Option.some.inj hself
                      refine absurd ⟨hlive, ?_⟩ hskipped
                      rw [references, traverseObject, hobject]
                      have hseen : z ∈ forEachReferencedPtr h.boundMethods (.object z) := by
                        rw [forEachReferencedPtr]
                        cases h.boundMethods <;> exact List.mem_singleton.mpr rfl
                      exact List.mem_flatMap.mpr ⟨_, hv, hseen⟩
                · simp only [if_neg hlive]
                  exact hv
      · exact h.owner_of_bound hin hhalf

/-- A collection whose candidates are plain data clears nothing reachable. -/
theorem plainData_sound (hplain : h.PlainData (h.phase1PurgeExpired candidates)) :
    ∀ x ∈ h.garbage candidates, ¬h.Reachable (h.phase1PurgeExpired candidates) x := by
  refine h.sound_of_entries candidates fun x hx hentered => ⟨x, hx, ?_, .refl⟩
  rw [Surplus, h.indirectIn_of_plainData hplain, List.count_nil, List.count_pos_iff]
  exact List.mem_filterMap.mpr (h.owner_of_entered hentered)

/-- The objects a collection does not clear keep their contents. -/
theorem collectInternal_objects {x : Nat} (hx : x ∉ h.garbage candidates) :
    (h.collectInternal candidates).objects[x]? = h.objects[x]? := by
  rw [collectInternal, phase4BreakCycles]
  generalize h.garbage candidates = garbage at hx ⊢
  generalize h.objects = objects
  induction garbage generalizing objects with
  | nil => rfl
  | cons y rest ih =>
      rw [List.mem_cons, not_or] at hx
      rw [List.foldl_cons, ih hx.2, List.getElem?_modify_ne _ _ (Ne.symm hx.1)]

end Snapshot

end CycleCollector

end EZLanguage
