import EZLanguage.GC.Soundness

/-!
# What a collection finds

The collector looks at counts and at what it comes to. When the traversal of a candidate comes once for
each reference the candidate owns to another candidate, the adjusted count of a candidate is the number
of its owners that are not candidates, and the garbage is what no owner outside leads to.
-/

namespace EZLanguage

namespace CycleCollector

namespace Snapshot

variable (h : Snapshot) (live : List Nat)

/-- The objects an object owns, once for each reference. -/
def owns (x : Nat) : List Nat := (h.ownedBy x).filterMap Ref.target

/-- The traversal of a candidate reports each reference to a candidate that it owns exactly once. -/
def Accurate : Prop := ∀ x ∈ live, ∀ y ∈ live, (h.references x).count y = (h.owns x).count y

/-- The references that are not held by candidates, once for each owner. -/
def outside : List Ref :=
  (List.range h.objects.length).flatMap (fun x => if x ∈ live then [] else h.ownedBy x) ++
    h.upvalues.flatMap Upvalue.owned ++
    h.boundMethods.flatMap (fun bound => [bound.receiver, bound.method]) ++ h.stack ++ h.others

/-- How many references from outside the candidates there are to an object. -/
def outsideCount (x : Nat) : Nat := ((h.outside live).filterMap Ref.target).count x

/-- The candidates that a reference from outside leads to, over candidates. -/
inductive Kept : Nat → Prop
  | outside {x : Nat} (hx : x ∈ live) (houtside : 0 < h.outsideCount live x) : Kept x
  | owned {x y : Nat} (hx : Kept x) (hy : y ∈ live) (howns : y ∈ h.owns x) : Kept y

theorem Kept.mem {h : Snapshot} {live : List Nat} {x : Nat} (hx : h.Kept live x) : x ∈ live := by
  cases hx with
  | outside hx _ => exact hx
  | owned _ hx _ => exact hx

/-! ### The adjusted counts -/

variable {h live}

/-- A use count is made of the references the collector reports and those from outside. -/
theorem useCount_of_accurate (hnodup : live.Nodup) (hlive : ∀ y ∈ live, y < h.objects.length)
    (haccurate : h.Accurate live) {x : Nat} (hx : x ∈ live) :
    h.useCount x = (live.flatMap h.references).count x + h.outsideCount live x := by
  have hsum : ((List.range h.objects.length).map fun y => (h.owns y).count x).sum =
      ((List.range h.objects.length).map fun y =>
        (if y ∈ live then (h.references y).count x else 0) +
          ((if y ∈ live then [] else h.ownedBy y).filterMap Ref.target).count x).sum := by
    congr 1
    apply List.map_congr_left
    intro y _
    by_cases hy : y ∈ live
    · simp [hy, haccurate y hy x hx]
    · simp [hy, owns]
  rw [List.sum_map_add] at hsum
  rw [useCount, owners, outsideCount, outside, count_flatMap_live hnodup _ hlive]
  simp only [List.filterMap_append, List.count_append, count_filterMap_flatMap]
  simp only [owns] at hsum
  omega

/-- The adjusted count of a candidate is the number of its references from outside. -/
theorem adjustedRC_of_accurate (hnodup : live.Nodup) (hlive : ∀ y ∈ live, y < h.objects.length)
    (haccurate : h.Accurate live) {x : Nat} (hx : x ∈ live) :
    h.phase2BuildCandidates live x = h.outsideCount live x := by
  rw [phase2BuildCandidates, foldl_decrement live _ _ hx,
    useCount_of_accurate hnodup hlive haccurate hx]
  omega

/-! ### The marked candidates -/

theorem follows_iff (haccurate : h.Accurate live) {x y : Nat} (hx : x ∈ live) :
    h.Follows live x y ↔ y ∈ live ∧ y ∈ h.owns x := by
  rw [Follows, List.mem_filter, decide_eq_true_iff, and_comm]
  apply and_congr_right
  intro hy
  rw [← List.count_pos_iff, haccurate x hx y hy, List.count_pos_iff]

theorem kept_of_follows (haccurate : h.Accurate live) {x y : Nat} (hx : h.Kept live x)
    (hpath : Relation.ReflTransGen (h.Follows live) x y) : h.Kept live y := by
  induction hpath with
  | refl => exact hx
  | tail _ hedge ih =>
      obtain ⟨hy, howns⟩ := (follows_iff haccurate ih.mem).mp hedge
      exact .owned ih hy howns

theorem kept_iff (haccurate : h.Accurate live) {x : Nat} :
    h.Kept live x ↔ ∃ y ∈ live, 0 < h.outsideCount live y ∧
      Relation.ReflTransGen (h.Follows live) y x := by
  constructor
  · intro hx
    induction hx with
    | outside hx houtside => exact ⟨_, hx, houtside, .refl⟩
    | owned hx hy howns ih =>
        obtain ⟨s, hs, houtside, hpath⟩ := ih
        exact ⟨s, hs, houtside, hpath.tail ((follows_iff haccurate hx.mem).mpr ⟨hy, howns⟩)⟩
  · intro hx
    obtain ⟨y, hy, houtside, hpath⟩ := hx
    exact kept_of_follows haccurate (.outside hy houtside) hpath

variable (h live)

/-- The candidates `phase3FindGarbage` starts from. -/
def seeds : List Nat := live.filter fun x => 0 < h.phase2BuildCandidates live x

theorem phase3_finished (hnodup : live.Nodup) :
    FloodFill.Finished (fun x => (h.references x).filter (· ∈ live)) live.length (h.seeds live) := by
  apply FloodFill.finished (hnodup.filter _)
  · intro x hx
    exact (List.mem_filter.mp hx).1
  · intro _ _ y hy
    exact of_decide_eq_true (List.mem_filter.mp hy).2

/-- On an accurate graph, the fill empties its worklist with one step a candidate, the adjusted counts
are the numbers of references from outside, and the garbage is, each once, the candidates that no
reference from outside leads to. -/
theorem collection_exact (candidates : Candidates)
    (haccurate : h.Accurate (h.phase1PurgeExpired candidates)) :
    FloodFill.Finished
        (fun x => (h.references x).filter (· ∈ h.phase1PurgeExpired candidates))
        (h.phase1PurgeExpired candidates).length (h.seeds (h.phase1PurgeExpired candidates)) ∧
      (∀ x ∈ h.phase1PurgeExpired candidates,
        h.phase2BuildCandidates (h.phase1PurgeExpired candidates) x =
          h.outsideCount (h.phase1PurgeExpired candidates) x) ∧
      (h.garbage candidates).Nodup ∧
      ∀ x, x ∈ h.garbage candidates ↔ x ∈ h.phase1PurgeExpired candidates ∧
        ¬h.Kept (h.phase1PurgeExpired candidates) x := by
  have hnodup := h.phase1PurgeExpired_nodup candidates
  have hlive : ∀ y ∈ h.phase1PurgeExpired candidates, y < h.objects.length :=
    fun y hy => ((h.mem_phase1PurgeExpired candidates).mp hy).2
  refine ⟨h.phase3_finished _ hnodup, fun x hx => adjustedRC_of_accurate hnodup hlive haccurate hx,
    hnodup.filter _, fun x => ?_⟩
  rw [h.mem_garbage candidates, kept_iff haccurate]
  apply and_congr_right
  intro _
  apply not_congr
  apply exists_congr
  intro y
  apply and_congr_right
  intro hy
  have hcount : (0 : Int) < h.outsideCount (h.phase1PurgeExpired candidates) y ↔
      h.Surplus (h.phase1PurgeExpired candidates) y := by
    rw [← adjustedRC_of_accurate hnodup hlive haccurate hy, h.adjustedRC_pos_iff hnodup hlive hy]
  rw [← hcount, Int.natCast_pos]

instance : Decidable (h.Accurate live) :=
  inferInstanceAs (Decidable (∀ x ∈ live, ∀ y ∈ live, _))

end Snapshot

/-- Two arrays that hold each other, one of them itself too and the other twice, and an array on the
stack that holds nothing. -/
def tangled : Snapshot where
  objects := [.array [.object 0, .object 1, .object 1], .array [.object 0], .array []]
  upvalues := []
  boundMethods := []
  stack := [.object 2]
  others := []

def allTracked : Candidates := ⟨[2, 1, 0], by decide⟩

theorem tangled_exact :
    tangled.garbage allTracked = [1, 0] ∧
      ¬tangled.Kept (tangled.phase1PurgeExpired allTracked) 0 := by
  have hgarbage : tangled.garbage allTracked = [1, 0] := by decide
  obtain ⟨-, -, -, hexact⟩ := tangled.collection_exact allTracked (by decide)
  exact ⟨hgarbage, ((hexact 0).mp (by rw [hgarbage]; decide)).2⟩

end CycleCollector

end EZLanguage
