import EZLanguage.Support.MemoBisimulation
import EZLanguage.VM.Operators
import Mathlib.Data.Finset.Prod
import Mathlib.Data.List.Forall2
import Mathlib.Data.List.Perm.Subperm

/-!
# Structural equality

`Value::equals` walks arrays, tuples and dictionaries, which may be shared and cyclic. A container is equal
to itself at once, and a pair of containers is remembered for the whole outermost comparison.
-/

namespace EZLanguage

namespace ValueEquals

open MemoBisimulation

/-! ### Values and containers -/

/-- `Value`, as `equals` tells its kinds apart. A container is named by its address, and `OBJECT` stands
for the kinds that are compared by their pointers. -/
inductive HeapValue where
  | NIL
  | BOOL (b : Bool)
  | INTEGER (i : Int64)
  | FLOAT (bits : UInt64)
  | STRING (s : CString)
  | CONTAINER (r : Nat)
  | OBJECT (type : CString) (address : Nat)

/-- `EZDictionary`: the entries in the order of iteration, with distinct keys. -/
structure Dictionary where
  entries : List (CString × HeapValue)
  nodup : (entries.map Prod.fst).Nodup

inductive Container where
  | ARRAY (elements : List HeapValue)
  | TUPLE (elements : List HeapValue)
  | DICTIONARY (d : Dictionary)

def Container.values : Container → List HeapValue
  | ARRAY elements => elements
  | TUPLE elements => elements
  | DICTIONARY d => d.entries.map Prod.snd

/-- The containers by their addresses. -/
abbrev ContainerHeap := List Container

variable (fpu : FloatUnit)

def HeapValue.asNumber : HeapValue → Option UInt64
  | INTEGER i => some (fpu.ofInt i)
  | FLOAT bits => some bits
  | _ => none

/-! ### `Value::equals` -/

/-- The elements or entries that are compared, in the order of the loops. -/
def pairsBelow : Container → Container → List (Option (HeapValue × HeapValue))
  | .ARRAY arr1, .ARRAY arr2 =>
      if arr1.length ≠ arr2.length then [none] else (arr1.zip arr2).map some
  | .TUPLE tup1, .TUPLE tup2 =>
      if tup1.length ≠ tup2.length then [none] else (tup1.zip tup2).map some
  | .DICTIONARY dict1, .DICTIONARY dict2 =>
      if dict1.entries.length ≠ dict2.entries.length then [none]
      else dict1.entries.map fun e => (lookup dict2.entries e.1).map fun v2 => (e.2, v2)
  | _, _ => [none]

def Container.sameType : Container → Container → Bool
  | ARRAY _, ARRAY _ => true
  | TUPLE _, TUPLE _ => true
  | DICTIONARY _, DICTIONARY _ => true
  | _, _ => false

/-- A call of `equals` up to the calls it makes. -/
def look (heap : ContainerHeap) (a b : HeapValue) : MemoBisimulation.Verdict (Nat × Nat) HeapValue :=
  match a.asNumber fpu, b.asNumber fpu with
  | some x, some y => .decided (doubleEq x y)
  | _, _ =>
      match a, b with
      | .STRING s, .STRING t => .decided (s == t)
      | .NIL, .NIL => .framed true
      | .BOOL x, .BOOL y => .framed (x == y)
      | .OBJECT type x, .OBJECT type' y =>
          if type = type' then .framed (x == y) else .decided false
      | .CONTAINER idA, .CONTAINER idB =>
          match heap[idA]?, heap[idB]? with
          | some c, some d =>
              if ¬c.sameType d then .decided false
              else if idA = idB then .decided true
              else .descend (idA, idB) (pairsBelow c d)
          | _, _ => .decided false
      | _, _ => .decided false

/-- `Value::equals`, of calls nested so deep at most. -/
def equals (heap : ContainerHeap) :
    Nat → HeapValue → HeapValue → Memo (Nat × Nat) → Option (Bool × Memo (Nat × Nat)) :=
  compare (look fpu heap)

/-! ### Bisimilar values -/

/-- The comparison of what is no container. -/
def leafEquals (a b : HeapValue) : Bool :=
  match a.asNumber fpu, b.asNumber fpu with
  | some x, some y => doubleEq x y
  | _, _ =>
      match a, b with
      | .STRING s, .STRING t => s == t
      | .NIL, .NIL => true
      | .BOOL x, .BOOL y => x == y
      | .OBJECT type x, .OBJECT type' y => type == type' && x == y
      | _, _ => false

/-- Containers of one kind and size with related elements, or with related entries under the same keys. -/
def Related (R : HeapValue → HeapValue → Prop) : Container → Container → Prop
  | .ARRAY xs, .ARRAY ys => List.Forall₂ R xs ys
  | .TUPLE xs, .TUPLE ys => List.Forall₂ R xs ys
  | .DICTIONARY m, .DICTIONARY m' =>
      m.entries.length = m'.entries.length ∧
        ∀ e ∈ m.entries, ∃ v, (e.1, v) ∈ m'.entries ∧ R e.2 v
  | _, _ => False

/-- Two values are equal leaves, or containers that are related, or, where that counts, one container. -/
def Alike (heap : ContainerHeap) (identity : Bool) (R : HeapValue → HeapValue → Prop)
    (a b : HeapValue) : Prop :=
  leafEquals fpu a b = true ∨
    ∃ r s c d, a = .CONTAINER r ∧ b = .CONTAINER s ∧ heap[r]? = some c ∧ heap[s]? = some d ∧
      (Related R c d ∨ identity = true ∧ r = s)

/-- The largest relation under which related values are alike. -/
def Bisimilar (heap : ContainerHeap) (identity : Bool) (a b : HeapValue) : Prop :=
  ∃ R, (∀ x y, R x y → Alike fpu heap identity R x y) ∧ R a b

/-! ### The calls below -/

theorem lookup_eq_some_iff {entries : List (CString × HeapValue)}
    (hnodup : (entries.map Prod.fst).Nodup) {k : CString} {v : HeapValue} :
    lookup entries k = some v ↔ (k, v) ∈ entries := by
  induction entries with
  | nil => simp [lookup]
  | cons e entries ih =>
      rw [List.map_cons, List.nodup_cons] at hnodup
      rw [lookup_cons, List.mem_cons]
      by_cases hkey : e.1 = k
      · rw [if_pos hkey]
        constructor
        · intro hv
          exact .inl (Prod.ext hkey (Option.some.inj hv)).symm
        · rintro (heq | hmem)
          · rw [← heq]
          · rw [hkey] at hnodup
            exact absurd (List.mem_map_of_mem hmem) hnodup.1
      · rw [if_neg hkey, ih hnodup.2]
        constructor
        · exact .inr
        · rintro (heq | hmem)
          · rw [← heq] at hkey
            exact absurd rfl hkey
          · exact hmem

theorem zip_some_iff {R : HeapValue → HeapValue → Prop} {xs ys : List HeapValue} :
    (∀ p ∈ if xs.length ≠ ys.length then [none] else (xs.zip ys).map some,
      ∃ c : HeapValue × HeapValue, p = some c ∧ R c.1 c.2) ↔ List.Forall₂ R xs ys := by
  rw [List.forall₂_iff_zip]
  by_cases hlength : xs.length = ys.length
  · rw [if_neg (not_not.2 hlength)]
    constructor
    · intro h
      refine ⟨hlength, ?_⟩
      intro x y hxy
      obtain ⟨c, hc, hR⟩ := h _ (List.mem_map_of_mem hxy)
      obtain rfl := Option.some.inj hc
      exact hR
    · rintro ⟨-, h⟩ p hp
      obtain ⟨⟨x, y⟩, hxy, rfl⟩ := List.mem_map.1 hp
      exact ⟨_, rfl, h hxy⟩
  · rw [if_pos hlength]
    constructor
    · intro h
      obtain ⟨c, hc, -⟩ := h none (List.mem_singleton.2 rfl)
      cases hc
    · rintro ⟨h, -⟩
      exact absurd h hlength

/-- The pairs below two containers are related when the containers are. -/
theorem pairsBelow_iff {R : HeapValue → HeapValue → Prop} (c d : Container) :
    (∀ p ∈ pairsBelow c d, ∃ q : HeapValue × HeapValue, p = some q ∧ R q.1 q.2) ↔ Related R c d := by
  have hnone : ¬∀ p ∈ ([none] : List (Option (HeapValue × HeapValue))),
      ∃ q : HeapValue × HeapValue, p = some q ∧ R q.1 q.2 := by
    intro h
    obtain ⟨q, hq, -⟩ := h none (List.mem_singleton.2 rfl)
    cases hq
  cases c with
  | ARRAY xs =>
      cases d with
      | ARRAY ys => exact zip_some_iff
      | TUPLE ys => exact iff_of_false hnone id
      | DICTIONARY m => exact iff_of_false hnone id
  | TUPLE xs =>
      cases d with
      | ARRAY ys => exact iff_of_false hnone id
      | TUPLE ys => exact zip_some_iff
      | DICTIONARY m => exact iff_of_false hnone id
  | DICTIONARY m =>
      cases d with
      | ARRAY ys => exact iff_of_false hnone id
      | TUPLE ys => exact iff_of_false hnone id
      | DICTIONARY m' =>
          rw [pairsBelow, Related]
          by_cases hlength : m.entries.length = m'.entries.length
          · rw [if_neg (not_not.2 hlength)]
            constructor
            · intro h
              refine ⟨hlength, ?_⟩
              intro e he
              obtain ⟨q, hq, hR⟩ := h _ (List.mem_map_of_mem he)
              obtain ⟨v, hv, rfl⟩ := Option.map_eq_some_iff.1 hq
              exact ⟨v, (lookup_eq_some_iff m'.nodup).1 hv, hR⟩
            · rintro ⟨-, h⟩ p hp
              obtain ⟨e, he, rfl⟩ := List.mem_map.1 hp
              obtain ⟨v, hv, hR⟩ := h e he
              exact ⟨(e.2, v), by rw [(lookup_eq_some_iff m'.nodup).2 hv]; rfl, hR⟩
          · rw [if_pos hlength]
            exact iff_of_false hnone fun h => hlength h.1

variable {fpu} {heap : ContainerHeap}

/-- What `look` shows of two containers. -/
theorem look_containers (r s : Nat) :
    look fpu heap (.CONTAINER r) (.CONTAINER s) =
      match heap[r]?, heap[s]? with
      | some c, some d =>
          if ¬c.sameType d then .decided false
          else if r = s then .decided true
          else .descend (r, s) (pairsBelow c d)
      | _, _ => .decided false := rfl

/-- Only containers are looked into. -/
theorem descend_containers {a b : HeapValue} {key : Nat × Nat}
    {below : List (Option (HeapValue × HeapValue))} (hlook : look fpu heap a b = .descend key below) :
    a = .CONTAINER key.1 ∧ b = .CONTAINER key.2 ∧ ∃ c d, heap[key.1]? = some c ∧
      heap[key.2]? = some d ∧ below = pairsBelow c d := by
  cases a with
  | CONTAINER r =>
      cases b with
      | CONTAINER s =>
          rw [look_containers] at hlook
          split at hlook
          · rename_i c d hc hd
            split at hlook
            · cases hlook
            · split at hlook
              · cases hlook
              · cases hlook
                exact ⟨rfl, rfl, c, d, hc, hd, rfl⟩
          · cases hlook
      | _ => cases hlook
  | OBJECT type x =>
      cases b with
      | OBJECT type' y =>
          unfold look at hlook
          simp only [HeapValue.asNumber] at hlook
          split at hlook <;> cases hlook
      | _ => cases hlook
  | _ => cases b <;> cases hlook

theorem keysDetermine : KeysDetermine (look fpu heap) := by
  intro a b a' b' key below below' hlook hlook'
  obtain ⟨-, -, c, d, hc, hd, rfl⟩ := descend_containers hlook
  obtain ⟨-, -, c', d', hc', hd', rfl⟩ := descend_containers hlook'
  obtain rfl := Option.some.inj (hc.symm.trans hc')
  obtain rfl := Option.some.inj (hd.symm.trans hd')
  rfl

/-- The pairs of containers there are. -/
def allPairs (heap : ContainerHeap) : Finset (Nat × Nat) :=
  Finset.range heap.length ×ˢ Finset.range heap.length

theorem mem_allPairs {a b : HeapValue} {key : Nat × Nat}
    {below : List (Option (HeapValue × HeapValue))} (hlook : look fpu heap a b = .descend key below) :
    key ∈ allPairs heap := by
  obtain ⟨-, -, c, d, hc, hd, -⟩ := descend_containers hlook
  rw [allPairs, Finset.mem_product, Finset.mem_range, Finset.mem_range]
  exact ⟨(List.getElem?_eq_some_iff.1 hc).1, (List.getElem?_eq_some_iff.1 hd).1⟩

theorem sameType_of_related {R : HeapValue → HeapValue → Prop} {c d : Container}
    (h : Related R c d) : c.sameType d = true := by
  cases c <;> cases d <;> first | rfl | cases h

/-- One call finds out whether two values are alike, but for what is below. -/
theorem matches_iff {R : HeapValue → HeapValue → Prop} (a b : HeapValue) :
    Matches (look fpu heap) R a b ↔ Alike fpu heap true R a b := by
  have hleaf : (∀ r s, a = .CONTAINER r → b = .CONTAINER s → False) →
      (look fpu heap a b = .decided (leafEquals fpu a b) ∨
        look fpu heap a b = .framed (leafEquals fpu a b)) →
      (Matches (look fpu heap) R a b ↔ Alike fpu heap true R a b) := by
    intro hno hlook
    have hmatches : Matches (look fpu heap) R a b ↔ leafEquals fpu a b = true := by
      unfold Matches
      obtain hlook | hlook := hlook <;> rw [hlook]
    rw [hmatches, Alike]
    constructor
    · exact .inl
    · rintro (h | ⟨r, s, c, d, rfl, rfl, -⟩)
      · exact h
      · exact (hno r s rfl rfl).elim
  cases a with
  | CONTAINER r =>
      cases b with
      | CONTAINER s =>
          have hfalse : leafEquals fpu (.CONTAINER r) (.CONTAINER s) ≠ true := by
            rintro ⟨⟩
          unfold Matches Alike
          rw [look_containers]
          constructor
          · intro h
            right
            cases hc : heap[r]? with
            | none =>
                rw [hc] at h
                cases h
            | some c =>
                cases hd : heap[s]? with
                | none =>
                    rw [hc, hd] at h
                    cases h
                | some d =>
                    rw [hc, hd] at h
                    dsimp only at h
                    refine ⟨r, s, c, d, rfl, rfl, hc, hd, ?_⟩
                    by_cases htype : c.sameType d = true
                    · rw [if_neg (not_not.2 htype)] at h
                      by_cases hid : r = s
                      · exact .inr ⟨rfl, hid⟩
                      · rw [if_neg hid] at h
                        exact .inl ((pairsBelow_iff c d).1 h)
                    · rw [if_pos htype] at h
                      cases h
          · rintro (h | ⟨r', s', c, d, hr, hs, hc, hd, h⟩)
            · exact absurd h hfalse
            · cases hr
              cases hs
              rw [hc, hd]
              dsimp only
              by_cases hid : r = s
              · subst hid
                obtain rfl := Option.some.inj (hc.symm.trans hd)
                have htype : c.sameType c = true := by cases c <;> rfl
                rw [if_neg (not_not.2 htype), if_pos rfl]
              · obtain hrelated | ⟨-, hsame⟩ := h
                · rw [if_neg (not_not.2 (sameType_of_related hrelated)), if_neg hid]
                  exact (pairsBelow_iff c d).2 hrelated
                · exact absurd hsame hid
      | _ => exact hleaf (by rintro _ _ - ⟨⟩) (.inl rfl)
  | OBJECT type x =>
      cases b with
      | OBJECT type' y =>
          apply hleaf (by rintro _ _ ⟨⟩)
          unfold look leafEquals
          simp only [HeapValue.asNumber]
          by_cases htype : type = type'
          · simp [htype]
          · simp [htype]
      | _ => exact hleaf (by rintro _ _ ⟨⟩) (.inl rfl)
  | NIL =>
      apply hleaf (by rintro _ _ ⟨⟩)
      cases b <;> first | exact .inl rfl | exact .inr rfl
  | BOOL x =>
      apply hleaf (by rintro _ _ ⟨⟩)
      cases b <;> first | exact .inl rfl | exact .inr rfl
  | INTEGER i =>
      apply hleaf (by rintro _ _ ⟨⟩)
      cases b <;> exact .inl rfl
  | FLOAT d =>
      apply hleaf (by rintro _ _ ⟨⟩)
      cases b <;> exact .inl rfl
  | STRING s =>
      apply hleaf (by rintro _ _ ⟨⟩)
      cases b <;> exact .inl rfl

theorem bisimilar_look_iff (a b : HeapValue) :
    MemoBisimulation.Bisimilar (look fpu heap) a b ↔ Bisimilar fpu heap true a b := by
  constructor
  · rintro ⟨R, hR, hab⟩
    exact ⟨R, fun x y hxy => (matches_iff x y).1 (hR x y hxy), hab⟩
  · rintro ⟨R, hR, hab⟩
    exact ⟨R, fun x y hxy => (matches_iff x y).2 (hR x y hxy), hab⟩

/-- `equals` ends, leaves the memo empty and tells whether the values are bisimilar. -/
theorem equals_iff_bisimilar {fuel : Nat} (hfuel : heap.length * heap.length < fuel)
    (a b : HeapValue) :
    ∃ r, equals fpu heap fuel a b .empty = some (r, .empty) ∧
      (r = true ↔ Bisimilar fpu heap true a b) := by
  have hcard : (allPairs heap).card < fuel := by
    rwa [allPairs, Finset.card_product, Finset.card_range]
  obtain ⟨r, hends, hr⟩ := compare_iff_bisimilar keysDetermine
    (fun a b key below hlook _ => mem_allPairs hlook) hcard a b
  exact ⟨r, hends, hr.trans (bisimilar_look_iff a b)⟩

/-! ### Symmetry -/

theorem doubleEq_comm (x y : UInt64) : doubleEq x y = doubleEq y x := by
  have hbeq : (x == y) = (y == x) := BEq.comm
  simp only [doubleEq, hbeq, Bool.and_comm]

theorem leafEquals_comm (a b : HeapValue) : leafEquals fpu a b = leafEquals fpu b a := by
  unfold leafEquals
  cases ha : a.asNumber fpu with
  | some x =>
      cases hb : b.asNumber fpu with
      | some y => exact doubleEq_comm x y
      | none => cases a <;> cases b <;> first | rfl | cases ha
  | none =>
      cases b.asNumber fpu <;> cases a <;> cases b <;> dsimp only <;>
        simp only [Bool.beq_comm]

/-- Dictionaries with related entries under the same keys have no other keys. -/
theorem entries_perm {m m' : Dictionary} (hlength : m.entries.length = m'.entries.length)
    (hkeys : ∀ e ∈ m.entries, e.1 ∈ m'.entries.map Prod.fst) :
    (m.entries.map Prod.fst).Perm (m'.entries.map Prod.fst) := by
  apply (List.subperm_of_subset m.nodup _).perm_of_length_le
  · rw [List.length_map, List.length_map, hlength]
  · intro k hk
    obtain ⟨e, he, rfl⟩ := List.mem_map.1 hk
    exact hkeys e he

theorem Related.swap {R : HeapValue → HeapValue → Prop} {c d : Container} (h : Related R c d) :
    Related (fun x y => R y x) d c := by
  cases c with
  | ARRAY xs =>
      cases d with
      | ARRAY ys => exact h.flip
      | _ => cases h
  | TUPLE xs =>
      cases d with
      | TUPLE ys => exact h.flip
      | _ => cases h
  | DICTIONARY m =>
      cases d with
      | DICTIONARY m' =>
          obtain ⟨hlength, hentries⟩ := h
          refine ⟨hlength.symm, ?_⟩
          have hperm := entries_perm hlength (by
            intro e he
            obtain ⟨v, hv, -⟩ := hentries e he
            exact List.mem_map.2 ⟨_, hv, rfl⟩)
          intro e he
          have hkey : e.1 ∈ m.entries.map Prod.fst := hperm.mem_iff.2 (List.mem_map_of_mem he)
          obtain ⟨e', he', hsame⟩ := List.mem_map.1 hkey
          obtain ⟨v, hv, hR⟩ := hentries e' he'
          rw [hsame] at hv
          have hvalue : v = e.2 :=
            Option.some.inj (((lookup_eq_some_iff m'.nodup).2 hv).symm.trans
              ((lookup_eq_some_iff m'.nodup).2 he))
          rw [← hsame]
          exact ⟨e'.2, he', hvalue ▸ hR⟩
      | _ => cases h

theorem Bisimilar.symm {identity : Bool} {a b : HeapValue} (h : Bisimilar fpu heap identity a b) :
    Bisimilar fpu heap identity b a := by
  obtain ⟨R, hR, hab⟩ := h
  refine ⟨fun x y => R y x, ?_, hab⟩
  intro x y hyx
  obtain hleaf | ⟨r, s, c, d, rfl, rfl, hc, hd, hbelow⟩ := hR y x hyx
  · exact .inl ((leafEquals_comm x y).trans hleaf)
  · refine .inr ⟨s, r, d, c, rfl, rfl, hd, hc, ?_⟩
    obtain hrelated | ⟨hidentity, hsame⟩ := hbelow
    · exact .inl hrelated.swap
    · exact .inr ⟨hidentity, hsame.symm⟩

/-! ### The order of the entries -/

/-- The same containers, whose dictionaries may iterate in another order. -/
inductive Container.Reordered : Container → Container → Prop
  | array (xs : List HeapValue) : Reordered (.ARRAY xs) (.ARRAY xs)
  | tuple (xs : List HeapValue) : Reordered (.TUPLE xs) (.TUPLE xs)
  | dictionary {m m' : Dictionary} (h : m.entries.Perm m'.entries) :
      Reordered (.DICTIONARY m) (.DICTIONARY m')

theorem related_reordered {R : HeapValue → HeapValue → Prop} {c c' d d' : Container}
    (hc : c.Reordered c') (hd : d.Reordered d') (h : Related R c d) : Related R c' d' := by
  cases hc with
  | array xs =>
      cases hd with
      | array ys => exact h
      | _ => cases h
  | tuple xs =>
      cases hd with
      | tuple ys => exact h
      | _ => cases h
  | dictionary hm =>
      cases hd with
      | dictionary hm' =>
          obtain ⟨hlength, hentries⟩ := h
          refine ⟨hm.length_eq.symm.trans (hlength.trans hm'.length_eq), ?_⟩
          intro e he
          obtain ⟨v, hv, hR⟩ := hentries e (hm.mem_iff.2 he)
          exact ⟨v, hm'.mem_iff.1 hv, hR⟩
      | _ => cases h

theorem bisimilar_reordered {heap' : ContainerHeap}
    (hheap : List.Forall₂ Container.Reordered heap heap') {identity : Bool} {a b : HeapValue}
    (h : Bisimilar fpu heap identity a b) : Bisimilar fpu heap' identity a b := by
  have hat : ∀ (r : Nat) (c : Container), heap[r]? = some c →
      ∃ c', heap'[r]? = some c' ∧ c.Reordered c' := by
    intro r c hc
    obtain ⟨hr, rfl⟩ := List.getElem?_eq_some_iff.1 hc
    have hr' : r < heap'.length := hheap.length_eq ▸ hr
    exact ⟨heap'[r], List.getElem?_eq_getElem hr', (List.forall₂_iff_get.1 hheap).2 r hr hr'⟩
  obtain ⟨R, hR, hab⟩ := h
  refine ⟨R, ?_, hab⟩
  intro x y hxy
  obtain hleaf | ⟨r, s, c, d, rfl, rfl, hc, hd, hbelow⟩ := hR x y hxy
  · exact .inl hleaf
  · obtain ⟨c', hc', hcc⟩ := hat r c hc
    obtain ⟨d', hd', hdd⟩ := hat s d hd
    exact .inr ⟨r, s, c', d', rfl, rfl, hc', hd', hbelow.imp_left (related_reordered hcc hdd)⟩

/-! ### Identity -/

/-- A value equals itself: it is no NaN, and where it is a container it is there. -/
def SelfEqual (fpu : FloatUnit) (heap : ContainerHeap) (v : HeapValue) : Prop :=
  leafEquals fpu v v = true ∨ ∃ r c, v = .CONTAINER r ∧ heap[r]? = some c

theorem related_self {R : HeapValue → HeapValue → Prop} {c : Container}
    (h : ∀ v ∈ c.values, R v v) : Related R c c := by
  cases c with
  | ARRAY xs => exact List.forall₂_same.2 h
  | TUPLE xs => exact List.forall₂_same.2 h
  | DICTIONARY m =>
      refine ⟨rfl, ?_⟩
      intro e he
      exact ⟨e.2, he, h e.2 (List.mem_map_of_mem he)⟩

/-- Where no container holds a NaN, it makes no difference that a container counts as equal to itself. -/
theorem bisimilar_identity_iff (hself : ∀ c ∈ heap, ∀ v ∈ c.values, SelfEqual fpu heap v)
    (a b : HeapValue) : Bisimilar fpu heap true a b ↔ Bisimilar fpu heap false a b := by
  have hmono : ∀ {R S : HeapValue → HeapValue → Prop} {c d : Container},
      (∀ x y, R x y → S x y) → Related R c d → Related S c d := by
    intro R S c d hRS h
    have hbelow := (pairsBelow_iff c d).2 h
    apply (pairsBelow_iff c d).1
    intro p hp
    obtain ⟨q, hq, hR⟩ := hbelow p hp
    exact ⟨q, hq, hRS _ _ hR⟩
  constructor
  · rintro ⟨R, hR, hab⟩
    refine ⟨fun x y => R x y ∨ x = y ∧ SelfEqual fpu heap x, ?_, .inl hab⟩
    have hcontainer : ∀ (r : Nat) (c : Container), heap[r]? = some c →
        Related (fun x y => R x y ∨ x = y ∧ SelfEqual fpu heap x) c c := by
      intro r c hc
      apply related_self
      intro v hv
      exact .inr ⟨rfl, hself c (List.mem_of_getElem? hc) v hv⟩
    rintro x y (hxy | ⟨rfl, hx⟩)
    · obtain hleaf | ⟨r, s, c, d, rfl, rfl, hc, hd, hbelow⟩ := hR x y hxy
      · exact .inl hleaf
      · refine .inr ⟨r, s, c, d, rfl, rfl, hc, hd, .inl ?_⟩
        obtain hrelated | ⟨-, rfl⟩ := hbelow
        · exact hmono (fun _ _ => .inl) hrelated
        · obtain rfl := Option.some.inj (hc.symm.trans hd)
          exact hcontainer r c hc
    · obtain hleaf | ⟨r, c, rfl, hc⟩ := hx
      · exact .inl hleaf
      · exact .inr ⟨r, r, c, c, rfl, rfl, hc, hc, .inl (hcontainer r c hc)⟩
  · rintro ⟨R, hR, hab⟩
    refine ⟨R, ?_, hab⟩
    intro x y hxy
    obtain hleaf | ⟨r, s, c, d, hr, hs, hc, hd, hbelow⟩ := hR x y hxy
    · exact .inl hleaf
    · refine .inr ⟨r, s, c, d, hr, hs, hc, hd, ?_⟩
      obtain hrelated | ⟨hfalse, -⟩ := hbelow
      · exact .inl hrelated
      · cases hfalse

/-! ### `Value::equals` -/

/-- `equals` of any two values of any heap: it ends with an empty memo, true exactly of bisimilar values,
where a container is equal to itself; it is symmetric, and the order in which dictionaries are walked does
not matter. Where no container holds a NaN the identity makes no difference. -/
theorem equals_spec {fuel : Nat} (hfuel : heap.length * heap.length < fuel) (a b : HeapValue) :
    ∃ r, equals fpu heap fuel a b .empty = some (r, .empty) ∧
      (r = true ↔ Bisimilar fpu heap true a b) ∧
      equals fpu heap fuel b a .empty = some (r, .empty) ∧
      (∀ heap', List.Forall₂ Container.Reordered heap heap' →
        equals fpu heap' fuel a b .empty = some (r, .empty)) ∧
      ((∀ c ∈ heap, ∀ v ∈ c.values, SelfEqual fpu heap v) →
        (r = true ↔ Bisimilar fpu heap false a b)) := by
  obtain ⟨r, hends, hr⟩ := @equals_iff_bisimilar fpu heap fuel hfuel a b
  refine ⟨r, hends, hr, ?_, ?_, ?_⟩
  · obtain ⟨r', hends', hr'⟩ := @equals_iff_bisimilar fpu heap fuel hfuel b a
    have hsame : r' = r := Bool.eq_iff_iff.2 (hr'.trans ⟨fun h => hr.2 h.symm, fun h => (hr.1 h).symm⟩)
    rw [hends', hsame]
  · intro heap' hheap
    have hfuel' : heap'.length * heap'.length < fuel := by
      rwa [← hheap.length_eq]
    obtain ⟨r', hends', hr'⟩ := @equals_iff_bisimilar fpu heap' fuel hfuel' a b
    have hback : List.Forall₂ Container.Reordered heap' heap := by
      apply hheap.flip.imp
      rintro c d (xs | xs | hm)
      · exact .array xs
      · exact .tuple xs
      · exact .dictionary hm.symm
    have hsame : r' = r :=
      Bool.eq_iff_iff.2 (hr'.trans ⟨fun h => hr.2 (bisimilar_reordered hback h),
        fun h => bisimilar_reordered hheap (hr.1 h)⟩)
    rw [hends', hsame]
  · intro hself
    exact hr.trans (bisimilar_identity_iff hself a b)

/-- Two arrays that hold each other. -/
def mutualArrays : ContainerHeap :=
  [.ARRAY [.CONTAINER 1, .INTEGER 1], .ARRAY [.CONTAINER 0, .INTEGER 1]]

theorem equals_spec_mutual :
    ∃ r, equals .bare mutualArrays 5 (.CONTAINER 0) (.CONTAINER 1) .empty = some (r, .empty) ∧
      (r = true ↔ Bisimilar .bare mutualArrays true (.CONTAINER 0) (.CONTAINER 1)) := by
  obtain ⟨r, hends, hr, -⟩ := @equals_spec .bare mutualArrays 5 (by decide) (.CONTAINER 0) (.CONTAINER 1)
  exact ⟨r, hends, hr⟩

/-- An array that holds a NaN. -/
def holdsNaN : ContainerHeap := [.ARRAY [.FLOAT 0x7FF8000000000000]]

/-- It is equal to itself, though its element is not. -/
theorem equals_not_bisimilar :
    ¬ ∀ (fpu : FloatUnit) (heap : ContainerHeap) (fuel : Nat) (a b : HeapValue) (r : Bool)
      (memo : Memo (Nat × Nat)), equals fpu heap fuel a b .empty = some (r, memo) →
      (r = true ↔ Bisimilar fpu heap false a b) := by
  intro h
  have hself := (h .bare holdsNaN 1 (.CONTAINER 0) (.CONTAINER 0) true .empty rfl).1 rfl
  obtain ⟨R, hR, hab⟩ := hself
  have hnan : ¬R (.FLOAT 0x7FF8000000000000) (.FLOAT 0x7FF8000000000000) := by
    intro hxx
    obtain hleaf | ⟨r, s, c, d, hr, -⟩ := hR _ _ hxx
    · cases hleaf
    · cases hr
  obtain hleaf | ⟨r, s, c, d, hr, hs, hc, hd, hbelow⟩ := hR _ _ hab
  · cases hleaf
  · cases hr
    cases hs
    cases hc
    cases hd
    obtain hrelated | ⟨hfalse, -⟩ := hbelow
    · exact hnan (List.forall₂_cons.1 hrelated).1
    · cases hfalse

end ValueEquals

end EZLanguage
