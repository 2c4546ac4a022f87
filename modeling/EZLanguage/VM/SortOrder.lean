import EZLanguage.VM.Text
import EZLanguage.Support.StrictWeakOrder

/-!
# The order of sort

`sort` hands a comparison to `std::sort`: two numbers are compared as doubles, everything else by its text.
`std::sort` does what it documents where the comparison is a strict weak order on the elements and has
undefined behaviour where it is not, so it is a parameter here. The text order of the numbers is not their
numeric order, and which elements are together in an array decides whether that shows.
-/

namespace EZLanguage

namespace SortOrder

open StrictWeak

/-! ### The orders of doubles and of texts -/

theorem doubleLt_iff {a b : UInt64} : doubleLt a b = true ↔
    doubleIsNaN a = false ∧ doubleIsNaN b = false ∧ doubleRank a < doubleRank b := by
  simp [doubleLt, and_assoc]

theorem doubleLt_asymm {a b : UInt64} (h : doubleLt a b = true) : doubleLt b a = false := by
  rw [← Bool.not_eq_true]
  intro h'
  have hab := (doubleLt_iff.mp h).2.2
  have hba := (doubleLt_iff.mp h').2.2
  omega

theorem doubleLt_split {a b c : UInt64} (hc : doubleIsNaN c = false) (h : doubleLt a b = true) :
    doubleLt a c = true ∨ doubleLt c b = true := by
  obtain ⟨ha, hb, hrank⟩ := doubleLt_iff.mp h
  by_cases hac : doubleRank a < doubleRank c
  · exact Or.inl (doubleLt_iff.mpr ⟨ha, hc, hac⟩)
  · exact Or.inr (doubleLt_iff.mpr ⟨hc, hb, by omega⟩)

theorem text_split {a b c : CString} (h : a < b) : a < c ∨ c < b := by
  by_cases hac : a < c
  · exact Or.inl hac
  · exact Or.inr (List.lt_of_le_of_lt (List.not_lt.mp hac) h)

theorem text_asymm {a b : CString} (h : a < b) : ¬ b < a := fun h' =>
  List.lt_irrefl a (List.lt_trans h h')

theorem text_eq {a b : CString} (hab : ¬ a < b) (hba : ¬ b < a) : a = b :=
  List.le_antisymm (List.not_lt.mp hba) (List.not_lt.mp hab)

section comparison

variable (printer : Printer) (heap : Heap)

/-- The comparison `sort` hands to `std::sort`. -/
def less (a b : Value) : Bool :=
  if a.isNumber && b.isNumber then
    doubleLt (a.asNumber printer.fpu) (b.asNumber printer.fpu)
  else decide (a.toText printer heap < b.toText printer heap)

/-- `std::sort` with this comparison. -/
structure StdSort where
  sort : List Value → List Value
  perm : ∀ xs, StrictWeakOn (less printer heap) xs → (sort xs).Perm xs
  sorted : ∀ xs, StrictWeakOn (less printer heap) xs → Sorted (less printer heap) (sort xs)

variable {printer heap}

/-- An array is sorted: the comparison orders its elements, the result has them all and in order, another
arrangement of them gives an equivalent result, and integers are ordered as such. -/
structure Sorts (std : StdSort printer heap) (arr : List Value) : Prop where
  order : StrictWeakOn (less printer heap) arr
  perm : (std.sort arr).Perm arr
  sorted : Sorted (less printer heap) (std.sort arr)
  same : ∀ arr' : List Value, arr'.Perm arr →
    List.Forall₂ (Equivalent (less printer heap)) (std.sort arr') (std.sort arr)
  integers : ∀ i j : Int64, Value.int i ∈ arr → Value.int j ∈ arr →
    (less printer heap (.int i) (.int j) = true ↔ i < j)

variable (printer heap)

/-- What the elements must be like. There is no NaN beside different numbers, the text of an element that
is no number divides the numbers in their numeric order, and different integers are different doubles. -/
structure Sortable (arr : List Value) : Prop where
  noNaN : ∀ n ∈ arr, n.isNumber = true → doubleIsNaN (n.asNumber printer.fpu) = true →
    ∀ x ∈ arr, ∀ y ∈ arr, x.isNumber = true → y.isNumber = true →
      doubleLt (x.asNumber printer.fpu) (y.asNumber printer.fpu) = false
  below : ∀ w ∈ arr, w.isNumber = false → ∀ x ∈ arr, ∀ y ∈ arr,
    x.isNumber = true → y.isNumber = true →
    x.toText printer heap < w.toText printer heap → ¬ y.toText printer heap < w.toText printer heap →
      doubleLt (x.asNumber printer.fpu) (y.asNumber printer.fpu) = true
  above : ∀ w ∈ arr, w.isNumber = false → ∀ x ∈ arr, ∀ y ∈ arr,
    x.isNumber = true → y.isNumber = true →
    ¬ w.toText printer heap < x.toText printer heap → w.toText printer heap < y.toText printer heap →
      doubleLt (x.asNumber printer.fpu) (y.asNumber printer.fpu) = true
  level : ∀ w ∈ arr, w.isNumber = false → ∀ x ∈ arr, ∀ y ∈ arr,
    x.isNumber = true → y.isNumber = true →
    x.toText printer heap = w.toText printer heap → y.toText printer heap = w.toText printer heap →
      doubleLt (x.asNumber printer.fpu) (y.asNumber printer.fpu) = false
  integers : ∀ i j : Int64, Value.int i ∈ arr → Value.int j ∈ arr → i < j →
    doubleLt (printer.fpu.ofInt i) (printer.fpu.ofInt j) = true

theorem less_numbers {a b : Value} (ha : a.isNumber = true) (hb : b.isNumber = true) :
    less printer heap a b = doubleLt (a.asNumber printer.fpu) (b.asNumber printer.fpu) := by
  rw [less, ha, hb]
  rfl

theorem less_texts {a b : Value} (h : a.isNumber = false ∨ b.isNumber = false) :
    less printer heap a b = true ↔ a.toText printer heap < b.toText printer heap := by
  have hboth : (a.isNumber && b.isNumber) = false := by
    obtain h | h := h <;> simp [h]
  rw [less, hboth]
  exact decide_eq_true_iff

theorem less_asymm (a b : Value) (h : less printer heap a b = true) : less printer heap b a = false := by
  by_cases hnumbers : a.isNumber = true ∧ b.isNumber = true
  · rw [less_numbers printer heap hnumbers.1 hnumbers.2] at h
    rw [less_numbers printer heap hnumbers.2 hnumbers.1]
    exact doubleLt_asymm h
  · have hother : a.isNumber = false ∨ b.isNumber = false := by
      rw [not_and_or, Bool.not_eq_true, Bool.not_eq_true] at hnumbers
      exact hnumbers
    rw [less_texts printer heap hother] at h
    rw [← Bool.not_eq_true, less_texts printer heap hother.symm]
    exact text_asymm h

/-- Among sortable elements a comparison splits at every third one. The cases are which two of the three
are numbers. -/
theorem less_split {arr : List Value} (h : Sortable printer heap arr) :
    ∀ a ∈ arr, ∀ b ∈ arr, ∀ c ∈ arr, less printer heap a b = true →
      less printer heap a c = true ∨ less printer heap c b = true := by
  intro a ha b hb c hc hab
  cases hna : a.isNumber with
  | false =>
      have htext := (less_texts printer heap (Or.inl hna)).mp hab
      cases hbc : b.isNumber && c.isNumber with
      | false =>
          have hother : c.isNumber = false ∨ b.isNumber = false := by
            rw [Bool.and_eq_false_iff] at hbc
            exact hbc.symm
          obtain hac | hcb := text_split (c := c.toText printer heap) htext
          · exact Or.inl ((less_texts printer heap (Or.inl hna)).mpr hac)
          · exact Or.inr ((less_texts printer heap hother).mpr hcb)
      | true =>
          rw [Bool.and_eq_true] at hbc
          by_cases hac : a.toText printer heap < c.toText printer heap
          · exact Or.inl ((less_texts printer heap (Or.inl hna)).mpr hac)
          · right
            rw [less_numbers printer heap hbc.2 hbc.1]
            exact h.above a ha hna c hc b hb hbc.2 hbc.1 hac htext
  | true =>
      cases hnb : b.isNumber with
      | false =>
          have htext := (less_texts printer heap (Or.inr hnb)).mp hab
          cases hnc : c.isNumber with
          | false =>
              obtain hac | hcb := text_split (c := c.toText printer heap) htext
              · exact Or.inl ((less_texts printer heap (Or.inr hnc)).mpr hac)
              · exact Or.inr ((less_texts printer heap (Or.inr hnb)).mpr hcb)
          | true =>
              by_cases hcb : c.toText printer heap < b.toText printer heap
              · exact Or.inr ((less_texts printer heap (Or.inr hnb)).mpr hcb)
              · left
                rw [less_numbers printer heap hna hnc]
                exact h.below b hb hnb a ha c hc hna hnc htext hcb
      | true =>
          have hnumbers := hab
          rw [less_numbers printer heap hna hnb] at hnumbers
          cases hnc : c.isNumber with
          | false =>
              -- the text of `c` divides the two numbers, which are in their order
              rw [less_texts printer heap (Or.inr hnc), less_texts printer heap (Or.inl hnc)]
              by_contra hneither
              rw [not_or] at hneither
              obtain ⟨hac, hcb⟩ := hneither
              have hback := doubleLt_asymm hnumbers
              by_cases hbc : b.toText printer heap < c.toText printer heap
              · rw [h.below c hc hnc b hb a ha hnb hna hbc hac] at hback
                cases hback
              by_cases hca : c.toText printer heap < a.toText printer heap
              · rw [h.above c hc hnc b hb a ha hnb hna hcb hca] at hback
                cases hback
              · have hlevel := h.level c hc hnc a ha b hb hna hnb (text_eq hac hca)
                  (text_eq hbc hcb)
                rw [hlevel] at hnumbers
                cases hnumbers
          | true =>
              rw [less_numbers printer heap hna hnc, less_numbers printer heap hnc hnb]
              apply doubleLt_split _ hnumbers
              rw [← Bool.not_eq_true]
              intro hnan
              rw [h.noNaN c hc hnc hnan a ha b hb hna hnb] at hnumbers
              cases hnumbers

theorem strictWeakOn_of_sortable {arr : List Value} (h : Sortable printer heap arr) :
    StrictWeakOn (less printer heap) arr :=
  strictWeakOn_of_split (fun a _ b _ => less_asymm printer heap a b) (less_split printer heap h)

/-- Where the comparison is a strict weak order the elements are as they must be. -/
theorem sortable_of_strictWeakOn {arr : List Value} (h : StrictWeakOn (less printer heap) arr)
    (hints : ∀ i j : Int64, Value.int i ∈ arr → Value.int j ∈ arr →
      (less printer heap (.int i) (.int j) = true ↔ i < j)) : Sortable printer heap arr where
  noNaN n hn hnn hnan x hx y hy hnx hny := by
    have hfree : ∀ z, doubleLt (n.asNumber printer.fpu) z = false ∧
        doubleLt z (n.asNumber printer.fpu) = false := by
      intro z
      simp [doubleLt, hnan]
    rw [← less_numbers printer heap hnx hny]
    apply (h.incomp x hx n hn y hy _ _ _ _).1
    · rw [less_numbers printer heap hnx hnn]
      exact (hfree _).2
    · rw [less_numbers printer heap hnn hnx]
      exact (hfree _).1
    · rw [less_numbers printer heap hnn hny]
      exact (hfree _).1
    · rw [less_numbers printer heap hny hnn]
      exact (hfree _).2
  below w hw hnw x hx y hy hnx hny hxw hyw := by
    rw [← less_numbers printer heap hnx hny]
    have hless := (less_texts printer heap (Or.inr hnw)).mpr hxw
    apply (h.split hx hw hy hless).resolve_right
    rwa [less_texts printer heap (Or.inr hnw)]
  above w hw hnw x hx y hy hnx hny hwx hwy := by
    rw [← less_numbers printer heap hnx hny]
    have hless := (less_texts printer heap (Or.inl hnw)).mpr hwy
    apply (h.split hw hy hx hless).resolve_left
    rwa [less_texts printer heap (Or.inl hnw)]
  level w hw hnw x hx y hy hnx hny hxw hyw := by
    have hbeside : ∀ z : Value, z.toText printer heap = w.toText printer heap →
        less printer heap z w = false ∧ less printer heap w z = false := by
      intro z hz
      constructor
      · rw [← Bool.not_eq_true, less_texts printer heap (Or.inr hnw), hz]
        exact List.lt_irrefl _
      · rw [← Bool.not_eq_true, less_texts printer heap (Or.inl hnw), hz]
        exact List.lt_irrefl _
    rw [← less_numbers printer heap hnx hny]
    exact (h.incomp x hx w hw y hy (hbeside x hxw).1 (hbeside x hxw).2 (hbeside y hyw).2
      (hbeside y hyw).1).1
  integers i j hi hj hlt := by
    have hless := (hints i j hi hj).mpr hlt
    rwa [less_numbers printer heap rfl rfl] at hless

theorem less_integers {arr : List Value} (h : Sortable printer heap arr) (i j : Int64)
    (hi : Value.int i ∈ arr) (hj : Value.int j ∈ arr) :
    less printer heap (.int i) (.int j) = true ↔ i < j := by
  constructor
  · intro hless
    have hback := less_asymm printer heap _ _ hless
    by_contra hge
    by_cases heq : i = j
    · rw [heq] at hless hback
      rw [hless] at hback
      cases hback
    · have hlt : j < i := Int64.lt_of_le_of_ne (Int64.not_lt.mp hge) fun h => heq h.symm
      have hforth := h.integers j i hj hi hlt
      rw [less_numbers printer heap rfl rfl] at hback
      exact Bool.noConfusion (hforth.symm.trans hback)
  · intro hlt
    rw [less_numbers printer heap rfl rfl]
    exact h.integers i j hi hj hlt

/-- An array is sorted exactly when its elements are as they must be. -/
theorem sorts_iff (std : StdSort printer heap) (arr : List Value) :
    Sorts std arr ↔ Sortable printer heap arr := by
  constructor
  · intro h
    exact sortable_of_strictWeakOn printer heap h.order h.integers
  · intro h
    have horder := strictWeakOn_of_sortable printer heap h
    refine ⟨horder, std.perm arr horder, std.sorted arr horder, ?_, less_integers printer heap h⟩
    intro arr' hperm
    have horder' := horder.perm hperm
    have hresults : (std.sort arr).Perm (std.sort arr') :=
      (std.perm arr horder).trans (hperm.symm.trans (std.perm arr' horder').symm)
    exact forall₂_equivalent (horder'.perm (std.perm arr' horder')) hresults
      (std.sorted arr' horder') (std.sorted arr horder)

/-- A `std::sort`. -/
def mergeSort : StdSort printer heap where
  sort := sortElements (less printer heap)
  perm xs _ := perm_sortElements (less printer heap) xs
  sorted _ h := sorted_sortElements (less printer heap) h

end comparison

/-- Doubles of which no integers other than 9 and 10 are converted. -/
def smallPrinter : Printer where
  fpu := { FloatUnit.bare with ofInt := fun i => if i = 9 then 0x4022000000000000 else 0x4024000000000000 }
  interfaceName _ := []

/-- The text of 10 is before `5`, which is before that of 9. -/
theorem mixed_not_sorted : ¬ ∀ (printer : Printer) (heap : Heap) (std : StdSort printer heap)
    (arr : List Value), Sorts std arr := by
  intro h
  let heap := Heap.ofProgram [] [] []
  have hsortable := (sorts_iff smallPrinter heap (mergeSort smallPrinter heap) _).mp
    (h smallPrinter heap (mergeSort smallPrinter heap) [.int 9, .int 10, .string (lit "5")])
  have hnine : (Value.int 9).toText smallPrinter heap = integerText 9 := Value.toText_plain _ (fun _ => rfl) _
  have hten : (Value.int 10).toText smallPrinter heap = integerText 10 :=
    Value.toText_plain _ (fun _ => rfl) _
  have hfive : (Value.string (lit "5")).toText smallPrinter heap = lit "5" :=
    Value.toText_plain _ (fun _ => rfl) _
  have hless := hsortable.below (.string (lit "5")) (by simp) rfl (.int 10) (by simp) (.int 9) (by simp)
    rfl rfl (by rw [hten, hfive]; decide) (by rw [hnine, hfive]; decide)
  exact Bool.noConfusion (hless.symm.trans (show doubleLt 0x4024000000000000 0x4022000000000000 = false by
    decide))

end SortOrder

end EZLanguage
