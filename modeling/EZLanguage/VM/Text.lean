import EZLanguage.VM.OperatorHandlers
import Mathlib.Data.List.Forall2

/-!
# Texts and equality of values

`Value::toString` walks containers, and the containers it is in the middle of are its path: one that is
on the path already, or deeper than the limit, prints as a marker. `Value::equals` compares containers
by their contents, taking a pair it has met before for equal. Here the two values can be of different
times, each with the heap of its own.
-/

namespace EZLanguage

/-- The elements of a tuple are kept like those of an array, and a dictionary lists its entries in the
order in which the map is walked. `interfaceName` is the name of an interface. -/
structure Printer where
  fpu : FloatUnit
  interfaceName : Nat → CString

/-- A container as it is printed: each element follows a label. -/
structure Container where
  opening : CString
  elements : List (CString × Value)
  closing : CString

namespace Value

def TOSTRING_MAX_DEPTH : Nat := 512

def quote (s : CString) : CString := lit "\"" ++ s ++ lit "\""

def container? (h : Heap) : Value → Option Container
  | array r => some { opening := lit "[", elements := (h.arrays r).map ([], ·), closing := lit "]" }
  | tuple r => some { opening := lit "(", elements := (h.arrays r).map ([], ·), closing := lit ")" }
  | dictionary r =>
      some
        { opening := lit "\x7b"
          elements := (h.dicts r).map fun entry => (quote entry.1 ++ lit ": ", entry.2)
          closing := lit "\x7d" }
  | _ => none

variable (printer : Printer)

/-- The text of a value that is no container. -/
def plainText : Value → CString
  | nil => lit "nil"
  | bool b => if b then lit "true" else lit "false"
  | int i => integerText i
  | float bits => Scalar.doubleText printer.fpu bits
  | string s => s
  | function _ | closure _ => lit "<function>"
  | nativeFunction _ => lit "<native fn>"
  | klass _ => lit "<model>"
  | inst _ => lit "<instance>"
  | boundMethod _ _ => lit "<bound method>"
  | future _ => lit "<future>"
  | interface r => lit "<interface " ++ printer.interfaceName r ++ lit ">"
  | other kind _ =>
      if kind = lit "mutex" then lit "<mutex>"
      else if kind = lit "channel" then lit "<channel>" else lit "<unknown>"
  | _ => lit "<unknown>"

def element (print : Value → CString) (v : Value) : CString :=
  if v.isString then quote (print v) else print v

/-- `Value::toString` with so many levels left and these containers on the path. -/
def toTextWithin (h : Heap) : Nat → List Value → Value → CString
  | 0, _, v =>
      match v.container? h with
      | none => v.plainText printer
      | some c => c.opening ++ lit "..." ++ c.closing
  | depth + 1, path, v =>
      match v.container? h with
      | none => v.plainText printer
      | some c =>
          if v ∈ path then c.opening ++ lit "..." ++ c.closing
          else
            c.opening ++
              (lit ", ").intercalate (c.elements.map fun e =>
                e.1 ++ element (toTextWithin h depth (v :: path)) e.2) ++
              c.closing

/-- `Value::toString`. -/
def toText (h : Heap) (v : Value) : CString := toTextWithin printer h TOSTRING_MAX_DEPTH [] v

/-- A value that is no container has one text in all heaps. -/
theorem toText_plain {v : Value} (hv : ∀ h, v.container? h = none) (h : Heap) :
    v.toText printer h = v.plainText printer := by
  rw [toText, TOSTRING_MAX_DEPTH, toTextWithin, hv h]

/-! ### Equality -/

variable (fpu : FloatUnit)

def asNumber : Value → UInt64
  | int i => fpu.ofInt i
  | float bits => bits
  | _ => 0

/-- One comparison of `Value::equals`, with the answers of the comparisons it makes in turn. -/
def EqualsBy (h h' : Heap) (R : Value → Value → Prop) : Value → Value → Prop
  | string s, string s' => s = s'
  | nil, nil => True
  | bool b, bool b' => b = b'
  | array r, array r' =>
      (r = r' ∧ h.arrays r = h'.arrays r') ∨ List.Forall₂ R (h.arrays r) (h'.arrays r')
  | tuple r, tuple r' =>
      (r = r' ∧ h.arrays r = h'.arrays r') ∨ List.Forall₂ R (h.arrays r) (h'.arrays r')
  | dictionary r, dictionary r' =>
      (r = r' ∧ h.dicts r = h'.dicts r') ∨
        (h.dicts r).length = (h'.dicts r').length ∧
          ∀ k v, lookup (h.dicts r) k = some v → ∃ v', lookup (h'.dicts r') k = some v' ∧ R v v'
  | a, b =>
      if a.isNumber ∧ b.isNumber then doubleEq (a.asNumber fpu) (b.asNumber fpu) = true else a = b

/-- `Value::equals`: no comparison that the first one leads to finds a difference. -/
def Equals (h h' : Heap) (a b : Value) : Prop :=
  ∃ R : Value → Value → Prop, R a b ∧ ∀ x y, R x y → EqualsBy fpu h h' R x y

/-- `==` without an overload: integers are compared as such, everything else by `Value::equals`. -/
def Same (h h' : Heap) : Value → Value → Prop
  | int i, int j => i = j
  | a, b => Equals fpu h h' a b

variable {fpu}

theorem Equals.by {h h' : Heap} {a b : Value} (heq : Equals fpu h h' a b) :
    EqualsBy fpu h h' (Equals fpu h h') a b := by
  obtain ⟨R, hab, hR⟩ := heq
  have hlift : ∀ x y, R x y → Equals fpu h h' x y := fun x y hxy => ⟨R, hxy, hR⟩
  have hfirst := hR a b hab
  cases a <;> cases b <;> first | exact hfirst | skip
  · exact hfirst.imp id fun hall => List.Forall₂.imp hlift hall
  · exact hfirst.imp id fun hall => List.Forall₂.imp hlift hall
  · refine hfirst.imp id fun hall => ⟨hall.1, fun k v hv => ?_⟩
    obtain ⟨v', hv', hvv'⟩ := hall.2 k v hv
    exact ⟨v', hv', hlift v v' hvv'⟩

/-- Values that are equal whatever the comparisons of others answer. -/
theorem Equals.of_first {h h' : Heap} {a b : Value} (hfirst : ∀ R, EqualsBy fpu h h' R a b) :
    Equals fpu h h' a b := by
  refine ⟨fun x y => x = a ∧ y = b, ⟨rfl, rfl⟩, ?_⟩
  rintro x y ⟨rfl, rfl⟩
  exact hfirst _

end Value

/-! ### Texts that tell values apart -/

theorem lit_chars {s : String} (hs : ∀ c ∈ s.toList, c.toNat < 256) :
    (lit s).map (fun b => Char.ofNat b.toNat) = s.toList := by
  rw [lit, List.map_map]
  conv_rhs => rw [← List.map_id s.toList]
  refine List.map_congr_left fun c hc => ?_
  have hbyte : (UInt8.ofNat c.toNat).toNat = c.toNat :=
    UInt8.toNat_ofNat.trans (Nat.mod_eq_of_lt (hs c hc))
  show Char.ofNat (UInt8.ofNat c.toNat).toNat = c
  rw [hbyte, Char.ofNat_toNat]

/-- The characters of a number are its digits, behind a sign if it is negative. -/
theorem toString_digits (i : Int) : ∃ sign : List Char, (sign = [] ∨ sign = ['-']) ∧
    (sign = [] ↔ 0 ≤ i) ∧ (toString i).toList = sign ++ Nat.toDigits 10 i.natAbs := by
  cases i with
  | ofNat m =>
      refine ⟨[], Or.inl rfl, ⟨fun _ => Int.natCast_nonneg m, fun _ => rfl⟩, ?_⟩
      show (toString m).toList = _
      rw [Nat.toString_eq_ofList_toDigits, String.toList_ofList]
      rfl
  | negSucc m =>
      refine ⟨['-'], Or.inr rfl, ⟨fun h => absurd h (List.cons_ne_nil _ _), fun h => ?_⟩, ?_⟩
      · exact absurd h (Int.not_le.mpr (Int.negSucc_lt_zero m))
      · show ("-" ++ toString (m + 1)).toList = _
        rw [String.toList_append, Nat.toString_eq_ofList_toDigits, String.toList_ofList,
          String.toList_ofList]
        rfl

theorem toString_chars {i : Int} {c : Char} (hc : c ∈ (toString i).toList) :
    c = '-' ∨ c.isDigit = true := by
  obtain ⟨sign, hsign, -, hchars⟩ := toString_digits i
  rw [hchars, List.mem_append] at hc
  rcases hc with hc | hc
  · rcases hsign with rfl | rfl
    · cases hc
    · exact Or.inl (List.mem_singleton.mp hc)
  · exact Or.inr (Nat.isDigit_of_mem_toDigits (by omega) (by omega) hc)

theorem toString_injective {i j : Int} (h : (toString i).toList = (toString j).toList) : i = j := by
  obtain ⟨sign, hsign, hi, hchars⟩ := toString_digits i
  obtain ⟨sign', hsign', hj, hchars'⟩ := toString_digits j
  rw [hchars, hchars'] at h
  have hdash : ∀ n, ('-' : Char) ∉ Nat.toDigits 10 n := by
    intro n hn
    have hdigit := Nat.isDigit_of_mem_toDigits (by omega) (by omega) hn
    cases hdigit
  have hsplit : sign = sign' ∧ Nat.toDigits 10 i.natAbs = Nat.toDigits 10 j.natAbs := by
    rcases hsign with rfl | rfl <;> rcases hsign' with rfl | rfl
    · exact ⟨rfl, h⟩
    · refine absurd ?_ (hdash i.natAbs)
      rw [List.nil_append] at h
      exact h ▸ List.mem_cons_self
    · refine absurd ?_ (hdash j.natAbs)
      rw [List.nil_append] at h
      exact h ▸ List.mem_cons_self
    · exact ⟨rfl, (List.cons.inj h).2⟩
  obtain ⟨rfl, hdigits⟩ := hsplit
  have habs := congrArg (fun ds => Nat.ofDigitChars 10 ds 0) hdigits
  simp only [Nat.ofDigitChars_ten_toDigits] at habs
  rw [hi] at hj
  omega

theorem char_lt_256 {c : Char} (hc : c = '-' ∨ c.isDigit = true) : c.toNat < 256 := by
  rcases hc with rfl | hc
  · decide
  · simp only [Char.isDigit, Bool.and_eq_true, decide_eq_true_eq] at hc
    have := UInt32.le_iff_toNat_le.mp hc.2
    show c.val.toNat < 256
    exact Nat.lt_of_le_of_lt this (by decide)

theorem integerText_injective {i j : Int64} (h : integerText i = integerText j) : i = j := by
  rw [integerText, integerText] at h
  have hchars := congrArg (List.map fun b => Char.ofNat b.toNat) h
  rw [lit_chars fun c hc => char_lt_256 (toString_chars hc),
    lit_chars fun c hc => char_lt_256 (toString_chars hc)] at hchars
  exact Int64.toInt_inj.mp (toString_injective hchars)

end EZLanguage
