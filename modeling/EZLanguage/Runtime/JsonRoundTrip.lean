import EZLanguage.Runtime.Json
import EZLanguage.Support.Pointwise
import Mathlib.Data.List.Nodup
import Mathlib.Tactic.Common

/-!
# When a value comes back from its JSON text

A value is written when no path into it is longer than the limit, which leaves out the cyclic ones. What
comes back is the value when every string looks like a string and every integer has a text of its own.
-/

namespace EZLanguage

namespace Json

open Pointwise

variable {library : Library} {heap : Heap}

/-! ### Values in values -/

theorem child_of_scalar {v w : Value} (hv : v.isContainer = false) : ¬ Child heap v w := by
  intro hchild
  cases hchild <;> cases hv

theorem within_child {n : Nat} {v w : Value} (hwithin : Within heap n v)
    (hchild : Child heap v w) : ∃ m, n = m + 1 ∧ Within heap m w := by
  cases n with
  | zero => exact absurd hchild (child_of_scalar hwithin)
  | succ m => exact ⟨m, rfl, hwithin w hchild⟩

theorem within_inside {n : Nat} {v w : Value} (hwithin : Within heap n v)
    (hinside : Inside heap v w) : ∃ m ≤ n, Within heap m w := by
  induction hinside with
  | refl => exact ⟨n, Nat.le_refl n, hwithin⟩
  | tail _ hchild ih =>
      obtain ⟨m, hm, hwithin'⟩ := ih
      obtain ⟨k, rfl, hk⟩ := within_child hwithin' hchild
      exact ⟨k, by omega, hk⟩

/-- A value that contains itself has paths of any length. -/
theorem not_transGen_of_within (n : Nat) :
    ∀ w, Within heap n w → ¬ Relation.TransGen (Child heap) w w := by
  induction n using Nat.strong_induction_on with
  | _ n ih =>
      intro w hwithin hcycle
      obtain ⟨u, hchild, hback⟩ := Relation.TransGen.head'_iff.mp hcycle
      obtain ⟨m, rfl, hu⟩ := within_child hwithin hchild
      obtain ⟨k, hk, hw⟩ := within_inside hu hback
      exact ih k (by omega) w hw hcycle

theorem not_cyclic_of_within {n : Nat} {v : Value} (hwithin : Within heap n v) :
    ¬ Cyclic heap v := by
  intro ⟨w, hinside, hcycle⟩
  obtain ⟨m, _, hw⟩ := within_inside hwithin hinside
  exact not_transGen_of_within m w hw hcycle

theorem faithful_iff_child {v : Value} (hv : v.isContainer = true) :
    Faithful library heap v ↔ ∀ w, Child heap v w → Faithful library heap w := by
  constructor
  · intro hfaithful w hchild
    exact ⟨fun s hs => hfaithful.1 s (hs.head hchild), fun i hi => hfaithful.2 i (hi.head hchild)⟩
  · intro hchildren
    constructor
    · intro s hs
      obtain heq | ⟨w, hchild, hw⟩ := hs.cases_head
      · rw [heq] at hv
        cases hv
      · exact (hchildren w hchild).1 s hw
    · intro i hi
      obtain heq | ⟨w, hchild, hw⟩ := hi.cases_head
      · rw [heq] at hv
        cases hv
      · exact (hchildren w hchild).2 i hw

theorem inside_of_scalar {v w : Value} (hv : v.isContainer = false) (hinside : Inside heap v w) :
    w = v := by
  obtain heq | ⟨u, hchild, _⟩ := hinside.cases_head
  · exact heq.symm
  · exact absurd hchild (child_of_scalar hv)

/-! ### What the conversion makes -/

section Steps

variable {n r : Nat} {path : List Value}

theorem convert_again {v : Value} (hmem : v ∈ path) :
    convert library heap (n + 1) path v = .error selfReference := by
  unfold convert
  rw [if_pos hmem]

theorem convert_array (hfresh : .array r ∉ path) :
    convert library heap (n + 1) path (.array r) =
      ((heap.array r).mapM (convert library heap n (.array r :: path))).map Tree.array := by
  unfold convert
  rw [if_neg hfresh]
  dsimp only
  cases (heap.array r).mapM (convert library heap n (.array r :: path)) <;> rfl

/-- An entry of a dictionary, converted. -/
def convertEntry (library : Library) (heap : Heap) (n : Nat) (path : List Value)
    (entry : CString × Value) : Except CString (CString × Tree) := do
  let t ← convert library heap n path entry.2
  return (entry.1, t)

theorem convertEntry_ok {entry : CString × Value} {p : CString × Tree} :
    convertEntry library heap n path entry = .ok p ↔
      entry.1 = p.1 ∧ convert library heap n path entry.2 = .ok p.2 := by
  rw [convertEntry]
  cases convert library heap n path entry.2 with
  | error e =>
      constructor
      · intro h
        cases h
      · intro h
        cases h.2
  | ok t =>
      obtain ⟨key, u⟩ := p
      constructor
      · intro h
        cases h
        exact ⟨rfl, rfl⟩
      · intro ⟨hkey, ht⟩
        cases ht
        obtain rfl : entry.1 = key := hkey
        rfl

theorem convert_dictionary (hfresh : .dictionary r ∉ path) :
    convert library heap (n + 1) path (.dictionary r) =
      ((heap.dictionary r).mapM (convertEntry library heap n (.dictionary r :: path))).map
        fun properties => .object (sorted properties) := by
  unfold convert
  rw [if_neg hfresh]
  dsimp only
  change ((heap.dictionary r).mapM (convertEntry library heap n (.dictionary r :: path)) >>= _) = _
  cases (heap.dictionary r).mapM (convertEntry library heap n (.dictionary r :: path)) <;> rfl

theorem convert_scalar {room : Nat} {v : Value} (hv : v.isContainer = false)
    (hfresh : v ∉ path) : convert library heap room path v = .ok (scalarTree library v) := by
  unfold convert
  cases room with
  | zero => simp [hv]
  | succ n =>
      dsimp only
      rw [if_neg hfresh]
      cases v with
      | array r => cases hv
      | dictionary r => cases hv
      | _ => rfl

end Steps

/-- A tree is the one of a scalar, or it has the trees of what the value has. -/
theorem convert_ok {room : Nat} {path : List Value} {v : Value} {t : Tree}
    (hrun : convert library heap room path v = .ok t) :
    (v.isContainer = false ∧ t = scalarTree library v) ∨
    (∃ n r items, room = n + 1 ∧ v = .array r ∧ t = .array items ∧
      List.Forall₂ (fun w u => convert library heap n (v :: path) w = .ok u)
        (heap.array r) items) ∨
    (∃ n r properties, room = n + 1 ∧ v = .dictionary r ∧ t = .object (sorted properties) ∧
      List.Forall₂ (fun entry p =>
          entry.1 = p.1 ∧ convert library heap n (v :: path) entry.2 = .ok p.2)
        (heap.dictionary r) properties) := by
  cases room with
  | zero =>
      rw [convert] at hrun
      split at hrun
      · cases hrun
      · next hv =>
          left
          exact ⟨by simpa using hv, (Except.ok.inj hrun).symm⟩
  | succ n =>
      by_cases hmem : v ∈ path
      · rw [convert_again hmem] at hrun
        cases hrun
      cases v with
      | array r =>
          right
          left
          rw [convert_array hmem] at hrun
          cases hitems : (heap.array r).mapM (convert library heap n (.array r :: path)) with
          | error e =>
              rw [hitems] at hrun
              cases hrun
          | ok items =>
              rw [hitems] at hrun
              exact ⟨n, r, items, rfl, rfl, (Except.ok.inj hrun).symm, forall₂_of_mapM hitems⟩
      | dictionary r =>
          right
          right
          rw [convert_dictionary hmem] at hrun
          cases hentries : (heap.dictionary r).mapM
              (convertEntry library heap n (.dictionary r :: path)) with
          | error e =>
              rw [hentries] at hrun
              cases hrun
          | ok properties =>
              rw [hentries] at hrun
              exact ⟨n, r, properties, rfl, rfl, (Except.ok.inj hrun).symm,
                (forall₂_of_mapM hentries).imp fun _ _ hp => convertEntry_ok.mp hp⟩
      | _ =>
          left
          rw [convert_scalar rfl hmem] at hrun
          exact ⟨rfl, (Except.ok.inj hrun).symm⟩

theorem within_of_convert {room : Nat} {path : List Value} {v : Value} {t : Tree}
    (hrun : convert library heap room path v = .ok t) : Within heap room v := by
  induction room generalizing path v t with
  | zero =>
      obtain ⟨hv, _⟩ | ⟨n, _, _, hn, _⟩ | ⟨n, _, _, hn, _⟩ := convert_ok hrun
      · exact hv
      · cases hn
      · cases hn
  | succ n ih =>
      intro w hchild
      obtain ⟨hv, _⟩ | ⟨m, r, items, hm, rfl, _, hitems⟩ | ⟨m, r, properties, hm, rfl, _, hentries⟩ :=
        convert_ok hrun
      · exact absurd hchild (child_of_scalar hv)
      · obtain rfl := Nat.succ.inj hm
        cases hchild with
        | item hitem =>
            obtain ⟨u, _, hu⟩ := exists_of_left hitems hitem
            exact ih hu
      · obtain rfl := Nat.succ.inj hm
        cases hchild with
        | entry hentry =>
            obtain ⟨p, _, _, hp⟩ := exists_of_left hentries hentry
            exact ih hp

/-- The containers of the path lead to the value, so that one of them is met again only in a cycle. -/
theorem convert_of_within {room : Nat} {path : List Value} {v : Value}
    (hpath : ∀ p ∈ path, Relation.TransGen (Child heap) p v) (hwithin : Within heap room v) :
    ∃ t, convert library heap room path v = .ok t := by
  induction room generalizing path v with
  | zero =>
      have hv : v.isContainer = false := hwithin
      exact ⟨scalarTree library v, by simp [convert, hv]⟩
  | succ n ih =>
      have hfresh : v ∉ path := fun hmem =>
        not_transGen_of_within (n + 1) v hwithin (hpath v hmem)
      have hbelow : ∀ w, Child heap v w →
          ∃ t, convert library heap n (v :: path) w = .ok t := by
        intro w hchild
        apply ih _ (hwithin w hchild)
        intro p hp
        rcases List.mem_cons.mp hp with rfl | hmem
        · exact .single hchild
        · exact (hpath p hmem).tail hchild
      cases v with
      | array r =>
          obtain ⟨items, hitems⟩ := mapM_of_forall fun w hw => hbelow w (.item hw)
          exact ⟨.array items, by rw [convert_array hfresh, hitems]; rfl⟩
      | dictionary r =>
          have hentries : ∀ entry ∈ heap.dictionary r,
              ∃ p, convertEntry library heap n (.dictionary r :: path) entry = .ok p := by
            intro (key, w) hentry
            obtain ⟨t, ht⟩ := hbelow w (.entry hentry)
            exact ⟨(key, t), convertEntry_ok.mpr ⟨rfl, ht⟩⟩
          obtain ⟨properties, hproperties⟩ := mapM_of_forall hentries
          exact ⟨.object (sorted properties), by rw [convert_dictionary hfresh, hproperties]; rfl⟩
      | _ => exact ⟨_, convert_scalar rfl hfresh⟩

/-- A value has a text exactly when no path into it is too long. -/
theorem toJson_ok_iff {v : Value} :
    (∃ text, toJson library heap v = .ok text) ↔ Within heap jsonMaxDepth v := by
  constructor
  · intro ⟨text, htext⟩
    rw [toJson] at htext
    cases ht : convert library heap jsonMaxDepth [] v with
    | error e =>
        rw [ht] at htext
        cases htext
    | ok t => exact within_of_convert ht
  · intro hwithin
    obtain ⟨t, ht⟩ := @convert_of_within library heap jsonMaxDepth [] v nofun hwithin
    refine ⟨write t, ?_⟩
    rw [toJson, ht]
    rfl

/-! ### Guessing the kind of a text -/

theorem digitsOf_lt {n d : Nat} (hd : d ∈ digitsOf n) : d < 10 := by
  rw [digitsOf] at hd
  split at hd
  · rw [List.mem_singleton.mp hd]
    omega
  · exact Nat.digits_lt_base (by omega) (List.mem_reverse.mp hd)

theorem digitsOf_ne_nil (n : Nat) : digitsOf n ≠ [] := by
  rw [digitsOf]
  split
  · simp
  · next hn => simpa [Nat.digits_eq_nil_iff_eq_zero] using hn

theorem startsNumber_digit {d : Nat} (hd : d < 10) (rest : CString) :
    startsNumber (digitText d :: rest) = true := by
  have hall : ∀ d < 10, startsNumber [digitText d] = true := by decide
  exact hall d hd

theorem startsNumber_sign {n : Int} {s : CString} (hs : startsNumber s = true) :
    startsNumber (signText n ++ s) = true := by
  rw [signText]
  split
  · rfl
  · exact hs

theorem startsNumber_append {s rest : CString} (hs : startsNumber s = true) :
    startsNumber (s ++ rest) = true := by
  cases s with
  | nil => cases hs
  | cons c s => exact hs

/-- The text of an integer begins as a number. -/
theorem startsNumber_numberText (n : Int) :
    startsNumber (numberText library (.integral n)) = true := by
  rw [numberText]
  split
  · apply startsNumber_sign
    cases hdigits : digitsOf n.natAbs with
    | nil => exact absurd hdigits (digitsOf_ne_nil _)
    | cons d rest =>
        have hd : d ∈ digitsOf n.natAbs := hdigits ▸ List.mem_cons_self ..
        exact startsNumber_digit (digitsOf_lt hd) _
  · simp only [scientificText, List.append_assoc]
    apply startsNumber_sign
    apply startsNumber_append
    have hdigits : ∀ c ∈ (((digitsOf (sixDigits n.natAbs)).take 6).reverse.dropWhile
        (· == 0)).reverse.map digitText, ∃ d < 10, c = digitText d := by
      intro c hc
      obtain ⟨d, hd, rfl⟩ := List.mem_map.mp hc
      have hmem : d ∈ digitsOf (sixDigits n.natAbs) :=
        List.mem_of_mem_take (List.mem_reverse.mp
          ((List.dropWhile_sublist _).subset (List.mem_reverse.mp hd)))
      exact ⟨d, digitsOf_lt hmem, rfl⟩
    split
    · rfl
    · next c heq =>
        obtain ⟨d, hd, rfl⟩ := hdigits c (heq ▸ List.mem_cons_self ..)
        exact startsNumber_digit hd _
    · next c rest _ heq =>
        obtain ⟨d, hd, rfl⟩ := hdigits c (heq ▸ List.mem_cons_self ..)
        exact startsNumber_digit hd _

/-- A text that begins as a number is what the library reads in it. -/
theorem guess_of_startsNumber {s : CString} {d : Double} (hs : startsNumber s = true)
    (hd : library.stod s = some d) : guess library s = .number d := by
  have hword : ∀ word, startsNumber word = false → s ≠ word := by
    intro word hword heq
    rw [heq, hword] at hs
    cases hs
  rw [guess, if_neg (hword _ (by decide)), if_neg (hword _ (by decide)),
    if_neg (hword _ (by decide)), if_pos hs, hd]

theorem guess_eq_string_iff {s : CString} :
    guess library s = .string s ↔ Unmistakable library s := by
  rw [guess, Unmistakable]
  split
  · next h => simp [h]
  split
  · next h => simp [h]
  split
  · next h => simp [h]
  next h₁ h₂ h₃ =>
  split
  · next hs =>
      cases hd : library.stod s <;> simp [h₁, h₂, h₃, hs]
  · next hs => simp [h₁, h₂, h₃, hs]

/-! ### Numbers that come back -/

theorem fitsInt_iff {n : Int} : fitsInt n = true ↔ -2147483648 ≤ n ∧ n < 2147483648 := by
  simp [fitsInt]

theorem sign_mul_cancel {n : Int} {a : Nat} (hn : n ≠ 0) : n.sign * (a : Int) = n ↔ a = n.natAbs := by
  have hself : n.sign * (n.natAbs : Int) = n := Int.sign_mul_natAbs n
  have hsign : n.sign ≠ 0 := by simpa using hn
  constructor
  · intro heq
    have hmul : n.sign * (a : Int) = n.sign * (n.natAbs : Int) := by rw [heq, hself]
    exact Int.ofNat.inj (Int.eq_of_mul_eq_mul_left hsign hmul)
  · intro heq
    rw [heq, hself]

theorem sign_mul {n : Int} {a : Nat} (ha : 0 < a) :
    (n.sign * (a : Int)).sign = n.sign ∧ (n ≠ 0 → (n.sign * (a : Int)).natAbs = a) := by
  constructor
  · rw [Int.sign_mul, Int.sign_natCast_of_ne_zero (by omega), Int.mul_one, Int.sign_sign]
  · intro hn
    rw [Int.natAbs_mul, Int.natAbs_sign_of_ne_zero hn, Int.natAbs_natCast, Nat.one_mul]

/-- The double of an integer, printed and read again, is the integer when it is an `int` or has few
digits. -/
theorem number_comes_back_iff (i : Int64) {n : Int} (hdouble : toDouble i = .integral n) :
    (printed n).sign * (nearestDouble (printed n).natAbs : Int) = i.toInt ↔
      fitsInt i.toInt = true ∨ FewDigits i.toInt.natAbs := by
  have hn : i.toInt.sign * (nearestDouble i.toInt.natAbs : Int) = n := Double.integral.inj hdouble
  have hbound : i.toInt.natAbs ≤ 2 ^ 63 := by
    have hlow := i.le_toInt
    have hhigh := i.toInt_lt
    omega
  generalize i.toInt = k at *
  by_cases hfits : fitsInt k = true
  · have hrange := fitsInt_iff.mp hfits
    have hself : n = k := by
      rw [← hn, nearestDouble_of_lt (by omega)]
      exact Int.sign_mul_natAbs k
    rw [hself, printed, if_pos hfits, nearestDouble_of_lt (by omega), Int.sign_mul_natAbs]
    simp [hfits]
  · have hrange : ¬ (-2147483648 ≤ k ∧ k < 2147483648) := fun h => hfits (fitsInt_iff.mpr h)
    have hk : k ≠ 0 := by omega
    have hpos : 0 < nearestDouble k.natAbs := nearestDouble_pos (by omega)
    obtain ⟨hsign, habs⟩ := sign_mul (n := k) hpos
    rw [hn] at hsign habs
    have hlarge : fitsInt n ≠ true := by
      intro h
      have hrange' := fitsInt_iff.mp h
      have habs' := habs hk
      have hle : 2147483648 ≤ nearestDouble k.natAbs := le_nearestDouble (by omega) (by omega)
      rcases Int.lt_or_lt_of_ne hk with hneg | hposk
      · have hle' : 2147483649 ≤ nearestDouble k.natAbs := le_nearestDouble (by omega) (by omega)
        omega
      · have hsignn : n.sign = 1 := by rw [hsign, Int.sign_eq_one_of_pos hposk]
        have hnpos := Int.sign_eq_one_iff_pos.mp hsignn
        omega
    have hsix : 0 < sixDigits n.natAbs := sixDigits_pos (by rw [habs hk]; exact hpos)
    obtain ⟨hsign', habs'⟩ := sign_mul (n := n) hsix
    have hn0 : n ≠ 0 := by
      intro h
      rw [h] at habs
      have := habs hk
      simp at this
      omega
    rw [printed, if_neg hlarge, hsign', habs' hn0, hsign, habs hk, sign_mul_cancel hk,
      reread_iff hbound]
    simp [hfits]

/-! ### The round trip -/

theorem parsed_items (items : List Tree) :
    (Tree.array items).readBack.parsed library =
      .array (items.map fun t => t.readBack.parsed library) := by
  have hitems : parsedItems library (readBackItems items) =
      items.map fun t => t.readBack.parsed library := by
    induction items with
    | nil => rfl
    | cons t rest ih => simp only [readBackItems, parsedItems, List.map_cons, ih]
  simp only [Tree.readBack, Tree.parsed, hitems]

theorem parsed_properties (properties : List (CString × Tree)) :
    (Tree.object properties).readBack.parsed library =
      .dictionary (properties.map fun p => (p.1, p.2.readBack.parsed library)) := by
  have hproperties : parsedProperties library (readBackProperties properties) =
      properties.map fun p => (p.1, p.2.readBack.parsed library) := by
    induction properties with
    | nil => rfl
    | cons p rest ih => simp only [readBackProperties, parsedProperties, List.map_cons, ih]
  simp only [Tree.readBack, Tree.parsed, hproperties]

/-- A scalar comes back when its text is that of nothing else. -/
theorem scalar_same_iff {v : Value} (hv : v.isContainer = false) (hkinds : JsonKinds heap v)
    (hnumbers : ReadsNumbers library heap v) :
    Same heap v ((scalarTree library v).readBack.parsed library) ↔ Faithful library heap v := by
  have hself : Inside heap v v := .refl
  have hfaithful : Faithful library heap v ↔
      (∀ s, v = .string s → Unmistakable library s) ∧
        ∀ i, v = .int i → fitsInt i.toInt = true ∨ FewDigits i.toInt.natAbs := by
    constructor
    · intro h
      exact ⟨fun s hs => h.1 s (hs ▸ hself), fun i hi => h.2 i (hi ▸ hself)⟩
    · intro h
      exact ⟨fun s hs => h.1 s (inside_of_scalar hv hs).symm,
        fun i hi => h.2 i (inside_of_scalar hv hi).symm⟩
  rw [hfaithful]
  cases v with
  | nil =>
      have hnil : (scalarTree library .nil).readBack.parsed library = .nil := by
        simp [scalarTree, Tree.readBack, Tree.parsed, guess, lit]
      rw [hnil]
      simp [Same.nil]
  | bool b =>
      have hbool : (scalarTree library (.bool b)).readBack.parsed library = .bool b := by
        cases b <;> simp [scalarTree, Tree.readBack, Tree.parsed, guess, lit]
      rw [hbool]
      simp [Same.bool]
  | int i =>
      obtain ⟨n, hdouble⟩ : ∃ n, toDouble i = .integral n := ⟨_, rfl⟩
      have hread := guess_of_startsNumber (startsNumber_numberText n) (hnumbers i hself n hdouble)
      have hnumber : (scalarTree library (.int i)).readBack.parsed library =
          .number (.integral ((printed n).sign * nearestDouble (printed n).natAbs)) := by
        rw [← hread, ← hdouble]
        rfl
      rw [hnumber]
      have hiff := number_comes_back_iff i hdouble
      constructor
      · intro hsame
        have heq : (printed n).sign * (nearestDouble (printed n).natAbs : Int) = i.toInt := by
          generalize hd : Parsed.number _ = d at hsame
          cases hsame
          exact Double.integral.inj (Parsed.number.inj hd)
        exact ⟨nofun, fun j hj => Value.int.inj hj ▸ hiff.mp heq⟩
      · intro hok
        rw [hiff.mpr (hok.2 i rfl)]
        exact .int i
  | string s =>
      have hstring : (scalarTree library (.string s)).readBack.parsed library = guess library s :=
        rfl
      rw [hstring]
      constructor
      · intro hsame
        have heq : guess library s = .string s := by
          generalize guess library s = w at hsame
          cases hsame
          rfl
        exact ⟨fun s' hs' => Value.string.inj hs' ▸ guess_eq_string_iff.mp heq, nofun⟩
      · intro hok
        rw [guess_eq_string_iff.mpr (hok.1 s rfl)]
        exact .string s
  | array r => cases hv
  | dictionary r => cases hv
  | float d => exact absurd rfl ((hkinds _ hself).2 d)
  | other => exact absurd rfl (hkinds _ hself).1

theorem array_same_iff {r : Nat} {items : List Tree} {R : Value → Tree → Prop}
    (hrelated : List.Forall₂ R (heap.array r) items)
    (hbelow : ∀ w u, w ∈ heap.array r → R w u →
      (Same heap w (u.readBack.parsed library) ↔ Faithful library heap w)) :
    Same heap (.array r) ((Tree.array items).readBack.parsed library) ↔
      Faithful library heap (.array r) := by
  rw [parsed_items, faithful_iff_child rfl]
  constructor
  · intro hsame w hchild
    cases hsame with
    | array hlength hitems =>
        cases hchild with
        | item hitem =>
            obtain ⟨i, hi⟩ := List.mem_iff_getElem?.mp hitem
            obtain ⟨u, hu, hwu⟩ := getElem?_of_left hrelated hi
            apply (hbelow w u hitem hwu).mp
            apply hitems i w _ hi
            rw [List.getElem?_map, hu]
            rfl
  · intro hchildren
    apply Same.array
    · rw [List.length_map, hrelated.length_eq]
    · intro i v w hi hw
      obtain ⟨u, hu, hvu⟩ := getElem?_of_left hrelated hi
      have hmem : v ∈ heap.array r := List.mem_iff_getElem?.mpr ⟨i, hi⟩
      rw [List.getElem?_map, hu] at hw
      obtain rfl := Option.some.inj hw
      exact (hbelow v u hmem hvu).mpr (hchildren v (.item hmem))

/-- The entries of a dictionary are found again by their names, in whatever order they are written. -/
theorem dictionary_same_iff {r : Nat} {properties : List (CString × Tree)}
    {R : Value → Tree → Prop}
    (hrelated : List.Forall₂ (fun entry p => entry.1 = p.1 ∧ R entry.2 p.2)
      (heap.dictionary r) properties)
    (hbelow : ∀ key w u, (key, w) ∈ heap.dictionary r → R w u →
      (Same heap w (u.readBack.parsed library) ↔ Faithful library heap w)) :
    Same heap (.dictionary r) ((Tree.object (sorted properties)).readBack.parsed library) ↔
      Faithful library heap (.dictionary r) := by
  have hperm : (sorted properties).Perm properties := List.mergeSort_perm _ _
  have hkeys : (heap.dictionary r).map Prod.fst = properties.map Prod.fst := by
    have hmap : List.Forall₂ (· = ·) ((heap.dictionary r).map Prod.fst)
        (properties.map Prod.fst) := by
      rw [List.forall₂_map_left_iff, List.forall₂_map_right_iff]
      exact hrelated.imp fun _ _ h => h.1
    exact List.forall₂_eq_eq_eq ▸ hmap
  have hdistinct : (properties.map Prod.fst).Nodup := hkeys ▸ heap.distinct r
  have hentry : ∀ key w, (key, w) ∈ heap.dictionary r →
      ∃ u, (key, u) ∈ properties ∧ R w u := by
    intro key w hmem
    obtain ⟨⟨key', u⟩, hp, hkey, hwu⟩ := exists_of_left hrelated hmem
    obtain rfl : key = key' := hkey
    exact ⟨u, hp, hwu⟩
  rw [parsed_properties, faithful_iff_child rfl]
  constructor
  · intro hsame w hchild
    cases hsame with
    | dictionary hlength hnodup found hfound hentries =>
        cases hchild with
        | @entry _ key _ hmem =>
            obtain ⟨u, hu, hwu⟩ := hentry key w hmem
            obtain ⟨⟨key', u'⟩, hp, heq⟩ := List.mem_map.mp (hfound key w hmem)
            obtain ⟨rfl, hfoundeq⟩ := Prod.mk.inj heq
            have hsame : (key', u') = (key', u) :=
              List.inj_on_of_nodup_map hdistinct (hperm.mem_iff.mp hp) hu rfl
            obtain rfl := (Prod.mk.inj hsame).2
            apply (hbelow key' w u' hmem hwu).mp
            rw [hfoundeq]
            exact hentries key' w hmem
  · intro hchildren
    have hfind : ∀ key, ∃ q, ∀ w, (key, w) ∈ heap.dictionary r →
        (key, q) ∈ (sorted properties).map (fun p => (p.1, p.2.readBack.parsed library)) ∧
          Same heap w q := by
      intro key
      by_cases hkey : ∃ w, (key, w) ∈ heap.dictionary r
      · obtain ⟨w, hmem⟩ := hkey
        obtain ⟨u, hu, hwu⟩ := hentry key w hmem
        refine ⟨u.readBack.parsed library, fun w' hmem' => ?_⟩
        have hsame : (key, w') = (key, w) :=
          List.inj_on_of_nodup_map (heap.distinct r) hmem' hmem rfl
        obtain rfl := (Prod.mk.inj hsame).2
        exact ⟨List.mem_map.mpr ⟨(key, u), hperm.mem_iff.mpr hu, rfl⟩,
          (hbelow key w' u hmem hwu).mpr (hchildren w' (.entry hmem))⟩
      · exact ⟨.nil, fun w hmem => absurd ⟨w, hmem⟩ hkey⟩
    choose found hfound using hfind
    apply Same.dictionary
    · rw [List.length_map, hperm.length_eq, hrelated.length_eq]
    · have hmap : ((sorted properties).map fun p => (p.1, p.2.readBack.parsed library)).map
          Prod.fst = (sorted properties).map Prod.fst := by
        rw [List.map_map]
        rfl
      rw [hmap]
      exact (hperm.map Prod.fst).nodup_iff.mpr hdistinct
    · exact fun key v hmem => (hfound key v hmem).1
    · exact fun key v hmem => (hfound key v hmem).2

theorem JsonKinds.child {v w : Value} (hkinds : JsonKinds heap v) (hchild : Child heap v w) :
    JsonKinds heap w := fun u hu => hkinds u (hu.head hchild)

theorem ReadsNumbers.child {v w : Value} (hnumbers : ReadsNumbers library heap v)
    (hchild : Child heap v w) : ReadsNumbers library heap w :=
  fun i hi n hn => hnumbers i (hi.head hchild) n hn

/-- What is read back from the tree of a value is the value when all its scalars have texts of their
own. -/
theorem same_iff_faithful {room : Nat} {path : List Value} {v : Value} {t : Tree}
    (hrun : convert library heap room path v = .ok t) (hkinds : JsonKinds heap v)
    (hnumbers : ReadsNumbers library heap v) :
    Same heap v (t.readBack.parsed library) ↔ Faithful library heap v := by
  induction room generalizing path v t with
  | zero =>
      obtain ⟨hv, rfl⟩ | ⟨n, _, _, hn, _⟩ | ⟨n, _, _, hn, _⟩ := convert_ok hrun
      · exact scalar_same_iff hv hkinds hnumbers
      · cases hn
      · cases hn
  | succ n ih =>
      obtain ⟨hv, rfl⟩ | ⟨m, r, items, hm, rfl, rfl, hitems⟩ |
        ⟨m, r, properties, hm, rfl, rfl, hentries⟩ := convert_ok hrun
      · exact scalar_same_iff hv hkinds hnumbers
      · obtain rfl := Nat.succ.inj hm
        apply array_same_iff hitems
        intro w u hw hu
        exact ih hu (hkinds.child (.item hw)) (hnumbers.child (.item hw))
      · obtain rfl := Nat.succ.inj hm
        apply dictionary_same_iff (R := fun w u => convert library heap n _ w = .ok u) hentries
        intro key w u hw hu
        exact ih hu (hkinds.child (.entry hw)) (hnumbers.child (.entry hw))

theorem toJson_back {reader : CString → Option Tree} {v : Value} (hkinds : JsonKinds heap v)
    (hnames : PlainNames heap v) (hnumbers : ReadsNumbers library heap v)
    (hreader : ReadsText library reader heap v) (hwithin : Within heap jsonMaxDepth v) :
    (∃ text w, toJson library heap v = .ok text ∧ parseJson library reader text = .ok w ∧
      Same heap v w) ↔ Faithful library heap v := by
  obtain ⟨t, ht⟩ := @convert_of_within library heap jsonMaxDepth [] v nofun hwithin
  have htext : toJson library heap v = .ok (write t) := by
    rw [toJson, ht]
    rfl
  have hparse : parseJson library reader (write t) = .ok (t.readBack.parsed library) := by
    rw [parseJson, hreader hnames t ht]
  rw [← same_iff_faithful ht hkinds hnumbers]
  constructor
  · intro ⟨text, w, htext', hparse', hsame⟩
    obtain rfl := Except.ok.inj (htext.symm.trans htext')
    obtain rfl := Except.ok.inj (hparse.symm.trans hparse')
    exact hsame
  · intro hsame
    exact ⟨_, _, htext, hparse, hsame⟩

theorem toJson_refused {v : Value} (hdeep : ¬ Within heap jsonMaxDepth v) :
    ∃ failure, toJson library heap v = .error failure := by
  cases hrun : toJson library heap v with
  | error failure => exact ⟨failure, rfl⟩
  | ok text => exact absurd (toJson_ok_iff.mp ⟨text, hrun⟩) hdeep

theorem refused_of_cyclic {v : Value} (h : Cyclic heap v ∨ ¬ Within heap jsonMaxDepth v) :
    ∃ failure, toJson library heap v = .error failure := by
  apply toJson_refused
  obtain hcyclic | hdeep := h
  · exact fun hwithin => not_cyclic_of_within hwithin hcyclic
  · exact hdeep

/-- A value makes the round trip exactly when it is refused or all its scalars have texts of their own. -/
theorem roundTrip_iff {reader : CString → Option Tree} {v : Value} (hkinds : JsonKinds heap v)
    (hnames : PlainNames heap v) (hnumbers : ReadsNumbers library heap v)
    (hreader : ReadsText library reader heap v) :
    RoundTrip library reader heap v ↔
      (Within heap jsonMaxDepth v → Faithful library heap v) := by
  constructor
  · intro htrip hwithin
    exact (toJson_back hkinds hnames hnumbers hreader hwithin).mp
      (htrip.back (not_cyclic_of_within hwithin) hwithin)
  · intro hfaithful
    exact
      { back := fun _ hwithin =>
          (toJson_back hkinds hnames hnumbers hreader hwithin).mpr (hfaithful hwithin)
        refused := refused_of_cyclic }

/-! ### Two values -/

/-- A reader of the one text that is written for a value. -/
def readerOf (library : Library) (heap : Heap) (v : Value) (s : CString) : Option Tree :=
  match convert library heap jsonMaxDepth [] v with
  | .ok t => if s = write t then some t.readBack else none
  | .error _ => none

theorem readsText_readerOf {v : Value} :
    ReadsText library (readerOf library heap v) heap v := by
  intro _ t ht
  simp [readerOf, ht]

/-- A library that knows the digits. -/
def digitLibrary : Library where
  general _ := []
  stod s := if s = lit "5" then some (.integral 5) else if s = lit "7" then some (.integral 7) else none

def sampleHeap : Heap where
  array r :=
    if r = 0 then [.int 7, .string (lit "a"), .nil, .dictionary 0]
    else if r = 1 then [.string (lit "5")]
    else []
  dictionary r := if r = 0 then [(lit "k", .bool true)] else []
  distinct r := by
    split
    · simp
    · simp

def sampleValues : List Value :=
  [.array 0, .int 7, .string (lit "a"), .nil, .dictionary 0, .bool true]

theorem inside_sample {w : Value} (hinside : Inside sampleHeap (.array 0) w) :
    w ∈ sampleValues := by
  induction hinside with
  | refl => exact List.mem_cons_self ..
  | tail _ hchild ih =>
      cases hchild with
      | @item r _ hitem =>
          obtain rfl : r = 0 := by simpa [sampleValues] using ih
          have hitems : _ ∈ sampleHeap.array 0 ++ [Value.bool true] := List.mem_append_left _ hitem
          exact List.mem_cons_of_mem _ hitems
      | @entry r _ _ hentry =>
          obtain rfl : r = 0 := by simpa [sampleValues] using ih
          obtain ⟨_, rfl⟩ := Prod.mk.inj (List.mem_singleton.mp hentry)
          simp [sampleValues]

theorem inside_five {w : Value} (hinside : Inside sampleHeap (.array 1) w) :
    w = .array 1 ∨ w = .string (lit "5") := by
  induction hinside with
  | refl => exact Or.inl rfl
  | tail _ hchild ih =>
      obtain rfl | rfl := ih
      · cases hchild with
        | item hitem => exact Or.inr (List.mem_singleton.mp hitem)
      · exact absurd hchild (child_of_scalar rfl)

theorem sample_roundTrip :
    RoundTrip digitLibrary (readerOf digitLibrary sampleHeap (.array 0)) sampleHeap (.array 0) := by
  have hseven : toDouble 7 = .integral 7 := by
    rw [toDouble, nearestDouble_of_lt (by decide)]
    rfl
  have htext : numberText digitLibrary (.integral 7) = lit "7" := by
    simp [numberText, fitsInt, decimalText, signText, digitsOf, digitText, lit]
  have hkinds : JsonKinds sampleHeap (.array 0) := by
    intro w hw
    have hmem := inside_sample hw
    constructor
    · rintro rfl
      simp [sampleValues] at hmem
    · rintro d rfl
      simp [sampleValues] at hmem
  have hnames : PlainNames sampleHeap (.array 0) := by
    intro r hr key w hentry
    obtain rfl : r = 0 := by simpa [sampleValues] using inside_sample hr
    obtain ⟨rfl, _⟩ := Prod.mk.inj (List.mem_singleton.mp hentry)
    change (lit "k").flatMap escapeByte = lit "k"
    decide
  have hnumbers : ReadsNumbers digitLibrary sampleHeap (.array 0) := by
    intro i hi n hn
    obtain rfl : i = 7 := by simpa [sampleValues] using inside_sample hi
    obtain rfl := Double.integral.inj (hseven.symm.trans hn)
    rw [htext, printed, if_pos (by decide), nearestDouble_of_lt (by decide)]
    rfl
  have hfaithful : Faithful digitLibrary sampleHeap (.array 0) := by
    constructor
    · intro s hs
      obtain rfl : s = lit "a" := by simpa [sampleValues] using inside_sample hs
      exact ⟨by decide, by decide, by decide, by decide⟩
    · intro i hi
      obtain rfl : i = 7 := by simpa [sampleValues] using inside_sample hi
      exact Or.inl (by decide)
  exact (roundTrip_iff hkinds hnames hnumbers readsText_readerOf).mpr fun _ => hfaithful

/-- The array of the string `5` comes back as the array of the number. -/
theorem five_not_roundTrip :
    ¬ RoundTrip digitLibrary (readerOf digitLibrary sampleHeap (.array 1)) sampleHeap
      (.array 1) := by
  intro htrip
  have hwithin : Within sampleHeap jsonMaxDepth (.array 1) := by
    intro w hchild
    obtain rfl : w = .string (lit "5") := by
      cases hchild with
      | item hitem => exact List.mem_singleton.mp hitem
    intro u hu
    exact absurd hu (child_of_scalar rfl)
  have hkinds : JsonKinds sampleHeap (.array 1) := by
    intro w hw
    obtain rfl | rfl := inside_five hw <;> exact ⟨nofun, nofun⟩
  have hnames : PlainNames sampleHeap (.array 1) := by
    intro r hr
    obtain h | h := inside_five hr <;> cases h
  have hnumbers : ReadsNumbers digitLibrary sampleHeap (.array 1) := by
    intro i hi
    obtain h | h := inside_five hi <;> cases h
  have hback := htrip.back (not_cyclic_of_within hwithin) hwithin
  have hfaithful := (toJson_back hkinds hnames hnumbers readsText_readerOf hwithin).mp hback
  have hinside : Inside sampleHeap (.array 1) (.string (lit "5")) :=
    .single (.item (List.mem_singleton.mpr rfl))
  have hfive := (hfaithful.1 _ hinside).2.2.2 (by decide)
  exact absurd hfive (by decide)

end Json

end EZLanguage
