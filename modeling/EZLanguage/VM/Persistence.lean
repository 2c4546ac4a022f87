import EZLanguage.VM.NameTables
import EZLanguage.VM.Operators
import Mathlib.Data.List.Induction
import Mathlib.Data.List.TakeWhile

/-!
# Persistent models

A write to a property of a `@persist` model stores the property's name and the value's `toString()` as a
row of the model's database. `load` makes an instance from the rows and types the texts again: the words
for nil and the booleans, whole texts `strtod` reads as a number, strings otherwise. A text is bound and
read as a C string, so it ends at its first NUL, and the database returns what it stored.
-/

namespace EZLanguage

namespace Persistence

/-- The name of a property. An identifier has no NUL. -/
structure PropName where
  name : CString
  noNul : (0 : UInt8) ∉ name

/-- What `sqlite3_bind_text` with length -1 binds: the bytes in front of the first NUL. -/
def cString (s : CString) : CString := s.takeWhile (· != 0)

section model

variable (fpu : FloatUnit)

/-- `strtod` on a text: the double it reads and how many bytes it reads for it. -/
abbrev Strtod := CString → UInt64 × Nat

variable (strtod : Strtod)

/-- `INSERT OR REPLACE` of a write into the table. -/
def storeProperty (table : List (CString × CString)) (prop : PropName) (value : Scalar) :
    List (CString × CString) :=
  assign table (cString prop.name) (cString (value.text fpu))

/-- The table after the writes on an instance. -/
def stored (writes : List (PropName × Scalar)) : List (CString × CString) :=
  writes.foldl (fun table write => storeProperty fpu table write.1 write.2) []

/-- The value `load` makes of a text. -/
def parsedVal (valStr : CString) : Scalar :=
  if valStr = lit "true" then .bool true
  else if valStr = lit "false" then .bool false
  else if valStr = lit "nil" then .nil
  else if valStr ≠ [] ∧ (strtod valStr).2 = valStr.length then .float (strtod valStr).1
  else .string valStr

/-- The properties of the instance `load` makes of the rows. -/
def load (table : List (CString × CString)) : List (CString × Scalar) :=
  table.foldl (fun properties row => assign properties row.1 (parsedVal strtod row.2)) []

/-! ### What comes back -/

/-- The last value written to a property. -/
def lastWritten (writes : List (PropName × Scalar)) (prop : PropName) : Option Scalar :=
  (writes.reverse.find? fun write => write.1.name == prop.name).map Prod.snd

/-- Values of one type that are equal. -/
def Same : Scalar → Scalar → Prop
  | .nil, .nil => True
  | .bool a, .bool b => a = b
  | .int a, .int b => a = b
  | .float a, .float b => doubleEq a b = true
  | .string a, .string b => a = b
  | _, _ => False

/-- After the writes a load gives back the last value of each property. -/
def Restored (writes : List (PropName × Scalar)) : Prop :=
  ∀ prop v, lastWritten writes prop = some v →
    ∃ v', lookup (load strtod (stored fpu writes)) prop.name = some v' ∧ Same v' v

/-- A text that is no word for nil or a boolean. -/
def NoWord (s : CString) : Prop := s ≠ lit "true" ∧ s ≠ lit "false" ∧ s ≠ lit "nil"

/-- The values whose texts are typed as they were: nil and booleans, never an integer, a float whose text
`strtod` reads to an equal one, and a string without NUL that is no word and no number. -/
def Survives : Scalar → Prop
  | .nil => True
  | .bool _ => True
  | .int _ => False
  | .float d =>
      let s := cString (Scalar.doubleText fpu d)
      NoWord s ∧ s ≠ [] ∧ (strtod s).2 = s.length ∧ doubleEq (strtod s).1 d = true
  | .string s =>
      (0 : UInt8) ∉ s ∧ NoWord s ∧ ¬ (s ≠ [] ∧ (strtod s).2 = s.length)

theorem cString_of_noNul {s : CString} (h : (0 : UInt8) ∉ s) : cString s = s := by
  rw [cString, List.takeWhile_eq_self_iff]
  intro c hc
  rw [bne_iff_ne]
  rintro rfl
  exact h hc

theorem noNul_cString (s : CString) : (0 : UInt8) ∉ cString s := by
  intro hmem
  have h := List.mem_takeWhile_imp hmem
  simp at h

theorem nodup_stored (writes : List (PropName × Scalar)) :
    ((stored fpu writes).map Prod.fst).Nodup := by
  rw [stored]
  generalize htable : ([] : List (CString × CString)) = table
  have hnodup : (table.map Prod.fst).Nodup := by
    rw [← htable]
    exact List.nodup_nil
  clear htable
  induction writes generalizing table with
  | nil => exact hnodup
  | cons write writes ih =>
      rw [List.foldl_cons]
      exact ih _ (nodup_assign hnodup _ _)

/-- The row of a property is the text of its last value. -/
theorem lookup_stored (writes : List (PropName × Scalar)) (prop : PropName) :
    lookup (stored fpu writes) prop.name =
      (lastWritten writes prop).map fun v => cString (v.text fpu) := by
  induction writes using List.reverseRecOn with
  | nil => rfl
  | append_singleton writes write ih =>
      have hstep : stored fpu (writes ++ [write]) =
          storeProperty fpu (stored fpu writes) write.1 write.2 := by
        rw [stored, List.foldl_append]
        rfl
      rw [hstep, storeProperty, lookup_assign, cString_of_noNul write.1.noNul, ih, lastWritten,
        lastWritten, List.reverse_append, List.reverse_singleton, List.singleton_append,
        List.find?_cons]
      by_cases hname : write.1.name = prop.name
      · simp [hname]
      · rw [if_neg hname, beq_eq_false_iff_ne.mpr hname]

/-- A load gives each property the value typed from the text of its last one. -/
theorem lookup_load (writes : List (PropName × Scalar)) (prop : PropName) :
    lookup (load strtod (stored fpu writes)) prop.name =
      (lastWritten writes prop).map fun v => parsedVal strtod (cString (v.text fpu)) := by
  rw [load, lookup_foldl_assign (parsedVal strtod) (nodup_stored fpu writes), lookup_stored,
    Option.map_map]
  exact Option.or_none

/-- No text is typed as an integer. -/
theorem parsedVal_ne_int (s : CString) (i : Int64) : parsedVal strtod s ≠ .int i := by
  unfold parsedVal
  split_ifs <;> exact nofun

theorem parsedVal_of_noWord {s : CString} (h : NoWord s) :
    parsedVal strtod s =
      if s ≠ [] ∧ (strtod s).2 = s.length then .float (strtod s).1 else .string s := by
  rw [parsedVal, if_neg h.1, if_neg h.2.1, if_neg h.2.2]

theorem word_cases {s : CString} (h : ¬ NoWord s) :
    parsedVal strtod s = .nil ∨ ∃ b, parsedVal strtod s = .bool b := by
  unfold NoWord at h
  unfold parsedVal
  by_cases htrue : s = lit "true"
  · exact Or.inr ⟨true, if_pos htrue⟩
  by_cases hfalse : s = lit "false"
  · exact Or.inr ⟨false, by rw [if_neg htrue, if_pos hfalse]⟩
  by_cases hnil : s = lit "nil"
  · exact Or.inl (by rw [if_neg htrue, if_neg hfalse, if_pos hnil])
  · exact absurd ⟨htrue, hfalse, hnil⟩ h

/-- A value is typed as it was exactly when it survives. -/
theorem same_parsedVal_iff (v : Scalar) :
    Same (parsedVal strtod (cString (v.text fpu))) v ↔ Survives fpu strtod v := by
  cases v with
  | nil =>
      have hword : parsedVal strtod (cString (Scalar.text fpu .nil)) = .nil := by
        rw [Scalar.text, cString_of_noNul (by decide)]
        rw [parsedVal, if_neg (by decide), if_neg (by decide), if_pos rfl]
      rw [hword]
      exact Iff.rfl
  | bool b =>
      have hword : parsedVal strtod (cString (Scalar.text fpu (.bool b))) = .bool b := by
        cases b with
        | false =>
            rw [Scalar.text, if_neg (by decide), cString_of_noNul (by decide)]
            rw [parsedVal, if_neg (by decide), if_pos rfl]
        | true =>
            rw [Scalar.text, if_pos rfl, cString_of_noNul (by decide)]
            rw [parsedVal, if_pos rfl]
      rw [hword]
      exact ⟨fun _ => trivial, fun _ => rfl⟩
  | int i =>
      constructor
      · intro h
        have hne := parsedVal_ne_int strtod (cString (Scalar.text fpu (.int i)))
        generalize parsedVal strtod (cString (Scalar.text fpu (.int i))) = v at h hne
        cases v with
        | int j => exact hne j rfl
        | _ => exact h
      · exact False.elim
  | float d =>
      rw [Survives, Scalar.text]
      generalize cString (Scalar.doubleText fpu d) = s
      by_cases hword : NoWord s
      · rw [parsedVal_of_noWord strtod hword]
        by_cases hnumber : s ≠ [] ∧ (strtod s).2 = s.length
        · rw [if_pos hnumber]
          exact ⟨fun h => ⟨hword, hnumber.1, hnumber.2, h⟩, fun h => h.2.2.2⟩
        · rw [if_neg hnumber]
          exact ⟨False.elim, fun h => hnumber ⟨h.2.1, h.2.2.1⟩⟩
      · obtain hnil | ⟨b, hb⟩ := word_cases strtod hword
        · rw [hnil]
          exact ⟨False.elim, fun h => hword h.1⟩
        · rw [hb]
          exact ⟨False.elim, fun h => hword h.1⟩
  | string s =>
      rw [Survives, Scalar.text]
      by_cases hnul : (0 : UInt8) ∈ s
      · constructor
        · intro h
          exfalso
          have hcut := noNul_cString s
          have hvalue : parsedVal strtod (cString s) = .string (cString s) ∨
              ∀ t, parsedVal strtod (cString s) ≠ .string t := by
            unfold parsedVal
            split_ifs
            · exact Or.inr fun t ht => by cases ht
            · exact Or.inr fun t ht => by cases ht
            · exact Or.inr fun t ht => by cases ht
            · exact Or.inr fun t ht => by cases ht
            · exact Or.inl rfl
          obtain hstring | hother := hvalue
          · rw [hstring] at h
            have heq : cString s = s := h
            rw [heq] at hcut
            exact hcut hnul
          · generalize parsedVal strtod (cString s) = v at h hother
            cases v with
            | string t => exact hother t rfl
            | _ => exact h
        · intro h
          exact absurd hnul h.1
      · rw [cString_of_noNul hnul]
        by_cases hword : NoWord s
        · rw [parsedVal_of_noWord strtod hword]
          by_cases hnumber : s ≠ [] ∧ (strtod s).2 = s.length
          · rw [if_pos hnumber]
            exact ⟨False.elim, fun h => h.2.2 hnumber⟩
          · rw [if_neg hnumber]
            exact ⟨fun _ => ⟨hnul, hword, hnumber⟩, fun _ => rfl⟩
        · obtain hnil | ⟨b, hb⟩ := word_cases strtod hword
          · rw [hnil]
            exact ⟨False.elim, fun h => hword h.2.1⟩
          · rw [hb]
            exact ⟨False.elim, fun h => hword h.2.1⟩

/-- A load after any writes gives back the last values exactly when each of them survives. -/
theorem restored_iff_survives (writes : List (PropName × Scalar)) :
    Restored fpu strtod writes ↔
      ∀ prop v, lastWritten writes prop = some v → Survives fpu strtod v := by
  constructor
  · intro h prop v hlast
    obtain ⟨v', hv', hsame⟩ := h prop v hlast
    rw [lookup_load, hlast, Option.map_some] at hv'
    obtain rfl := Option.some.inj hv'
    exact (same_parsedVal_iff fpu strtod v).mp hsame
  · intro h prop v hlast
    refine ⟨_, ?_, (same_parsedVal_iff fpu strtod v).mpr (h prop v hlast)⟩
    rw [lookup_load, hlast, Option.map_some]

end model

/-- The property `n`, written once. -/
def oneWrite (v : Scalar) : List (PropName × Scalar) := [(⟨lit "n", by decide⟩, v)]

/-- An integer comes back as a float or as a string. -/
theorem not_restored_integer :
    ¬ ∀ (fpu : FloatUnit) (strtod : Strtod) (writes : List (PropName × Scalar)),
      Restored fpu strtod writes := by
  intro h
  obtain ⟨v, hv, hsame⟩ := h .bare (fun s => (0, s.length)) (oneWrite (.int 5)) ⟨lit "n", by decide⟩
    (.int 5) (by decide)
  rw [lookup_load] at hv
  have hvalue : Same (parsedVal (fun s => (0, s.length)) (cString (integerText 5))) (.int 5) := by
    have hlast : lastWritten (oneWrite (.int 5)) ⟨lit "n", by decide⟩ = some (.int 5) := by decide
    rw [hlast, Option.map_some] at hv
    exact Option.some.inj hv ▸ hsame
  exact (same_parsedVal_iff .bare (fun s => (0, s.length)) (.int 5)).mp hvalue

end Persistence

end EZLanguage
