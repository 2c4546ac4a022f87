import EZLanguage.VM.Value
import Mathlib.Data.List.Nodup

/-!
# Entries of name tables

What a name table holds, in terms of its entries. A table that stands for a map has distinct keys.
-/

namespace EZLanguage

theorem mem_of_lookup {α : Type} {table : List (CString × α)} {name : CString} {value : α}
    (h : lookup table name = some value) : (name, value) ∈ table := by
  obtain ⟨entry, hfind, rfl⟩ := Option.map_eq_some_iff.mp h
  have hfound := List.find?_some hfind
  have hname : entry.1 = name := beq_iff_eq.mp hfound
  rw [← hname]
  exact List.mem_of_find?_eq_some hfind

theorem lookup_none_iff {α : Type} {table : List (CString × α)} {name : CString} :
    lookup table name = none ↔ name ∉ table.map Prod.fst := by
  induction table with
  | nil => simp [lookup]
  | cons entry table ih =>
      rw [lookup_cons, List.map_cons, List.mem_cons]
      by_cases hname : entry.1 = name
      · simp [hname]
      · have hne : name ≠ entry.1 := fun h => hname h.symm
        simp only [if_neg hname, ih, hne, false_or]

theorem lookup_eq_some_iff {α : Type} {table : List (CString × α)} (hnodup : (table.map Prod.fst).Nodup)
    (name : CString) (value : α) : lookup table name = some value ↔ (name, value) ∈ table := by
  constructor
  · exact mem_of_lookup
  · intro hmem
    induction table with
    | nil => cases hmem
    | cons entry table ih =>
        rw [List.map_cons, List.nodup_cons] at hnodup
        rw [lookup_cons]
        cases hmem with
        | head => rw [if_pos rfl]
        | tail _ hlater =>
            have hne : entry.1 ≠ name := by
              intro hname
              exact hnodup.1 (hname ▸ List.mem_map_of_mem hlater)
            rw [if_neg hne, ih hnodup.2 hlater]

theorem assign_new {α : Type} {table : List (CString × α)} {name : CString} {value : α}
    (hnew : lookup table name = none) : assign table name value = table ++ [(name, value)] := by
  rw [assign, hnew, if_neg (by simp)]

theorem map_fst_assign {α : Type} (table : List (CString × α)) (name : CString) (value : α) :
    (assign table name value).map Prod.fst =
      if (lookup table name).isSome then table.map Prod.fst else table.map Prod.fst ++ [name] := by
  rw [assign]
  by_cases hsome : (lookup table name).isSome = true
  · rw [if_pos hsome, if_pos hsome, List.map_map]
    apply List.map_congr_left
    intro entry hentry
    by_cases hname : entry.1 = name
    · simp [hname]
    · simp [hname]
  · rw [if_neg hsome, if_neg hsome, List.map_append]
    rfl

/-- An assignment leaves the keys distinct. -/
theorem nodup_assign {α : Type} {table : List (CString × α)} (hnodup : (table.map Prod.fst).Nodup)
    (name : CString) (value : α) : ((assign table name value).map Prod.fst).Nodup := by
  rw [map_fst_assign]
  by_cases hsome : (lookup table name).isSome = true
  · rwa [if_pos hsome]
  · have hnew : name ∉ table.map Prod.fst := lookup_none_iff.mp (by simpa using hsome)
    rw [if_neg hsome, List.nodup_append]
    refine ⟨hnodup, List.nodup_singleton name, ?_⟩
    intro k hk k' hk' heq
    rw [List.mem_singleton.mp hk'] at heq
    exact hnew (heq ▸ hk)

/-- Entries with distinct keys assigned one after the other. -/
theorem lookup_foldl_assign {α β : Type} (f : α → β) {entries : List (CString × α)}
    (hnodup : (entries.map Prod.fst).Nodup) (name : CString) (table : List (CString × β)) :
    lookup (entries.foldl (fun m entry => assign m entry.1 (f entry.2)) table) name =
      ((lookup entries name).map f).or (lookup table name) := by
  induction entries generalizing table with
  | nil => rfl
  | cons entry entries ih =>
      rw [List.map_cons, List.nodup_cons] at hnodup
      rw [List.foldl_cons, ih hnodup.2, lookup_assign, lookup_cons]
      by_cases hname : entry.1 = name
      · have hnone : lookup entries name = none := lookup_none_iff.mpr (hname ▸ hnodup.1)
        rw [if_pos hname, if_pos hname, hnone]
        rfl
      · rw [if_neg hname, if_neg hname]

end EZLanguage
