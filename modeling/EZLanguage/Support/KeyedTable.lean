import Mathlib.Data.List.Basic

/-!
# Tables filled under composed keys

A table that starts empty and grows by single entries holds under a key only what some earlier step put
there. The keys considered here are texts: a name and, each behind a separator, any number of fields.
A separator that occurs in no name keeps the names apart, and one that occurs in no field either keeps
the fields apart.
-/

namespace Support

/-! ### What a table holds -/

section Table

variable {Key Val : Type*}

/-- The tables of a run in which step `n` puts `puts n` into the table. Entries may also get lost. -/
structure TableRun (Key Val : Type*) where
  table : Nat → Key → Option Val
  puts : Nat → Option (Key × Val)
  start : ∀ k, table 0 k = none
  next : ∀ n k v, table (n + 1) k = some v → puts n = some (k, v) ∨ table n k = some v

/-- What the table holds was put there by an earlier step. -/
theorem TableRun.exists_puts (run : TableRun Key Val) {n : Nat} {k : Key} {v : Val}
    (h : run.table n k = some v) : ∃ m, m < n ∧ run.puts m = some (k, v) := by
  induction n with
  | zero =>
      rw [run.start k] at h
      cases h
  | succ n ih =>
      rcases run.next n k v h with hput | hkept
      · exact ⟨n, Nat.lt_succ_self n, hput⟩
      · obtain ⟨m, hm, hput⟩ := ih hkept
        exact ⟨m, Nat.lt_succ_of_lt hm, hput⟩

end Table

/-! ### Separated fields -/

section Separated

variable {α : Type*} (sep : α)

/-- The fields, each behind a separator. -/
def separated (fields : List (List α)) : List α := fields.flatMap fun field => sep :: field

@[simp] theorem separated_nil : separated sep [] = [] := rfl

@[simp] theorem separated_cons (field : List α) (fields : List (List α)) :
    separated sep (field :: fields) = sep :: (field ++ separated sep fields) := rfl

variable {sep}

/-- A text starts behind a prefix without the separator if it is empty or starts with one. -/
theorem append_inj_of_sep {a b x y : List α} (ha : sep ∉ a) (hb : sep ∉ b)
    (hx : x = [] ∨ x.head? = some sep) (hy : y = [] ∨ y.head? = some sep) (h : a ++ x = b ++ y) :
    a = b ∧ x = y := by
  induction a generalizing b with
  | nil =>
      cases b with
      | nil => exact ⟨rfl, h⟩
      | cons c b =>
          rw [List.nil_append] at h
          rcases hx with rfl | hx
          · cases h
          · rw [h] at hx
            obtain rfl : c = sep := Option.some.inj hx
            exact absurd List.mem_cons_self hb
  | cons c a ih =>
      cases b with
      | nil =>
          rw [List.nil_append] at h
          rcases hy with rfl | hy
          · cases h
          · rw [← h] at hy
            obtain rfl : c = sep := Option.some.inj hy
            exact absurd List.mem_cons_self ha
      | cons d b =>
          obtain ⟨rfl, htail⟩ := List.cons.inj h
          obtain ⟨rfl, hxy⟩ := ih (fun hm => ha (List.mem_cons_of_mem _ hm))
            (fun hm => hb (List.mem_cons_of_mem _ hm)) htail
          exact ⟨rfl, hxy⟩

theorem separated_start (fields : List (List α)) :
    separated sep fields = [] ∨ (separated sep fields).head? = some sep := by
  cases fields with
  | nil => exact Or.inl rfl
  | cons field fields => exact Or.inr rfl

/-- Names without the separator are kept apart. -/
theorem named_inj {name name' : List α} {fields fields' : List (List α)} (hname : sep ∉ name)
    (hname' : sep ∉ name') (h : name ++ separated sep fields = name' ++ separated sep fields') :
    name = name' ∧ separated sep fields = separated sep fields' :=
  append_inj_of_sep hname hname' (separated_start fields) (separated_start fields') h

/-- Fields without the separator are kept apart. -/
theorem separated_inj {fields fields' : List (List α)} (hfields : ∀ field ∈ fields, sep ∉ field)
    (hfields' : ∀ field ∈ fields', sep ∉ field)
    (h : separated sep fields = separated sep fields') : fields = fields' := by
  induction fields generalizing fields' with
  | nil =>
      cases fields' with
      | nil => rfl
      | cons field' fields' => cases h
  | cons field fields ih =>
      cases fields' with
      | nil => cases h
      | cons field' fields' =>
          rw [separated_cons, separated_cons] at h
          obtain ⟨rfl, hrest⟩ := named_inj (hfields field List.mem_cons_self)
            (hfields' field' List.mem_cons_self) (List.cons.inj h).2
          rw [ih (fun f hf => hfields f (List.mem_cons_of_mem _ hf))
            (fun f hf => hfields' f (List.mem_cons_of_mem _ hf)) hrest]

end Separated

end Support
