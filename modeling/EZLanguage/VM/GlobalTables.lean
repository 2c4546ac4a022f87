import Mathlib.Algebra.GroupWithZero.Nat
import Mathlib.Algebra.Group.Int.Defs
import EZLanguage.VM.GlobalSlots

/-!
# Tables of names

A table that gives its slots in the order in which names come is the list of its names. Requests extend
the list by the new names until it is full, the table that is exported is the list again, and growing a
table of values adds what the list has more.
-/

namespace EZLanguage

namespace GlobalSlots

open Machine

/-- The table of a list of names. -/
def SlotTable.of (names : List CString) : SlotTable :=
  ⟨names.mapIdx fun i name => (name, UInt16.ofNat i), names.length⟩

/-- Names that can be in a table: none twice, none empty, and no more than there are slots. -/
structure Listed (names : List CString) : Prop where
  nodup : names.Nodup
  named : [] ∉ names
  room : names.length ≤ 65536

theorem toNat_slot {n : Nat} (hn : n < 65536) : (UInt16.ofNat n).toNat = n := by
  rw [UInt16.toNat_ofNat']
  omega

@[simp] theorem of_length (names : List CString) :
    (SlotTable.of names).nextGlobalSlot = names.length :=
  rfl

theorem of_append (names : List CString) (name : CString) :
    SlotTable.of (names ++ [name]) =
      ⟨(SlotTable.of names).globalSlots ++ [(name, UInt16.ofNat names.length)],
        names.length + 1⟩ := by
  simp [SlotTable.of, List.mapIdx_append]

theorem of_knownNames (names : List CString) :
    (SlotTable.of names).globalSlots.map Prod.fst = names := by
  apply List.ext_getElem?
  intro i
  simp [SlotTable.of, List.getElem?_mapIdx, Function.comp_def]

theorem mem_of {names : List CString} {name : CString} {slot : UInt16} :
    (name, slot) ∈ (SlotTable.of names).globalSlots ↔
      ∃ i, names[i]? = some name ∧ slot = UInt16.ofNat i := by
  rw [List.mem_iff_getElem?]
  constructor
  · intro h
    obtain ⟨i, hi⟩ := h
    rw [SlotTable.of, List.getElem?_mapIdx, Option.map_eq_some_iff] at hi
    obtain ⟨other, hother, heq⟩ := hi
    obtain ⟨rfl, rfl⟩ := Prod.mk.inj heq
    exact ⟨i, hother, rfl⟩
  · intro h
    obtain ⟨i, hi, rfl⟩ := h
    exact ⟨i, by rw [SlotTable.of, List.getElem?_mapIdx, hi]; rfl⟩

theorem lookup_of_none {names : List CString} {name : CString} (hname : name ∉ names) :
    lookup (SlotTable.of names).globalSlots name = none := by
  induction names using List.reverseRecOn with
  | nil => rfl
  | append_singleton names last ih =>
      rw [List.mem_append, not_or, List.mem_singleton] at hname
      rw [of_append, lookup_append, ih hname.1, if_neg (Ne.symm hname.2)]
      rfl

theorem lookup_of_some {names : List CString} {name : CString} (hname : name ∈ names) :
    ∃ i, names[i]? = some name ∧
      lookup (SlotTable.of names).globalSlots name = some (UInt16.ofNat i) := by
  induction names using List.reverseRecOn with
  | nil => cases hname
  | append_singleton names last ih =>
      rw [of_append, lookup_append]
      by_cases hmem : name ∈ names
      · obtain ⟨i, hi, hlookup⟩ := ih hmem
        have hlt : i < names.length := (List.getElem?_eq_some_iff.mp hi).1
        exact ⟨i, by rw [List.getElem?_append_left hlt, hi], by rw [hlookup, Option.some_or]⟩
      · have hlast : last = name := by
          obtain h | h := List.mem_append.mp hname
          · exact absurd h hmem
          · exact (List.mem_singleton.mp h).symm
        exact ⟨names.length, by simp [hlast], by
          rw [lookup_of_none hmem, if_pos hlast, Option.none_or]⟩

/-! ### Requests -/

theorem globalSlotFor_known {names : List CString} {name : CString} (hname : name ∈ names) :
    ∃ i, names[i]? = some name ∧
      (SlotTable.of names).globalSlotFor name = some (UInt16.ofNat i, SlotTable.of names) := by
  obtain ⟨i, hi, hlookup⟩ := lookup_of_some hname
  exact ⟨i, hi, by rw [SlotTable.globalSlotFor, hlookup]⟩

theorem globalSlotFor_new {names : List CString} {name : CString} (hname : name ∉ names) :
    (SlotTable.of names).globalSlotFor name =
      if names.length > 65535 then none
      else some (UInt16.ofNat names.length, SlotTable.of (names ++ [name])) := by
  rw [SlotTable.globalSlotFor, lookup_of_none hname, of_append]
  rfl

theorem newNames_nil (known : List CString) : newNames known [] = [] := rfl

theorem newNames_known {known rest : List CString} {name : CString} (hname : name ∈ known) :
    newNames known (name :: rest) = newNames known rest :=
  if_pos hname

theorem newNames_new {known : List CString} {name : CString} (hname : name ∉ known)
    (rest : List CString) :
    known ++ newNames known (name :: rest) =
      known ++ [name] ++ newNames (known ++ [name]) rest := by
  have hstep : newNames known (name :: rest) = name :: newNames (known ++ [name]) rest := if_neg hname
  rw [hstep, List.append_assoc, List.singleton_append]

theorem requestAll_cons {t t' : SlotTable} {name : CString} {slot : UInt16}
    (hslot : t.globalSlotFor name = some (slot, t')) (rest : List CString) :
    t.requestAll (name :: rest) =
      ((t'.requestAll rest).1.map fun operands => (name, slot) :: operands,
        (t'.requestAll rest).2) := by
  rw [SlotTable.requestAll, hslot]
  simp only
  cases t'.requestAll rest with
  | mk result t'' => cases result <;> rfl

theorem requestAll_full {t : SlotTable} {name : CString} (hslot : t.globalSlotFor name = none)
    (rest : List CString) : t.requestAll (name :: rest) = (none, t) := by
  rw [SlotTable.requestAll, hslot]

/-- What the requests of a compilation do to a list of names: they extend it by the new names, up to the
last slot, and give every name its place in it. -/
structure Extended (known names : List CString)
    (result : Option (List (CString × UInt16)) × SlotTable) : Prop where
  table : result.2 = SlotTable.of ((known ++ newNames known names).take 65536)
  succeeds : result.1.isSome = true ↔ (known ++ newNames known names).length ≤ 65536
  operands : ∀ operands, result.1 = some operands → ∀ name slot, (name, slot) ∈ operands →
    (known ++ newNames known names)[slot.toNat]? = some name

theorem Extended.cons {known names all : List CString}
    {result : Option (List (CString × UInt16)) × SlotTable} {known' : List CString}
    (hextended : Extended known' names result)
    (hsame : known ++ newNames known all = known' ++ newNames known' names)
    {name : CString} {slot : UInt16}
    (hslot : (known' ++ newNames known' names)[slot.toNat]? = some name) :
    Extended known all (result.1.map fun operands => (name, slot) :: operands, result.2) where
  table := by rw [hsame, hextended.table]
  succeeds := by rw [hsame, Option.isSome_map, hextended.succeeds]
  operands := by
    intro operands hoperands other i hmem
    obtain ⟨rest, hrest, rfl⟩ := Option.map_eq_some_iff.mp hoperands
    rw [hsame]
    obtain heq | hmem := List.mem_cons.mp hmem
    · obtain ⟨rfl, rfl⟩ := Prod.mk.inj heq
      exact hslot
    · exact hextended.operands rest hrest other i hmem

theorem requestAll_of {known : List CString} (names : List CString)
    (hroom : known.length ≤ 65536) :
    Extended known names ((SlotTable.of known).requestAll names) := by
  induction names generalizing known with
  | nil =>
      constructor
      · rw [newNames_nil, List.append_nil, List.take_of_length_le hroom]
        rfl
      · simp [SlotTable.requestAll, newNames_nil, hroom]
      · intro operands hoperands
        cases hoperands
        simp
  | cons name rest ih =>
      by_cases hname : name ∈ known
      · obtain ⟨i, hi, hslot⟩ := globalSlotFor_known hname
        have hlt : i < known.length := (List.getElem?_eq_some_iff.mp hi).1
        rw [requestAll_cons hslot]
        apply (ih hroom).cons (by rw [newNames_known hname])
        rw [toNat_slot (by omega), List.getElem?_append_left hlt, hi]
      · have hslot := globalSlotFor_new hname
        by_cases hfull : known.length > 65535
        · rw [if_pos hfull] at hslot
          rw [requestAll_full hslot]
          have hlength : known.length = 65536 := by omega
          have hmore := congrArg List.length (newNames_new hname rest)
          constructor
          · rw [List.take_append_of_le_length hlength.ge, List.take_of_length_le hroom]
          · rw [hmore]
            simp
            omega
          · intro _ hnone
            cases hnone
        · rw [if_neg hfull] at hslot
          rw [requestAll_cons hslot]
          have hroom' : (known ++ [name]).length ≤ 65536 := by
            rw [List.length_append, List.length_singleton]
            omega
          apply (ih hroom').cons (newNames_new hname rest)
          rw [toNat_slot (by omega), List.append_assoc, List.getElem?_append_right le_rfl]
          simp

theorem newNames_listed {known names : List CString} (hknown : known.Nodup)
    (hnamed : [] ∉ known) (hnames : [] ∉ names) :
    (known ++ newNames known names).Nodup ∧ [] ∉ known ++ newNames known names := by
  induction names generalizing known with
  | nil =>
      rw [newNames_nil, List.append_nil]
      exact ⟨hknown, hnamed⟩
  | cons name rest ih =>
      have hrest : [] ∉ rest := fun h => hnames (List.mem_cons_of_mem _ h)
      by_cases hname : name ∈ known
      · rw [newNames_known hname]
        exact ih hknown hnamed hrest
      · rw [newNames_new hname]
        apply ih _ _ hrest
        · exact List.nodup_append.mpr ⟨hknown, List.nodup_singleton _, by
            intro a ha b hb hab
            rw [List.mem_singleton.mp hb] at hab
            exact hname (hab ▸ ha)⟩
        · intro h
          obtain h | h := List.mem_append.mp h
          · exact hnamed h
          · exact hnames (List.mem_singleton.mp h ▸ List.mem_cons_self)

/-! ### From the compiler to the virtual machine and back -/

theorem slotNames_fold (names tail : List CString) (hroom : names.length ≤ 65536) :
    (SlotTable.of names).globalSlots.foldl (fun l entry => l.set entry.2.toNat entry.1)
        (List.replicate names.length [] ++ tail) = names ++ tail := by
  induction names using List.reverseRecOn generalizing tail with
  | nil => rfl
  | append_singleton names name ih =>
      rw [List.length_append, List.length_singleton] at hroom
      rw [of_append, List.foldl_append, List.length_append, List.length_singleton,
        List.replicate_succ', List.append_assoc, ih _ (by omega)]
      simp only [List.foldl_cons, List.foldl_nil]
      rw [toNat_slot (by omega), List.set_append_right _ _ le_rfl]
      simp

/-- The table that a compilation exports is its list of names. -/
theorem slotNames_of {names : List CString} (hroom : names.length ≤ 65536) :
    (SlotTable.of names).slotNames = names := by
  have hfold := slotNames_fold names [] hroom
  rw [List.append_nil, List.append_nil] at hfold
  exact hfold

theorem slotTable_fold {slots : List (CString × Value)} (hslots : Listed (slots.map Prod.fst)) :
    slots.zipIdx.foldl
        (fun (t : SlotTable) slot =>
          if slot.1.1 ≠ [] then t.setGlobalSlot slot.1.1 (UInt16.ofNat slot.2) else t) .empty =
      SlotTable.of (slots.map Prod.fst) := by
  induction slots using List.reverseRecOn with
  | nil => rfl
  | append_singleton slots slot ih =>
      obtain ⟨hnodup, hnamed, hroom⟩ := hslots
      rw [List.map_append, List.map_singleton] at hnodup hnamed hroom ⊢
      rw [List.length_append, List.length_singleton, List.length_map] at hroom
      rw [List.nodup_append] at hnodup
      rw [List.mem_append, not_or, List.mem_singleton] at hnamed
      have hlisted : Listed (slots.map Prod.fst) :=
        ⟨hnodup.1, hnamed.1, by rw [List.length_map]; omega⟩
      have hnew : slot.1 ∉ slots.map Prod.fst := by
        intro h
        exact hnodup.2.2 _ h slot.1 (List.mem_singleton_self _) rfl
      rw [List.zipIdx_append, List.foldl_append, ih hlisted]
      simp only [List.zipIdx_singleton, List.foldl_cons, List.foldl_nil, Nat.zero_add]
      rw [if_pos (Ne.symm hnamed.2), of_append, SlotTable.setGlobalSlot, assign,
        lookup_of_none hnew, of_length, List.length_map, toNat_slot (by omega), if_pos le_rfl]
      rfl

/-- `eval` compiles with the list of the names of the virtual machine. -/
theorem slotTable_of {env : Environment} (hslots : Listed (env.slots.map Prod.fst)) :
    env.slotTable = SlotTable.of (env.slots.map Prod.fst) :=
  slotTable_fold hslots

/-- The slots of new names, as they are seeded. -/
def seeded (env : Environment) (names : List CString) : List (CString × Value) :=
  names.map fun name => (name, env.seed name .nil)

theorem map_fst_seeded (env : Environment) (names : List CString) :
    (seeded env names).map Prod.fst = names := by
  simp [seeded, Function.comp_def]

theorem initGlobalSlots_slots {env : Environment} {names : List CString} (hfirst : env.slots = [])
    (hnamed : [] ∉ names) : (env.initGlobalSlots names).slots = seeded env names := by
  apply List.ext_getElem?
  intro i
  rw [Environment.initGlobalSlots, seeded, List.getElem?_mapIdx, List.getElem?_map]
  cases hname : names[i]? with
  | none => rfl
  | some name =>
      have hne : name ≠ [] := fun h => hnamed (h ▸ List.mem_of_getElem? hname)
      simp [hfirst, hne]

/-- Growing leaves the slots that have names, and adds those of the further names. -/
theorem growGlobalSlots_slots {env : Environment} {names : List CString}
    (hslots : [] ∉ env.slots.map Prod.fst) (hnamed : [] ∉ names) :
    (env.growGlobalSlots names).slots =
      env.slots ++ seeded env (names.drop env.slots.length) := by
  apply List.ext_getElem?
  intro i
  rw [Environment.growGlobalSlots, List.getElem?_mapIdx]
  by_cases hi : i < env.slots.length
  · rw [List.getElem?_append_left hi, List.getElem?_append_left hi]
    have hne : (env.slots[i]).1 ≠ [] := by
      intro h
      exact hslots (h ▸ List.mem_map_of_mem (List.getElem_mem hi))
    rw [List.getElem?_eq_getElem hi]
    cases names[i]? with
    | none => rfl
    | some name => simp [hne]
  · rw [not_lt] at hi
    rw [List.getElem?_append_right hi, List.getElem?_append_right hi, seeded, List.getElem?_map,
      List.getElem?_drop, Nat.add_sub_cancel' hi]
    cases hname : names[i]? with
    | none =>
        have := List.getElem?_eq_none_iff.mp hname
        rw [List.getElem?_eq_none (by rw [List.length_replicate]; omega)]
        rfl
    | some name =>
        have hlt : i < names.length := (List.getElem?_eq_some_iff.mp hname).1
        have hne : name ≠ [] := fun h => hnamed (h ▸ List.mem_of_getElem? hname)
        rw [List.getElem?_replicate, if_pos (by omega)]
        simp [hne]

end GlobalSlots

end EZLanguage
