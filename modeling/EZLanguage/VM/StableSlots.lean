import EZLanguage.VM.GlobalTables

/-!
# Slots are stable where the prompt and the machine agree

The names of the prompt and those of the virtual machine are both initial parts of one list, and while a
program runs the virtual machine has all of it. A step extends the list. The only step that can break this
is a line of the prompt that uses a new name after `eval` has given its slot to another one.
-/

namespace EZLanguage

namespace GlobalSlots

open Runs

namespace Machine

/-- The names of the slots of the virtual machine. -/
def slotNames (m : Machine) : List CString := m.env.slots.map Prod.fst

/-- The list of all names, of which the prompt and the virtual machine have initial parts. -/
structure Inv (m : Machine) (known all : List CString) : Prop where
  listed : Listed all
  compiler : m.compiler = SlotTable.of known
  prompt : known <+: all
  slots : m.slotNames <+: all
  covers : all = known ∨ all = m.slotNames
  running : m.running = true → m.slotNames = all
  file : m.interactive = false → known = []
  operands : ∀ name slot, (name, slot) ∈ m.operands → m.slotNames[slot.toNat]? = some name

theorem Listed.initial {names all : List CString} (hall : Listed all) (hnames : names <+: all) :
    Listed names :=
  ⟨hall.nodup.sublist hnames.sublist, fun h => hall.named (hnames.subset h),
    hnames.length_le.trans hall.room⟩

theorem getElem?_of_initial {names all : List CString} (hnames : names <+: all) {i : Nat}
    {name : CString} (hname : names[i]? = some name) : all[i]? = some name := by
  obtain ⟨rest, rfl⟩ := hnames
  rw [List.getElem?_append_left (List.getElem?_eq_some_iff.mp hname).1, hname]

theorem prefix_of_agree {xs ys : List CString} (hlength : xs.length ≤ ys.length)
    (hagree : ∀ (i : Nat) x y, xs[i]? = some x → ys[i]? = some y → x = y) : xs <+: ys := by
  rw [List.prefix_iff_getElem?]
  intro i hi
  rw [List.getElem?_eq_getElem (by omega)]
  exact congrArg some (hagree i _ _ (List.getElem?_eq_getElem hi)
    (List.getElem?_eq_getElem (by omega))).symm

variable {m m' : Machine} {known all : List CString}

theorem getElem?_slotNames {m : Machine} {i : Nat} {name : CString} :
    m.slotNames[i]? = some name ↔ ∃ value, m.env.slots[i]? = some (name, value) := by
  rw [slotNames, List.getElem?_map, Option.map_eq_some_iff]
  constructor
  · intro h
    obtain ⟨⟨name', value⟩, hentry, rfl⟩ := h
    exact ⟨value, hentry⟩
  · intro h
    obtain ⟨value, hentry⟩ := h
    exact ⟨_, hentry, rfl⟩

/-- The slots of all names are their places in the list. -/
theorem Inv.hasSlot (hinv : m.Inv known all) {name : CString} {i : Nat} :
    m.HasSlot name i ↔ all[i]? = some name := by
  have hroom := hinv.listed.room
  have hknown := hinv.prompt.length_le
  constructor
  · intro h
    obtain ⟨slot, hmem, rfl⟩ | hslot | ⟨slot, hmem, rfl⟩ := h
    · rw [hinv.compiler] at hmem
      obtain ⟨j, hj, rfl⟩ := mem_of.mp hmem
      have hlt : j < known.length := (List.getElem?_eq_some_iff.mp hj).1
      rw [toNat_slot (by omega)]
      exact getElem?_of_initial hinv.prompt hj
    · exact getElem?_of_initial hinv.slots (getElem?_slotNames.mpr hslot)
    · exact getElem?_of_initial hinv.slots (hinv.operands name slot hmem)
  · intro h
    have hlt : i < all.length := (List.getElem?_eq_some_iff.mp h).1
    obtain hcovers | hcovers := hinv.covers
    · left
      refine ⟨UInt16.ofNat i, ?_, toNat_slot (by omega)⟩
      rw [hinv.compiler, ← hcovers]
      exact mem_of.mpr ⟨i, h, rfl⟩
    · right
      left
      rw [hcovers] at h
      exact getElem?_slotNames.mp h

theorem Inv.stable (hinv : m.Inv known all) : m.Stable where
  one name i j hi hj := by
    rw [hinv.hasSlot] at hi hj
    have hlt : i < all.length := (List.getElem?_eq_some_iff.mp hi).1
    exact (List.getElem?_inj hlt hinv.listed.nodup).mp (hi.trans hj.symm)
  apart name other i hname hother := by
    rw [hinv.hasSlot] at hname hother
    exact Option.some.inj (hname.symm.trans hother)
  room name slot hmem := by
    have hslot := (List.getElem?_eq_some_iff.mp (hinv.operands name slot hmem)).1
    rwa [slotNames, List.length_map] at hslot

/-! ### The steps -/

/-- The list of the names before and after a compilation. -/
def after (known names : List CString) : List CString := known ++ newNames known names

theorem after_listed {names : List CString} (hknown : Listed known) (hnames : [] ∉ names) :
    Listed ((after known names).take 65536) := by
  obtain ⟨hnodup, hnamed⟩ := newNames_listed hknown.nodup hknown.named hnames
  exact ⟨hnodup.sublist (List.take_sublist _ _), fun h => hnamed (List.mem_of_mem_take h),
    List.length_take_le _ _⟩

theorem prefix_after (hknown : Listed known) (names : List CString) :
    known <+: (after known names).take 65536 := by
  rw [after, List.take_append]
  rw [List.take_of_length_le hknown.room]
  exact List.prefix_append _ _

/-- A line fails and leaves its names with the prompt, or it succeeds and the machine grows. -/
theorem line_cases (hcompiler : m.compiler = SlotTable.of known) (hknown : Listed known)
    (names : List CString) (fails : Bool) :
    m.line names fails =
        { m with compiler := SlotTable.of ((after known names).take 65536) } ∨
      (after known names).length ≤ 65536 ∧ ∃ operands,
        (∀ name slot, (name, slot) ∈ operands →
          (after known names)[slot.toNat]? = some name) ∧
        m.line names fails =
          { m with
            env := m.env.growGlobalSlots (after known names),
            compiler := SlotTable.of (after known names),
            operands := m.operands ++ operands, running := true } := by
  have hextended := requestAll_of names hknown.room
  unfold line
  rw [hcompiler]
  generalize (SlotTable.of known).requestAll names = result at hextended
  obtain ⟨operands, t⟩ := result
  have htable : t = SlotTable.of ((after known names).take 65536) := hextended.table
  cases operands with
  | none =>
      left
      rw [htable]
  | some operands =>
      cases fails with
      | true =>
          left
          rw [htable]
      | false =>
          right
          have hroom : (after known names).length ≤ 65536 := hextended.succeeds.mp rfl
          refine ⟨hroom, operands, hextended.operands operands rfl, ?_⟩
          rw [List.take_of_length_le hroom] at htable
          rw [htable]
          simp only [slotNames_of hroom]

/-- An `eval` fails and changes nothing, or it succeeds and the machine grows. -/
theorem eval_cases (hslots : Listed m.slotNames) (names : List CString) (fails : Bool) :
    m.eval names fails = m ∨
      (after m.slotNames names).length ≤ 65536 ∧ ∃ operands,
        (∀ name slot, (name, slot) ∈ operands →
          (after m.slotNames names)[slot.toNat]? = some name) ∧
        m.eval names fails =
          { m with
            env := m.env.growGlobalSlots (after m.slotNames names),
            operands := m.operands ++ operands } := by
  have hextended := requestAll_of names hslots.room
  unfold eval
  rw [slotTable_of hslots]
  change Extended _ _ ((SlotTable.of (m.env.slots.map Prod.fst)).requestAll names) at hextended
  generalize (SlotTable.of (m.env.slots.map Prod.fst)).requestAll names = result at hextended
  obtain ⟨operands, t⟩ := result
  have htable : t = SlotTable.of ((after m.slotNames names).take 65536) := hextended.table
  cases operands with
  | none => exact .inl rfl
  | some operands =>
      cases fails with
      | true => exact .inl rfl
      | false =>
          right
          have hroom : (after m.slotNames names).length ≤ 65536 := hextended.succeeds.mp rfl
          refine ⟨hroom, operands, hextended.operands operands rfl, ?_⟩
          rw [List.take_of_length_le hroom] at htable
          rw [htable]
          simp only [slotNames_of hroom]

/-- A file fails to compile and nothing runs, or its names are the first slots. -/
theorem main_cases (names : List CString) (fails : Bool) :
    m.main names fails = m ∨
      (after [] names).length ≤ 65536 ∧ ∃ operands,
        (∀ name slot, (name, slot) ∈ operands → (after [] names)[slot.toNat]? = some name) ∧
        m.main names fails =
          { m with
            env := m.env.initGlobalSlots (after [] names),
            operands := m.operands ++ operands, running := true } := by
  have hempty : ([] : List CString).length ≤ 65536 := by simp
  have hextended := requestAll_of names hempty
  unfold main
  rw [show SlotTable.empty = SlotTable.of [] from rfl]
  generalize (SlotTable.of []).requestAll names = result at hextended
  obtain ⟨operands, t⟩ := result
  have htable : t = SlotTable.of ((after [] names).take 65536) := hextended.table
  cases operands with
  | none => exact .inl rfl
  | some operands =>
      cases fails with
      | true => exact .inl rfl
      | false =>
          right
          have hroom : (after [] names).length ≤ 65536 := hextended.succeeds.mp rfl
          refine ⟨hroom, operands, hextended.operands operands rfl, ?_⟩
          rw [List.take_of_length_le hroom] at htable
          rw [htable]
          simp only [slotNames_of hroom]

/-- The names of the machine after it has grown to a list of names. -/
theorem slotNames_grow {names : List CString} (hslots : [] ∉ m.slotNames) (hnames : [] ∉ names) :
    (m.env.growGlobalSlots names).slots.map Prod.fst =
      m.slotNames ++ names.drop m.slotNames.length := by
  rw [growGlobalSlots_slots hslots hnames, List.map_append, map_fst_seeded, slotNames,
    List.length_map]

/-- What a step keeps of the slots of the machine. -/
theorem keeps_of_initial {e : Event} {all' known' : List CString} (hinv : m.Inv known all)
    (hinv' : m'.Inv known' all') (hall : all <+: all') (hslots : m.env.slots <+: m'.env.slots) :
    Keeps e m m' := by
  constructor
  · intro name i hslot
    exact hinv'.hasSlot.mpr (getElem?_of_initial hall (hinv.hasSlot.mp hslot))
  · intro i entry hentry
    left
    obtain ⟨rest, hrest⟩ := hslots
    rw [← hrest, List.getElem?_append_left (List.getElem?_eq_some_iff.mp hentry).1, hentry]

theorem grow_extends {names : List CString} (hslots : [] ∉ m.slotNames) (hnames : [] ∉ names) :
    m.env.slots <+: (m.env.growGlobalSlots names).slots := by
  rw [growGlobalSlots_slots hslots hnames]
  exact List.prefix_append _ _

theorem append_drop_of_initial {names all : List CString} (hnames : names <+: all) :
    names ++ all.drop names.length = all := by
  obtain ⟨rest, rfl⟩ := hnames
  rw [List.drop_left]

/-- A list that the next names of the prompt and the names of the machine both begin. -/
theorem exists_common (hinv : m.Inv known all) {names : List CString} (hnames : [] ∉ names)
    (hagrees : ∀ (i : Nat) name entry, (after known names)[i]? = some name →
      m.env.slots[i]? = some entry → name = entry.1) :
    ∃ all', Listed all' ∧ all <+: all' ∧ (after known names).take 65536 <+: all' ∧
      m.slotNames <+: all' ∧ (all' = (after known names).take 65536 ∨ all' = m.slotNames) := by
  have hknown := Listed.initial hinv.listed hinv.prompt
  have hlisted := after_listed hknown hnames
  have hgrows := prefix_after hknown names
  obtain hcovers | hcovers := hinv.covers
  · refine ⟨_, hlisted, hcovers ▸ hgrows, List.prefix_rfl, ?_, .inl rfl⟩
    exact (hcovers ▸ hinv.slots).trans hgrows
  · have hagree : ∀ (i : Nat) x y, ((after known names).take 65536)[i]? = some x →
        m.slotNames[i]? = some y → x = y := by
      intro i x y hx hy
      obtain ⟨value, hentry⟩ := getElem?_slotNames.mp hy
      exact hagrees i x (y, value) (getElem?_of_initial (List.take_prefix _ _) hx) hentry
    obtain hle | hle := Nat.le_total ((after known names).take 65536).length m.slotNames.length
    · exact ⟨m.slotNames, hcovers ▸ hinv.listed, hcovers ▸ List.prefix_rfl,
        prefix_of_agree hle hagree, List.prefix_rfl, .inr rfl⟩
    · have hprefix : m.slotNames <+: (after known names).take 65536 :=
        prefix_of_agree hle fun i x y hx hy => (hagree i y x hy hx).symm
      exact ⟨_, hlisted, hcovers ▸ hprefix, List.prefix_rfl, hprefix, .inl rfl⟩

theorem Inv.line (hinv : m.Inv known all) {names : List CString} {fails : Bool}
    (hprompt : m.interactive = true) (hidle : m.running = false) (hnames : [] ∉ names)
    (hagrees : ∀ (i : Nat) name entry, (after known names)[i]? = some name →
      m.env.slots[i]? = some entry → name = entry.1) :
    ∃ known' all', (m.line names fails).Inv known' all' ∧ Keeps (.line names fails) m
      (m.line names fails) := by
  have hknown := Listed.initial hinv.listed hinv.prompt
  have hslots := Listed.initial hinv.listed hinv.slots
  obtain ⟨all', hlisted, hall, hnext, hmachine, hcovers⟩ := exists_common hinv hnames hagrees
  obtain hline | ⟨hroom, operands, hoperands, hline⟩ :=
      line_cases hinv.compiler hknown names fails
  · have hinv' : (m.line names fails).Inv ((after known names).take 65536) all' := by
      rw [hline]
      exact
        { listed := hlisted
          compiler := rfl
          prompt := hnext
          slots := hmachine
          covers := hcovers
          running := fun hrunning => by simp [hidle] at hrunning
          file := fun hfile => by simp [hprompt] at hfile
          operands := hinv.operands }
    have hsame : (m.line names fails).env.slots = m.env.slots := by
      rw [hline]
    exact ⟨_, _, hinv', keeps_of_initial hinv hinv' hall (hsame ▸ List.prefix_rfl)⟩
  · rw [List.take_of_length_le hroom] at hnext hcovers
    have hnamed : [] ∉ after known names := fun h => hlisted.named (hnext.subset h)
    have hgrown : (m.line names fails).slotNames = all' := by
      rw [hline, slotNames, slotNames_grow hslots.named hnamed]
      obtain hcovers | hcovers := hcovers
      · rw [hcovers] at hmachine ⊢
        exact append_drop_of_initial hmachine
      · rw [hcovers] at hnext ⊢
        rw [List.drop_eq_nil_of_le hnext.length_le, List.append_nil]
    have hinv' : (m.line names fails).Inv (after known names) all' := by
      refine
        { listed := hlisted
          compiler := by rw [hline]
          prompt := hnext
          slots := hgrown ▸ List.prefix_rfl
          covers := .inr hgrown.symm
          running := fun _ => hgrown
          file := fun hfile => ?_
          operands := ?_ }
      · rw [hline] at hfile
        simp [hprompt] at hfile
      · intro name slot hmem
        rw [hgrown]
        rw [hline] at hmem
        obtain hmem | hmem := List.mem_append.mp hmem
        · exact getElem?_of_initial hmachine (hinv.operands name slot hmem)
        · exact getElem?_of_initial hnext (hoperands name slot hmem)
    refine ⟨_, _, hinv', keeps_of_initial hinv hinv' hall ?_⟩
    rw [hline]
    exact grow_extends hslots.named hnamed

theorem Inv.eval (hinv : m.Inv known all) {names : List CString} {fails : Bool}
    (hrunning : m.running = true) (hnames : [] ∉ names) :
    ∃ known' all', (m.eval names fails).Inv known' all' ∧ Keeps (.eval names fails) m
      (m.eval names fails) := by
  have hmachine := hinv.running hrunning
  have hslots : Listed m.slotNames := hmachine ▸ hinv.listed
  obtain heval | ⟨hroom, operands, hoperands, heval⟩ := eval_cases hslots names fails
  · rw [heval]
    exact ⟨known, all, hinv, keeps_of_initial hinv hinv List.prefix_rfl List.prefix_rfl⟩
  · have hlisted := after_listed hslots hnames
    have hgrows := prefix_after hslots names
    rw [List.take_of_length_le hroom] at hlisted hgrows
    have hgrown : (m.eval names fails).slotNames = after m.slotNames names := by
      rw [heval, slotNames, slotNames_grow hslots.named hlisted.named]
      exact append_drop_of_initial hgrows
    have hall : all <+: after m.slotNames names := hmachine ▸ hgrows
    have hinv' : (m.eval names fails).Inv known (after m.slotNames names) := by
      refine
        { listed := hlisted
          compiler := by rw [heval]; exact hinv.compiler
          prompt := hinv.prompt.trans hall
          slots := hgrown ▸ List.prefix_rfl
          covers := .inr hgrown.symm
          running := fun _ => hgrown
          file := fun hfile => ?_
          operands := ?_ }
      · rw [heval] at hfile
        exact hinv.file hfile
      · intro name slot hmem
        rw [hgrown]
        rw [heval] at hmem
        obtain hmem | hmem := List.mem_append.mp hmem
        · exact getElem?_of_initial hgrows (hinv.operands name slot hmem)
        · exact hoperands name slot hmem
    refine ⟨_, _, hinv', keeps_of_initial hinv hinv' hall ?_⟩
    rw [heval]
    exact grow_extends hslots.named hlisted.named

theorem Inv.main (hinv : m.Inv known all) {names : List CString} {fails : Bool}
    (hfile : m.interactive = false) (hfirst : m.env.slots = []) (hnames : [] ∉ names) :
    ∃ known' all', (m.main names fails).Inv known' all' ∧ Keeps (.main names fails) m
      (m.main names fails) := by
  obtain hmain | ⟨hroom, operands, hoperands, hmain⟩ := main_cases (m := m) names fails
  · rw [hmain]
    exact ⟨known, all, hinv, keeps_of_initial hinv hinv List.prefix_rfl List.prefix_rfl⟩
  · have hempty : m.slotNames = [] := by rw [slotNames, hfirst, List.map_nil]
    have hknown := hinv.file hfile
    have hall : all = [] := by
      obtain hcovers | hcovers := hinv.covers
      · rw [hcovers, hknown]
      · rw [hcovers, hempty]
    have hlisted : Listed (after [] names) := by
      have := after_listed ⟨List.nodup_nil, by simp, by simp⟩ hnames
      rwa [List.take_of_length_le hroom] at this
    have hgrown : (m.main names fails).slotNames = after [] names := by
      rw [hmain, slotNames, initGlobalSlots_slots hfirst hlisted.named, map_fst_seeded]
    have hinv' : (m.main names fails).Inv known (after [] names) := by
      refine
        { listed := hlisted
          compiler := by rw [hmain]; exact hinv.compiler
          prompt := by rw [hknown]; exact List.nil_prefix
          slots := hgrown ▸ List.prefix_rfl
          covers := .inr hgrown.symm
          running := fun _ => hgrown
          file := fun _ => hknown
          operands := ?_ }
      intro name slot hmem
      rw [hgrown]
      rw [hmain] at hmem
      obtain hmem | hmem := List.mem_append.mp hmem
      · have := hinv.operands name slot hmem
        rw [hempty] at this
        cases this
      · exact hoperands name slot hmem
    refine ⟨_, _, hinv', keeps_of_initial hinv hinv' (hall ▸ List.nil_prefix) ?_⟩
    rw [hfirst]
    exact List.nil_prefix

theorem Inv.store (hinv : m.Inv known all) {name : CString} {slot : UInt16} {value : Value} :
    (m.store slot value).Inv known all ∧ Keeps (.store name slot value) m (m.store slot value) := by
  have hsame : (m.store slot value).slotNames = m.slotNames := by
    apply List.ext_getElem?
    intro i
    rw [slotNames, slotNames, Machine.store, List.getElem?_map, List.getElem?_map, List.getElem?_modify]
    cases m.env.slots[i]? with
    | none => rfl
    | some entry =>
        by_cases hi : slot.toNat = i
        · simp [hi]
        · simp [hi]
  have hinv' : (m.store slot value).Inv known all :=
    { listed := hinv.listed
      compiler := hinv.compiler
      prompt := hinv.prompt
      slots := hsame ▸ hinv.slots
      covers := hsame ▸ hinv.covers
      running := fun hrunning => hsame ▸ hinv.running hrunning
      file := hinv.file
      operands := fun name slot hmem => hsame ▸ hinv.operands name slot hmem }
  refine ⟨hinv', fun other i hslot => hinv'.hasSlot.mpr (hinv.hasSlot.mp hslot), ?_⟩
  intro i entry hentry
  by_cases hi : slot.toNat = i
  · right
    refine ⟨name, slot, value, rfl, hi, ?_⟩
    rw [Machine.store, List.getElem?_modify, hentry]
    simp [hi]
  · left
    rw [Machine.store, List.getElem?_modify, hentry]
    simp [hi]

/-- Every step that agrees keeps the invariant and the slots. -/
theorem Inv.step (hinv : m.Inv known all) {e : Event} (hstep : Machine.step e m m')
    (hagrees : m.Agrees e) :
    ∃ known' all', m'.Inv known' all' ∧ Keeps e m m' := by
  cases hstep with
  | main hfile hfirst _ hnames => exact hinv.main hfile hfirst hnames
  | line hprompt hidle hnames =>
      apply hinv.line hprompt hidle hnames
      rw [Agrees, knownNames, hinv.compiler, of_knownNames] at hagrees
      exact hagrees
  | eval hrunning hnames => exact hinv.eval hrunning hnames
  | store _ _ => exact ⟨known, all, hinv.store⟩
  | @define _ name value =>
      have hinv' : Machine.Inv { m with env.vars := assign m.env.vars name value } known all :=
        { hinv with }
      exact ⟨known, all, hinv', keeps_of_initial hinv hinv' List.prefix_rfl List.prefix_rfl⟩
  | finish _ =>
      have hinv' : Machine.Inv { m with running := false } known all :=
        { hinv with running := fun hrunning => nomatch hrunning }
      exact ⟨known, all, hinv', keeps_of_initial hinv hinv' List.prefix_rfl List.prefix_rfl⟩

/-- A line that does not agree gives a slot of the machine to another name. -/
theorem Inv.agrees_of_stable (hinv : m.Inv known all) {e : Event} (hstep : Machine.step e m m')
    (hstable : m'.Stable) : m.Agrees e := by
  cases hstep with
  | @line _ names fails hprompt hidle hnames =>
      have hknown := Listed.initial hinv.listed hinv.prompt
      have hslots := Listed.initial hinv.listed hinv.slots
      rw [Agrees, knownNames, hinv.compiler, of_knownNames]
      intro i name entry hname hentry
      have hi : i < m.slotNames.length := by
        rw [slotNames, List.length_map]
        exact (List.getElem?_eq_some_iff.mp hentry).1
      have hroom := hslots.room
      have htaken : ((after known names).take 65536)[i]? = some name := by
        rw [List.getElem?_take, if_pos (by omega)]
        exact hname
      have hprompt' : (m.line names fails).HasSlot name i := by
        left
        refine ⟨UInt16.ofNat i, ?_, toNat_slot (by omega)⟩
        obtain hline | ⟨hlength, operands, -, hline⟩ :=
            line_cases hinv.compiler hknown names fails
        · rw [hline]
          exact mem_of.mpr ⟨i, htaken, rfl⟩
        · rw [hline]
          exact mem_of.mpr ⟨i, hname, rfl⟩
      have hmachine' : (m.line names fails).HasSlot entry.1 i := by
        right
        left
        refine ⟨entry.2, ?_⟩
        obtain hline | ⟨hlength, operands, -, hline⟩ :=
            line_cases hinv.compiler hknown names fails
        · rw [hline]
          exact hentry
        · have hnamed : [] ∉ after known names :=
            (newNames_listed hknown.nodup hknown.named hnames).2
          obtain ⟨rest, hrest⟩ := grow_extends hslots.named hnamed
          rw [hline]
          simp only
          rw [← hrest, List.getElem?_append_left (List.getElem?_eq_some_iff.mp hentry).1]
          exact hentry
      exact hstable.apart name entry.1 i hprompt' hmachine'
  | _ => trivial

theorem fresh_inv (vars : List (CString × Value)) (interactive : Bool) :
    (fresh vars interactive).Inv [] [] where
  listed := ⟨List.nodup_nil, by simp, by simp⟩
  compiler := rfl
  prompt := List.nil_prefix
  slots := List.nil_prefix
  covers := .inl rfl
  running := fun _ => rfl
  file := fun _ => rfl
  operands := fun _ _ hmem => nomatch hmem

/-- A step that agrees. -/
def agreeing (e : Event) (m m' : Machine) : Prop := Machine.step e m m' ∧ m.Agrees e

theorem inv_of_run {vars : List (CString × Value)} {interactive : Bool} {events : List Event}
    (hrun : Run agreeing (fresh vars interactive) events m) : ∃ known all, m.Inv known all := by
  apply Run.invariant (I := fun m => ∃ known all, m.Inv known all) _ _ hrun
  · exact ⟨[], [], fresh_inv vars interactive⟩
  · intro e m m' hinv hstep
    obtain ⟨known, all, hinv⟩ := hinv
    obtain ⟨known', all', hinv', -⟩ := hinv.step hstep.1 hstep.2
    exact ⟨known', all', hinv'⟩

/-- A compilation that needs more than 65536 names ends with an error. -/
theorem requestAll_overflow {names : List CString} (hknown : Listed known)
    (hlength : 65536 < (after known names).length) :
    ((SlotTable.of known).requestAll names).1 = none := by
  have hsucceeds := (requestAll_of names hknown.room).succeeds
  rw [← Option.not_isSome_iff_eq_none, hsucceeds]
  exact Nat.not_le.mpr hlength

/-- After every run in which each line of the prompt agrees with the names of the virtual machine, the
slots are stable, and a compilation that needs more than 65536 names is an error. The next step leaves the
slots stable, and keeps them with their values, exactly if it agrees too. -/
theorem slots_stable_iff {vars : List (CString × Value)} {interactive : Bool}
    {events : List Event} (hrun : Run agreeing (fresh vars interactive) events m) :
    m.Stable ∧
      (∀ names, 65536 < (after m.knownNames names).length →
        (m.compiler.requestAll names).1 = none) ∧
      (∀ names, m.running = true → 65536 < (after m.slotNames names).length →
        (m.env.slotTable.requestAll names).1 = none) ∧
      ∀ e m', Machine.step e m m' → (m'.Stable ∧ Keeps e m m' ↔ m.Agrees e) := by
  obtain ⟨known, all, hinv⟩ := inv_of_run hrun
  have hknown := Listed.initial hinv.listed hinv.prompt
  have hslots := Listed.initial hinv.listed hinv.slots
  refine ⟨hinv.stable, ?_, ?_, ?_⟩
  · intro names hlength
    rw [knownNames, hinv.compiler, of_knownNames] at hlength
    rw [hinv.compiler]
    exact requestAll_overflow hknown hlength
  · intro names _ hlength
    rw [slotTable_of hslots]
    exact requestAll_overflow hslots hlength
  · intro e m' hstep
    constructor
    · intro hstable
      exact hinv.agrees_of_stable hstep hstable.1
    · intro hagrees
      obtain ⟨known', all', hinv', hkeeps⟩ := hinv.step hstep hagrees
      exact ⟨hinv'.stable, hkeeps⟩

/-- `eval("x = 1")` at the prompt, and then `y = 2`. -/
def evalThenLine : List Event :=
  [.line [lit "eval"] false, .eval [lit "x"] false, .store (lit "x") 1 (.int 1), .finish,
    .line [lit "y"] false]

theorem evalThenLine_not_stable :
    ∃ m, Run Machine.step (fresh [] true) evalThenLine m ∧ ¬m.Stable := by
  have hfirst : Run Machine.step (fresh [] true) _ _ :=
    Run.nil.snoc (@step.line _ [lit "eval"] false rfl rfl (by decide))
  have heval := hfirst.snoc (@step.eval _ [lit "x"] false rfl (by decide))
  have hstore := heval.snoc (@step.store _ (lit "x") 1 (.int 1) rfl (by decide))
  have hfinish := hstore.snoc (.finish rfl)
  have hsecond := hfinish.snoc
    (@step.line _ [lit "y"] false rfl rfl (by decide))
  refine ⟨_, hsecond, fun hstable => ?_⟩
  have hsame := hstable.apart (lit "x") (lit "y") 1 (.inr (.inl ⟨.int 1, rfl⟩))
    (.inl ⟨1, by decide, rfl⟩)
  revert hsame
  decide

/-- A file that uses one name and evaluates a text that uses another one. -/
theorem fileThenEval_stable :
    ∃ m : Machine, m.Stable ∧ m.slotNames = [lit "x", lit "y"] := by
  have hmain : Run agreeing (fresh [] false) _ _ :=
    Run.nil.snoc ⟨@step.main _ [lit "x"] false rfl rfl rfl (by decide), trivial⟩
  have heval := hmain.snoc
    ⟨@step.eval _ [lit "x", lit "y"] false rfl (by decide), trivial⟩
  exact ⟨_, (slots_stable_iff heval).1, rfl⟩

end Machine

end GlobalSlots

end EZLanguage
