import EZLanguage.VM.Text
import EZLanguage.VM.Object
import EZLanguage.VM.NameTables

/-!
# Snapshots of instances

`snapshot` copies the properties of an instance into a dictionary, `rollback` writes them back through
the ordinary setter, and `snapshot_diff` compares the rendered texts of the second snapshot's entries.
The setter never takes a property away, and what the values refer to is shared with the copy.
-/

namespace EZLanguage

namespace Shared

/-- `getPropertiesCopy`. -/
def propertiesCopy (s : Shared) (r : Nat) : List (CString × Value) :=
  (s.instances r).shape.names.zip (s.instances r).propertyValues

/-- `snapshot`. -/
def snapshot (s : Shared) (r : Nat) : List (CString × Value) := s.propertiesCopy r

/-- The bookkeeping of `rollback` for one property. -/
def recordRollback (s : Shared) (r : Nat) (field : CString) (oldValue newValue : Value) : Shared :=
  let i := s.instances r
  let behaviors := (s.classes i.klass).behaviors
  s.updateInstance r
    { i with
      auditLog :=
        if behaviors.audited then
          i.auditLog ++ [{ field := field, oldValue := oldValue, newValue := newValue, via := lit "rollback" }]
        else i.auditLog
      cacheStore :=
        if behaviors.hasCached then i.cacheStore.map fun entry => (entry.1, { entry.2 with dirty := true })
        else i.cacheStore }

/-- One property of `rollback`. -/
def restore (s : Shared) (r : Nat) (pair : CString × Value) : Shared :=
  let behaviors := (s.classes (s.instances r).klass).behaviors
  let oldValue := if behaviors.audited ∨ behaviors.hasCached then s.getProperty r pair.1 else .nil
  (s.setProperty r pair.1 pair.2).recordRollback r pair.1 oldValue pair.2

/-- `rollback`. -/
def rollback (s : Shared) (r : Nat) (snap : List (CString × Value)) : Shared :=
  snap.foldl (fun s pair => s.restore r pair) s

/-- The instance has a value for each of its names. -/
structure Laid (s : Shared) (r : Nat) : Prop where
  nodup : (s.instances r).shape.names.Nodup
  sized : (s.instances r).shape.names.length = (s.instances r).propertyValues.length

/-- The writes of a program: to a property of the instance, to what its values refer to, or to another
instance. -/
inductive Write
  | property (name : CString) (value : Value)
  | array (ref : Nat) (elements : List Value)
  | dictionary (ref : Nat) (entries : List (CString × Value))
  | other (ref : Nat) (name : CString) (value : Value)

def write (r : Nat) (s : Shared) : Write → Shared
  | .property name value => s.setProperty r name value
  | .array ref elements => { s with arrays := Function.update s.arrays ref elements }
  | .dictionary ref entries => { s with dicts := Function.update s.dicts ref entries }
  | .other ref name value => if ref = r then s else s.setProperty ref name value

/-- The property of the instance that a write is to. -/
def Write.property? : Write → Option CString
  | .property name _ => some name
  | _ => none

/-- What the properties of an instance lead to. -/
inductive Reaches (s : Shared) (r : Nat) : Value → Prop
  | property {v : Value} (hv : v ∈ (s.instances r).propertyValues) : Reaches s r v
  | array {a : Nat} {v : Value} (ha : Reaches s r (.array a)) (hv : v ∈ s.arrays a) : Reaches s r v
  | tuple {a : Nat} {v : Value} (ha : Reaches s r (.tuple a)) (hv : v ∈ s.arrays a) : Reaches s r v
  | dictionary {d : Nat} {entry : CString × Value} (hd : Reaches s r (.dictionary d))
      (hv : entry ∈ s.dicts d) : Reaches s r entry.2
  | inst {i : Nat} {v : Value} (hi : Reaches s r (.inst i)) (hv : v ∈ (s.instances i).propertyValues) :
      Reaches s r v

/-- The contents of a value are the same in both states, those of the instance itself apart. -/
def SameContents (r : Nat) (s s' : Shared) : Value → Prop
  | .array a => s'.arrays a = s.arrays a
  | .tuple a => s'.arrays a = s.arrays a
  | .dictionary d => s'.dicts d = s.dicts d
  | .inst i => i ≠ r → s'.propertiesCopy i = s.propertiesCopy i
  | _ => True

/-- What the properties lead to has kept its contents. -/
def NestedSame (r : Nat) (s s' : Shared) : Prop := ∀ v, Reaches s r v → SameContents r s s' v

/-- The instance has the properties it had, with the values they had. -/
structure Restored (r : Nat) (s s' : Shared) : Prop where
  properties : ∀ name, lookup (s'.propertiesCopy r) name = lookup (s.propertiesCopy r) name
  nested : NestedSame r s s'

/-- `snapshot_diff`: what each entry was and is now. -/
def snapshotDiff (printer : Printer) (h : Heap) (a b : List (CString × Value)) :
    List (CString × Value × Value) :=
  b.filterMap fun pair =>
    let was := (lookup a pair.1).getD .nil
    if was.toText printer h ≠ pair.2.toText printer h then some (pair.1, was, pair.2) else none

/-- Both snapshots have the property with equal values, or neither has it. -/
def SameAt (fpu : FloatUnit) (h : Heap) (a b : List (CString × Value)) (name : CString) : Prop :=
  match lookup a name, lookup b name with
  | none, none => True
  | some was, some now => Value.Same fpu h h was now
  | _, _ => False

/-- The diff names exactly the properties that differ. -/
def DiffExact (printer : Printer) (h : Heap) (a b : List (CString × Value)) : Prop :=
  (∀ name, name ∈ (snapshotDiff printer h a b).map Prod.fst ↔ ¬SameAt printer.fpu h a b name) ∧
  (snapshotDiff printer h a b = [] ↔ ∀ name, SameAt printer.fpu h a b name)

/-- No property is missing from the second snapshot, and texts are the same where values are. -/
def TextsDecide (printer : Printer) (h : Heap) (a b : List (CString × Value)) : Prop :=
  ∀ name, match lookup b name with
    | none => lookup a name = none
    | some now =>
        ((lookup a name).getD .nil).toText printer h = now.toText printer h ↔
          ∃ was, lookup a name = some was ∧ Value.Same printer.fpu h h was now

theorem lookup_zip {names : List CString} {values : List Value} (hsized : names.length = values.length)
    (name : CString) :
    lookup (names.zip values) name = (names.findIdx? (· == name)).bind fun o => values[o]? := by
  induction names generalizing values with
  | nil => rfl
  | cons first names ih =>
      cases values with
      | nil => simp at hsized
      | cons value values =>
          have hrest := ih (Nat.succ.inj hsized)
          rw [List.zip_cons_cons, lookup_cons, List.findIdx?_cons]
          by_cases hname : first = name
          · simp [hname]
          · have hne : (first == name) = false := beq_eq_false_iff_ne.mpr hname
            rw [if_neg hname, hrest, hne]
            cases names.findIdx? (· == name) with
            | none => rfl
            | some o => rfl

/-- The setter changes what is found under its name only. -/
theorem lookup_setProperty {s : Shared} {r : Nat} (hlaid : Laid s r) (name : CString) (value : Value)
    (name' : CString) : lookup ((s.setProperty r name value).propertiesCopy r) name' =
      if name = name' then some value else lookup (s.propertiesCopy r) name' := by
  rw [setProperty]
  cases hoffset : (s.instances r).shape.getOffset name with
  | some offset =>
      simp only [propertiesCopy, updateInstance, Function.update_self]
      rw [Shape.getOffset, List.findIdx?_eq_some_iff_getElem] at hoffset
      obtain ⟨hlt, hat, _⟩ := hoffset
      have hname := beq_iff_eq.mp hat
      rw [lookup_zip (by rw [List.length_set, hlaid.sized]), lookup_zip hlaid.sized]
      cases hfound : (s.instances r).shape.names.findIdx? (· == name') with
      | none =>
          have hne : name ≠ name' := by
            intro hsame
            rw [List.findIdx?_eq_none_iff] at hfound
            have hmiss := hfound _ (List.getElem_mem hlt)
            rw [hname, hsame, beq_self_eq_true] at hmiss
            cases hmiss
          rw [if_neg hne, Option.bind_none, Option.bind_none]
      | some offset' =>
          rw [List.findIdx?_eq_some_iff_getElem] at hfound
          obtain ⟨hlt', hat', _⟩ := hfound
          have hname' := beq_iff_eq.mp hat'
          rw [Option.bind_some, Option.bind_some, List.getElem?_set]
          by_cases hsame : name = name'
          · have hindex : offset = offset' := by
              apply (List.Nodup.getElem_inj_iff hlaid.nodup).mp
              rw [hname, hname', hsame]
            have hinside : offset < (s.instances r).propertyValues.length := by
              rw [← hlaid.sized]
              exact hlt
            rw [if_pos hindex, if_pos hsame, if_pos hinside]
          · have hindex : offset ≠ offset' := by
              intro h
              subst h
              exact hsame (hname.symm.trans hname')
            rw [if_neg hindex, if_neg hsame]
  | none =>
      have hmissing : lookup (s.propertiesCopy r) name = none := by
        rw [propertiesCopy, lookup_zip hlaid.sized]
        rw [Shape.getOffset] at hoffset
        rw [hoffset, Option.bind_none]
      have hcopy : (s.updateInstance r
          { s.instances r with
            shape := (s.instances r).shape.transition name
            propertyValues := (s.instances r).propertyValues ++ [value] }).propertiesCopy r =
            s.propertiesCopy r ++ [(name, value)] := by
        simp only [propertiesCopy, updateInstance, Function.update_self, Shape.transition]
        rw [List.zip_append hlaid.sized]
        rfl
      rw [hcopy, lookup_append]
      by_cases hsame : name = name'
      · rw [if_pos hsame, if_pos hsame, ← hsame, hmissing, Option.none_or]
      · rw [if_neg hsame, if_neg hsame, Option.or_none]

theorem Laid.setProperty {s : Shared} {r : Nat} (hlaid : Laid s r) (name : CString) (value : Value) :
    Laid (s.setProperty r name value) r := by
  rw [Shared.setProperty]
  cases hoffset : (s.instances r).shape.getOffset name with
  | some offset =>
      constructor
      · simpa [updateInstance] using hlaid.nodup
      · simpa [updateInstance] using hlaid.sized
  | none =>
      rw [Shape.getOffset, List.findIdx?_eq_none_iff] at hoffset
      constructor
      · simp only [updateInstance, Function.update_self, Shape.transition]
        rw [List.nodup_append]
        refine ⟨hlaid.nodup, List.nodup_singleton name, fun a hmem b hmem' => ?_⟩
        rw [List.mem_singleton.mp hmem']
        have hmiss := hoffset a hmem
        exact beq_eq_false_iff_ne.mp hmiss
      · simp [updateInstance, Shape.transition, hlaid.sized]

/-- The bookkeeping changes no property. -/
theorem recordRollback_instance (s : Shared) (r : Nat) (field : CString) (oldValue newValue : Value) :
    ((s.recordRollback r field oldValue newValue).instances r).shape = (s.instances r).shape ∧
    ((s.recordRollback r field oldValue newValue).instances r).propertyValues =
      (s.instances r).propertyValues := by
  simp [recordRollback, updateInstance]

theorem Laid.restore {s : Shared} {r : Nat} (hlaid : Laid s r) (pair : CString × Value) :
    Laid (s.restore r pair) r := by
  have hset := hlaid.setProperty pair.1 pair.2
  constructor
  · dsimp only [Shared.restore]
    rw [(recordRollback_instance ..).1]
    exact hset.nodup
  · dsimp only [Shared.restore]
    rw [(recordRollback_instance ..).1, (recordRollback_instance ..).2]
    exact hset.sized

theorem lookup_restore {s : Shared} {r : Nat} (hlaid : Laid s r) (pair : CString × Value)
    (name : CString) : lookup ((s.restore r pair).propertiesCopy r) name =
      if pair.1 = name then some pair.2 else lookup (s.propertiesCopy r) name := by
  rw [← lookup_setProperty hlaid pair.1 pair.2 name]
  dsimp only [restore, propertiesCopy]
  rw [(recordRollback_instance ..).1, (recordRollback_instance ..).2]

/-- After `rollback` the properties of the snapshot are back, and the others are as they were. -/
theorem lookup_rollback {s : Shared} {r : Nat} (hlaid : Laid s r) {snap : List (CString × Value)}
    (hnodup : (snap.map Prod.fst).Nodup) (name : CString) :
    lookup ((s.rollback r snap).propertiesCopy r) name =
      (lookup snap name).or (lookup (s.propertiesCopy r) name) := by
  induction snap generalizing s with
  | nil => simp [rollback, lookup]
  | cons pair snap ih =>
      rw [List.map_cons, List.nodup_cons] at hnodup
      rw [rollback, List.foldl_cons, ← rollback, ih (hlaid.restore pair) hnodup.2, lookup_restore hlaid,
        lookup_cons]
      by_cases hname : pair.1 = name
      · rw [if_pos hname, if_pos hname]
        cases hlater : lookup snap name with
        | none => rfl
        | some value =>
            -- the names of a dictionary are distinct
            exfalso
            apply hnodup.1
            rw [hname]
            exact List.mem_map_of_mem (mem_of_lookup hlater)
      · rw [if_neg hname, if_neg hname]

/-- The setter leaves everything else alone. -/
theorem setProperty_frame (s : Shared) (r : Nat) (name : CString) (value : Value) :
    (s.setProperty r name value).arrays = s.arrays ∧ (s.setProperty r name value).dicts = s.dicts ∧
    ∀ i, i ≠ r → (s.setProperty r name value).instances i = s.instances i := by
  rw [setProperty]
  cases (s.instances r).shape.getOffset name with
  | some offset =>
      refine ⟨rfl, rfl, fun i hi => ?_⟩
      exact Function.update_of_ne hi _ _
  | none =>
      refine ⟨rfl, rfl, fun i hi => ?_⟩
      exact Function.update_of_ne hi _ _

theorem rollback_frame (s : Shared) (r : Nat) (snap : List (CString × Value)) :
    (s.rollback r snap).arrays = s.arrays ∧ (s.rollback r snap).dicts = s.dicts ∧
    ∀ i, i ≠ r → (s.rollback r snap).instances i = s.instances i := by
  induction snap generalizing s with
  | nil => exact ⟨rfl, rfl, fun _ _ => rfl⟩
  | cons pair snap ih =>
      have hone : (s.restore r pair).arrays = s.arrays ∧ (s.restore r pair).dicts = s.dicts ∧
          ∀ i, i ≠ r → (s.restore r pair).instances i = s.instances i := by
        have hset := setProperty_frame s r pair.1 pair.2
        refine ⟨hset.1, hset.2.1, fun i hi => ?_⟩
        rw [← hset.2.2 i hi]
        exact Function.update_of_ne hi _ _
      have hrest := ih (s.restore r pair)
      rw [rollback, List.foldl_cons, ← rollback]
      refine ⟨hrest.1.trans hone.1, hrest.2.1.trans hone.2.1, fun i hi => ?_⟩
      rw [hrest.2.2 i hi, hone.2.2 i hi]

theorem nestedSame_rollback (s s' : Shared) (r : Nat) (snap : List (CString × Value)) :
    NestedSame r s (s'.rollback r snap) ↔ NestedSame r s s' := by
  obtain ⟨harrays, hdicts, hothers⟩ := rollback_frame s' r snap
  have hcopy : ∀ i, i ≠ r → (s'.rollback r snap).propertiesCopy i = s'.propertiesCopy i := by
    intro i hi
    rw [propertiesCopy, hothers i hi, propertiesCopy]
  have hsame : ∀ v, SameContents r s (s'.rollback r snap) v ↔ SameContents r s s' v := by
    intro v
    cases v <;> simp only [SameContents, harrays, hdicts]
    constructor
    · intro h hi
      rw [← hcopy _ hi]
      exact h hi
    · intro h hi
      rw [hcopy _ hi]
      exact h hi
  simp only [NestedSame, hsame]

/-- The instance stays laid out, and a property it has is one it had or one that was written. -/
theorem write_run {s : Shared} {r : Nat} (hlaid : Laid s r) (writes : List Write) :
    Laid (writes.foldl (write r) s) r ∧
    ∀ name, (lookup ((writes.foldl (write r) s).propertiesCopy r) name).isSome = true ↔
      ((lookup (s.propertiesCopy r) name).isSome = true ∨ name ∈ writes.filterMap Write.property?) := by
  induction writes generalizing s with
  | nil => exact ⟨hlaid, fun name => by simp⟩
  | cons w writes ih =>
      have hone : Laid (write r s w) r ∧ ∀ name,
          (lookup ((write r s w).propertiesCopy r) name).isSome = true ↔
            ((lookup (s.propertiesCopy r) name).isSome = true ∨ w.property? = some name) := by
        cases w with
        | property written value =>
            refine ⟨hlaid.setProperty written value, fun name => ?_⟩
            rw [write, lookup_setProperty hlaid, Write.property?, Option.some_inj]
            by_cases hname : written = name
            · simp [hname]
            · simp [hname]
        | array ref elements =>
            refine ⟨⟨hlaid.nodup, hlaid.sized⟩, fun name => ?_⟩
            simp [write, Write.property?, propertiesCopy]
        | dictionary ref entries =>
            refine ⟨⟨hlaid.nodup, hlaid.sized⟩, fun name => ?_⟩
            simp [write, Write.property?, propertiesCopy]
        | other ref written value =>
            rw [write]
            by_cases href : ref = r
            · rw [if_pos href]
              exact ⟨hlaid, fun name => by simp [Write.property?]⟩
            · have hframe := (setProperty_frame s ref written value).2.2 r (Ne.symm href)
              rw [if_neg href]
              refine ⟨⟨?_, ?_⟩, fun name => ?_⟩
              · rw [hframe]
                exact hlaid.nodup
              · rw [hframe]
                exact hlaid.sized
              · rw [propertiesCopy, hframe]
                simp [Write.property?, propertiesCopy]
      obtain ⟨hlaidRest, hnames⟩ := ih hone.1
      refine ⟨hlaidRest, fun name => ?_⟩
      rw [List.foldl_cons, hnames, hone.2, List.filterMap_cons]
      cases hwritten : w.property? with
      | none => simp
      | some written =>
          rw [List.mem_cons, Option.some_inj, or_assoc, eq_comm (a := written)]

theorem names_propertiesCopy {s : Shared} {r : Nat} (hlaid : Laid s r) :
    (s.propertiesCopy r).map Prod.fst = (s.instances r).shape.names := by
  rw [propertiesCopy, List.map_fst_zip (Nat.le_of_eq hlaid.sized)]

/-- `rollback` restores an instance exactly where no property was added and what the values lead to has
its contents again. -/
theorem restored_iff {s : Shared} {r : Nat} (hlaid : Laid s r) (writes : List Write) :
    Restored r s ((writes.foldl (write r) s).rollback r (s.snapshot r)) ↔
      (∀ name ∈ writes.filterMap Write.property?, (lookup (s.snapshot r) name).isSome = true) ∧
      NestedSame r s (writes.foldl (write r) s) := by
  obtain ⟨hlaidAfter, hnames⟩ := write_run hlaid writes
  have hnodup : ((s.snapshot r).map Prod.fst).Nodup := by
    rw [snapshot, names_propertiesCopy hlaid]
    exact hlaid.nodup
  constructor
  · intro hrestored
    constructor
    · intro name hwritten
      by_contra hmissing
      rw [Bool.not_eq_true, Option.isSome_eq_false_iff, Option.isNone_iff_eq_none] at hmissing
      have hsame := hrestored.properties name
      rw [lookup_rollback hlaidAfter hnodup, hmissing, Option.none_or] at hsame
      have hadded := (hnames name).mpr (.inr hwritten)
      rw [hsame, ← snapshot, hmissing] at hadded
      cases hadded
    · exact (nestedSame_rollback s _ r _).mp hrestored.nested
  · rintro ⟨hwritten, hnested⟩
    constructor
    · intro name
      rw [lookup_rollback hlaidAfter hnodup, snapshot]
      cases hhad : lookup (s.propertiesCopy r) name with
      | some value => rw [Option.some_or]
      | none =>
          rw [Option.none_or]
          cases hnow : lookup ((writes.foldl (write r) s).propertiesCopy r) name with
          | none => rfl
          | some value =>
              have hsome : (lookup ((writes.foldl (write r) s).propertiesCopy r) name).isSome = true := by
                rw [hnow, Option.isSome_some]
              have hbefore : (lookup (s.propertiesCopy r) name).isSome = true :=
                ((hnames name).mp hsome).elim id (hwritten name)
              rw [hhad] at hbefore
              cases hbefore
    · exact (nestedSame_rollback s _ r _).mpr hnested

/-- What the diff names: the entries of the second snapshot with another text. -/
theorem mem_snapshotDiff (printer : Printer) (h : Heap) (a : List (CString × Value))
    {b : List (CString × Value)} (hnodup : (b.map Prod.fst).Nodup) (name : CString) :
    name ∈ (snapshotDiff printer h a b).map Prod.fst ↔ ∃ now, lookup b name = some now ∧
      ((lookup a name).getD .nil).toText printer h ≠ now.toText printer h := by
  rw [List.mem_map]
  constructor
  · rintro ⟨entry, hmem, rfl⟩
    obtain ⟨pair, hpair, hentry⟩ := List.mem_filterMap.mp hmem
    dsimp only at hentry
    split_ifs at hentry with htext
    cases hentry
    exact ⟨pair.2, (lookup_eq_some_iff hnodup _ _).mpr hpair, htext⟩
  · rintro ⟨now, hnow, htext⟩
    refine ⟨(name, (lookup a name).getD .nil, now), ?_, rfl⟩
    apply List.mem_filterMap.mpr
    exact ⟨(name, now), (lookup_eq_some_iff hnodup _ _).mp hnow, if_pos htext⟩

/-- The diff is exact exactly where texts decide which properties differ. -/
theorem diffExact_iff (printer : Printer) (h : Heap) (a : List (CString × Value))
    {b : List (CString × Value)} (hnodup : (b.map Prod.fst).Nodup) :
    DiffExact printer h a b ↔ TextsDecide printer h a b := by
  have hone : ∀ name,
      (name ∈ (snapshotDiff printer h a b).map Prod.fst ↔ ¬SameAt printer.fpu h a b name) ↔
      match lookup b name with
      | none => lookup a name = none
      | some now =>
          ((lookup a name).getD .nil).toText printer h = now.toText printer h ↔
            ∃ was, lookup a name = some was ∧ Value.Same printer.fpu h h was now := by
    intro name
    rw [mem_snapshotDiff printer h a hnodup, SameAt]
    cases hb : lookup b name with
    | none =>
        cases ha : lookup a name with
        | none => simp
        | some was => simp
    | some now =>
        cases ha : lookup a name with
        | none => simp
        | some was =>
            simp
            exact not_iff_not
  constructor
  · intro hexact name
    exact (hone name).mp (hexact.1 name)
  · intro hdecide
    have hnames : ∀ name,
        name ∈ (snapshotDiff printer h a b).map Prod.fst ↔ ¬SameAt printer.fpu h a b name :=
      fun name => (hone name).mpr (hdecide name)
    refine ⟨hnames, ?_⟩
    constructor
    · intro hempty name
      by_contra hdiffers
      have hnamed := (hnames name).mpr hdiffers
      rw [hempty] at hnamed
      cases hnamed
    · intro hall
      rw [List.eq_nil_iff_forall_not_mem]
      intro entry hmem
      exact (hnames entry.1).mp (List.mem_map_of_mem hmem) (hall entry.1)

/-- A heap whose instances have no properties. -/
def plain : Shared := Shared.start (Heap.ofProgram [] [] [])

end Shared

end EZLanguage
