import EZLanguage.VM.NameTables
import Mathlib.Data.List.Induction
import Mathlib.Data.List.Perm.Basic
import Mathlib.Logic.Function.Basic

/-!
# The layout of instances

An instance keeps its property values in a row, and its shape says at which offset a name stands. Shapes
form a tree of transitions that all instances of a class share. Values are written through the setter,
through the raw offset an inline cache remembers, and by `modifyProperties`, which gives the instance a
shape of its own.
-/

namespace EZLanguage

namespace InstanceLayout

/-- `EZShape`, with the shapes its transitions lead to by their addresses. -/
structure EZShape where
  propertyOffsets : List (CString × Nat)
  transitions : List (CString × Nat)

def EZShape.empty : EZShape := ⟨[], []⟩

/-- `EZInstance`, with its shape by its address. -/
structure EZInstance (V : Type) where
  klass : Nat
  shape : Nat
  propertyValues : List V
  deriving DecidableEq

/-- The shapes, the classes' initial shapes, the instances and the inline caches, each with the shape and
the offset it remembers. -/
structure Store (V : Type) where
  shapes : List EZShape
  initialShape : List Nat
  instances : List (EZInstance V)
  caches : Nat → Option (Nat × Nat)

def shapeAt (shapes : List EZShape) (id : Nat) : EZShape := shapes.getD id .empty

/-- `EZShape::getOffset`. -/
def getOffset (shape : EZShape) (name : CString) : Option Nat := lookup shape.propertyOffsets name

/-- `EZShape::transition`. -/
def transition (shapes : List EZShape) (id : Nat) (name : CString) : List EZShape × Nat :=
  let shape := shapeAt shapes id
  match lookup shape.transitions name with
  | some target => (shapes, target)
  | none =>
      let newShape : EZShape :=
        ⟨assign shape.propertyOffsets name shape.propertyOffsets.length, []⟩
      (shapes.set id { shape with transitions := assign shape.transitions name shapes.length } ++
        [newShape], shapes.length)

variable {V : Type} (nil : V) (site : Nat → CString)

namespace Store

def setInstance (s : Store V) (i : Nat) (inst : EZInstance V) : Store V :=
  { s with instances := s.instances.set i inst }

/-- `EZInstance::setProperty`. -/
def setProperty (s : Store V) (i : Nat) (name : CString) (value : V) : Store V :=
  match s.instances[i]? with
  | none => s
  | some inst =>
      match getOffset (shapeAt s.shapes inst.shape) name with
      | some offset =>
          s.setInstance i { inst with propertyValues := inst.propertyValues.set offset value }
      | none =>
          let moved := transition s.shapes inst.shape name
          let s := { s with shapes := moved.1 }
          match getOffset (shapeAt s.shapes moved.2) name with
          | none => s.setInstance i { inst with shape := moved.2 }
          | some offset =>
              let values :=
                if inst.propertyValues.length ≤ offset then
                  inst.propertyValues ++
                    List.replicate (offset + 1 - inst.propertyValues.length) nil
                else inst.propertyValues
              s.setInstance i
                { inst with shape := moved.2, propertyValues := values.set offset value }

/-- The cache of a property instruction remembers where its name stands in the instance. -/
def remember (s : Store V) (k i : Nat) : Store V :=
  match s.instances[i]? with
  | none => s
  | some inst =>
      match getOffset (shapeAt s.shapes inst.shape) (site k) with
      | none => s
      | some offset => { s with caches := Function.update s.caches k (some (inst.shape, offset)) }

/-- A store by a property instruction: through the cached offset, or through the setter. -/
def cachedStore (s : Store V) (k i : Nat) (value : V) : Store V :=
  match s.instances[i]?, s.caches k with
  | some inst, some (shape, offset) =>
      if shape = inst.shape then
        s.setInstance i { inst with propertyValues := inst.propertyValues.set offset value }
      else (s.setProperty nil i (site k) value).remember site k i
  | _, _ => (s.setProperty nil i (site k) value).remember site k i

/-- The loop of `modifyProperties` that lays the properties out anew. -/
def rebuilt (props : List (CString × V)) : List (CString × Nat) × List V :=
  props.foldl (fun built prop => (assign built.1 prop.1 built.2.length, built.2 ++ [prop.2])) ([], [])

/-- `modifyProperties`, with the properties its argument leaves, in the order of the map's iteration. -/
def modifyProperties (s : Store V) (i : Nat) (props : List (CString × V)) : Store V :=
  match s.instances[i]? with
  | none => s
  | some inst =>
      { s.setInstance i
          { inst with shape := s.shapes.length, propertyValues := (rebuilt props).2 } with
        shapes := s.shapes ++ [⟨(rebuilt props).1, []⟩] }

end Store

/-- What an instance itself has under a name. -/
def own (shapes : List EZShape) (inst : EZInstance V) (name : CString) : Option V :=
  (getOffset (shapeAt shapes inst.shape) name).map fun offset => inst.propertyValues.getD offset nil

/-- What happens to instances. A map has distinct keys. -/
inductive Label (V : Type)
  | newClass
  | newInstance (klass : Nat)
  | setProperty (i : Nat) (name : CString) (value : V)
  | cachedStore (k i : Nat) (value : V)
  | cachedLoad (k i : Nat)
  | rollback (i : Nat) (snap : List (CString × V))
  | modifyProperties (i : Nat) (props : List (CString × V)) (nodup : (props.map Prod.fst).Nodup)

/-- A store with what was last written to each name of each instance. -/
structure Traced (V : Type) where
  store : Store V
  written : Nat → CString → Option V

namespace Traced

def start : Traced V := ⟨⟨[], [], [], fun _ => none⟩, fun _ _ => none⟩

def note (t : Traced V) (i : Nat) (name : CString) (value : V) : Nat → CString → Option V :=
  if i < t.store.instances.length then
    Function.update t.written i (Function.update (t.written i) name (some value))
  else t.written

def write (t : Traced V) (i : Nat) (name : CString) (value : V) : Traced V :=
  ⟨t.store.setProperty nil i name value, t.note i name value⟩

def step (t : Traced V) : Label V → Traced V
  | .newClass =>
      { t with store :=
          { t.store with
            shapes := t.store.shapes ++ [.empty]
            initialShape := t.store.initialShape ++ [t.store.shapes.length] } }
  | .newInstance klass =>
      match t.store.initialShape[klass]? with
      | none => t
      | some shape =>
          ⟨{ t.store with instances := t.store.instances ++ [⟨klass, shape, []⟩] },
            Function.update t.written t.store.instances.length fun _ => none⟩
  | .setProperty i name value => t.write nil i name value
  | .cachedStore k i value => ⟨t.store.cachedStore nil site k i value, t.note i (site k) value⟩
  | .cachedLoad k i => { t with store := t.store.remember site k i }
  | .rollback i snap => snap.foldl (fun t pair => t.write nil i pair.1 pair.2) t
  | .modifyProperties i props _ =>
      ⟨t.store.modifyProperties i props,
        if i < t.store.instances.length then Function.update t.written i (lookup props)
        else t.written⟩

def run (labels : List (Label V)) : Traced V := labels.foldl (step nil site) start

end Traced

/-! ### Offsets -/

/-- The offsets of a shape count its names up. -/
def Laid (offsets : List (CString × Nat)) : Prop :=
  ∃ names : List CString, names.Nodup ∧ offsets = names.zipIdx

namespace Laid

variable {offsets : List (CString × Nat)}

theorem lt_length (hlaid : Laid offsets) {name : CString} {o : Nat}
    (hlookup : lookup offsets name = some o) : o < offsets.length := by
  obtain ⟨names, _, rfl⟩ := hlaid
  have hmem := mem_of_lookup hlookup
  rw [List.mk_mem_zipIdx_iff_getElem?] at hmem
  rw [List.length_zipIdx]
  exact (List.getElem?_eq_some_iff.mp hmem).1

/-- No two names stand at one offset. -/
theorem injective (hlaid : Laid offsets) {name name' : CString} {o : Nat}
    (hlookup : lookup offsets name = some o) (hlookup' : lookup offsets name' = some o) :
    name = name' := by
  obtain ⟨names, _, rfl⟩ := hlaid
  have hmem := mem_of_lookup hlookup
  have hmem' := mem_of_lookup hlookup'
  rw [List.mk_mem_zipIdx_iff_getElem?] at hmem hmem'
  exact Option.some.inj (hmem.symm.trans hmem')

theorem append (hlaid : Laid offsets) {name : CString} (hnew : lookup offsets name = none) :
    Laid (offsets ++ [(name, offsets.length)]) := by
  obtain ⟨names, hnodup, rfl⟩ := hlaid
  rw [lookup_none_iff, List.zipIdx_map_fst] at hnew
  refine ⟨names ++ [name], ?_, ?_⟩
  · rw [List.nodup_append]
    refine ⟨hnodup, List.nodup_singleton name, fun a hmem b hmem' => ?_⟩
    rw [List.mem_singleton.mp hmem']
    intro hsame
    exact hnew (hsame ▸ hmem)
  · rw [List.zipIdx_append, List.length_zipIdx]
    simp

/-- The offsets are a bijection from the names onto the first numbers. -/
theorem bijective (hlaid : Laid offsets) :
    (offsets.map Prod.fst).Nodup ∧ (offsets.map Prod.snd).Perm (List.range offsets.length) := by
  obtain ⟨names, hnodup, rfl⟩ := hlaid
  rw [List.zipIdx_map_fst, List.zipIdx_map_snd, List.length_zipIdx, List.range_eq_range']
  exact ⟨hnodup, List.Perm.refl _⟩

end Laid

/-! ### The tree of shapes -/

theorem shapeAt_append (shapes : List EZShape) (shape : EZShape) (id : Nat) :
    shapeAt (shapes ++ [shape]) id =
      if id < shapes.length then shapeAt shapes id
      else if id = shapes.length then shape else .empty := by
  rw [shapeAt, shapeAt, List.getD_eq_getElem?_getD, List.getD_eq_getElem?_getD, List.getElem?_append]
  split_ifs with hlt heq
  · rfl
  · simp [heq]
  · rw [List.getElem?_singleton, if_neg (by omega)]
    rfl

theorem shapeAt_set {shapes : List EZShape} {id : Nat} (hid : id < shapes.length) (shape : EZShape)
    (id' : Nat) : shapeAt (shapes.set id shape) id' = if id' = id then shape else shapeAt shapes id' := by
  rw [shapeAt, shapeAt, List.getD_eq_getElem?_getD, List.getD_eq_getElem?_getD, List.getElem?_set]
  by_cases h : id' = id
  · rw [if_pos h, if_pos h.symm, if_pos hid]
    rfl
  · rw [if_neg h, if_neg fun hsame => h hsame.symm]

/-- One shape is linked to a fresh one at the end. -/
theorem shapeAt_link {shapes : List EZShape} {id : Nat} (hid : id < shapes.length)
    (linked fresh : EZShape) (id' : Nat) :
    shapeAt (shapes.set id linked ++ [fresh]) id' =
      if id' = id then linked else shapeAt (shapes ++ [fresh]) id' := by
  rw [shapeAt_append, List.length_set, shapeAt_set hid, shapeAt_append]
  by_cases hsame : id' = id
  · rw [if_pos (hsame ▸ hid), if_pos hsame, if_pos hsame]
  · simp only [if_neg hsame]

/-- Every shape is laid out, and its transitions add one name at the next offset and stay within the
class that owns the shape. -/
structure ShapesSound (shapes : List EZShape) (owner : Nat → Nat) : Prop where
  laid : ∀ id, id < shapes.length → Laid (shapeAt shapes id).propertyOffsets
  moves : ∀ id, id < shapes.length → ∀ name target,
    lookup (shapeAt shapes id).transitions name = some target →
      target < shapes.length ∧ owner target = owner id ∧
      (shapeAt shapes target).propertyOffsets = (shapeAt shapes id).propertyOffsets ++
        [(name, (shapeAt shapes id).propertyOffsets.length)]

/-- The shapes there were are still there, as they were. -/
structure Grown (shapes shapes' : List EZShape) (owner owner' : Nat → Nat) : Prop where
  le : shapes.length ≤ shapes'.length
  offsets : ∀ id, id < shapes.length →
    (shapeAt shapes' id).propertyOffsets = (shapeAt shapes id).propertyOffsets
  owned : ∀ id, id < shapes.length → owner' id = owner id

theorem Grown.refl (shapes : List EZShape) (owner : Nat → Nat) : Grown shapes shapes owner owner :=
  ⟨Nat.le_refl _, fun _ _ => rfl, fun _ _ => rfl⟩

/-- A fresh shape without transitions. -/
theorem ShapesSound.push {shapes : List EZShape} {owner : Nat → Nat} (hsound : ShapesSound shapes owner)
    {offsets : List (CString × Nat)} (hlaid : Laid offsets) (klass : Nat) :
    ShapesSound (shapes ++ [⟨offsets, []⟩]) (Function.update owner shapes.length klass) ∧
    Grown shapes (shapes ++ [⟨offsets, []⟩]) owner (Function.update owner shapes.length klass) := by
  have hold : ∀ id, id < shapes.length → Function.update owner shapes.length klass id = owner id :=
    fun id hid => Function.update_of_ne (Nat.ne_of_lt hid) _ _
  constructor
  · constructor
    · intro id hid
      rw [List.length_append, List.length_singleton] at hid
      rw [shapeAt_append]
      split_ifs with hlt heq
      · exact hsound.laid id hlt
      · exact hlaid
      · omega
    · intro id hid name target hmove
      rw [List.length_append, List.length_singleton] at hid
      rw [shapeAt_append] at hmove
      split_ifs at hmove with hlt heq
      · obtain ⟨htarget, howner, hoffsets⟩ := hsound.moves id hlt name target hmove
        rw [shapeAt_append, if_pos htarget, shapeAt_append, if_pos hlt, hold id hlt, hold target htarget]
        refine ⟨?_, howner, hoffsets⟩
        rw [List.length_append, List.length_singleton]
        omega
      · simp [lookup] at hmove
      · simp [EZShape.empty, lookup] at hmove
  · constructor
    · rw [List.length_append]
      omega
    · intro id hid
      rw [shapeAt_append, if_pos hid]
    · exact hold

/-- A transition to a name the shape lacks. -/
theorem transition_spec {shapes : List EZShape} {owner : Nat → Nat} (hsound : ShapesSound shapes owner)
    {id : Nat} (hid : id < shapes.length) {name : CString}
    (hnew : getOffset (shapeAt shapes id) name = none) :
    ∃ owner', ShapesSound (transition shapes id name).1 owner' ∧
      Grown shapes (transition shapes id name).1 owner owner' ∧
      (transition shapes id name).2 < (transition shapes id name).1.length ∧
      owner' (transition shapes id name).2 = owner id ∧
      (shapeAt (transition shapes id name).1 (transition shapes id name).2).propertyOffsets =
        (shapeAt shapes id).propertyOffsets ++ [(name, (shapeAt shapes id).propertyOffsets.length)] := by
  rw [transition]
  cases hmove : lookup (shapeAt shapes id).transitions name with
  | some target =>
      obtain ⟨htarget, howner, hoffsets⟩ := hsound.moves id hid name target hmove
      exact ⟨owner, hsound, Grown.refl _ _, htarget, howner, hoffsets⟩
  | none =>
      rw [getOffset] at hnew
      have hlaid := (hsound.laid id hid).append hnew
      rw [assign_new hnew]
      dsimp only
      generalize hoffsets : (shapeAt shapes id).propertyOffsets ++
        [(name, (shapeAt shapes id).propertyOffsets.length)] = offsets at hlaid
      obtain ⟨hpushed, hgrown⟩ := hsound.push hlaid (owner id)
      have hat := shapeAt_link hid { shapeAt shapes id with
        transitions := assign (shapeAt shapes id).transitions name shapes.length } ⟨offsets, []⟩
      have hlength : (shapes.set id { shapeAt shapes id with
          transitions := assign (shapeAt shapes id).transitions name shapes.length }).length =
          shapes.length := List.length_set
      generalize (shapes.set id { shapeAt shapes id with
          transitions := assign (shapeAt shapes id).transitions name shapes.length }) = changed
        at hat hlength ⊢
      have hoffsetsAt : ∀ id', (shapeAt (changed ++ [⟨offsets, []⟩]) id').propertyOffsets =
          (shapeAt (shapes ++ [⟨offsets, []⟩]) id').propertyOffsets := by
        intro id'
        rw [hat]
        split_ifs with hsame
        · rw [hsame, shapeAt_append, if_pos hid]
        · rfl
      have hlengths : (changed ++ [(⟨offsets, []⟩ : EZShape)]).length =
          (shapes ++ [(⟨offsets, []⟩ : EZShape)]).length := by
        rw [List.length_append, List.length_append, hlength]
      refine ⟨_, ⟨?_, ?_⟩, ⟨?_, ?_, hgrown.owned⟩, ?_, Function.update_self _ _ _, ?_⟩
      · intro id' hid'
        rw [hoffsetsAt]
        exact hpushed.laid id' (hlengths ▸ hid')
      · intro id' hid' name' target htarget
        rw [hat] at htarget
        rw [hoffsetsAt, hoffsetsAt, hlengths]
        split_ifs at htarget with hsame
        · rw [lookup_assign] at htarget
          split_ifs at htarget with hname
          · cases htarget
            rw [hsame, ← hname, shapeAt_append, if_neg (Nat.lt_irrefl _), if_pos rfl, shapeAt_append,
              if_pos hid, List.length_append, Function.update_self, hgrown.owned id hid]
            exact ⟨by simp, rfl, hoffsets.symm⟩
          · have hold := hpushed.moves id (hlengths ▸ (hsame ▸ hid')) name' target
            rw [shapeAt_append, if_pos hid] at hold
            rw [hsame, shapeAt_append shapes _ id, if_pos hid]
            exact hold htarget
        · exact hpushed.moves id' (hlengths ▸ hid') name' target htarget
      · rw [hlengths]
        exact hgrown.le
      · intro id' hid'
        rw [hoffsetsAt]
        exact hgrown.offsets id' hid'
      · rw [hlengths, List.length_append, List.length_singleton]
        omega
      · rw [hoffsetsAt, shapeAt_append, if_neg (Nat.lt_irrefl _), if_pos rfl]

/-! ### Instances -/

/-- An instance fits its shape, which its class owns, and has what was last written to each name. -/
structure Fits (shapes : List EZShape) (owner : Nat → Nat) (inst : EZInstance V)
    (written : CString → Option V) : Prop where
  inside : inst.shape < shapes.length
  sized : inst.propertyValues.length = (shapeAt shapes inst.shape).propertyOffsets.length
  owned : owner inst.shape = inst.klass
  values : ∀ name, own nil shapes inst name = written name

variable {nil site}
variable {shapes shapes' : List EZShape} {owner owner' : Nat → Nat} {inst : EZInstance V}
  {written : CString → Option V}

theorem Fits.grown (hfits : Fits nil shapes owner inst written)
    (hgrown : Grown shapes shapes' owner owner') : Fits nil shapes' owner' inst written where
  inside := Nat.lt_of_lt_of_le hfits.inside hgrown.le
  sized := by rw [hgrown.offsets _ hfits.inside, hfits.sized]
  owned := by rw [hgrown.owned _ hfits.inside, hfits.owned]
  values := by
    intro name
    rw [own, getOffset, hgrown.offsets _ hfits.inside]
    exact hfits.values name

/-- A value is written at the offset of its name. -/
theorem Fits.set (hfits : Fits nil shapes owner inst written) (hsound : ShapesSound shapes owner)
    {name : CString} {offset : Nat} (hoffset : getOffset (shapeAt shapes inst.shape) name = some offset)
    (value : V) :
    Fits nil shapes owner { inst with propertyValues := inst.propertyValues.set offset value }
      (Function.update written name (some value)) where
  inside := hfits.inside
  sized := by rw [List.length_set, hfits.sized]
  owned := hfits.owned
  values := by
    intro name'
    have hlaid := hsound.laid _ hfits.inside
    have hinside : offset < inst.propertyValues.length := by
      rw [hfits.sized]
      exact hlaid.lt_length hoffset
    have hbefore := hfits.values name'
    rw [own] at hbefore ⊢
    rw [Function.update_apply]
    by_cases hname : name' = name
    · rw [if_pos hname, hname, hoffset, Option.map_some, List.getD_eq_getElem?_getD, List.getElem?_set,
        if_pos rfl, if_pos hinside]
      rfl
    · rw [if_neg hname, ← hbefore]
      cases hoffset' : getOffset (shapeAt shapes inst.shape) name' with
      | none => rfl
      | some offset' =>
          have hne : offset ≠ offset' := by
            intro hsame
            exact hname (hlaid.injective hoffset' (hsame ▸ hoffset))
          rw [Option.map_some, Option.map_some, List.getD_eq_getElem?_getD, List.getD_eq_getElem?_getD,
            List.getElem?_set, if_neg hne]

/-- A value is added under a name its shape lacks. -/
theorem Fits.add (hfits : Fits nil shapes owner inst written) (hsound : ShapesSound shapes owner)
    {name : CString}
    (hnew : getOffset (shapeAt shapes inst.shape) name = none) {target : Nat}
    (htarget : target < shapes'.length) (howner : owner' target = owner inst.shape)
    (hoffsets : (shapeAt shapes' target).propertyOffsets =
      (shapeAt shapes inst.shape).propertyOffsets ++
        [(name, (shapeAt shapes inst.shape).propertyOffsets.length)]) (value : V) :
    Fits nil shapes' owner'
      { inst with shape := target, propertyValues := inst.propertyValues ++ [value] }
      (Function.update written name (some value)) where
  inside := htarget
  sized := by rw [hoffsets, List.length_append, List.length_append, hfits.sized]; rfl
  owned := by rw [howner, hfits.owned]
  values := by
    intro name'
    have hbefore := hfits.values name'
    rw [own, getOffset] at hbefore ⊢
    rw [hoffsets, lookup_append, Function.update_apply, ← hfits.sized]
    rw [getOffset] at hnew
    by_cases hname : name' = name
    · rw [if_pos hname, hname, hnew, Option.none_or, if_pos rfl, Option.map_some]
      simp
    · rw [if_neg hname, if_neg fun h => hname h.symm, Option.or_none, ← hbefore]
      cases hoffset' : lookup (shapeAt shapes inst.shape).propertyOffsets name' with
      | none => rfl
      | some offset' =>
          have hlt : offset' < inst.propertyValues.length := by
            rw [hfits.sized]
            exact (hsound.laid _ hfits.inside).lt_length hoffset'
          rw [Option.map_some, Option.map_some, List.getD_eq_getElem?_getD, List.getD_eq_getElem?_getD,
            List.getElem?_append_left hlt]

/-- The invariant of a store and of what was written. -/
structure Sound (nil : V) (site : Nat → CString) (t : Traced V) (owner : Nat → Nat) : Prop where
  shapes : ShapesSound t.store.shapes owner
  roots : ∀ klass id, t.store.initialShape[klass]? = some id → id < t.store.shapes.length ∧
    (shapeAt t.store.shapes id).propertyOffsets = [] ∧ owner id = klass
  instances : ∀ i inst, t.store.instances[i]? = some inst →
    Fits nil t.store.shapes owner inst (t.written i)
  caches : ∀ k id offset, t.store.caches k = some (id, offset) → id < t.store.shapes.length ∧
    getOffset (shapeAt t.store.shapes id) (site k) = some offset

/-- Every instance keeps its class and the offsets of its names. -/
def KeepsOffsets (s s' : Store V) : Prop :=
  ∀ (i : Nat) (inst : EZInstance V), s.instances[i]? = some inst →
    ∃ inst', s'.instances[i]? = some inst' ∧ inst'.klass = inst.klass ∧
      ∀ name offset, getOffset (shapeAt s.shapes inst.shape) name = some offset →
        getOffset (shapeAt s'.shapes inst'.shape) name = some offset

theorem KeepsOffsets.refl (s : Store V) : KeepsOffsets s s :=
  fun _ inst hinst => ⟨inst, hinst, rfl, fun _ _ h => h⟩

theorem KeepsOffsets.trans {s s' s'' : Store V} (h : KeepsOffsets s s') (h' : KeepsOffsets s' s'') :
    KeepsOffsets s s'' := by
  intro i inst hinst
  obtain ⟨inst', hinst', hklass, hoffsets⟩ := h i inst hinst
  obtain ⟨inst'', hinst'', hklass', hoffsets'⟩ := h' i inst' hinst'
  exact ⟨inst'', hinst'', hklass'.trans hklass, fun name offset hat =>
    hoffsets' name offset (hoffsets name offset hat)⟩

variable {t : Traced V}

/-- One instance is replaced while the tree of shapes grows. -/
theorem Sound.replace (hsound : Sound nil site t owner) (hshapes : ShapesSound shapes' owner')
    (hgrown : Grown t.store.shapes shapes' owner owner') {i : Nat} {inst' : EZInstance V}
    (hfits : Fits nil shapes' owner' inst' written) :
    Sound nil site
      ⟨{ t.store with shapes := shapes', instances := t.store.instances.set i inst' },
        Function.update t.written i written⟩ owner' where
  shapes := hshapes
  roots := by
    intro klass id hroot
    obtain ⟨hid, hoffsets, howner⟩ := hsound.roots klass id hroot
    refine ⟨Nat.lt_of_lt_of_le hid hgrown.le, ?_, ?_⟩
    · rw [hgrown.offsets id hid, hoffsets]
    · rw [hgrown.owned id hid, howner]
  instances := by
    intro j inst hinst
    rw [List.getElem?_set] at hinst
    by_cases hsame : i = j
    · rw [if_pos hsame] at hinst
      split_ifs at hinst
      cases hinst
      dsimp only
      rw [← hsame, Function.update_self]
      exact hfits
    · rw [if_neg hsame] at hinst
      dsimp only
      rw [Function.update_of_ne fun h => hsame h.symm]
      exact (hsound.instances j inst hinst).grown hgrown
  caches := by
    intro k id offset hcache
    obtain ⟨hid, hat⟩ := hsound.caches k id offset hcache
    refine ⟨Nat.lt_of_lt_of_le hid hgrown.le, ?_⟩
    rw [getOffset, hgrown.offsets id hid]
    exact hat

/-- The other instances keep their offsets when one is replaced, and it does where its shape keeps
them. -/
theorem Sound.keepsOffsets (hsound : Sound nil site t owner)
    (hgrown : Grown t.store.shapes shapes' owner owner') {i : Nat} {inst inst' : EZInstance V}
    (hinst : t.store.instances[i]? = some inst) (hklass : inst'.klass = inst.klass)
    (hoffsets : ∀ name offset, getOffset (shapeAt t.store.shapes inst.shape) name = some offset →
      getOffset (shapeAt shapes' inst'.shape) name = some offset) :
    KeepsOffsets t.store
      { t.store with shapes := shapes', instances := t.store.instances.set i inst' } := by
  intro j other hother
  dsimp only
  rw [List.getElem?_set]
  by_cases hsame : i = j
  · subst hsame
    rw [hinst] at hother
    cases hother
    obtain ⟨hlt, _⟩ := List.getElem?_eq_some_iff.mp hinst
    rw [if_pos rfl, if_pos hlt]
    exact ⟨inst', rfl, hklass, hoffsets⟩
  · rw [if_neg hsame]
    refine ⟨other, hother, rfl, fun name offset hat => ?_⟩
    rw [getOffset, hgrown.offsets _ (hsound.instances j other hother).inside]
    exact hat

/-- The setter. -/
theorem Sound.write (hsound : Sound nil site t owner) (i : Nat) (name : CString) (value : V) :
    ∃ owner', Sound nil site (t.write nil i name value) owner' ∧
      KeepsOffsets t.store (t.write nil i name value).store := by
  rw [Traced.write, Traced.note, Store.setProperty]
  cases hinst : t.store.instances[i]? with
  | none =>
      have hlong : ¬i < t.store.instances.length := by
        rw [List.getElem?_eq_none_iff] at hinst
        omega
      rw [if_neg hlong]
      exact ⟨owner, hsound, KeepsOffsets.refl _⟩
  | some inst =>
      obtain ⟨hlt, _⟩ := List.getElem?_eq_some_iff.mp hinst
      have hfits := hsound.instances i inst hinst
      rw [if_pos hlt]
      dsimp only
      cases hoffset : getOffset (shapeAt t.store.shapes inst.shape) name with
      | some offset =>
          have hgrown := Grown.refl t.store.shapes owner
          exact ⟨owner, hsound.replace hsound.shapes hgrown (hfits.set hsound.shapes hoffset value),
            hsound.keepsOffsets hgrown hinst rfl fun _ _ h => h⟩
      | none =>
          obtain ⟨owner', hshapes, hgrown, htarget, howner, hoffsets⟩ :=
            transition_spec hsound.shapes hfits.inside hoffset
          have hadded : getOffset (shapeAt (transition t.store.shapes inst.shape name).1
              (transition t.store.shapes inst.shape name).2) name = some inst.propertyValues.length := by
            rw [getOffset] at hoffset
            rw [getOffset, hoffsets, lookup_append, hoffset, Option.none_or, if_pos rfl, hfits.sized]
          have hrow : (if inst.propertyValues.length ≤ inst.propertyValues.length then
              inst.propertyValues ++ List.replicate (inst.propertyValues.length + 1 -
                inst.propertyValues.length) nil
              else inst.propertyValues).set inst.propertyValues.length value =
              inst.propertyValues ++ [value] := by
            rw [if_pos (Nat.le_refl _), Nat.add_sub_cancel_left, List.set_append_right _ _ (Nat.le_refl _),
              Nat.sub_self]
            rfl
          dsimp only
          rw [hadded]
          dsimp only
          rw [hrow]
          refine ⟨owner', hsound.replace hshapes hgrown
            (hfits.add hsound.shapes hoffset htarget howner hoffsets value), ?_⟩
          refine hsound.keepsOffsets hgrown hinst ?_ ?_
          · rfl
          · intro name' offset' hat
            rw [getOffset] at hat
            rw [getOffset, hoffsets, lookup_append, hat, Option.some_or]

/-- A cache is filled with the offset of its name. -/
theorem Sound.remember (hsound : Sound nil site t owner) (k i : Nat) :
    Sound nil site ⟨t.store.remember site k i, t.written⟩ owner ∧
      KeepsOffsets t.store (t.store.remember site k i) := by
  rw [Store.remember]
  cases hinst : t.store.instances[i]? with
  | none => exact ⟨hsound, KeepsOffsets.refl _⟩
  | some inst =>
      dsimp only
      cases hoffset : getOffset (shapeAt t.store.shapes inst.shape) (site k) with
      | none => exact ⟨hsound, KeepsOffsets.refl _⟩
      | some offset =>
          refine ⟨⟨hsound.shapes, hsound.roots, hsound.instances, ?_⟩,
            fun j other hother => ⟨other, hother, rfl, fun _ _ h => h⟩⟩
          intro k' id offset' hcache
          dsimp only at hcache
          rw [Function.update_apply] at hcache
          split_ifs at hcache with hsame
          · cases hcache
            rw [hsame]
            exact ⟨(hsound.instances i inst hinst).inside, hoffset⟩
          · exact hsound.caches k' id offset' hcache

/-- A store by a property instruction does what the setter does. -/
theorem Sound.cachedStore (hsound : Sound nil site t owner) (k i : Nat) (value : V) :
    ∃ owner', Sound nil site ⟨t.store.cachedStore nil site k i value, t.note i (site k) value⟩ owner' ∧
      KeepsOffsets t.store (t.store.cachedStore nil site k i value) := by
  have hmiss : ∃ owner', Sound nil site
      ⟨(t.store.setProperty nil i (site k) value).remember site k i, t.note i (site k) value⟩ owner' ∧
      KeepsOffsets t.store ((t.store.setProperty nil i (site k) value).remember site k i) := by
    obtain ⟨owner', hwritten, hkeeps⟩ := hsound.write i (site k) value
    obtain ⟨hremembered, hkeeps'⟩ := hwritten.remember k i
    exact ⟨owner', hremembered, hkeeps.trans hkeeps'⟩
  rw [Store.cachedStore]
  cases hinst : t.store.instances[i]? with
  | none => exact hmiss
  | some inst =>
      cases hcache : t.store.caches k with
      | none => exact hmiss
      | some entry =>
          obtain ⟨shape, offset⟩ := entry
          dsimp only
          split_ifs with hshape
          · -- the remembered offset is that of the instruction's name in this shape
            subst hshape
            obtain ⟨_, hoffset⟩ := hsound.caches k inst.shape offset hcache
            obtain ⟨hlt, _⟩ := List.getElem?_eq_some_iff.mp hinst
            have hfits := hsound.instances i inst hinst
            have hgrown := Grown.refl t.store.shapes owner
            rw [Traced.note, if_pos hlt]
            exact ⟨owner, hsound.replace hsound.shapes hgrown (hfits.set hsound.shapes hoffset value),
              hsound.keepsOffsets hgrown hinst rfl fun _ _ h => h⟩
          · exact hmiss

/-- `rollback` writes one property after the other. -/
theorem Sound.rollback (hsound : Sound nil site t owner) (i : Nat) (snap : List (CString × V)) :
    ∃ owner', Sound nil site (snap.foldl (fun t pair => t.write nil i pair.1 pair.2) t) owner' ∧
      KeepsOffsets t.store (snap.foldl (fun t pair => t.write nil i pair.1 pair.2) t).store := by
  induction snap generalizing t owner with
  | nil => exact ⟨owner, hsound, KeepsOffsets.refl _⟩
  | cons pair snap ih =>
      obtain ⟨owner', hwritten, hkeeps⟩ := hsound.write i pair.1 pair.2
      obtain ⟨owner'', hrest, hkeeps'⟩ := ih hwritten
      exact ⟨owner'', hrest, hkeeps.trans hkeeps'⟩

/-- The rebuilt layout counts the properties up. -/
theorem rebuilt_eq {props : List (CString × V)} (hnodup : (props.map Prod.fst).Nodup) :
    Store.rebuilt props = ((props.map Prod.fst).zipIdx, props.map Prod.snd) := by
  rw [Store.rebuilt]
  induction props using List.reverseRecOn with
  | nil => rfl
  | append_singleton props prop ih =>
      rw [List.map_append, List.nodup_append] at hnodup
      have hnew : lookup ((props.map Prod.fst).zipIdx) prop.1 = none := by
        rw [lookup_none_iff, List.zipIdx_map_fst]
        intro hmem
        exact hnodup.2.2 prop.1 hmem prop.1 (by simp) rfl
      rw [List.foldl_append, ih hnodup.1, List.foldl_cons, List.foldl_nil, assign_new hnew, List.map_append,
        List.map_append, List.zipIdx_append, List.length_map, List.length_map]
      simp

theorem own_rebuilt {props : List (CString × V)} (hnodup : (props.map Prod.fst).Nodup) (name : CString) :
    (lookup (Store.rebuilt props).1 name).map (fun offset => (Store.rebuilt props).2.getD offset nil) =
      lookup props name := by
  rw [rebuilt_eq hnodup]
  cases hprop : lookup props name with
  | none =>
      have hmissing : lookup ((props.map Prod.fst).zipIdx) name = none := by
        rw [lookup_none_iff, List.zipIdx_map_fst, ← lookup_none_iff, hprop]
      rw [hmissing, Option.map_none]
  | some value =>
      obtain ⟨o, ho⟩ := List.mem_iff_getElem?.mp (mem_of_lookup hprop)
      have hkeys : (((props.map Prod.fst).zipIdx).map Prod.fst).Nodup := by
        rw [List.zipIdx_map_fst]
        exact hnodup
      have hat : lookup ((props.map Prod.fst).zipIdx) name = some o := by
        rw [lookup_eq_some_iff hkeys, List.mk_mem_zipIdx_iff_getElem?, List.getElem?_map, ho]
        rfl
      rw [hat, Option.map_some, List.getD_eq_getElem?_getD, List.getElem?_map, ho]
      rfl

theorem Sound.modifyProperties (hsound : Sound nil site t owner) (i : Nat) {props : List (CString × V)}
    (hnodup : (props.map Prod.fst).Nodup) :
    ∃ owner', Sound nil site (t.step nil site (.modifyProperties i props hnodup)) owner' := by
  rw [Traced.step, Store.modifyProperties]
  cases hinst : t.store.instances[i]? with
  | none =>
      have hlong : ¬i < t.store.instances.length := by
        rw [List.getElem?_eq_none_iff] at hinst
        omega
      rw [if_neg hlong]
      exact ⟨owner, hsound⟩
  | some inst =>
      obtain ⟨hlt, _⟩ := List.getElem?_eq_some_iff.mp hinst
      have hlaid : Laid (Store.rebuilt props).1 := ⟨props.map Prod.fst, hnodup, by rw [rebuilt_eq hnodup]⟩
      obtain ⟨hshapes, hgrown⟩ := hsound.shapes.push hlaid inst.klass
      rw [if_pos hlt]
      refine ⟨_, hsound.replace hshapes hgrown ⟨?_, ?_, ?_, ?_⟩⟩
      · rw [List.length_append, List.length_singleton]
        exact Nat.lt_succ_self _
      · rw [shapeAt_append, if_neg (Nat.lt_irrefl _), if_pos rfl, rebuilt_eq hnodup]
        simp
      · exact Function.update_self _ _ _
      · intro name
        rw [own, getOffset, shapeAt_append, if_neg (Nat.lt_irrefl _), if_pos rfl]
        exact own_rebuilt hnodup name

theorem sound_start : Sound nil site (Traced.start : Traced V) fun _ => 0 where
  shapes := ⟨fun _ hid => absurd hid (Nat.not_lt_zero _), fun _ hid => absurd hid (Nat.not_lt_zero _)⟩
  roots := fun _ _ hroot => nomatch hroot
  instances := fun _ _ hinst => nomatch hinst
  caches := fun _ _ _ hcache => nomatch hcache

/-- A class starts with an empty shape of its own. -/
theorem Sound.newClass (hsound : Sound nil site t owner) :
    ∃ owner', Sound nil site (t.step nil site .newClass) owner' ∧
      KeepsOffsets t.store (t.step nil site .newClass).store := by
  have hempty : Laid [] := ⟨[], List.nodup_nil, rfl⟩
  obtain ⟨hshapes, hgrown⟩ := hsound.shapes.push hempty t.store.initialShape.length
  refine ⟨_, ⟨hshapes, ?_, ?_, ?_⟩, ?_⟩
  · intro klass id hroot
    rw [Traced.step] at hroot ⊢
    dsimp only at hroot ⊢
    rw [List.getElem?_append] at hroot
    split_ifs at hroot with hlt
    · obtain ⟨hid, hoffsets, howner⟩ := hsound.roots klass id hroot
      refine ⟨Nat.lt_of_lt_of_le hid hgrown.le, ?_, ?_⟩
      · exact (hgrown.offsets id hid).trans hoffsets
      · rw [hgrown.owned id hid, howner]
    · rw [List.getElem?_singleton] at hroot
      split_ifs at hroot with hlast
      cases hroot
      have hklass : klass = t.store.initialShape.length := by omega
      rw [List.length_append, List.length_singleton, shapeAt_append, if_neg (Nat.lt_irrefl _), if_pos rfl,
        Function.update_self, hklass]
      exact ⟨Nat.lt_succ_self _, rfl, rfl⟩
  · intro i inst hinst
    exact (hsound.instances i inst hinst).grown hgrown
  · intro k id offset hcache
    obtain ⟨hid, hat⟩ := hsound.caches k id offset hcache
    refine ⟨Nat.lt_of_lt_of_le hid hgrown.le, ?_⟩
    rw [getOffset, ← hat, getOffset]
    exact congrArg (lookup · (site k)) (hgrown.offsets id hid)
  · intro i inst hinst
    refine ⟨inst, hinst, rfl, fun name offset hat => ?_⟩
    rw [getOffset, ← hat, getOffset]
    exact congrArg (lookup · name) (hgrown.offsets _ (hsound.instances i inst hinst).inside)

/-- A new instance has the initial shape of its class and no values. -/
theorem Sound.newInstance (hsound : Sound nil site t owner) (klass : Nat) :
    Sound nil site (t.step nil site (.newInstance klass)) owner ∧
      KeepsOffsets t.store (t.step nil site (.newInstance klass)).store := by
  rw [Traced.step]
  cases hroot : t.store.initialShape[klass]? with
  | none => exact ⟨hsound, KeepsOffsets.refl _⟩
  | some shape =>
      obtain ⟨hid, hoffsets, howner⟩ := hsound.roots klass shape hroot
      refine ⟨⟨hsound.shapes, hsound.roots, ?_, hsound.caches⟩, ?_⟩
      · intro i inst hinst
        dsimp only at hinst ⊢
        rw [List.getElem?_append] at hinst
        split_ifs at hinst with hlt
        · rw [Function.update_of_ne (Nat.ne_of_lt hlt)]
          exact hsound.instances i inst hinst
        · rw [List.getElem?_singleton] at hinst
          split_ifs at hinst with hlast
          cases hinst
          have hi : i = t.store.instances.length := by omega
          rw [hi, Function.update_self]
          refine ⟨hid, ?_, howner, fun name => ?_⟩
          · rw [hoffsets]
            rfl
          · rw [own, getOffset, hoffsets]
            rfl
      · intro i inst hinst
        obtain ⟨hlt, _⟩ := List.getElem?_eq_some_iff.mp hinst
        refine ⟨inst, ?_, rfl, fun _ _ h => h⟩
        dsimp only
        rw [List.getElem?_append_left hlt, hinst]

/-- The labels that give an instance no layout of its own. -/
def Label.shared : Label V → Prop
  | .modifyProperties _ _ _ => False
  | _ => True

theorem Sound.step (hsound : Sound nil site t owner) (label : Label V) :
    ∃ owner', Sound nil site (t.step nil site label) owner' ∧
      (label.shared → KeepsOffsets t.store (t.step nil site label).store) := by
  cases label with
  | newClass =>
      obtain ⟨owner', hstep, hkeeps⟩ := hsound.newClass
      exact ⟨owner', hstep, fun _ => hkeeps⟩
  | newInstance klass =>
      obtain ⟨hstep, hkeeps⟩ := hsound.newInstance klass
      exact ⟨owner, hstep, fun _ => hkeeps⟩
  | setProperty i name value =>
      obtain ⟨owner', hstep, hkeeps⟩ := hsound.write i name value
      exact ⟨owner', hstep, fun _ => hkeeps⟩
  | cachedStore k i value =>
      obtain ⟨owner', hstep, hkeeps⟩ := hsound.cachedStore k i value
      exact ⟨owner', hstep, fun _ => hkeeps⟩
  | cachedLoad k i =>
      obtain ⟨hstep, hkeeps⟩ := hsound.remember k i
      exact ⟨owner, hstep, fun _ => hkeeps⟩
  | rollback i snap =>
      obtain ⟨owner', hstep, hkeeps⟩ := hsound.rollback i snap
      exact ⟨owner', hstep, fun _ => hkeeps⟩
  | modifyProperties i props hnodup =>
      obtain ⟨owner', hstep⟩ := hsound.modifyProperties i hnodup
      exact ⟨owner', hstep, fun hshared => hshared.elim⟩

theorem sound_run (nil : V) (site : Nat → CString) (labels : List (Label V)) :
    ∃ owner, Sound nil site (Traced.run nil site labels) owner := by
  induction labels using List.reverseRecOn with
  | nil => exact ⟨_, sound_start⟩
  | append_singleton labels label ih =>
      obtain ⟨owner, hsound⟩ := ih
      obtain ⟨owner', hstep, _⟩ := hsound.step label
      rw [Traced.run, List.foldl_append]
      exact ⟨owner', hstep⟩

/-! ### Reading -/

/-- `EZInstance::getProperty`, with the class values and with what the classes' hierarchies have. -/
def getProperty (nil : V) (classValue : Nat → V) (member : Nat → CString → Option V)
    (shapes : List EZShape) (inst : EZInstance V) (name : CString) : V :=
  if name = lit "__class__" then classValue inst.klass
  else
    match getOffset (shapeAt shapes inst.shape) name with
    | some offset => inst.propertyValues.getD offset nil
    | none => (member inst.klass name).getD nil

theorem Fits.getProperty (hfits : Fits nil shapes owner inst written) (classValue : Nat → V)
    (member : Nat → CString → Option V) {name : CString} (hname : name ≠ lit "__class__") :
    getProperty nil classValue member shapes inst name =
      (written name).getD ((member inst.klass name).getD nil) := by
  rw [InstanceLayout.getProperty, if_neg hname, ← hfits.values name, own]
  cases getOffset (shapeAt shapes inst.shape) name <;> rfl

/-- The offsets of an instance's names are a bijection onto the places of its values. -/
theorem Fits.bijective (hfits : Fits nil shapes owner inst written) (hsound : ShapesSound shapes owner) :
    ((shapeAt shapes inst.shape).propertyOffsets.map Prod.fst).Nodup ∧
    ((shapeAt shapes inst.shape).propertyOffsets.map Prod.snd).Perm
      (List.range inst.propertyValues.length) := by
  rw [hfits.sized]
  exact (hsound.laid _ hfits.inside).bijective

/-- The value at an offset is what was last written to the offset's name. -/
theorem Fits.at_offset (hfits : Fits nil shapes owner inst written) (hsound : ShapesSound shapes owner)
    {name : CString} {offset : Nat} (hat : getOffset (shapeAt shapes inst.shape) name = some offset) :
    inst.propertyValues[offset]? = written name ∧ offset < inst.propertyValues.length := by
  have hinside : offset < inst.propertyValues.length := by
    rw [hfits.sized]
    exact (hsound.laid _ hfits.inside).lt_length hat
  rw [← hfits.values name, own, hat, Option.map_some, List.getD_eq_getElem?_getD,
    List.getElem?_eq_getElem hinside]
  exact ⟨rfl, hinside⟩

/-- One instance of one class, with the number `1` written to `__class__` and to `a`. -/
def writtenClass : List (Label Nat) :=
  [.newClass, .newInstance 0, .setProperty 0 (lit "__class__") 1, .setProperty 0 (lit "a") 1]

end InstanceLayout

end EZLanguage
