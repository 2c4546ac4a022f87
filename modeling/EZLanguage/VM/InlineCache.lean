import EZLanguage.VM.MethodFusion

/-!
# Inline caches

A property instruction keeps an entry with a shape key and a class key. The keys are filled on different
paths, never cleared, and looked at before the visibility check and before the rule that a field hides a
method. An entry that was filled from the objects the instruction has met answers for the next object as
the slow path would, provided that no class hit meets a field of the name, no shape hit is for
`__class__`, and the classes stay as they were declared.
-/

namespace EZLanguage

/-- The name and the inline cache of a property instruction. -/
def Instr.site : Instr → Option (CString × Nat)
  | .LOAD_PROPERTY name ic | .STORE_PROPERTY name ic | .INTERCEPTED_STORE_PROPERTY name ic
  | .INVOKE_METHOD name ic _ => some (name, ic)
  | _ => none

namespace Local

/-- The instance a property instruction works on. -/
def receiver (i : Instr) (l : Local) : Option Nat :=
  match i, l.ops with
  | .LOAD_PROPERTY _ _, .inst r :: _ => some r
  | .STORE_PROPERTY _ _, _ :: .inst r :: _ => some r
  | .INTERCEPTED_STORE_PROPERTY _ _, _ :: .inst r :: _ => some r
  | .INVOKE_METHOD _ _ argCount, ops =>
      match ops.drop argCount with
      | .inst r :: _ => some r
      | _ => none
  | _, _ => none

example (l : Local) (argCount : Nat) : receiver (.CALL argCount) l = none := by simp [receiver]

/-- The state with the entry emptied. -/
def forget (l : Local) (icIdx : Nat) : Local := l.setIC icIdx .empty

/-- The class of an instance. -/
def klassOf (l : Local) (r : Nat) : Nat := (l.shared.instances r).klass

/-- Two states differ in their inline caches alone. -/
def Alike (l l' : Local) : Prop := l.withoutCaches = l'.withoutCaches

end Local

def Exit.withoutCaches : Exit → Exit
  | dispatch l => dispatch l.withoutCaches
  | raiseFault l => raiseFault l.withoutCaches
  | leave l => leave l.withoutCaches
  | pushFrame l frame upvalues => pushFrame l.withoutCaches frame upvalues
  | returned l result => returned l.withoutCaches result
  | thrown l exc => thrown l.withoutCaches exc
  | finallyEnd l => finallyEnd l.withoutCaches
  | tryStart l catchIp => tryStart l.withoutCaches catchIp
  | tryEnd l => tryEnd l.withoutCaches
  | yielded l => yielded l.withoutCaches
  | ended l => ended l.withoutCaches
  | malformed => malformed

section Outcomes

variable (rt : Runtime) (ctx : Ctx)

/-- A call, and how its instruction goes on. -/
def callThen (next : Dispatched → Exit) (l : Local) (callee : Value) (argCount : Nat)
    (callSite : Option Nat) : Proc Exit :=
  dispatchCall rt ctx callee l argCount callSite >>= fun called => pure (next called)

/-- The two ways in which an instruction goes on after a call. -/
def GoesOn (next : Dispatched → Exit) : Prop :=
  next = Dispatched.dispatchOrReturn ∨ next = Dispatched.dispatchOrRefresh

/-- Two handlers end alike or make the same call and go on with it alike, up to the inline caches. -/
inductive SameOutcome : Proc Exit → Proc Exit → Prop
  | exit {e e' : Exit} (h : e.withoutCaches = e'.withoutCaches) : SameOutcome (pure e) (pure e')
  | call {next : Dispatched → Exit} (hnext : GoesOn next) (callee : Value) (argCount : Nat)
      (callSite : Option Nat) {l l' : Local} (h : l.Alike l') :
      SameOutcome (callThen rt ctx next l callee argCount callSite)
        (callThen rt ctx next l' callee argCount callSite)

end Outcomes

/-! ### States that differ in their caches alone -/

namespace Local.Alike

variable {l l' : Local}

theorem refl (l : Local) : l.Alike l := rfl

theorem symm (h : l.Alike l') : l'.Alike l := Eq.symm h

theorem trans {l'' : Local} (h : l.Alike l') (h' : l'.Alike l'') : l.Alike l'' := Eq.trans h h'

/-- Two such states agree in all that does not depend on the caches. -/
theorem read {α : Type} (h : l.Alike l') (f : Local → α) (hf : ∀ m, f m.withoutCaches = f m) :
    f l = f l' := by
  rw [← hf l, ← hf l', show l.withoutCaches = l'.withoutCaches from h]

theorem forget (l : Local) (icIdx : Nat) : l.Alike (l.forget icIdx) :=
  (withoutCaches_setIC l icIdx .empty).symm

theorem ops (h : l.Alike l') : l.ops = l'.ops := h.read Local.ops fun _ => rfl

theorem instances (h : l.Alike l') : l.shared.instances = l'.shared.instances :=
  h.read (fun m => m.shared.instances) fun _ => rfl

theorem classes (h : l.Alike l') : l.shared.classes = l'.shared.classes :=
  h.read (fun m => m.shared.classes) fun _ => rfl

theorem className (h : l.Alike l') : l.function.className = l'.function.className :=
  h.read (fun m => m.function.className) fun _ => rfl

theorem klassOf (h : l.Alike l') (r : Nat) : l.klassOf r = l'.klassOf r := by
  rw [Local.klassOf, Local.klassOf, h.instances]

theorem unchanged (h : l.Alike l') (r : Nat) : Unchanged l'.shared l.shared (.inst r) :=
  ⟨congrFun h.instances r, fun c _ => congrFun h.classes c⟩

theorem hidden (h : l.Alike l') (klass : Nat) (name : CString) :
    l.hidden klass name = l'.hidden klass name :=
  hidden_congr h.className (fun c _ => congrFun h.classes c) name

theorem hasProperty (h : l.Alike l') (r : Nat) (name : CString) :
    l.shared.hasProperty r name = l'.shared.hasProperty r name :=
  hasProperty_congr (h.unchanged r) name

theorem getProperty (h : l.Alike l') (r : Nat) (name : CString) :
    l.shared.getProperty r name = l'.shared.getProperty r name :=
  getProperty_congr (h.unchanged r) name

theorem findGetattrHook (h : l.Alike l') (r : Nat) (name : CString) :
    l.shared.findGetattrHook (.inst r) name = l'.shared.findGetattrHook (.inst r) name :=
  findGetattrHook_inst_congr (h.unchanged r) name

theorem findSetattrHook (h : l.Alike l') (r : Nat) (name : CString) :
    l.shared.findSetattrHook r name = l'.shared.findSetattrHook r name := by
  rw [Shared.findSetattrHook, Shared.findSetattrHook, h.instances, h.classes,
    findMethod_congr fun c _ => congrFun h.classes c]

theorem withOps (h : l.Alike l') (ops : List Value) : (l.withOps ops).Alike (l'.withOps ops) :=
  congrArg (fun m => Local.withOps m ops) (show l.withoutCaches = l'.withoutCaches from h)

theorem push (h : l.Alike l') (v : Value) : (l.push v).Alike (l'.push v) := by
  rw [Local.push, Local.push, h.ops]
  exact h.withOps _

/-- A change of the shared state that does not look at the functions. -/
theorem withShared (h : l.Alike l') (f : Shared → Shared)
    (hf : ∀ s, (f s).withoutCaches = f s.withoutCaches) :
    (l.withShared (f l.shared)).Alike (l'.withShared (f l'.shared)) := by
  have hcommutes : ∀ m : Local, (m.withShared (f m.shared)).withoutCaches =
      m.withoutCaches.withShared (f m.withoutCaches.shared) := by
    intro m
    show m.withShared (f m.shared).withoutCaches = m.withShared (f m.shared.withoutCaches)
    rw [hf]
  rw [Alike, hcommutes, hcommutes, show l.withoutCaches = l'.withoutCaches from h]

theorem setProperty (h : l.Alike l') (r : Nat) (name : CString) (v : Value) :
    (l.withShared (l.shared.setProperty r name v)).Alike
      (l'.withShared (l'.shared.setProperty r name v)) := by
  refine h.withShared (fun s => s.setProperty r name v) fun s => ?_
  show (s.setProperty r name v).withoutCaches = s.withoutCaches.setProperty r name v
  rw [Shared.setProperty, Shared.setProperty]
  rw [show (s.withoutCaches.instances r).shape = (s.instances r).shape from rfl]
  cases (s.instances r).shape.getOffset name <;> rfl

theorem throwException (h : l.Alike l') (className message : CString) :
    (l.throwException className message).Alike (l'.throwException className message) := by
  refine h.withShared (fun s => s.throwException className message) fun s => ?_
  show (s.throwException className message).withoutCaches =
    s.withoutCaches.throwException className message
  rw [Shared.throwException, Shared.throwException]
  rw [show s.withoutCaches.getGlobal className = s.getGlobal className from rfl]
  cases s.getGlobal className with
  | klass k =>
      dsimp only
      rw [Shared.setProperty, Shared.setProperty]
      rw [show ((s.withoutCaches.newInstance k).2.instances (s.withoutCaches.newInstance k).1).shape =
        ((s.newInstance k).2.instances (s.newInstance k).1).shape from rfl]
      cases ((s.newInstance k).2.instances (s.newInstance k).1).shape.getOffset (lit "message") <;> rfl
  | _ => rfl

theorem runtimeError (h : l.Alike l') (message : CString) :
    (l.runtimeError message).Alike (l'.runtimeError message) :=
  h.withShared (fun s => s.runtimeError message) fun _ => rfl

theorem hiddenError (h : l.Alike l') (klass : Nat) (name : CString) :
    (l.hiddenError klass name).Alike (l'.hiddenError klass name) := by
  rw [Local.hiddenError, Local.hiddenError, h.classes]
  exact h.runtimeError _

theorem of_setIC (h : l.Alike l') (icIdx : Nat) (entry : ICCacheEntry) :
    (l.setIC icIdx entry).Alike l' :=
  (withoutCaches_setIC l icIdx entry).trans h

end Local.Alike

/-! ### A hit that answers as the lookup does -/

namespace Local

variable (l : Local) (r : Nat) (name : CString) (icIdx : Nat)

def ShapeHits : Prop := (l.icEntry icIdx).shape = some (l.shared.instances r).shape

def ClassHits : Prop := (l.icEntry icIdx).klass = some (l.klassOf r)

instance : Decidable (l.ShapeHits r icIdx) :=
  inferInstanceAs (Decidable ((l.icEntry icIdx).shape = some (l.shared.instances r).shape))

instance : Decidable (l.ClassHits r icIdx) :=
  inferInstanceAs (Decidable ((l.icEntry icIdx).klass = some (l.klassOf r)))

/-- Where the entry is used for the instance, it is for a visible member and has the offset of the
field or the declared method. -/
structure HitsTruly : Prop where
  shape : l.ShapeHits r icIdx → l.hidden (l.klassOf r) name = false ∧
    (l.shared.instances r).shape.getOffset name = some (l.icEntry icIdx).offset
  klass : l.ClassHits r icIdx → l.hidden (l.klassOf r) name = false ∧ name ≠ lit "__class__" ∧
    l.shared.chainMethod (l.klassOf r) name = (l.icEntry icIdx).methodValue ∧
    (l.icEntry icIdx).methodValue.isMethodKind = true

theorem icEntry_forget : (l.forget icIdx).icEntry icIdx = .empty := by
  rw [icEntry, forget, function, setIC, withShared]
  show ((Function.update l.shared.functions l.frame.function _ l.frame.function).icEntries[icIdx]?).getD _ = _
  rw [Function.update_self, List.getElem?_set_self']
  cases (l.function.icEntries[icIdx]?) <;> rfl

theorem forget_misses : ¬(l.forget icIdx).ShapeHits r icIdx ∧ ¬(l.forget icIdx).ClassHits r icIdx := by
  rw [ShapeHits, ClassHits, icEntry_forget]
  constructor <;> exact Option.some_ne_none _ ∘ Eq.symm

end Local

namespace Handler

open Local

variable {rt : Runtime} {ctx : Ctx} {l l' : Local} {r : Nat} {name : CString} {icIdx : Nat}

theorem noProperty_alike (h : l.Alike l') : (noProperty rt l r name).Alike (noProperty rt l' r name) := by
  have hnames : l.shared.instanceNames r = l'.shared.instanceNames r := by
    rw [Shared.instanceNames, Shared.instanceNames, h.instances, h.classes,
      ancestors_congr fun c _ => congrFun h.classes c]
  rw [noProperty, noProperty, h.instances, h.classes, hnames]
  exact h.throwException _ _

theorem cacheShape_self (l : Local) (r : Nat) (name : CString) (icIdx : Nat) :
    (cacheShape l r name icIdx).Alike l := by
  rw [cacheShape]
  cases (l.shared.instances r).shape.getOffset name with
  | none => exact Alike.refl l
  | some offset => exact (Alike.refl l).of_setIC _ _

theorem cacheShape_alike (h : l.Alike l') :
    (cacheShape l r name icIdx).Alike (cacheShape l' r name icIdx) :=
  ((cacheShape_self l r name icIdx).trans h).trans (cacheShape_self l' r name icIdx).symm

theorem cacheMethod_self (l : Local) (r : Nat) (m : Value) (icIdx : Nat) :
    (cacheMethod l r m icIdx).Alike l := (Alike.refl l).of_setIC _ _

theorem cacheMethod_alike (h : l.Alike l') (m : Value) :
    (cacheMethod l r m icIdx).Alike (cacheMethod l' r m icIdx) :=
  ((cacheMethod_self l r m icIdx).trans h).trans (cacheMethod_self l' r m icIdx).symm

theorem load_of_shapeHit (hhit : l.ShapeHits r icIdx) :
    loadInstanceProperty rt ctx l r name icIdx = pure (Exit.dispatch
      (l.push (((l.shared.instances r).propertyValues[(l.icEntry icIdx).offset]?).getD .nil))) :=
  if_pos hhit

theorem load_of_classHit (hmiss : ¬l.ShapeHits r icIdx) (hhit : l.ClassHits r icIdx) :
    loadInstanceProperty rt ctx l r name icIdx = pure (Exit.dispatch
      (l.push (.boundMethod (.inst r) (l.icEntry icIdx).methodValue))) :=
  (if_neg hmiss).trans (if_pos hhit)

/-- The slow path of a read. -/
theorem load_of_miss (hshape : ¬l.ShapeHits r icIdx) (hklass : ¬l.ClassHits r icIdx) :
    loadInstanceProperty rt ctx l r name icIdx =
      if l.hidden (l.klassOf r) name = true then pure (.leave (l.hiddenError (l.klassOf r) name))
      else if (l.shared.getProperty r name).isNil = true ∧ ¬l.shared.hasProperty r name = true then
        if (l.shared.findGetattrHook (.inst r) name).isCallable = true then
          callAndReturn rt ctx
            ((l.push (.boundMethod (.inst r) (l.shared.findGetattrHook (.inst r) name))).push
              (.string name))
            (.boundMethod (.inst r) (l.shared.findGetattrHook (.inst r) name)) 1
        else pure (.raiseFault (noProperty rt l r name))
      else if l.shared.hasProperty r name = true then
        pure (.dispatch ((cacheShape l r name icIdx).push (l.shared.getProperty r name)))
      else if (l.shared.getProperty r name).isMethodKind = true then
        pure (.dispatch ((cacheMethod l r (l.shared.getProperty r name) icIdx).push
          (.boundMethod (.inst r) (l.shared.getProperty r name))))
      else pure (.dispatch (l.push (l.shared.getProperty r name))) :=
  (if_neg hshape).trans (if_neg hklass)

/-- Two reads that miss the caches. -/
theorem load_misses (h : l.Alike l') (hmiss : ¬l.ShapeHits r icIdx ∧ ¬l.ClassHits r icIdx)
    (hmiss' : ¬l'.ShapeHits r icIdx ∧ ¬l'.ClassHits r icIdx) :
    SameOutcome rt ctx (loadInstanceProperty rt ctx l r name icIdx)
      (loadInstanceProperty rt ctx l' r name icIdx) := by
  rw [load_of_miss hmiss.1 hmiss.2, load_of_miss hmiss'.1 hmiss'.2, h.klassOf, h.hidden,
    h.hasProperty, h.getProperty, h.findGetattrHook]
  by_cases hhidden : l'.hidden (l'.klassOf r) name = true
  · rw [if_pos hhidden, if_pos hhidden]
    exact .exit (congrArg Exit.leave (h.hiddenError _ _))
  rw [if_neg hhidden, if_neg hhidden]
  by_cases hnil : (l'.shared.getProperty r name).isNil = true ∧ ¬l'.shared.hasProperty r name = true
  · rw [if_pos hnil, if_pos hnil]
    by_cases hhook : (l'.shared.findGetattrHook (.inst r) name).isCallable = true
    · rw [if_pos hhook, if_pos hhook]
      exact .call (Or.inl rfl) _ _ _ ((h.push _).push _)
    · rw [if_neg hhook, if_neg hhook]
      exact .exit (congrArg Exit.raiseFault (noProperty_alike h))
  rw [if_neg hnil, if_neg hnil]
  by_cases hfield : l'.shared.hasProperty r name = true
  · rw [if_pos hfield, if_pos hfield]
    exact .exit (congrArg Exit.dispatch ((cacheShape_alike h).push _))
  rw [if_neg hfield, if_neg hfield]
  by_cases hmethod : (l'.shared.getProperty r name).isMethodKind = true
  · rw [if_pos hmethod, if_pos hmethod]
    exact .exit (congrArg Exit.dispatch ((cacheMethod_alike h _).push _))
  · rw [if_neg hmethod, if_neg hmethod]
    exact .exit (congrArg Exit.dispatch (h.push _))

/-- A read that hits the shape key. -/
theorem load_shapeHit (htrue : l.HitsTruly r name icIdx) (hhit : l.ShapeHits r icIdx)
    (hname : name ≠ lit "__class__") :
    SameOutcome rt ctx (loadInstanceProperty rt ctx l r name icIdx)
      (loadInstanceProperty rt ctx (l.forget icIdx) r name icIdx) := by
  have h := Alike.forget l icIdx
  obtain ⟨hshape', hklass'⟩ := l.forget_misses r icIdx
  obtain ⟨hvisible, hoffset⟩ := htrue.shape hhit
  have hfield : l.shared.hasProperty r name = true := by
    rw [Shared.hasProperty, hoffset]
    rfl
  have hvalue : l.shared.getProperty r name =
      ((l.shared.instances r).propertyValues[(l.icEntry icIdx).offset]?).getD .nil := by
    rw [Shared.getProperty, if_neg hname, hoffset]
  have hslow : loadInstanceProperty rt ctx (l.forget icIdx) r name icIdx = pure (Exit.dispatch
      ((cacheShape (l.forget icIdx) r name icIdx).push (l.shared.getProperty r name))) := by
    rw [load_of_miss hshape' hklass', ← h.klassOf, ← h.hidden, ← h.hasProperty, ← h.getProperty,
      hvisible, hfield]
    simp only [Bool.false_eq_true, if_false, not_true_eq_false, and_false, if_true]
  rw [load_of_shapeHit hhit, hslow, hvalue]
  exact .exit (congrArg Exit.dispatch ((h.trans (cacheShape_self _ r name icIdx).symm).push _))

/-- Where the class key is hit truly and no field is in the way, the lookup finds the cached method. -/
theorem getProperty_of_classHit (htrue : l.HitsTruly r name icIdx) (hhit : l.ClassHits r icIdx)
    (hfree : l.shared.hasProperty r name = false) :
    l.shared.getProperty r name = (l.icEntry icIdx).methodValue := by
  obtain ⟨-, hname, hmethod, -⟩ := htrue.klass hhit
  rw [Shared.hasProperty, Option.isSome_eq_false_iff, Option.isNone_iff_eq_none] at hfree
  rw [Shared.getProperty, if_neg hname, hfree]
  exact hmethod

/-- A read that hits the class key, on an instance without a field of the name. -/
theorem load_classHit (htrue : l.HitsTruly r name icIdx) (hmiss : ¬l.ShapeHits r icIdx)
    (hhit : l.ClassHits r icIdx) (hfree : l.shared.hasProperty r name = false) :
    SameOutcome rt ctx (loadInstanceProperty rt ctx l r name icIdx)
      (loadInstanceProperty rt ctx (l.forget icIdx) r name icIdx) := by
  have h := Alike.forget l icIdx
  obtain ⟨hshape', hklass'⟩ := l.forget_misses r icIdx
  obtain ⟨hvisible, -, -, hkind⟩ := htrue.klass hhit
  have hvalue := getProperty_of_classHit htrue hhit hfree
  have hslow : loadInstanceProperty rt ctx (l.forget icIdx) r name icIdx = pure (Exit.dispatch
      ((cacheMethod (l.forget icIdx) r (l.icEntry icIdx).methodValue icIdx).push
        (.boundMethod (.inst r) (l.icEntry icIdx).methodValue))) := by
    rw [load_of_miss hshape' hklass', ← h.klassOf, ← h.hidden, ← h.hasProperty, ← h.getProperty,
      hvisible, hfree, hvalue]
    simp only [isNil_of_isMethodKind hkind, hkind, Bool.false_eq_true, if_false, false_and, if_true]
  rw [load_of_classHit hmiss hhit, hslow]
  exact .exit (congrArg Exit.dispatch ((h.trans (cacheMethod_self _ r _ icIdx).symm).push _))

/-! ### Method calls -/

/-- A call that goes on with what `CALL`-like instructions do. -/
theorem callAndRefresh_alike (h : l.Alike l') (callee : Value) (argCount : Nat) :
    SameOutcome rt ctx (callAndRefresh rt ctx l callee argCount)
      (callAndRefresh rt ctx l' callee argCount) := by
  have hip : l.frame.ip = l'.frame.ip := h.read (fun m => m.frame.ip) fun _ => rfl
  rw [callAndRefresh, callAndRefresh, hip]
  exact .call (Or.inr rfl) _ _ _ h

/-- `INVOKE_METHOD` on an instance. -/
theorem INVOKE_METHOD_inst {argCount : Nat} {rest : List Value}
    (hops : l.ops.drop argCount = .inst r :: rest) :
    INVOKE_METHOD rt ctx name icIdx argCount l =
      match invokedOn l r name icIdx with
      | .method m v => callAndRefresh rt ctx
          (m.withOps (l.ops.take argCount ++ .inst r :: v :: rest)) v ((argCount + 1) % 256)
      | .value m v => callAndRefresh rt ctx (m.withOps (l.ops.take argCount ++ v :: rest)) v argCount
      | .missing => pure (.raiseFault (noProperty rt l r name))
      | .hidden => pure (.leave (l.hiddenError (l.klassOf r) name)) := by
  rw [INVOKE_METHOD, hops]
  dsimp only
  cases invokedOn l r name icIdx <;> rfl

theorem invokedOn_miss (hmiss : ¬l.ClassHits r icIdx) :
    invokedOn l r name icIdx =
      if l.hidden (l.klassOf r) name then .hidden
      else if l.shared.hasProperty r name = false ∧ (l.shared.getProperty r name).isMethodKind = true
      then .method (cacheMethod l r (l.shared.getProperty r name) icIdx) (l.shared.getProperty r name)
      else if (l.shared.getProperty r name).isNil = false then .value l (l.shared.getProperty r name)
      else if (l.shared.findGetattrHook (.inst r) name).isCallable
      then .value l (.boundMethod (.inst r) (l.shared.findGetattrHook (.inst r) name))
      else .missing := by
  rw [invokedOn]
  refine (if_neg hmiss).trans ?_
  simp only [Bool.not_eq_true]
  rfl

/-- Two calls that miss the class key. -/
theorem invoke_misses {argCount : Nat} {rest : List Value} (h : l.Alike l')
    (hops : l.ops.drop argCount = .inst r :: rest) (hmiss : ¬l.ClassHits r icIdx)
    (hmiss' : ¬l'.ClassHits r icIdx) :
    SameOutcome rt ctx (INVOKE_METHOD rt ctx name icIdx argCount l)
      (INVOKE_METHOD rt ctx name icIdx argCount l') := by
  have hops' : l'.ops.drop argCount = .inst r :: rest := h.ops ▸ hops
  rw [INVOKE_METHOD_inst hops, INVOKE_METHOD_inst hops', invokedOn_miss hmiss, invokedOn_miss hmiss',
    h.ops, h.klassOf, h.hidden, h.hasProperty, h.getProperty, h.findGetattrHook]
  by_cases hhidden : l'.hidden (l'.klassOf r) name = true
  · rw [if_pos hhidden, if_pos hhidden]
    exact .exit (congrArg Exit.leave (h.hiddenError _ _))
  rw [if_neg hhidden, if_neg hhidden]
  by_cases hmethod : l'.shared.hasProperty r name = false ∧
      (l'.shared.getProperty r name).isMethodKind = true
  · rw [if_pos hmethod, if_pos hmethod]
    exact callAndRefresh_alike ((cacheMethod_alike h _).withOps _) _ _
  rw [if_neg hmethod, if_neg hmethod]
  by_cases hvalue : (l'.shared.getProperty r name).isNil = false
  · rw [if_pos hvalue, if_pos hvalue]
    exact callAndRefresh_alike (h.withOps _) _ _
  rw [if_neg hvalue, if_neg hvalue]
  by_cases hhook : (l'.shared.findGetattrHook (.inst r) name).isCallable = true
  · rw [if_pos hhook, if_pos hhook]
    exact callAndRefresh_alike (h.withOps _) _ _
  · rw [if_neg hhook, if_neg hhook]
    exact .exit (congrArg Exit.raiseFault (noProperty_alike h))

/-- A call that hits the class key, on an instance without a field of the name. -/
theorem invoke_classHit {argCount : Nat} {rest : List Value}
    (hops : l.ops.drop argCount = .inst r :: rest) (htrue : l.HitsTruly r name icIdx)
    (hhit : l.ClassHits r icIdx) (hfree : l.shared.hasProperty r name = false) :
    SameOutcome rt ctx (INVOKE_METHOD rt ctx name icIdx argCount l)
      (INVOKE_METHOD rt ctx name icIdx argCount (l.forget icIdx)) := by
  have h := Alike.forget l icIdx
  have hops' : (l.forget icIdx).ops.drop argCount = .inst r :: rest := h.ops ▸ hops
  obtain ⟨hvisible, -, -, hkind⟩ := htrue.klass hhit
  have hvalue := getProperty_of_classHit htrue hhit hfree
  have hfast : invokedOn l r name icIdx = .method l (l.icEntry icIdx).methodValue := if_pos hhit
  have hslow : invokedOn (l.forget icIdx) r name icIdx =
      .method (cacheMethod (l.forget icIdx) r (l.icEntry icIdx).methodValue icIdx)
        (l.icEntry icIdx).methodValue := by
    rw [invokedOn_miss (l.forget_misses r icIdx).2, ← h.klassOf, ← h.hidden, ← h.hasProperty,
      ← h.getProperty, hvisible, hfree, hvalue]
    simp only [Bool.false_eq_true, if_false, hkind, and_self, if_true]
  rw [INVOKE_METHOD_inst hops, INVOKE_METHOD_inst hops', hfast, hslow, ← h.ops]
  exact callAndRefresh_alike ((h.trans (cacheMethod_self _ r _ icIdx).symm).withOps _) _ _

/-! ### Writes -/

theorem callSetattr_alike (h : l.Alike l') (hook value : Value) :
    SameOutcome rt ctx (callSetattr rt ctx l r hook name value)
      (callSetattr rt ctx l' r hook name value) :=
  .call (Or.inl rfl) _ _ _ (((h.push _).push _).push _)

theorem storeField_alike (h : l.Alike l') (value : Value) :
    (storeField l r name icIdx value).Alike (storeField l' r name icIdx value) :=
  cacheShape_alike (h.setProperty r name value)

theorem recordWrite_alike (h : l.Alike l') (oldValue newValue : Value) :
    (recordWrite l r name oldValue newValue).Alike (recordWrite l' r name oldValue newValue) := by
  have hcommutes : ∀ m : Local, (recordWrite m r name oldValue newValue).withoutCaches =
      recordWrite m.withoutCaches r name oldValue newValue := fun m => rfl
  rw [Local.Alike, hcommutes, hcommutes, show l.withoutCaches = l'.withoutCaches from h]

/-- A write at the cached offset is the write past the cache. -/
theorem storeCached_alike (htrue : l.HitsTruly r name icIdx) (hhit : l.ShapeHits r icIdx)
    (h : l.Alike l') (value : Value) :
    (storeCached l r icIdx value).Alike (storeField l' r name icIdx value) := by
  have hwrite : storeCached l r icIdx value =
      l.withShared (l.shared.setProperty r name value) := by
    rw [Shared.setProperty, (htrue.shape hhit).2]
    rfl
  rw [hwrite]
  exact (h.setProperty r name value).trans (cacheShape_self _ r name icIdx).symm

/-- Two writes of which the second misses, and the first misses or hits truly. -/
theorem store_alike {value : Value} {rest : List Value} (h : l.Alike l')
    (hops : l.ops = value :: .inst r :: rest) (htrue : l.HitsTruly r name icIdx)
    (hmiss' : ¬l'.ShapeHits r icIdx) :
    SameOutcome rt ctx (STORE_PROPERTY rt ctx name icIdx l)
      (STORE_PROPERTY rt ctx name icIdx l') := by
  have hbelow := h.withOps rest
  rw [STORE_PROPERTY, STORE_PROPERTY, ← h.ops, hops]
  dsimp only
  rw [hbelow.findSetattrHook]
  by_cases hhook : ((l'.withOps rest).shared.findSetattrHook r name).isCallable = true
  · rw [if_pos hhook, if_pos hhook]
    exact callSetattr_alike hbelow _ _
  rw [if_neg hhook, if_neg hhook]
  by_cases hhit : l.ShapeHits r icIdx
  · have hvisible := (htrue.shape hhit).1
    rw [h.klassOf, h.hidden] at hvisible
    have hslow : ¬(l'.withOps rest).hidden
        ((l'.withOps rest).shared.instances r).klass name = true := by
      rw [Bool.not_eq_true]
      exact hvisible
    have hfast := storeCached_alike (l := l.withOps rest) ⟨htrue.shape, htrue.klass⟩ hhit hbelow value
    rw [if_pos (show ((l.withOps rest).icEntry icIdx).shape =
      some ((l.withOps rest).shared.instances r).shape from hhit)]
    rw [if_neg (show ¬((l'.withOps rest).icEntry icIdx).shape =
      some ((l'.withOps rest).shared.instances r).shape from hmiss'), if_neg hslow]
    exact .exit (congrArg Exit.dispatch (hfast.push _))
  · rw [if_neg (show ¬((l.withOps rest).icEntry icIdx).shape =
      some ((l.withOps rest).shared.instances r).shape from hhit)]
    rw [if_neg (show ¬((l'.withOps rest).icEntry icIdx).shape =
      some ((l'.withOps rest).shared.instances r).shape from hmiss'), hbelow.instances, hbelow.hidden]
    by_cases hhidden : (l'.withOps rest).hidden ((l'.withOps rest).shared.instances r).klass name = true
    · rw [if_pos hhidden, if_pos hhidden]
      exact .exit (congrArg Exit.leave (hbelow.hiddenError _ _))
    · rw [if_neg hhidden, if_neg hhidden]
      exact .exit (congrArg Exit.dispatch ((storeField_alike hbelow value).push _))

theorem interceptedStore_alike {value : Value} {rest : List Value} (h : l.Alike l')
    (hops : l.ops = value :: .inst r :: rest) (htrue : l.HitsTruly r name icIdx)
    (hmiss' : ¬l'.ShapeHits r icIdx) :
    SameOutcome rt ctx (INTERCEPTED_STORE_PROPERTY rt ctx name icIdx l)
      (INTERCEPTED_STORE_PROPERTY rt ctx name icIdx l') := by
  have hbelow := h.withOps rest
  rw [INTERCEPTED_STORE_PROPERTY, INTERCEPTED_STORE_PROPERTY, ← h.ops, hops]
  dsimp only
  rw [hbelow.findSetattrHook, hbelow.classes, hbelow.instances, hbelow.hidden]
  by_cases hhook : ((l'.withOps rest).shared.findSetattrHook r name).isCallable = true
  · rw [if_pos hhook, if_pos hhook]
    exact callSetattr_alike hbelow _ _
  rw [if_neg hhook, if_neg hhook]
  generalize hklass : (l'.withOps rest).shared.classes
    ((l'.withOps rest).shared.instances r).klass = klass
  by_cases hplain : ¬klass.behaviors.any = true
  · rw [if_pos hplain, if_pos hplain]
    by_cases hhidden : (l'.withOps rest).hidden ((l'.withOps rest).shared.instances r).klass name = true
    · rw [if_pos hhidden, if_pos hhidden]
      exact .exit (congrArg Exit.leave (hbelow.hiddenError _ _))
    rw [if_neg hhidden, if_neg hhidden]
    rw [if_neg (show ¬((l'.withOps rest).icEntry icIdx).shape =
      some ((l'.withOps rest).shared.instances r).shape from hmiss')]
    by_cases hhit : l.ShapeHits r icIdx
    · have hfast := storeCached_alike (l := l.withOps rest) ⟨htrue.shape, htrue.klass⟩ hhit hbelow
        value
      rw [← hbelow.instances, if_pos (show ((l.withOps rest).icEntry icIdx).shape =
        some ((l.withOps rest).shared.instances r).shape from hhit)]
      exact .exit (congrArg Exit.dispatch (hfast.push _))
    · rw [← hbelow.instances, if_neg (show ¬((l.withOps rest).icEntry icIdx).shape =
        some ((l.withOps rest).shared.instances r).shape from hhit)]
      exact .exit (congrArg Exit.dispatch ((storeField_alike hbelow value).push _))
  · rw [if_neg hplain, if_neg hplain]
    cases failedValidation rt klass name value with
    | some message => exact .exit (congrArg Exit.raiseFault (hbelow.runtimeError _))
    | none =>
        dsimp only
        by_cases hhidden : (l'.withOps rest).hidden
          ((l'.withOps rest).shared.instances r).klass name = true
        · rw [if_pos hhidden, if_pos hhidden]
          exact .exit (congrArg Exit.leave (hbelow.hiddenError _ _))
        · rw [if_neg hhidden, if_neg hhidden, hbelow.getProperty]
          refine .exit (congrArg Exit.dispatch (Local.Alike.push ?_ _))
          exact recordWrite_alike (hbelow.setProperty r name value) _ value

end Handler

/-! ### The entry an execution leaves -/

namespace Handler

variable (l : Local) (r : Nat) (name : CString) (icIdx : Nat)

/-- The state with the entry as a read leaves it. -/
def afterLoad : Local :=
  if l.ShapeHits r icIdx ∨ l.ClassHits r icIdx ∨ l.hidden (l.klassOf r) name = true then l
  else if l.shared.hasProperty r name = true then cacheShape l r name icIdx
  else if (l.shared.getProperty r name).isMethodKind = true
  then cacheMethod l r (l.shared.getProperty r name) icIdx
  else l

/-- The state as a write leaves it that a hook does not take over. -/
def afterStore (value : Value) : Local :=
  if (l.shared.findSetattrHook r name).isCallable = true ∨ l.ShapeHits r icIdx ∨
    l.hidden (l.klassOf r) name = true then l
  else storeField l r name icIdx value

/-- The state with the entry as a method call leaves it. -/
def afterInvoke : Local :=
  if l.ClassHits r icIdx ∨ l.hidden (l.klassOf r) name = true then l
  else if l.shared.hasProperty r name = false ∧ (l.shared.getProperty r name).isMethodKind = true
  then cacheMethod l r (l.shared.getProperty r name) icIdx
  else l

end Handler

/-- The state with the entry as an execution of the instruction leaves it. A write to an instance of a
decorated class does not use its entry. -/
def Local.afterSite (i : Instr) (l : Local) : Local :=
  match i, l.ops with
  | .LOAD_PROPERTY name ic, .inst r :: rest => Handler.afterLoad (l.withOps rest) r name ic
  | .STORE_PROPERTY name ic, value :: .inst r :: rest =>
      Handler.afterStore (l.withOps rest) r name ic value
  | .INTERCEPTED_STORE_PROPERTY name ic, value :: .inst r :: rest =>
      if (l.shared.classes (l.klassOf r)).behaviors.any = true then l.withOps rest
      else Handler.afterStore (l.withOps rest) r name ic value
  | .INVOKE_METHOD name ic argCount, ops =>
      match ops.drop argCount with
      | .inst r :: _ => Handler.afterInvoke l r name ic
      | _ => l
  | _, _ => l

def Exit.state : Exit → Option Local
  | dispatch l | raiseFault l | leave l | pushFrame l _ _ | returned l _ | thrown l _ | finallyEnd l
  | tryStart l _ | tryEnd l | yielded l | ended l => some l
  | malformed => none

/-- The handler ends, or makes its call, with the entry given. -/
inductive Leaves (rt : Runtime) (ctx : Ctx) (icIdx : Nat) (entry : ICCacheEntry) : Proc Exit → Prop
  | exit {e : Exit} (h : ∀ l, e.state = some l → l.icEntry icIdx = entry) :
      Leaves rt ctx icIdx entry (pure e)
  | call (next : Dispatched → Exit) (callee : Value) (argCount : Nat) (callSite : Option Nat)
      {l : Local} (h : l.icEntry icIdx = entry) :
      Leaves rt ctx icIdx entry (callThen rt ctx next l callee argCount callSite)

namespace Local

@[simp] theorem icEntry_push (l : Local) (v : Value) (icIdx : Nat) :
    (l.push v).icEntry icIdx = l.icEntry icIdx := rfl

theorem icEntry_withShared {l : Local} {s : Shared} (h : s.functions = l.shared.functions)
    (icIdx : Nat) : (l.withShared s).icEntry icIdx = l.icEntry icIdx := by
  show ((s.functions l.frame.function).icEntries[icIdx]?).getD _ = _
  rw [h]
  rfl

theorem functions_setProperty (s : Shared) (r : Nat) (name : CString) (v : Value) :
    (s.setProperty r name v).functions = s.functions := by
  rw [Shared.setProperty]
  cases (s.instances r).shape.getOffset name <;> rfl

@[simp] theorem icEntry_runtimeError (l : Local) (message : CString) (icIdx : Nat) :
    (l.runtimeError message).icEntry icIdx = l.icEntry icIdx := rfl

@[simp] theorem icEntry_hiddenError (l : Local) (klass : Nat) (name : CString) (icIdx : Nat) :
    (l.hiddenError klass name).icEntry icIdx = l.icEntry icIdx := rfl

@[simp] theorem icEntry_throwException (l : Local) (className message : CString) (icIdx : Nat) :
    (l.throwException className message).icEntry icIdx = l.icEntry icIdx := by
  rw [throwException]
  refine icEntry_withShared ?_ icIdx
  rw [Shared.throwException]
  cases l.shared.getGlobal className with
  | klass k => exact functions_setProperty _ _ _ _
  | _ => rfl

end Local

namespace Handler

variable {rt : Runtime} {ctx : Ctx} {l : Local} {r : Nat} {name : CString} {icIdx : Nat}

theorem icEntry_noProperty : (noProperty rt l r name).icEntry icIdx = l.icEntry icIdx :=
  Local.icEntry_throwException _ _ _ _

theorem leaves_callAndReturn {entry : ICCacheEntry} (h : l.icEntry icIdx = entry) (callee : Value)
    (argCount : Nat) : Leaves rt ctx icIdx entry (callAndReturn rt ctx l callee argCount) :=
  .call _ _ _ _ h

theorem leaves_callAndRefresh {entry : ICCacheEntry} (h : l.icEntry icIdx = entry) (callee : Value)
    (argCount : Nat) : Leaves rt ctx icIdx entry (callAndRefresh rt ctx l callee argCount) :=
  .call _ _ _ _ h

theorem leaves_pure {entry : ICCacheEntry} {e : Exit} (he : e.state = some l)
    (h : l.icEntry icIdx = entry) : Leaves rt ctx icIdx entry (pure e) :=
  .exit fun _ hm => Option.some.inj (he.symm.trans hm) ▸ h

theorem receiver_load {ic : Nat} (hr : l.receiver (.LOAD_PROPERTY name ic) = some r) :
    ∃ rest, l.ops = .inst r :: rest := by
  cases hops : l.ops with
  | nil => simp [Local.receiver, hops] at hr
  | cons obj rest =>
      cases obj <;> simp [Local.receiver, hops] at hr
      exact ⟨rest, hr ▸ rfl⟩

/-- The instance below the value that is written to it. -/
theorem receiver_below {i : Instr} (hi : i = .STORE_PROPERTY name icIdx ∨
      i = .INTERCEPTED_STORE_PROPERTY name icIdx) (hr : l.receiver i = some r) :
    ∃ value rest, l.ops = value :: .inst r :: rest := by
  rcases hops : l.ops with _ | ⟨value, _ | ⟨obj, rest⟩⟩
  · rcases hi with rfl | rfl <;> simp [Local.receiver, hops] at hr
  · rcases hi with rfl | rfl <;> simp [Local.receiver, hops] at hr
  · refine ⟨value, rest, ?_⟩
    rcases hi with rfl | rfl <;> cases obj <;> simp [Local.receiver, hops] at hr <;> rw [hr]

theorem receiver_invoke {argCount : Nat}
    (hr : l.receiver (.INVOKE_METHOD name icIdx argCount) = some r) :
    ∃ rest, l.ops.drop argCount = .inst r :: rest := by
  cases hops : l.ops.drop argCount with
  | nil => simp [Local.receiver, hops] at hr
  | cons obj rest =>
      cases obj <;> simp [Local.receiver, hops] at hr
      exact ⟨rest, hr ▸ rfl⟩

theorem load_leaves : Leaves rt ctx icIdx ((afterLoad l r name icIdx).icEntry icIdx)
    (loadInstanceProperty rt ctx l r name icIdx) := by
  rw [afterLoad]
  by_cases hshape : l.ShapeHits r icIdx
  · rw [if_pos (Or.inl hshape), load_of_shapeHit hshape]
    exact leaves_pure rfl rfl
  by_cases hklass : l.ClassHits r icIdx
  · rw [if_pos (Or.inr (Or.inl hklass)), load_of_classHit hshape hklass]
    exact leaves_pure rfl rfl
  rw [load_of_miss hshape hklass]
  by_cases hhidden : l.hidden (l.klassOf r) name = true
  · rw [if_pos (Or.inr (Or.inr hhidden)), if_pos hhidden]
    exact leaves_pure rfl rfl
  rw [if_neg (not_or.mpr ⟨hshape, not_or.mpr ⟨hklass, hhidden⟩⟩), if_neg hhidden]
  by_cases hfield : l.shared.hasProperty r name = true
  · rw [if_pos hfield, if_neg fun h => h.2 hfield, if_pos hfield]
    exact leaves_pure rfl rfl
  rw [if_neg hfield]
  by_cases hnil : (l.shared.getProperty r name).isNil = true
  · have hother : ¬(l.shared.getProperty r name).isMethodKind = true := by
      rw [Value.isNil_iff.mp hnil]
      exact Bool.false_ne_true
    rw [if_neg hother, if_pos (And.intro hnil hfield)]
    by_cases hhook : (l.shared.findGetattrHook (.inst r) name).isCallable = true
    · rw [if_pos hhook]
      exact leaves_callAndReturn (by rfl) _ _
    · rw [if_neg hhook]
      exact leaves_pure rfl icEntry_noProperty
  rw [if_neg (not_and_of_not_left _ hnil), if_neg hfield]
  by_cases hmethod : (l.shared.getProperty r name).isMethodKind = true
  · rw [if_pos hmethod, if_pos hmethod]
    exact leaves_pure rfl rfl
  · rw [if_neg hmethod, if_neg hmethod]
    exact leaves_pure rfl rfl

theorem invoke_leaves {argCount : Nat} {rest : List Value}
    (hops : l.ops.drop argCount = .inst r :: rest) :
    Leaves rt ctx icIdx ((afterInvoke l r name icIdx).icEntry icIdx)
      (INVOKE_METHOD rt ctx name icIdx argCount l) := by
  rw [afterInvoke, INVOKE_METHOD_inst hops]
  by_cases hklass : l.ClassHits r icIdx
  · have hfast : invokedOn l r name icIdx = .method l (l.icEntry icIdx).methodValue := if_pos hklass
    rw [if_pos (Or.inl hklass), hfast]
    exact leaves_callAndRefresh (by rfl) _ _
  rw [invokedOn_miss hklass]
  by_cases hhidden : l.hidden (l.klassOf r) name = true
  · rw [if_pos (Or.inr hhidden), if_pos hhidden]
    exact leaves_pure rfl rfl
  rw [if_neg (not_or.mpr ⟨hklass, hhidden⟩), if_neg hhidden]
  by_cases hmethod : l.shared.hasProperty r name = false ∧
      (l.shared.getProperty r name).isMethodKind = true
  · rw [if_pos hmethod, if_pos hmethod]
    exact leaves_callAndRefresh (by rfl) _ _
  rw [if_neg hmethod, if_neg hmethod]
  by_cases hvalue : (l.shared.getProperty r name).isNil = false
  · rw [if_pos hvalue]
    exact leaves_callAndRefresh (by rfl) _ _
  rw [if_neg hvalue]
  by_cases hhook : (l.shared.findGetattrHook (.inst r) name).isCallable = true
  · rw [if_pos hhook]
    exact leaves_callAndRefresh (by rfl) _ _
  · rw [if_neg hhook]
    exact leaves_pure rfl icEntry_noProperty

theorem store_leaves {value : Value} {rest : List Value} (hops : l.ops = value :: .inst r :: rest) :
    Leaves rt ctx icIdx ((afterStore (l.withOps rest) r name icIdx value).icEntry icIdx)
      (STORE_PROPERTY rt ctx name icIdx l) := by
  rw [STORE_PROPERTY, hops, afterStore]
  dsimp only
  generalize l.withOps rest = below
  by_cases hhook : (below.shared.findSetattrHook r name).isCallable = true
  · rw [if_pos (Or.inl hhook), if_pos hhook]
    exact leaves_callAndReturn (by rfl) _ _
  rw [if_neg hhook]
  by_cases hshape : below.ShapeHits r icIdx
  · rw [if_pos (Or.inr (Or.inl hshape))]
    rw [if_pos (show (below.icEntry icIdx).shape = some (below.shared.instances r).shape from hshape)]
    exact leaves_pure rfl rfl
  rw [if_neg (show ¬(below.icEntry icIdx).shape = some (below.shared.instances r).shape from hshape)]
  by_cases hhidden : below.hidden (below.klassOf r) name = true
  · rw [if_pos (Or.inr (Or.inr hhidden)), ← Local.klassOf, if_pos hhidden]
    exact leaves_pure rfl rfl
  · rw [if_neg (not_or.mpr ⟨hhook, not_or.mpr ⟨hshape, hhidden⟩⟩), ← Local.klassOf, if_neg hhidden]
    exact leaves_pure rfl rfl

theorem interceptedStore_leaves {value : Value} {rest : List Value}
    (hops : l.ops = value :: .inst r :: rest) :
    Leaves rt ctx icIdx
      ((if (l.shared.classes (l.klassOf r)).behaviors.any = true then l.withOps rest
        else afterStore (l.withOps rest) r name icIdx value).icEntry icIdx)
      (INTERCEPTED_STORE_PROPERTY rt ctx name icIdx l) := by
  rw [INTERCEPTED_STORE_PROPERTY, hops, afterStore]
  show Leaves rt ctx icIdx ((if ((l.withOps rest).shared.classes
    ((l.withOps rest).klassOf r)).behaviors.any = true then l.withOps rest else _).icEntry icIdx) _
  dsimp only
  generalize l.withOps rest = below
  rw [← Local.klassOf]
  by_cases hhook : (below.shared.findSetattrHook r name).isCallable = true
  · rw [if_pos (Or.inl hhook), if_pos hhook, ite_self]
    exact leaves_callAndReturn (by rfl) _ _
  rw [if_neg hhook]
  generalize hklass : below.shared.classes (below.klassOf r) = klass
  by_cases hplain : klass.behaviors.any = true
  · rw [if_pos hplain, if_neg (not_not_intro hplain)]
    cases failedValidation rt klass name value with
    | some message => exact leaves_pure rfl rfl
    | none =>
        dsimp only
        by_cases hhidden : below.hidden (below.klassOf r) name = true
        · rw [if_pos hhidden]
          exact leaves_pure rfl rfl
        · rw [if_neg hhidden]
          refine leaves_pure rfl ?_
          exact Local.icEntry_withShared (Local.functions_setProperty _ _ _ _) _
  rw [if_neg hplain, if_pos hplain]
  by_cases hhidden : below.hidden (below.klassOf r) name = true
  · rw [if_pos (Or.inr (Or.inr hhidden)), if_pos hhidden]
    exact leaves_pure rfl rfl
  rw [if_neg hhidden]
  by_cases hshape : below.ShapeHits r icIdx
  · rw [if_pos (Or.inr (Or.inl hshape))]
    rw [if_pos (show (below.icEntry icIdx).shape = some (below.shared.instances r).shape from hshape)]
    exact leaves_pure rfl rfl
  · rw [if_neg (not_or.mpr ⟨hhook, not_or.mpr ⟨hshape, hhidden⟩⟩)]
    rw [if_neg (show ¬(below.icEntry icIdx).shape = some (below.shared.instances r).shape from hshape)]
    exact leaves_pure rfl rfl

/-- A property instruction on an instance ends, or makes its call, with the entry that `afterSite`
says. -/
theorem exec_leaves {i : Instr} (hsite : i.site = some (name, icIdx)) (hr : l.receiver i = some r) :
    Leaves rt ctx icIdx ((l.afterSite i).icEntry icIdx) (exec rt ctx i l) := by
  cases i with
  | LOAD_PROPERTY n ic =>
      cases hsite
      obtain ⟨rest, hops⟩ := receiver_load hr
      simp only [Local.afterSite, exec, LOAD_PROPERTY, hops]
      exact load_leaves
  | STORE_PROPERTY n ic =>
      cases hsite
      obtain ⟨value, rest, hops⟩ := receiver_below (Or.inl rfl) hr
      simp only [Local.afterSite, exec, hops]
      exact store_leaves hops
  | INTERCEPTED_STORE_PROPERTY n ic =>
      cases hsite
      obtain ⟨value, rest, hops⟩ := receiver_below (Or.inr rfl) hr
      simp only [Local.afterSite, exec, hops]
      exact interceptedStore_leaves hops
  | INVOKE_METHOD n ic argCount =>
      cases hsite
      obtain ⟨rest, hops⟩ := receiver_invoke hr
      simp only [Local.afterSite, exec, hops]
      exact invoke_leaves hops
  | _ => cases hsite

end Handler

/-! ### A history of executions -/

/-- The executions of one property instruction on instances, in the order in which they start. The
entry starts empty, and only the executions change it. -/
structure History (i : Instr) (name : CString) (icIdx : Nat) where
  site : i.site = some (name, icIdx)
  states : Nat → Local
  receiver : Nat → Nat
  onInstance : ∀ n, (states n).receiver i = some (receiver n)
  start : (states 0).icEntry icIdx = .empty
  next : ∀ n, (states (n + 1)).icEntry icIdx = ((states n).afterSite i).icEntry icIdx

namespace History

variable {i : Instr} {name : CString} {icIdx : Nat} (hist : History i name icIdx)

/-- The class of the instance of an execution. -/
def klass (n : Nat) : Nat := (hist.states n).klassOf (hist.receiver n)

/-- What happens between the executions leaves the classes the instruction meets as they were declared,
as visible to its function as they were, and with shapes of their own: `owner` is the class whose
instances grow their shapes from a root. -/
structure Steady (owner : Nat → Nat) : Prop where
  shapes : ∀ n, owner ((hist.states n).shared.instances (hist.receiver n)).shape.root = hist.klass n
  visible : ∀ m n, (hist.states n).hidden (hist.klass m) name =
    (hist.states m).hidden (hist.klass m) name
  declared : ∀ m n, (hist.states n).shared.chainMethod (hist.klass m) name =
    (hist.states m).shared.chainMethod (hist.klass m) name

/-- The entry was filled from visible members of instances the instruction has met: the shape key with
the offset of the name in it, the class key with the declared method. -/
structure Filled (owner : Nat → Nat) (entry : ICCacheEntry) : Prop where
  shape : ∀ sh, entry.shape = some sh → sh.getOffset name = some entry.offset ∧
    ∃ m, owner sh.root = hist.klass m ∧ (hist.states m).hidden (hist.klass m) name = false
  klass : ∀ k, entry.klass = some k → name ≠ lit "__class__" ∧ entry.methodValue.isMethodKind = true ∧
    ∃ m, k = hist.klass m ∧ (hist.states m).hidden k name = false ∧
      (hist.states m).shared.chainMethod k name = entry.methodValue

/-- A read does not hit the shape key under the name `__class__`, and neither a read nor a call takes
the class key for an instance with a field of the name. -/
def Unshadowed (n : Nat) : Prop :=
  let l := hist.states n
  let r := hist.receiver n
  match i with
  | .LOAD_PROPERTY _ _ =>
      (l.ShapeHits r icIdx → name ≠ lit "__class__") ∧
        (¬l.ShapeHits r icIdx → l.ClassHits r icIdx → l.shared.hasProperty r name = false)
  | .INVOKE_METHOD _ _ _ => l.ClassHits r icIdx → l.shared.hasProperty r name = false
  | _ => True

variable {hist} {owner : Nat → Nat}

theorem filled_empty : hist.Filled owner .empty :=
  ⟨fun _ h => absurd h (Option.some_ne_none _).symm, fun _ h => absurd h (Option.some_ne_none _).symm⟩

theorem filled_setIC {entry : ICCacheEntry} (h : hist.Filled owner entry) (l : Local) :
    hist.Filled owner ((l.setIC icIdx entry).icEntry icIdx) := by
  have hentry : (l.setIC icIdx entry).icEntry icIdx = entry ∨
      (l.setIC icIdx entry).icEntry icIdx = .empty := by
    show ((Function.update l.shared.functions l.frame.function _ l.frame.function).icEntries[icIdx]?).getD
      _ = _ ∨ ((Function.update l.shared.functions l.frame.function _ l.frame.function).icEntries[icIdx]?).getD
        _ = _
    rw [Function.update_self, List.getElem?_set_self']
    cases (l.function.icEntries[icIdx]?) with
    | none => exact Or.inr rfl
    | some _ => exact Or.inl rfl
  rcases hentry with hentry | hentry
  · rw [hentry]
    exact h
  · rw [hentry]
    exact filled_empty

/-- The shape key is filled for a visible property of the instance. -/
theorem filled_cacheShape {l : Local} {r m : Nat} (hl : hist.Filled owner (l.icEntry icIdx))
    (howner : owner (l.shared.instances r).shape.root = hist.klass m)
    (hvisible : (hist.states m).hidden (hist.klass m) name = false) :
    hist.Filled owner ((Handler.cacheShape l r name icIdx).icEntry icIdx) := by
  rw [Handler.cacheShape]
  cases hoffset : (l.shared.instances r).shape.getOffset name with
  | none => exact hl
  | some offset =>
      have hentry : hist.Filled owner
          { l.icEntry icIdx with shape := some (l.shared.instances r).shape, offset } := by
        refine ⟨?_, hl.klass⟩
        intro sh hsh
        obtain rfl := Option.some.inj hsh
        exact ⟨hoffset, m, howner, hvisible⟩
      exact filled_setIC hentry l

/-- The class key is filled for a visible declared method of the instance. -/
theorem filled_cacheMethod {l : Local} {r m : Nat} (hl : hist.Filled owner (l.icEntry icIdx))
    (hklass : l.klassOf r = hist.klass m) (hdeclared : l.shared.classes = (hist.states m).shared.classes)
    (hvisible : (hist.states m).hidden (hist.klass m) name = false)
    (hfree : l.shared.hasProperty r name = false)
    (hkind : (l.shared.getProperty r name).isMethodKind = true) :
    hist.Filled owner
      ((Handler.cacheMethod l r (l.shared.getProperty r name) icIdx).icEntry icIdx) := by
  have hname : name ≠ lit "__class__" := by
    intro hname
    rw [Shared.getProperty, if_pos hname] at hkind
    cases hkind
  have hmethod : l.shared.getProperty r name = l.shared.chainMethod (l.klassOf r) name := by
    rw [Shared.hasProperty, Option.isSome_eq_false_iff, Option.isNone_iff_eq_none] at hfree
    rw [Shared.getProperty, if_neg hname, hfree]
    rfl
  have hentry : hist.Filled owner
      { l.icEntry icIdx with
        klass := some (l.klassOf r), methodValue := l.shared.getProperty r name } := by
    refine ⟨hl.shape, ?_⟩
    intro k hk
    obtain rfl : l.klassOf r = k := Option.some.inj hk
    refine ⟨hname, hkind, m, hklass, hklass ▸ hvisible, ?_⟩
    rw [hmethod]
    exact (chainMethod_congr (fun c _ => congrFun hdeclared c) name).symm
  exact filled_setIC hentry l

theorem filled_afterLoad {m : Nat} (hsteady : hist.Steady owner) {rest : List Value}
    (hfilled : hist.Filled owner ((hist.states m).icEntry icIdx)) :
    hist.Filled owner ((Handler.afterLoad ((hist.states m).withOps rest) (hist.receiver m) name
      icIdx).icEntry icIdx) := by
  have hbelow : hist.Filled owner (((hist.states m).withOps rest).icEntry icIdx) := hfilled
  have howner := hsteady.shapes m
  have hhidden : ∀ l : Local, l = (hist.states m).withOps rest →
      ¬l.hidden (l.klassOf (hist.receiver m)) name = true →
      (hist.states m).hidden (hist.klass m) name = false := by
    rintro l rfl h
    exact Bool.not_eq_true _ ▸ h
  generalize hl : (hist.states m).withOps rest = l at hbelow hhidden ⊢
  rw [Handler.afterLoad]
  by_cases huse : l.ShapeHits (hist.receiver m) icIdx ∨ l.ClassHits (hist.receiver m) icIdx ∨
      l.hidden (l.klassOf (hist.receiver m)) name = true
  · rw [if_pos huse]
    exact hbelow
  rw [if_neg huse]
  have hvisible := hhidden l rfl (not_or.mp (not_or.mp huse).2).2
  by_cases hfield : l.shared.hasProperty (hist.receiver m) name = true
  · rw [if_pos hfield]
    subst hl
    exact filled_cacheShape hbelow howner hvisible
  rw [if_neg hfield]
  by_cases hkind : (l.shared.getProperty (hist.receiver m) name).isMethodKind = true
  · rw [if_pos hkind]
    subst hl
    exact filled_cacheMethod hbelow rfl rfl hvisible (Bool.not_eq_true _ ▸ hfield) hkind
  · rw [if_neg hkind]
    exact hbelow

theorem root_setProperty (s : Shared) (r : Nat) (v : Value) :
    ((s.setProperty r name v).instances r).shape.root = (s.instances r).shape.root := by
  rw [Shared.setProperty]
  cases (s.instances r).shape.getOffset name with
  | none =>
      simp only [Shared.updateInstance, Function.update_self]
      rfl
  | some offset => simp only [Shared.updateInstance, Function.update_self]

theorem filled_afterStore {m : Nat} (hsteady : hist.Steady owner) {rest : List Value} {v : Value}
    (hfilled : hist.Filled owner ((hist.states m).icEntry icIdx)) :
    hist.Filled owner ((Handler.afterStore ((hist.states m).withOps rest) (hist.receiver m) name
      icIdx v).icEntry icIdx) := by
  rw [Handler.afterStore]
  by_cases huse : (((hist.states m).withOps rest).shared.findSetattrHook (hist.receiver m)
      name).isCallable = true ∨ ((hist.states m).withOps rest).ShapeHits (hist.receiver m) icIdx ∨
      ((hist.states m).withOps rest).hidden
        (((hist.states m).withOps rest).klassOf (hist.receiver m)) name = true
  · rw [if_pos huse]
    exact hfilled
  rw [if_neg huse]
  have hvisible : (hist.states m).hidden (hist.klass m) name = false :=
    Bool.not_eq_true _ ▸ (not_or.mp (not_or.mp huse).2).2
  refine filled_cacheShape ?_ ?_ hvisible
  · rw [Local.icEntry_withShared (Local.functions_setProperty _ _ _ _)]
    exact hfilled
  · exact (congrArg owner (root_setProperty _ _ _)).trans (hsteady.shapes m)

theorem filled_afterInvoke {m : Nat}
    (hfilled : hist.Filled owner ((hist.states m).icEntry icIdx)) :
    hist.Filled owner ((Handler.afterInvoke (hist.states m) (hist.receiver m) name
      icIdx).icEntry icIdx) := by
  rw [Handler.afterInvoke]
  by_cases huse : (hist.states m).ClassHits (hist.receiver m) icIdx ∨
      (hist.states m).hidden ((hist.states m).klassOf (hist.receiver m)) name = true
  · rw [if_pos huse]
    exact hfilled
  rw [if_neg huse]
  have hvisible : (hist.states m).hidden (hist.klass m) name = false :=
    Bool.not_eq_true _ ▸ (not_or.mp huse).2
  by_cases hmethod : (hist.states m).shared.hasProperty (hist.receiver m) name = false ∧
      ((hist.states m).shared.getProperty (hist.receiver m) name).isMethodKind = true
  · rw [if_pos hmethod]
    exact filled_cacheMethod hfilled rfl rfl hvisible hmethod.1 hmethod.2
  · rw [if_neg hmethod]
    exact hfilled

/-- An execution keeps the entry filled from what the instruction has met. -/
theorem filled_afterSite (hsteady : hist.Steady owner) (m : Nat)
    (hfilled : hist.Filled owner ((hist.states m).icEntry icIdx)) :
    hist.Filled owner (((hist.states m).afterSite i).icEntry icIdx) := by
  have hsite := hist.site
  have hr := hist.onInstance m
  cases i with
  | LOAD_PROPERTY n ic =>
      cases hsite
      obtain ⟨rest, hops⟩ := Handler.receiver_load hr
      simp only [Local.afterSite, hops]
      exact filled_afterLoad hsteady hfilled
  | STORE_PROPERTY n ic =>
      cases hsite
      obtain ⟨value, rest, hops⟩ := Handler.receiver_below (Or.inl rfl) hr
      simp only [Local.afterSite, hops]
      exact filled_afterStore hsteady hfilled
  | INTERCEPTED_STORE_PROPERTY n ic =>
      cases hsite
      obtain ⟨value, rest, hops⟩ := Handler.receiver_below (Or.inr rfl) hr
      simp only [Local.afterSite, hops]
      by_cases hdecorated : ((hist.states m).shared.classes
          ((hist.states m).klassOf (hist.receiver m))).behaviors.any = true
      · rw [if_pos hdecorated]
        exact hfilled
      · rw [if_neg hdecorated]
        exact filled_afterStore hsteady hfilled
  | INVOKE_METHOD n ic argCount =>
      cases hsite
      obtain ⟨rest, hops⟩ := Handler.receiver_invoke hr
      simp only [Local.afterSite, hops]
      exact filled_afterInvoke hfilled
  | _ => cases hsite

theorem filled (hsteady : hist.Steady owner) (n : Nat) :
    hist.Filled owner ((hist.states n).icEntry icIdx) := by
  induction n with
  | zero =>
      rw [hist.start]
      exact filled_empty
  | succ n ih =>
      rw [hist.next]
      exact filled_afterSite hsteady n ih

/-- What the entry is filled with holds of the next instance it is used for. -/
theorem hitsTruly (hsteady : hist.Steady owner) (n : Nat) :
    (hist.states n).HitsTruly (hist.receiver n) name icIdx := by
  have hfilled := filled hsteady n
  constructor
  · intro hhit
    obtain ⟨hoffset, m, howner, hvisible⟩ := hfilled.shape _ hhit
    have hklass : hist.klass n = hist.klass m := (hsteady.shapes n).symm.trans howner
    refine ⟨?_, hoffset⟩
    have hsame := hsteady.visible m n
    rw [← hklass] at hsame hvisible
    exact hsame.trans hvisible
  · intro hhit
    obtain ⟨hname, hkind, m, hklass, hvisible, hmethod⟩ := hfilled.klass _ hhit
    have hmet : hist.klass n = hist.klass m := hklass
    have hsame := hsteady.visible m n
    have hdeclared := hsteady.declared m n
    rw [← hmet] at hsame hdeclared
    exact ⟨hsame.trans hvisible, hname, hdeclared.trans hmethod, hkind⟩

end History

/-- In every history that leaves the classes as declared, and in which no execution relies on an entry
that a field or the name `__class__` overrules, each execution of a property instruction does what it
does with an empty inline cache. -/
theorem inlineCache_transparent (rt : Runtime) (ctx : Ctx) {i : Instr} {name : CString} {icIdx : Nat}
    (hist : History i name icIdx) (owner : Nat → Nat) (hsteady : hist.Steady owner)
    (hclear : ∀ n, hist.Unshadowed n) (n : Nat) :
    SameOutcome rt ctx (Handler.exec rt ctx i (hist.states n))
      (Handler.exec rt ctx i ((hist.states n).forget icIdx)) := by
  have htrue := History.hitsTruly hsteady n
  have hmiss := (hist.states n).forget_misses (hist.receiver n) icIdx
  have h := Local.Alike.forget (hist.states n) icIdx
  have hsite := hist.site
  have hr := hist.onInstance n
  have hfree := hclear n
  cases i with
  | LOAD_PROPERTY _ _ =>
      cases hsite
      obtain ⟨rest, hops⟩ := Handler.receiver_load hr
      have hops' : ((hist.states n).forget icIdx).ops = .inst (hist.receiver n) :: rest :=
        h.ops ▸ hops
      have hread : Handler.exec rt ctx (.LOAD_PROPERTY name icIdx) (hist.states n) =
          Handler.loadInstanceProperty rt ctx ((hist.states n).withOps rest) (hist.receiver n) name
            icIdx := by
        simp only [Handler.exec, Handler.LOAD_PROPERTY, hops]
      have hread' : Handler.exec rt ctx (.LOAD_PROPERTY name icIdx) ((hist.states n).forget icIdx) =
          Handler.loadInstanceProperty rt ctx (((hist.states n).withOps rest).forget icIdx)
            (hist.receiver n) name icIdx := by
        simp only [Handler.exec, Handler.LOAD_PROPERTY, hops']
        rfl
      rw [hread, hread']
      have htrue' : ((hist.states n).withOps rest).HitsTruly (hist.receiver n) name icIdx :=
        ⟨htrue.shape, htrue.klass⟩
      by_cases hshape : (hist.states n).ShapeHits (hist.receiver n) icIdx
      · exact Handler.load_shapeHit htrue' hshape (hfree.1 hshape)
      by_cases hklass : (hist.states n).ClassHits (hist.receiver n) icIdx
      · exact Handler.load_classHit htrue' hshape hklass (hfree.2 hshape hklass)
      · exact Handler.load_misses (h.withOps rest) ⟨hshape, hklass⟩ hmiss
  | STORE_PROPERTY _ _ =>
      cases hsite
      obtain ⟨value, rest, hops⟩ := Handler.receiver_below (Or.inl rfl) hr
      exact Handler.store_alike h hops htrue hmiss.1
  | INTERCEPTED_STORE_PROPERTY _ _ =>
      cases hsite
      obtain ⟨value, rest, hops⟩ := Handler.receiver_below (Or.inr rfl) hr
      exact Handler.interceptedStore_alike h hops htrue hmiss.1
  | INVOKE_METHOD _ _ argCount =>
      cases hsite
      obtain ⟨rest, hops⟩ := Handler.receiver_invoke hr
      by_cases hhit : (hist.states n).ClassHits (hist.receiver n) icIdx
      · exact Handler.invoke_classHit hops htrue hhit (hfree hhit)
      · exact Handler.invoke_misses h hops hhit hmiss.2
  | _ => cases hsite

/-! ### A call that is over at once -/

/-- How a call ends that runs no code: a frame was pushed, an instance was made, a future was queued, or
a fault was recorded. -/
def Dispatched.Immediate : Dispatched → Prop
  | .pushed _ _ _ => True
  | .value _ v => ∃ r, v = .inst r
  | .queued _ v => ∃ f, v = .future f
  | .limit l | .refused l => l.shared.pendingException.isNil = false

namespace Handler

variable {rt : Runtime} {ctx : Ctx}

theorem pushCallFrame_immediate (l : Local) (f : Nat) (args : List Value) (upvalues : ClosureState) :
    (pushCallFrame rt ctx l f args upvalues).Immediate := by
  rw [pushCallFrame]
  dsimp only
  by_cases hdepth : ctx.frameCount ≥ rt.maxFrames
  · rw [if_pos hdepth]
    exact pending_throwException _ _ _
  rw [if_neg hdepth]
  by_cases hstack : rt.stackMax < ctx.stackBelow + l.ops.length + args.length +
      (l.shared.functions f).localCount + STACK_HEADROOM
  · rw [if_pos hstack]
    exact pending_runtimeError _ _
  · rw [if_neg hstack]
    trivial

theorem dispatchFunction_immediate (l : Local) (callee : Value) (f : Nat) (upvalues : ClosureState)
    (argCount : Nat) (bypass : Bool) :
    (dispatchFunction rt ctx l callee f upvalues argCount bypass).Immediate := by
  rw [dispatchFunction]
  dsimp only
  split
  · split <;> exact pending_throwException _ _ _
  split
  · exact ⟨_, rfl⟩
  · exact pushCallFrame_immediate _ _ _ _

theorem dispatchCallee_immediate {callee : Value} {l : Local} {argCount : Nat}
    {callSite : Option Nat} {d : Dispatched}
    (h : dispatchCallee rt ctx callee l argCount callSite = pure d) : d.Immediate := by
  have hpure : ∀ {d' : Dispatched}, (pure d' : Proc Dispatched) = pure d → d'.Immediate → d.Immediate := by
    intro d' hd himmediate
    obtain rfl : d' = d := Except.ok.inj (Resumption.done.inj (congrArg ExceptT.run hd))
    exact himmediate
  induction callee generalizing l argCount callSite with
  | nativeFunction id =>
      rw [dispatchCallee] at h
      split at h
      · exact hpure h (pending_runtimeError _ _)
      · cases congrArg ExceptT.run h
  | boundMethod receiver method _ ih =>
      rw [dispatchCallee] at h
      split at h
      · exact hpure h (pending_runtimeError _ _)
      · exact ih h
  | closure r => exact hpure h (dispatchFunction_immediate _ _ _ _ _ _)
  | function r =>
      rw [dispatchCallee] at h
      split at h
      · exact hpure h (pending_runtimeError _ _)
      · exact hpure h (dispatchFunction_immediate _ _ _ _ _ _)
  | klass r =>
      rw [dispatchCallee, instantiate] at h
      split at h
      · exact hpure h ⟨_, rfl⟩
      · cases congrArg ExceptT.run h
  | _ => exact hpure h (pending_throwException _ _ _)

theorem dispatchCall_immediate {callee : Value} {l : Local} {argCount : Nat}
    {callSite : Option Nat} {d : Dispatched}
    (h : dispatchCall rt ctx callee l argCount callSite = pure d) : d.Immediate := by
  have hpure : ∀ {d' : Dispatched}, (pure d' : Proc Dispatched) = pure d → d'.Immediate → d.Immediate := by
    intro d' hd himmediate
    obtain rfl : d' = d := Except.ok.inj (Resumption.done.inj (congrArg ExceptT.run hd))
    exact himmediate
  cases callee with
  | super instRef k =>
      rw [dispatchCall] at h
      split at h
      · exact hpure h (pending_runtimeError _ _)
      · exact hpure h (pending_runtimeError _ _)
      · split at h
        · exact hpure h (pending_runtimeError _ _)
        · exact dispatchCallee_immediate h
  | _ => exact dispatchCallee_immediate h

/-- A call does not end with a bound method on the operands and no fault. -/
theorem callThen_ne_bound {next : Dispatched → Exit} (hnext : GoesOn next) {l m : Local}
    {callee a b : Value} {argCount : Nat} {callSite : Option Nat}
    (hpending : m.shared.pendingException = .nil) :
    callThen rt ctx next l callee argCount callSite ≠ pure (.dispatch (m.push (.boundMethod a b))) := by
  rw [callThen]
  generalize hp : dispatchCall rt ctx callee l argCount callSite = p
  intro h
  have hrun := congrArg ExceptT.run h
  rw [ExceptT.run_bind] at hrun
  cases hp' : p.run with
  | ask q k =>
      rw [hp'] at hrun
      cases hrun
  | done result =>
      rw [hp'] at hrun
      cases result with
      | error unwinding => cases hrun
      | ok d =>
          have hexit : next d = .dispatch (m.push (.boundMethod a b)) :=
            Except.ok.inj (Resumption.done.inj hrun)
          have himmediate : d.Immediate := dispatchCall_immediate (hp.trans (ExceptT.ext hp'))
          have hlast : ∀ l' : Local, l' = m.push (.boundMethod a b) →
              l'.shared.pendingException = .nil ∧ l'.ops.head? = some (.boundMethod a b) := by
            rintro l' rfl
            exact ⟨hpending, rfl⟩
          cases d with
          | pushed l' frame upvalues =>
              rcases hnext with rfl | rfl <;> cases hexit
          | value l' v =>
              obtain ⟨r, rfl⟩ := himmediate
              have hend := hlast (l'.push (.inst r)) (by
                rcases hnext with rfl | rfl <;> exact Exit.dispatch.inj hexit)
              cases hend.2
          | queued l' v =>
              obtain ⟨f, rfl⟩ := himmediate
              rcases hnext with rfl | rfl
              · cases hexit
              · have hend := hlast (l'.push (.future f)) (Exit.dispatch.inj hexit)
                cases hend.2
          | limit l' =>
              have hend := hlast l' (by
                rcases hnext with rfl | rfl <;> exact Exit.dispatch.inj hexit)
              rw [Dispatched.Immediate, hend.1] at himmediate
              cases himmediate
          | refused l' =>
              rcases hnext with rfl | rfl
              · cases hexit
              · have hend := hlast l' (Exit.dispatch.inj hexit)
                rw [Dispatched.Immediate, hend.1] at himmediate
                cases himmediate

end Handler

/-! ### A field behind a cached method -/

/-- A script with two instances of `model Greeter { task hi() { give 1 } }`, of which the second got a
field `hi`, at an instruction that reads `hi` of one of them. -/
def greeters (entry : ICCacheEntry) (r : Nat) : Local :=
  { frame :=
      { function := 0, ip := 1, slots := [], ops := [.inst r], superCalled := false,
        closureUpvalues := [] }
    upvalues := []
    shared := Shared.start
      { Heap.ofProgram
          [{ FunctionObj.ofCode [] [] with icEntries := [entry] },
            { FunctionObj.ofCode (lit "hi") [.LOAD_CONST (some (.int 1)), .RETURN] with
              paramNames := [lit "self"], arity := 1, isMethod := true, localCount := 1 }]
          [Klass.ofMethods (lit "Greeter") [(lit "hi", .closure 0)]]
          [{ function := 1, upvalues := [] }] with
        instances := fun r =>
          if r = 1 then
            { klass := 0, shape := { root := 0, names := [lit "hi"] }, propertyValues := [.int 5] }
          else { klass := 0, shape := { root := 0, names := [] }, propertyValues := [] } } }

def greeterEntry : ICCacheEntry :=
  { shape := none, klass := some 0, offset := 0, methodValue := .closure 0 }

/-- The instruction reads `hi` of the first instance, and from then on of the second or the first. -/
def greeterReads (second : Bool) : History (.LOAD_PROPERTY (lit "hi") 0) (lit "hi") 0 where
  site := rfl
  states n := if n = 0 then greeters .empty 0 else greeters greeterEntry second.toNat
  receiver n := if n = 0 then 0 else second.toNat
  onInstance n := by
    by_cases hn : n = 0
    · rw [if_pos hn, if_pos hn]
      rfl
    · rw [if_neg hn, if_neg hn]
      rfl
  start := rfl
  next n := by
    rw [if_neg (Nat.succ_ne_zero n)]
    by_cases hn : n = 0
    · rw [if_pos hn]
      cases second <;> decide
    · rw [if_neg hn]
      cases second <;> decide

@[simp]
theorem greeterReads_states (second : Bool) {n : Nat} (hn : n ≠ 0) :
    (greeterReads second).states n = greeters greeterEntry second.toNat :=
  if_neg hn

@[simp]
theorem greeterReads_receiver (second : Bool) {n : Nat} (hn : n ≠ 0) :
    (greeterReads second).receiver n = second.toNat :=
  if_neg hn

theorem greeterReads_steady (second : Bool) : (greeterReads second).Steady id := by
  have hklass : ∀ n, (greeterReads second).klass n = 0 := by
    intro n
    by_cases hn : n = 0
    · rw [hn]
      rfl
    · rw [History.klass, greeterReads_states second hn, greeterReads_receiver second hn]
      cases second <;> rfl
  have hhidden : ∀ n, ((greeterReads second).states n).hidden 0 (lit "hi") = false := by
    intro n
    by_cases hn : n = 0
    · rw [hn]
      rfl
    · rw [greeterReads_states second hn]
      rfl
  have hmethod : ∀ n, ((greeterReads second).states n).shared.chainMethod 0 (lit "hi") =
      .closure 0 := by
    intro n
    by_cases hn : n = 0
    · rw [hn]
      rfl
    · rw [greeterReads_states second hn]
      rfl
  constructor
  · intro n
    rw [hklass]
    by_cases hn : n = 0
    · rw [hn]
      rfl
    · rw [greeterReads_states second hn, greeterReads_receiver second hn]
      cases second <;> rfl
  · intro m n
    rw [hklass, hhidden, hhidden]
  · intro m n
    rw [hklass, hmethod, hmethod]

/-- Reads of the first instance alone. -/
theorem greeterReads_transparent :
    SameOutcome .bare { frameCount := 1, stackBelow := 0 }
      (Handler.exec .bare { frameCount := 1, stackBelow := 0 } (.LOAD_PROPERTY (lit "hi") 0)
        ((greeterReads false).states 1))
      (Handler.exec .bare { frameCount := 1, stackBelow := 0 } (.LOAD_PROPERTY (lit "hi") 0)
        (((greeterReads false).states 1).forget 0)) := by
  refine inlineCache_transparent .bare _ (greeterReads false) id (greeterReads_steady false) ?_ 1
  intro n
  by_cases hn : n = 0
  · rw [hn]
    refine ⟨fun h => ?_, fun _ _ => rfl⟩
    cases h
  · rw [History.Unshadowed, greeterReads_states false hn, greeterReads_receiver false hn]
    refine ⟨fun h => ?_, fun _ _ => rfl⟩
    cases h

/-- After the read of the first instance the instruction binds the method of the second, though its
field hides the method. -/
theorem greeterReads_differ : (greeterReads true).Steady id ∧
    ¬∀ n, SameOutcome .bare { frameCount := 1, stackBelow := 0 }
      (Handler.exec .bare { frameCount := 1, stackBelow := 0 } (.LOAD_PROPERTY (lit "hi") 0)
        ((greeterReads true).states n))
      (Handler.exec .bare { frameCount := 1, stackBelow := 0 } (.LOAD_PROPERTY (lit "hi") 0)
        (((greeterReads true).states n).forget 0)) := by
  refine ⟨greeterReads_steady true, fun h => ?_⟩
  have hbound : Handler.exec .bare { frameCount := 1, stackBelow := 0 } (.LOAD_PROPERTY (lit "hi") 0)
      ((greeterReads true).states 1) = pure (.dispatch
        (((greeters greeterEntry 1).withOps []).push (.boundMethod (.inst 1) (.closure 0)))) := rfl
  have hfield : ∃ l, Handler.exec .bare { frameCount := 1, stackBelow := 0 }
      (.LOAD_PROPERTY (lit "hi") 0) (((greeterReads true).states 1).forget 0) = pure (.dispatch l) ∧
      l.ops = [.int 5] := ⟨_, rfl, rfl⟩
  obtain ⟨l, hslow, hops⟩ := hfield
  have hsame := h 1
  rw [hbound, hslow] at hsame
  generalize hp : (pure (.dispatch (((greeters greeterEntry 1).withOps []).push
    (.boundMethod (.inst 1) (.closure 0)))) : Proc Exit) = p at hsame
  generalize hq : (pure (.dispatch l) : Proc Exit) = q at hsame
  cases hsame with
  | exit hexit =>
      obtain rfl := Except.ok.inj (Resumption.done.inj (congrArg ExceptT.run hp))
      obtain rfl := Except.ok.inj (Resumption.done.inj (congrArg ExceptT.run hq))
      have hstates := congrArg Local.ops (Exit.dispatch.inj hexit)
      have hdiffer : [Value.boundMethod (.inst 1) (.closure 0)] = [Value.int 5] :=
        hstates.trans hops
      cases hdiffer
  | call hnext callee argCount callSite _ =>
      exact Handler.callThen_ne_bound hnext rfl hp.symm

end EZLanguage
