import EZLanguage.VM.FaultDelivery

/-!
# Method calls and property reads

`INVOKE_METHOD` looks a member up and calls it in one instruction, where `t = receiver.name` followed by
`t(args)` takes a `LOAD_PROPERTY` and a `CALL`. `Local.member` is the lookup that both are about. The
property read follows it. The fused call does not for every receiver, and `fuses` says where the two
sequences make the same call.
-/

namespace EZLanguage

/-! ### The lookup -/

/-- What a receiver has under a name. -/
inductive Member where
  /-- A declared method, with the receiver it binds. -/
  | method (receiver m : Value)
  | value (v : Value)
  /-- Only the `__getattr__` hook answers to the name. -/
  | hook
  | missing
  deriving DecidableEq

namespace Local

def instanceMember (l : Local) (r : Nat) (name : CString) : Member :=
  let val := l.shared.getProperty r name
  if l.hidden (l.shared.instances r).klass name then .missing
  else if l.shared.hasProperty r name then .value val
  else if val.isMethodKind then .method (.inst r) val
  else if !val.isNil then .value val
  else if (l.shared.findGetattrHook (.inst r) name).isCallable then .hook
  else .missing

def classMember (rt : Runtime) (l : Local) (k : Nat) (name : CString) : Member :=
  let klass := l.shared.classes k
  if l.hidden k name then .missing
  else if name = lit "load" ∧ klass.persists then .value (.nativeFunction (rt.loadFunction k))
  else
    match lookup klass.staticMembers name, lookup klass.methods name with
    | some val, _ => .value val
    | none, some val => .value val
    | none, none =>
        if name = lit "name" then .value (.string klass.name)
        else if (l.shared.findGetattrHook (.klass k) name).isCallable then .hook
        else .missing

def superMember (l : Local) (instRef parentKlass : Nat) (name : CString) : Member :=
  let method := l.shared.chainMethod parentKlass name
  if method.isNil then .missing
  else if method.isMethodKind then .method (.inst instRef) method
  else .value method

/-- The member of a receiver, by the rules of the property read. -/
def member (rt : Runtime) (l : Local) (name : CString) : Value → Member
  | .inst r => l.instanceMember r name
  | .dictionary r =>
      match lookup (l.shared.dicts r) name with
      | some v => .value v
      | none => .missing
  | .klass k => l.classMember rt k name
  | .super instRef parentKlass => l.superMember instRef parentKlass name
  | obj =>
      match if name = lit "name" then Handler.functionName rt l obj else none with
      | some text => .value (.string text)
      | none => .missing

/-- An inline cache entry, where it is used for the instance, holds what the lookup finds. -/
def cacheHonest (l : Local) (r : Nat) (name : CString) (icIdx : Nat) : Bool :=
  let inst := l.shared.instances r
  let ic := l.icEntry icIdx
  let visible := !l.hidden inst.klass name
  let val := l.shared.getProperty r name
  (!Handler.shapeHit l r icIdx ||
    (visible && l.shared.hasProperty r name &&
      ((inst.propertyValues[ic.offset]?).getD .nil == val))) &&
  (!Handler.classHit l r icIdx ||
    (visible && !l.shared.hasProperty r name && val.isMethodKind && ic.methodValue == val))

end Local

/-! ### States up to their caches -/

def Shared.withoutCaches (s : Shared) : Shared :=
  { s with functions := fun f => { s.functions f with icEntries := [] } }

def Local.withoutCaches (l : Local) : Local := l.withShared l.shared.withoutCaches

theorem withoutCaches_withOps (l : Local) (ops : List Value) :
    (l.withOps ops).withoutCaches = l.withoutCaches.withOps ops := rfl

@[simp] theorem withoutCaches_setIC (l : Local) (icIdx : Nat) (entry : ICCacheEntry) :
    (l.setIC icIdx entry).withoutCaches = l.withoutCaches := by
  have hfunctions : (fun f =>
      { Function.update l.shared.functions l.frame.function
          { l.function with icEntries := l.function.icEntries.set icIdx entry } f with
        icEntries := [] }) = fun f => { l.shared.functions f with icEntries := [] } := by
    funext f
    by_cases hf : f = l.frame.function
    · rw [hf, Function.update_self]
      rfl
    · rw [Function.update_of_ne hf]
  show l.withShared { l.shared with functions := _ } = l.withShared { l.shared with functions := _ }
  rw [← hfunctions]
  rfl

@[simp] theorem withoutCaches_cacheMethod (l : Local) (r : Nat) (method : Value) (icIdx : Nat) :
    (Handler.cacheMethod l r method icIdx).withoutCaches = l.withoutCaches :=
  withoutCaches_setIC _ _ _

/-! ### The same call -/

/-- The code ends at once in a fault. -/
def Fails (p : Proc Exit) : Prop := ∃ e : Exit, p = pure e ∧ e.fault.isSome = true

theorem fails_leave {l : Local} (h : l.shared.pendingException.isNil = false) :
    Fails (pure (.leave l)) :=
  ⟨_, rfl, by simp [Exit.fault, Local.fault, h]⟩

theorem fails_raiseFault {l : Local} (h : l.shared.pendingException.isNil = false) :
    Fails (pure (.raiseFault l)) :=
  ⟨_, rfl, by simp [Exit.fault, Local.fault, h]⟩

theorem fails_dispatch {l : Local} (h : l.shared.pendingException.isNil = false) :
    Fails (pure (.dispatch l)) :=
  ⟨_, rfl, by simp [Exit.fault, Local.fault, h]⟩

theorem pending_recordFault (s : Shared) {exc : Value} (h : exc.isNil = false) :
    (s.recordFault exc).pendingException.isNil = false := by
  unfold Shared.recordFault
  dsimp only
  split
  · exact h
  · rename_i hpending
    simpa using hpending

@[simp] theorem pending_runtimeError (l : Local) (message : CString) :
    (l.runtimeError message).shared.pendingException.isNil = false :=
  pending_recordFault _ rfl

@[simp] theorem pending_hiddenError (l : Local) (klass : Nat) (name : CString) :
    (l.hiddenError klass name).shared.pendingException.isNil = false :=
  pending_recordFault _ rfl

@[simp] theorem pending_throwException (l : Local) (className message : CString) :
    (l.throwException className message).shared.pendingException.isNil = false := by
  unfold Local.throwException Shared.throwException
  split
  · exact pending_recordFault _ rfl
  · exact pending_recordFault _ rfl

section Calls

variable (rt : Runtime) (ctx : Ctx)

/-- `dispatchCall` and the way a `CALL`-like instruction goes on. -/
def callCode (l : Local) (callee : Value) (argCount : Nat) (callSite : Option Nat) : Proc Exit := do
  let called ← dispatchCall rt ctx callee l argCount callSite
  return called.dispatchOrRefresh

/-- Two instructions make the same call: of the same callee, on the same operands and in the same state,
except for what the inline caches hold. -/
def SameCall (p q : Proc Exit) : Prop :=
  ∃ callee argCount l l' callSite callSite', l.withoutCaches = l'.withoutCaches ∧
    p = callCode rt ctx l callee argCount callSite ∧
    q = callCode rt ctx l' callee argCount callSite'

/-- The evaluation of the arguments leaves the receiver as it was: the object itself, and the classes it
finds its members in. -/
def Unchanged (s s' : Shared) : Value → Prop
  | .inst r => s'.instances r = s.instances r ∧
      ∀ c ∈ s.ancestors (s.instances r).klass, s'.classes c = s.classes c
  | .klass k => ∀ c ∈ s.ancestors k, s'.classes c = s.classes c
  | .super _ k => ∀ c ∈ s.ancestors k, s'.classes c = s.classes c
  | .dictionary r => s'.dicts r = s.dicts r
  | _ => True

/-- The arguments of a call are evaluated on top of its receiver. -/
structure Evaluated (receiver : Value) (rest args : List Value) (before after : Local) : Prop where
  receiverPushed : before.ops = receiver :: rest
  argsPushed : after.ops = args ++ receiver :: rest
  className : after.function.className = before.function.className
  unchanged : Unchanged before.shared after.shared receiver

/-- `receiver.name(args)` as one instruction gives what `t = receiver.name` and `t(args)` give: the same
call, or an error in both. -/
def FusionAgrees (name : CString) (readIC invokeIC : Nat) (rest args : List Value)
    (before after : Local) : Prop :=
  let invoked := Handler.INVOKE_METHOD rt ctx name invokeIC args.length after
  ∃ e, Handler.LOAD_PROPERTY rt ctx name readIC before = pure e ∧
    match e with
    | .dispatch l => ∃ t, l.ops = t :: rest ∧
        let called := Handler.CALL rt ctx args.length (after.withOps (args ++ t :: rest))
        SameCall rt ctx invoked called ∨ Fails invoked ∧ Fails called
    | e => e.fault.isSome = true ∧ Fails invoked

/-- `CALL` of the value is `dispatchCall` of it. -/
def calledDirectly (l : Local) (args : List Value) (v : Value) : Bool :=
  (Handler.overload l (lit "__call__") v).isNone && !Handler.isStrOfInstance rt l v args

/-- `CALL` of the value is refused for what the value is. -/
def uncallable (l : Local) (v : Value) : Bool :=
  match v with
  | .super _ _ => false
  | v => !v.isCallable && (Handler.overload l (lit "__call__") v).isNone

/-- The static member of a class, or the `load` of a persistent one. -/
def staticMember (l : Local) (k : Nat) (name : CString) : Value :=
  if name = lit "load" ∧ (l.shared.classes k).persists then .nativeFunction (rt.loadFunction k)
  else l.shared.getStaticMember k name

/-- Whether the fused call of a receiver's member is the plain one. -/
def fuses (l : Local) (name : CString) (receiver : Value) (args : List Value) : Bool :=
  match l.member rt name receiver with
  | .missing => true
  | .hook => false
  | .method _ _ =>
      match receiver with
      | .inst _ => args.length < 255
      | _ => false
  | .value v =>
      match receiver with
      | .inst r =>
          if v.isNil then !(l.shared.findGetattrHook (.inst r) name).isCallable
          else calledDirectly rt l args v
      | .klass k =>
          if (staticMember rt l k name).isCallable then calledDirectly rt l args v
          else uncallable l v
      | .dictionary _ => if v.isCallable then calledDirectly rt l args v else uncallable l v
      | _ => uncallable l v

end Calls

/-! ### The lookup after the arguments -/

private theorem findSome?_congr_mem {α β : Type} {xs : List α} {f g : α → Option β}
    (h : ∀ a ∈ xs, f a = g a) : xs.findSome? f = xs.findSome? g := by
  induction xs with
  | nil => rfl
  | cons a xs ih =>
      rw [List.findSome?_cons, List.findSome?_cons, h a List.mem_cons_self,
        ih fun b hb => h b (List.mem_cons_of_mem a hb)]

private theorem any_congr_mem {α : Type} {xs : List α} {f g : α → Bool}
    (h : ∀ a ∈ xs, f a = g a) : xs.any f = xs.any g := by
  induction xs with
  | nil => rfl
  | cons a xs ih =>
      rw [List.any_cons, List.any_cons, h a List.mem_cons_self,
        ih fun b hb => h b (List.mem_cons_of_mem a hb)]

section Unchanged

variable {s s' : Shared} {k : Nat}

theorem self_mem_ancestors (s : Shared) (k : Nat) : k ∈ s.ancestors k := List.mem_cons_self

theorem ancestorsFrom_congr (fuel : Nat) {k : Nat}
    (h : ∀ c ∈ s.ancestorsFrom fuel k, s'.classes c = s.classes c) :
    s'.ancestorsFrom fuel k = s.ancestorsFrom fuel k := by
  induction fuel generalizing k with
  | zero => rfl
  | succ fuel ih =>
      have hk : s'.classes k = s.classes k := h k List.mem_cons_self
      unfold Shared.ancestorsFrom
      rw [hk]
      cases hparent : (s.classes k).parent with
      | none => rfl
      | some p =>
          have hp : ∀ c ∈ s.ancestorsFrom fuel p, s'.classes c = s.classes c := by
            intro c hc
            refine h c ?_
            unfold Shared.ancestorsFrom
            rw [hparent]
            exact List.mem_cons_of_mem k hc
          simp only [ih hp]

variable (h : ∀ c ∈ s.ancestors k, s'.classes c = s.classes c)
include h

theorem ancestors_congr : s'.ancestors k = s.ancestors k := ancestorsFrom_congr (k + 1) h

theorem chainMethod_congr (name : CString) : s'.chainMethod k name = s.chainMethod k name := by
  unfold Shared.chainMethod
  rw [ancestors_congr h, findSome?_congr_mem fun c hc => by rw [h c hc]]

theorem findMethod_congr (name : CString) : s'.findMethod k name = s.findMethod k name := by
  unfold Shared.findMethod
  rw [ancestors_congr h, findSome?_congr_mem fun c hc => by rw [h c hc]]

theorem findStaticMember_congr (name : CString) :
    s'.findStaticMember k name = s.findStaticMember k name := by
  unfold Shared.findStaticMember
  rw [ancestors_congr h, findSome?_congr_mem fun c hc => by rw [h c hc]]

end Unchanged

section Lookup

variable {receiver : Value} {rest args : List Value} {before after : Local}

theorem hidden_congr {k : Nat} (hname : after.function.className = before.function.className)
    (h : ∀ c ∈ before.shared.ancestors k, after.shared.classes c = before.shared.classes c)
    (name : CString) : after.hidden k name = before.hidden k name := by
  unfold Local.hidden
  rw [hname, ancestors_congr h, h k (self_mem_ancestors before.shared k),
    any_congr_mem fun c hc => by rw [h c hc]]

theorem getProperty_congr {s s' : Shared} {r : Nat} (h : Unchanged s s' (.inst r))
    (name : CString) : s'.getProperty r name = s.getProperty r name := by
  unfold Shared.getProperty
  rw [h.1, chainMethod_congr h.2]

theorem hasProperty_congr {s s' : Shared} {r : Nat} (h : Unchanged s s' (.inst r))
    (name : CString) : s'.hasProperty r name = s.hasProperty r name := by
  unfold Shared.hasProperty
  rw [h.1]

theorem findGetattrHook_inst_congr {s s' : Shared} {r : Nat} (h : Unchanged s s' (.inst r))
    (name : CString) : s'.findGetattrHook (.inst r) name = s.findGetattrHook (.inst r) name := by
  unfold Shared.findGetattrHook
  dsimp only
  rw [h.1, findMethod_congr h.2, h.2 _ (self_mem_ancestors s _)]

theorem findGetattrHook_klass_congr {s s' : Shared} {k : Nat} (h : Unchanged s s' (.klass k))
    (name : CString) : s'.findGetattrHook (.klass k) name = s.findGetattrHook (.klass k) name := by
  unfold Shared.findGetattrHook
  dsimp only
  rw [findStaticMember_congr h, h k (self_mem_ancestors s k)]

/-- The arguments do not change which member the receiver has. -/
theorem Evaluated.instanceMember {r : Nat} (h : Evaluated (.inst r) rest args before after)
    (name : CString) : after.instanceMember r name = before.instanceMember r name := by
  have hunchanged := h.unchanged
  have hhidden := hidden_congr h.className hunchanged.2 name
  unfold Local.instanceMember
  rw [getProperty_congr hunchanged, hasProperty_congr hunchanged,
    findGetattrHook_inst_congr hunchanged, hunchanged.1, hhidden]

theorem Evaluated.classMember {k : Nat} (rt : Runtime)
    (h : Evaluated (.klass k) rest args before after) (name : CString) :
    after.classMember rt k name = before.classMember rt k name := by
  have hunchanged := h.unchanged
  unfold Local.classMember
  rw [hidden_congr h.className hunchanged name, findGetattrHook_klass_congr hunchanged,
    hunchanged k (self_mem_ancestors before.shared k)]

theorem Evaluated.superMember {i k : Nat} (h : Evaluated (.super i k) rest args before after)
    (name : CString) : after.superMember i k name = before.superMember i k name := by
  unfold Local.superMember
  rw [chainMethod_congr h.unchanged]

end Lookup

/-! ### The property read -/

section Read

open Handler

variable {rt : Runtime} {ctx : Ctx} {name : CString} {icIdx : Nat} {l : Local} {rest : List Value}

/-- The instruction raises a fault of its own. -/
def Stops (p : Proc Exit) : Prop :=
  ∃ l : Local, l.shared.pendingException.isNil = false ∧
    (p = pure (.leave l) ∨ p = pure (.raiseFault l))

theorem Stops.leave {l : Local} (h : l.shared.pendingException.isNil = false) :
    Stops (pure (.leave l)) := ⟨l, h, .inl rfl⟩

theorem Stops.raiseFault {l : Local} (h : l.shared.pendingException.isNil = false) :
    Stops (pure (.raiseFault l)) := ⟨l, h, .inr rfl⟩

theorem Stops.fails {p : Proc Exit} (h : Stops p) : Fails p := by
  obtain ⟨l, hpending, rfl | rfl⟩ := h
  · exact ⟨_, rfl, by simp [Exit.fault, Local.fault, hpending]⟩
  · exact ⟨_, rfl, by simp [Exit.fault, Local.fault, hpending]⟩

/-- The instruction leaves the member on the operands, or stops where there is none. -/
def Reads (p : Proc Exit) (rest : List Value) : Member → Prop
  | .value v => ∃ l, p = pure (.dispatch l) ∧ l.ops = v :: rest
  | .method receiver m => ∃ l, p = pure (.dispatch l) ∧ l.ops = .boundMethod receiver m :: rest
  | .hook => True
  | .missing => Stops p

theorem isNil_of_isMethodKind {v : Value} (h : v.isMethodKind = true) : v.isNil = false := by
  cases v <;> first | rfl | cases h

theorem cacheShape_ops (l : Local) (r : Nat) (name : CString) (icIdx : Nat) :
    (cacheShape l r name icIdx).ops = l.ops := by
  unfold cacheShape
  dsimp only
  split <;> rfl

theorem loadInstanceProperty_reads {r : Nat} (hops : l.ops = rest)
    (hhonest : l.cacheHonest r name icIdx = true) :
    Reads (loadInstanceProperty rt ctx l r name icIdx) rest (l.instanceMember r name) := by
  unfold loadInstanceProperty Local.instanceMember
  simp only [Local.cacheHonest, shapeHit, classHit, Bool.and_eq_true, Bool.or_eq_true,
    Bool.not_eq_true', beq_eq_false_iff_ne, ne_eq, beq_iff_eq] at hhonest
  obtain ⟨hshape, hclass⟩ := hhonest
  dsimp only
  split
  · rename_i hhit
    obtain ⟨⟨hvisible, hfield⟩, hvalue⟩ := hshape.resolve_left (not_not_intro hhit)
    rw [hvisible, if_neg (by simp), if_pos hfield, hvalue]
    exact ⟨_, rfl, by rw [Local.push_ops, hops]⟩
  split
  · rename_i hhit
    obtain ⟨⟨⟨hvisible, hfield⟩, hkind⟩, hvalue⟩ := hclass.resolve_left (not_not_intro hhit)
    rw [hvisible, if_neg (by simp), hfield, if_neg (by simp), if_pos hkind, hvalue]
    exact ⟨_, rfl, by rw [Local.push_ops, hops]⟩
  split
  · exact .leave (pending_hiddenError _ _ _)
  by_cases hfield : l.shared.hasProperty r name = true
  · rw [if_neg (by simp [hfield]), if_pos hfield, if_pos hfield]
    refine ⟨_, rfl, ?_⟩
    rw [Local.push_ops, cacheShape_ops, hops]
  rw [if_neg hfield, if_neg hfield]
  by_cases hkind : (l.shared.getProperty r name).isMethodKind = true
  · have hnil : (l.shared.getProperty r name).isNil = false := isNil_of_isMethodKind hkind
    rw [if_neg (by simp [hnil]), if_pos hkind, if_pos hkind]
    exact ⟨_, rfl, by rw [Local.push_ops]; exact congrArg _ hops⟩
  rw [if_neg hkind, if_neg hkind]
  by_cases hnil : (l.shared.getProperty r name).isNil = true
  · have hnot : ¬(!(l.shared.getProperty r name).isNil) = true := by simp [hnil]
    rw [if_pos ⟨hnil, hfield⟩, if_neg hnot]
    split
    · trivial
    · exact .raiseFault (pending_throwException _ _ _)
  · rw [if_neg (by simp [hnil]), if_pos (by simpa using hnil)]
    exact ⟨_, rfl, by rw [Local.push_ops, hops]⟩

theorem loadClassProperty_reads {k : Nat} (hops : l.ops = rest) :
    Reads (loadClassProperty rt ctx l k name) rest (l.classMember rt k name) := by
  unfold loadClassProperty Local.classMember
  dsimp only
  split
  · exact .leave (pending_hiddenError _ _ _)
  split
  · exact ⟨_, rfl, by rw [Local.push_ops, hops]⟩
  cases hstatic : lookup (l.shared.classes k).staticMembers name with
  | some v => exact ⟨_, rfl, by rw [Local.push_ops, hops]⟩
  | none =>
      cases hmethod : lookup (l.shared.classes k).methods name with
      | some v => exact ⟨_, rfl, by rw [Local.push_ops, hops]⟩
      | none =>
          dsimp only
          split
          · exact ⟨_, rfl, by rw [Local.push_ops, hops]⟩
          split
          · trivial
          · exact .raiseFault (pending_runtimeError _ _)

theorem loadSuperProperty_reads {i k : Nat} (hops : l.ops = rest) :
    Reads (pure (loadSuperProperty l i k name)) rest (l.superMember i k name) := by
  unfold loadSuperProperty Local.superMember
  dsimp only
  split
  · exact .raiseFault (pending_throwException _ _ _)
  split
  · exact ⟨_, rfl, by rw [Local.push_ops, hops]⟩
  · exact ⟨_, rfl, by rw [Local.push_ops, hops]⟩

theorem loadOtherProperty_reads {obj : Value} (hops : l.ops = rest) :
    Reads (pure (loadOtherProperty rt l obj name)) rest
      (match if name = lit "name" then functionName rt l obj else none with
        | some text => .value (.string text)
        | none => .missing) := by
  unfold loadOtherProperty
  cases hname : if name = lit "name" then functionName rt l obj else none with
  | some text => exact ⟨_, rfl, by rw [Local.push_ops, hops]⟩
  | none => exact .raiseFault (pending_throwException _ _ _)

/-- `LOAD_PROPERTY` reads the member, when its cache is honest. -/
theorem LOAD_PROPERTY_reads {receiver : Value} (hops : l.ops = receiver :: rest)
    (hhonest : ∀ r, receiver = .inst r → l.cacheHonest r name icIdx = true) :
    Reads (LOAD_PROPERTY rt ctx name icIdx l) rest (l.member rt name receiver) := by
  unfold LOAD_PROPERTY
  rw [hops]
  cases receiver with
  | inst r => exact loadInstanceProperty_reads (l := l.withOps rest) rfl (hhonest r rfl)
  | dictionary r =>
      unfold Local.member
      dsimp only
      unfold loadKey
      cases hkey : lookup (l.shared.dicts r) name with
      | some v =>
          rw [show lookup ((l.withOps rest).shared.dicts r) name = some v from hkey]
          exact ⟨_, rfl, rfl⟩
      | none =>
          rw [show lookup ((l.withOps rest).shared.dicts r) name = none from hkey]
          exact .raiseFault (pending_throwException _ _ _)
  | klass k => exact loadClassProperty_reads (l := l.withOps rest) rfl
  | super i k => exact loadSuperProperty_reads (l := l.withOps rest) rfl
  | _ => exact loadOtherProperty_reads (l := l.withOps rest) rfl

end Read

/-! ### The fused call -/

section Invoke

open Handler

variable {rt : Runtime} {ctx : Ctx} {name : CString} {icIdx : Nat} {l : Local}
  {args rest : List Value}

/-- How the fused call of an instance's member goes on. -/
def Invokes (rt : Runtime) (ctx : Ctx) (l : Local) (r : Nat) (name : CString)
    (args rest : List Value) (p : Proc Exit) : Member → Prop
  | .method _ m => ∃ l' callSite,
      l'.withoutCaches = (l.withOps (args ++ .inst r :: m :: rest)).withoutCaches ∧
        p = callCode rt ctx l' m ((args.length + 1) % 256) callSite
  | .value v =>
      if v.isNil then (l.shared.findGetattrHook (.inst r) name).isCallable = false → Stops p
      else ∃ callSite, p = callCode rt ctx (l.withOps (args ++ v :: rest)) v args.length callSite
  | .hook => True
  | .missing => Stops p

theorem INVOKE_METHOD_instance (rt : Runtime) (ctx : Ctx) {r : Nat} (hops : l.ops = args ++ .inst r :: rest)
    (hhonest : l.cacheHonest r name icIdx = true) :
    Invokes rt ctx l r name args rest (INVOKE_METHOD rt ctx name icIdx args.length l)
      (l.instanceMember r name) := by
  have hdrop : l.ops.drop args.length = .inst r :: rest := by rw [hops, List.drop_left]
  have htake : l.ops.take args.length = args := by rw [hops, List.take_left]
  simp only [Local.cacheHonest, classHit, Bool.and_eq_true, Bool.or_eq_true,
    Bool.not_eq_true', beq_eq_false_iff_ne, ne_eq, beq_iff_eq] at hhonest
  obtain ⟨-, hclass⟩ := hhonest
  unfold INVOKE_METHOD
  simp only [hdrop, htake]
  unfold invokedOn Local.instanceMember
  dsimp only
  by_cases hhit : (l.icEntry icIdx).klass = some (l.shared.instances r).klass
  · obtain ⟨⟨⟨hvisible, hfield⟩, hkind⟩, hvalue⟩ := hclass.resolve_left (not_not_intro hhit)
    simp only [if_pos hhit, hvisible, hfield, hkind, hvalue, Bool.false_eq_true, if_false, if_true]
    exact ⟨_, _, rfl, rfl⟩
  rw [if_neg hhit]
  by_cases hhidden : l.hidden (l.shared.instances r).klass name = true
  · rw [if_pos hhidden, if_pos hhidden]
    exact .leave (pending_hiddenError _ _ _)
  rw [if_neg hhidden, if_neg hhidden]
  by_cases hfield : l.shared.hasProperty r name = true
  · have hmethod : ¬(¬l.shared.hasProperty r name = true ∧
        (l.shared.getProperty r name).isMethodKind = true) := fun h => h.1 hfield
    rw [if_neg hmethod, if_pos hfield]
    by_cases hnil : (l.shared.getProperty r name).isNil = true
    · rw [if_neg (not_not_intro hnil)]
      show ite _ _ _
      rw [if_pos hnil]
      intro hhook
      rw [hhook, if_neg (by simp)]
      exact .raiseFault (pending_throwException _ _ _)
    · rw [if_pos hnil]
      show ite _ _ _
      rw [if_neg hnil]
      exact ⟨_, rfl⟩
  rw [if_neg hfield]
  by_cases hkind : (l.shared.getProperty r name).isMethodKind = true
  · rw [if_pos ⟨hfield, hkind⟩, if_pos hkind]
    exact ⟨_, _, by rw [withoutCaches_withOps, withoutCaches_cacheMethod, withoutCaches_withOps], rfl⟩
  rw [if_neg (fun h => hkind h.2), if_neg hkind]
  by_cases hnil : (l.shared.getProperty r name).isNil = true
  · have hnot : ¬(!(l.shared.getProperty r name).isNil) = true := by simp [hnil]
    rw [if_neg (not_not_intro hnil), if_neg hnot]
    by_cases hhook : (l.shared.findGetattrHook (.inst r) name).isCallable = true
    · rw [if_pos hhook, if_pos hhook]
      trivial
    · rw [if_neg hhook, if_neg hhook]
      exact .raiseFault (pending_throwException _ _ _)
  · rw [if_pos hnil, if_pos (by simpa using hnil)]
    show ite _ _ _
    rw [if_neg hnil]
    exact ⟨_, rfl⟩

/-! ### The plain call -/

theorem CALL_directly {t : Value} (hops : l.ops = args ++ t :: rest)
    (hdirect : calledDirectly rt l args t = true) :
    CALL rt ctx args.length l = callCode rt ctx l t args.length (some l.frame.ip) := by
  have hdrop : l.ops.drop args.length = t :: rest := by rw [hops, List.drop_left]
  have htake : l.ops.take args.length = args := by rw [hops, List.take_left]
  simp only [calledDirectly, Bool.and_eq_true, Option.isNone_iff_eq_none, Bool.not_eq_true'] at hdirect
  unfold CALL
  simp only [hdrop, htake, hdirect, Bool.false_eq_true, if_false]
  rfl

theorem dispatchCall_uncallable (rt : Runtime) (ctx : Ctx) {t : Value} (argCount : Nat)
    (callSite : Option Nat) (h : uncallable l t = true) : ∃ l', l'.shared.pendingException.isNil = false ∧
      dispatchCall rt ctx t l argCount callSite = pure (.refused l') := by
  cases t <;>
    first
      | exact ⟨_, pending_throwException _ _ _, rfl⟩
      | simp [uncallable, Value.isCallable] at h

theorem CALL_uncallable {t : Value} (hops : l.ops = args ++ t :: rest)
    (h : uncallable l t = true) : Fails (CALL rt ctx args.length l) := by
  have hdrop : l.ops.drop args.length = t :: rest := by rw [hops, List.drop_left]
  have htake : l.ops.take args.length = args := by rw [hops, List.take_left]
  have hoverload : overload l (lit "__call__") t = none := by
    cases t <;> simp_all [uncallable, overload]
  have hstr : isStrOfInstance rt l t args = false := by
    cases t <;> first | rfl | simp [uncallable, Value.isCallable] at h
  obtain ⟨l', hpending, hrefused⟩ :=
    dispatchCall_uncallable rt ctx args.length (some l.frame.ip) h
  unfold CALL
  simp only [hdrop, htake, hoverload, hstr, Bool.false_eq_true, if_false, callAndRefresh, hrefused]
  exact fails_dispatch hpending

theorem dispatchCall_of_isMethodKind {m : Value} {argCount : Nat} {callSite : Option Nat}
    (h : m.isMethodKind = true) :
    dispatchCall rt ctx m l argCount callSite = dispatchCallee rt ctx m l argCount callSite := by
  cases m <;> first | rfl | cases h

/-- A bound method is called with its receiver below the arguments. -/
theorem CALL_boundMethod {receiver m : Value}
    (hops : l.ops = args ++ .boundMethod receiver m :: rest) (hkind : m.isMethodKind = true)
    (hcount : args.length < 255) :
    CALL rt ctx args.length l =
      callCode rt ctx (l.withOps (args ++ receiver :: m :: rest)) m (args.length + 1) none := by
  have hdrop : l.ops.drop args.length = .boundMethod receiver m :: rest := by
    rw [hops, List.drop_left]
  have hdropped : l.ops.drop (args.length + 1) = rest := by
    rw [← List.drop_drop, hdrop]
    rfl
  have htake : l.ops.take args.length = args := by rw [hops, List.take_left]
  have hdispatch : dispatchCall rt ctx (.boundMethod receiver m) l args.length (some l.frame.ip) =
      dispatchCall rt ctx m (l.withOps (args ++ receiver :: m :: rest)) (args.length + 1) none := by
    rw [dispatchCall_of_isMethodKind hkind]
    show dispatchCallee rt ctx (.boundMethod receiver m) l args.length (some l.frame.ip) = _
    rw [dispatchCallee, if_neg (by omega), htake, hdropped]
  unfold CALL
  simp only [hdrop, isStrOfInstance, overload, Bool.false_eq_true, if_false, callAndRefresh, hdispatch]
  rfl

/-- What the two sequences do with a member that both have found. -/
theorem agrees_of_directly {t : Value} {callSite : Option Nat} (hops : l.ops = args ++ t :: rest)
    (hdirect : calledDirectly rt l args t = true) {p : Proc Exit}
    (hp : p = callCode rt ctx l t args.length callSite) :
    SameCall rt ctx p (CALL rt ctx args.length l) :=
  ⟨t, args.length, l, l, callSite, some l.frame.ip, rfl, hp, CALL_directly hops hdirect⟩

end Invoke

section Agreement

open Handler

variable {rt : Runtime} {ctx : Ctx} {name : CString} {readIC invokeIC : Nat} {rest args : List Value}
  {before after : Local}

theorem FusionAgrees.of_missing {p : Proc Exit} (hread : Reads p rest .missing)
    (hp : LOAD_PROPERTY rt ctx name readIC before = p)
    (hinvoke : Fails (INVOKE_METHOD rt ctx name invokeIC args.length after)) :
    FusionAgrees rt ctx name readIC invokeIC rest args before after := by
  obtain ⟨l, hpending, hread | hread⟩ := hread
  · exact ⟨.leave l, hp.trans hread, by simp [Exit.fault, Local.fault, hpending], hinvoke⟩
  · exact ⟨.raiseFault l, hp.trans hread, by simp [Exit.fault, Local.fault, hpending], hinvoke⟩

theorem FusionAgrees.of_value {t : Value} {p : Proc Exit}
    (hread : ∃ l, p = pure (.dispatch l) ∧ l.ops = t :: rest)
    (hp : LOAD_PROPERTY rt ctx name readIC before = p)
    (hcall : SameCall rt ctx (INVOKE_METHOD rt ctx name invokeIC args.length after)
        (CALL rt ctx args.length (after.withOps (args ++ t :: rest))) ∨
      Fails (INVOKE_METHOD rt ctx name invokeIC args.length after) ∧
        Fails (CALL rt ctx args.length (after.withOps (args ++ t :: rest)))) :
    FusionAgrees rt ctx name readIC invokeIC rest args before after := by
  obtain ⟨l, hread, hops⟩ := hread
  exact ⟨.dispatch l, hp.trans hread, t, hops, hcall⟩

theorem fusionAgrees_instance {r : Nat} (h : Evaluated (.inst r) rest args before after)
    (hread : before.cacheHonest r name readIC = true)
    (hinvoke : after.cacheHonest r name invokeIC = true)
    (hfuses : fuses rt after name (.inst r) args = true) :
    FusionAgrees rt ctx name readIC invokeIC rest args before after := by
  have hreads : Reads (LOAD_PROPERTY rt ctx name readIC before) rest (before.member rt name (.inst r)) :=
    LOAD_PROPERTY_reads h.receiverPushed fun r' hr' => by
      cases hr'
      exact hread
  have hinvokes := INVOKE_METHOD_instance rt ctx h.argsPushed hinvoke
  rw [show before.member rt name (.inst r) = after.instanceMember r name from
    (h.instanceMember name).symm] at hreads
  unfold fuses at hfuses
  rw [show after.member rt name (.inst r) = after.instanceMember r name from rfl] at hfuses
  cases hmember : after.instanceMember r name with
  | missing =>
      rw [hmember] at hreads hinvokes
      exact .of_missing hreads rfl hinvokes.fails
  | hook => simp [hmember] at hfuses
  | method receiver m =>
      rw [hmember] at hreads hinvokes
      simp only [hmember, decide_eq_true_eq] at hfuses
      obtain ⟨rfl, hkind⟩ : receiver = .inst r ∧ m.isMethodKind = true := by
        unfold Local.instanceMember at hmember
        dsimp only at hmember
        split_ifs at hmember with _ _ hkind
        cases hmember
        exact ⟨rfl, hkind⟩
      obtain ⟨l', callSite, hcaches, hcall⟩ := hinvokes
      refine .of_value hreads rfl (.inl ⟨m, args.length + 1, l', _, callSite, none, hcaches, ?_,
        CALL_boundMethod rfl hkind hfuses⟩)
      rw [hcall, Nat.mod_eq_of_lt (by omega)]
  | value v =>
      rw [hmember] at hreads hinvokes
      simp only [hmember] at hfuses
      refine .of_value hreads rfl ?_
      simp only [Invokes] at hinvokes
      by_cases hnil : v.isNil = true
      · rw [if_pos hnil, Bool.not_eq_true'] at hfuses
        rw [if_pos hnil] at hinvokes
        refine .inr ⟨(hinvokes hfuses).fails, ?_⟩
        obtain rfl := Value.isNil_iff.mp hnil
        exact CALL_uncallable rfl rfl
      · rw [if_neg hnil] at hfuses hinvokes
        obtain ⟨callSite, hcall⟩ := hinvokes
        have hdirect : calledDirectly rt (after.withOps (args ++ v :: rest)) args v = true := hfuses
        exact .inl (agrees_of_directly rfl hdirect hcall)

theorem INVOKE_METHOD_class {k : Nat} {l : Local} (hops : l.ops = args ++ .klass k :: rest) :
    INVOKE_METHOD rt ctx name invokeIC args.length l =
      if l.hidden k name then pure (.leave (l.hiddenError k name))
      else if (staticMember rt l k name).isCallable then
        callCode rt ctx (l.withOps (args ++ staticMember rt l k name :: rest))
          (staticMember rt l k name) args.length (some l.frame.ip)
      else
        pure (.raiseFault (l.throwException (lit "AttributeError")
          (lit "Class '" ++ (l.shared.classes k).name ++ lit "' has no static method '" ++ name ++
            lit "'"))) := by
  have hdrop : l.ops.drop args.length = .klass k :: rest := by rw [hops, List.drop_left]
  have htake : l.ops.take args.length = args := by rw [hops, List.take_left]
  unfold INVOKE_METHOD
  simp only [hdrop, htake]
  rfl

/-- A property read of a class finds the static member first. -/
theorem classMember_static {k : Nat} {l : Local} (hvisible : l.hidden k name = false) :
    l.classMember rt k name = .value (staticMember rt l k name) ∨
      (staticMember rt l k name).isCallable = false := by
  unfold Local.classMember staticMember
  rw [hvisible]
  dsimp only
  rw [if_neg (by simp)]
  by_cases hload : name = lit "load" ∧ (l.shared.classes k).persists = true
  · rw [if_pos hload, if_pos hload]
    exact .inl rfl
  rw [if_neg hload, if_neg hload]
  unfold Shared.getStaticMember
  cases lookup (l.shared.classes k).staticMembers name with
  | some v => exact .inl rfl
  | none => exact .inr rfl

theorem fusionAgrees_class {k : Nat} (h : Evaluated (.klass k) rest args before after)
    (hfuses : fuses rt after name (.klass k) args = true) :
    FusionAgrees rt ctx name readIC invokeIC rest args before after := by
  have hreads : Reads (LOAD_PROPERTY rt ctx name readIC before) rest
      (before.member rt name (.klass k)) :=
    LOAD_PROPERTY_reads h.receiverPushed fun r' hr' => nomatch hr'
  rw [show before.member rt name (.klass k) = after.classMember rt k name from
    (h.classMember rt name).symm] at hreads
  have hinvoke : INVOKE_METHOD rt ctx name invokeIC args.length after = _ :=
    INVOKE_METHOD_class h.argsPushed
  unfold fuses at hfuses
  rw [show after.member rt name (.klass k) = after.classMember rt k name from rfl] at hfuses
  cases hhidden : after.hidden k name with
  | true =>
      have hmissing : after.classMember rt k name = .missing := by
        unfold Local.classMember
        rw [hhidden]
        rfl
      rw [hmissing] at hreads
      refine .of_missing hreads rfl ?_
      rw [hinvoke, hhidden, if_pos rfl]
      exact fails_leave (pending_hiddenError _ _ _)
  | false =>
      rw [hhidden, if_neg (by simp)] at hinvoke
      by_cases hcallable : (staticMember rt after k name).isCallable = true
      · have hmember : after.classMember rt k name = .value (staticMember rt after k name) :=
          (classMember_static hhidden).resolve_right (by simp [hcallable])
        rw [hmember] at hreads
        simp only [hmember, if_pos hcallable] at hfuses
        rw [if_pos hcallable] at hinvoke
        have hdirect : calledDirectly rt (after.withOps (args ++ staticMember rt after k name :: rest))
            args (staticMember rt after k name) = true := hfuses
        exact .of_value hreads rfl (.inl (agrees_of_directly rfl hdirect hinvoke))
      · rw [if_neg hcallable] at hinvoke
        have hfails : Fails (INVOKE_METHOD rt ctx name invokeIC args.length after) := by
          rw [hinvoke]
          exact fails_raiseFault (pending_throwException _ _ _)
        cases hmember : after.classMember rt k name with
        | missing =>
            rw [hmember] at hreads
            exact .of_missing hreads rfl hfails
        | hook => simp [hmember] at hfuses
        | method receiver m => simp [hmember] at hfuses
        | value v =>
            rw [hmember] at hreads
            simp only [hmember, if_neg hcallable] at hfuses
            exact .of_value hreads rfl (.inr ⟨hfails, CALL_uncallable rfl hfuses⟩)

theorem fusionAgrees_dictionary {r : Nat} (h : Evaluated (.dictionary r) rest args before after)
    (hfuses : fuses rt after name (.dictionary r) args = true) :
    FusionAgrees rt ctx name readIC invokeIC rest args before after := by
  have hreads : Reads (LOAD_PROPERTY rt ctx name readIC before) rest
      (before.member rt name (.dictionary r)) :=
    LOAD_PROPERTY_reads h.receiverPushed fun r' hr' => nomatch hr'
  have hdicts : after.shared.dicts r = before.shared.dicts r := h.unchanged
  have hdrop : after.ops.drop args.length = .dictionary r :: rest := by
    rw [h.argsPushed, List.drop_left]
  have htake : after.ops.take args.length = args := by rw [h.argsPushed, List.take_left]
  simp only [Local.member] at hreads
  rw [← hdicts] at hreads
  simp only [fuses, Local.member] at hfuses
  have hinvoke : INVOKE_METHOD rt ctx name invokeIC args.length after =
      if ((lookup (after.shared.dicts r) name).getD .nil).isCallable then
        callCode rt ctx (after.withOps (args ++ (lookup (after.shared.dicts r) name).getD .nil :: rest))
          ((lookup (after.shared.dicts r) name).getD .nil) args.length (some after.frame.ip)
      else pure (.raiseFault (after.runtimeError
        (lit "'" ++ name ++ lit "' is not callable on dictionary"))) := by
    unfold INVOKE_METHOD
    simp only [hdrop, htake]
    rfl
  cases hkey : lookup (after.shared.dicts r) name with
  | none =>
      rw [hkey] at hreads hinvoke
      refine .of_missing hreads rfl ?_
      rw [hinvoke]
      exact fails_raiseFault (pending_runtimeError _ _)
  | some v =>
      rw [hkey] at hreads hinvoke
      simp only [hkey] at hfuses
      refine .of_value hreads rfl ?_
      rw [hinvoke, Option.getD_some]
      by_cases hcallable : v.isCallable = true
      · rw [if_pos hcallable] at hfuses ⊢
        have hdirect : calledDirectly rt (after.withOps (args ++ v :: rest)) args v = true := hfuses
        exact .inl (agrees_of_directly rfl hdirect rfl)
      · rw [if_neg hcallable] at hfuses ⊢
        exact .inr ⟨fails_raiseFault (pending_runtimeError _ _), CALL_uncallable rfl hfuses⟩

/-- A super value, a function or a primitive has no method to invoke. -/
theorem fails_INVOKE_METHOD {receiver : Value} {l : Local} (hops : l.ops = args ++ receiver :: rest)
    (hinst : ∀ r, receiver ≠ .inst r) (hklass : ∀ k, receiver ≠ .klass k)
    (hdict : ∀ r, receiver ≠ .dictionary r) :
    Fails (INVOKE_METHOD rt ctx name invokeIC args.length l) := by
  have hdrop : l.ops.drop args.length = receiver :: rest := by rw [hops, List.drop_left]
  unfold INVOKE_METHOD
  simp only [hdrop]
  cases receiver with
  | inst r => exact absurd rfl (hinst r)
  | klass k => exact absurd rfl (hklass k)
  | dictionary r => exact absurd rfl (hdict r)
  | _ => exact fails_raiseFault (pending_runtimeError _ _)

/-- What is left of the agreement when the fused call fails. -/
theorem FusionAgrees.of_fails {m : Member}
    (hread : Reads (LOAD_PROPERTY rt ctx name readIC before) rest m)
    (hfails : Fails (INVOKE_METHOD rt ctx name invokeIC args.length after))
    (hmember : m = .missing ∨ ∃ v, m = .value v ∧ uncallable after v = true) :
    FusionAgrees rt ctx name readIC invokeIC rest args before after := by
  rcases hmember with rfl | ⟨v, rfl, huncallable⟩
  · exact .of_missing hread rfl hfails
  · exact .of_value hread rfl (.inr ⟨hfails, CALL_uncallable rfl huncallable⟩)

theorem fusionAgrees_super {i k : Nat} (h : Evaluated (.super i k) rest args before after)
    (hfuses : fuses rt after name (.super i k) args = true) :
    FusionAgrees rt ctx name readIC invokeIC rest args before after := by
  have hreads : Reads (LOAD_PROPERTY rt ctx name readIC before) rest
      (before.member rt name (.super i k)) :=
    LOAD_PROPERTY_reads h.receiverPushed fun r' hr' => nomatch hr'
  rw [show before.member rt name (.super i k) = after.superMember i k name from
    (h.superMember name).symm] at hreads
  refine .of_fails hreads (fails_INVOKE_METHOD h.argsPushed nofun nofun nofun) ?_
  unfold fuses at hfuses
  rw [show after.member rt name (.super i k) = after.superMember i k name from rfl] at hfuses
  cases hmember : after.superMember i k name with
  | missing => exact .inl rfl
  | hook => simp [hmember] at hfuses
  | method receiver m => simp [hmember] at hfuses
  | value v =>
      simp only [hmember] at hfuses
      exact .inr ⟨v, rfl, hfuses⟩

/-- A function has its name, which cannot be called, and a primitive has no member at all. -/
theorem member_other {receiver : Value} {l : Local} (hinst : ∀ r, receiver ≠ .inst r)
    (hklass : ∀ k, receiver ≠ .klass k) (hdict : ∀ r, receiver ≠ .dictionary r)
    (hsuper : ∀ i k, receiver ≠ .super i k) :
    l.member rt name receiver = .missing ∨
      ∃ text, l.member rt name receiver = .value (.string text) := by
  have hother : l.member rt name receiver =
      match if name = lit "name" then functionName rt l receiver else none with
      | some text => .value (.string text)
      | none => .missing := by
    cases receiver with
    | inst r => exact absurd rfl (hinst r)
    | klass k => exact absurd rfl (hklass k)
    | dictionary r => exact absurd rfl (hdict r)
    | super i k => exact absurd rfl (hsuper i k)
    | _ => rfl
  rw [hother]
  split
  · exact .inr ⟨_, rfl⟩
  · exact .inl rfl

/-- A method call makes the call that a property read and a call of its value make, or fails with them,
wherever the member is one that fuses and the inline caches of the two instructions are honest. -/
theorem fusionAgrees_of_fuses (rt : Runtime) (ctx : Ctx) (name : CString) (readIC invokeIC : Nat)
    (receiver : Value) (rest args : List Value) (before after : Local)
    (h : Evaluated receiver rest args before after)
    (hread : ∀ r, receiver = .inst r → before.cacheHonest r name readIC = true)
    (hinvoke : ∀ r, receiver = .inst r → after.cacheHonest r name invokeIC = true)
    (hfuses : fuses rt after name receiver args = true) :
    FusionAgrees rt ctx name readIC invokeIC rest args before after := by
  cases receiver with
  | inst r => exact fusionAgrees_instance h (hread r rfl) (hinvoke r rfl) hfuses
  | klass k => exact fusionAgrees_class h hfuses
  | dictionary r => exact fusionAgrees_dictionary h hfuses
  | super i k => exact fusionAgrees_super h hfuses
  | _ =>
      refine .of_fails (LOAD_PROPERTY_reads h.receiverPushed nofun)
        (fails_INVOKE_METHOD h.argsPushed nofun nofun nofun) ?_
      refine (member_other ?_ ?_ ?_ ?_).imp_right ?_
      · nofun
      · nofun
      · nofun
      · nofun
      · rintro ⟨text, hmember⟩
        exact ⟨_, hmember, rfl⟩

/-- `model Greeter { task hi() { give 1 } }`, in a script that has one of its instances. -/
def greeter (ops : List Value) : Local :=
  { frame :=
      { function := 0, ip := 1, slots := [], ops, superCalled := false, closureUpvalues := [] }
    upvalues := []
    shared := Shared.start (Heap.ofProgram
      [FunctionObj.ofCode [] [],
        { FunctionObj.ofCode (lit "hi") [.LOAD_CONST (some (.int 1)), .RETURN] with
          paramNames := [lit "self"], arity := 1, isMethod := true, localCount := 1 }]
      [Klass.ofMethods (lit "Greeter") [(lit "hi", .closure 0)]] [{ function := 1, upvalues := [] }]) }

/-- `g.hi()` -/
theorem greeter_fuses : FusionAgrees .bare { frameCount := 1, stackBelow := 0 } (lit "hi") 0 0 [] []
    (greeter [.inst 7]) (greeter [.inst 7]) :=
  fusionAgrees_of_fuses .bare _ (lit "hi") 0 0 (.inst 7) [] [] _ _
    { receiverPushed := rfl
      argsPushed := rfl
      className := rfl
      unchanged := ⟨rfl, fun _ _ => rfl⟩ }
    (fun r hr => by cases hr; decide) (fun r hr => by cases hr; decide) (by decide)

/-- A call that starts does not end in a `RAISE_FAULT` of its instruction. -/
theorem callCode_ne_raiseFault {l l' : Local} {callee : Value} {argCount : Nat}
    {callSite : Option Nat} : callCode rt ctx l callee argCount callSite ≠ pure (.raiseFault l') := by
  unfold callCode
  generalize dispatchCall rt ctx callee l argCount callSite = p
  intro h
  have hrun := congrArg ExceptT.run h
  rw [ExceptT.run_bind] at hrun
  cases hp : p.run with
  | ask q k =>
      rw [hp] at hrun
      cases hrun
  | done r =>
      rw [hp] at hrun
      cases r with
      | error unwinding => cases hrun
      | ok d =>
          have hexit := Except.ok.inj (Resumption.done.inj hrun)
          cases d <;> cases hexit

/-- `Greeter.hi(nil)` fails, though `t = Greeter.hi` and `t(nil)` calls the method. -/
theorem greeter_differs : ¬∀ rt ctx name readIC invokeIC receiver rest args before after,
    Evaluated receiver rest args before after →
      FusionAgrees rt ctx name readIC invokeIC rest args before after := by
  intro h
  have hevaluated : Evaluated (.klass 0) [] [.nil] (greeter [.klass 0]) (greeter [.nil, .klass 0]) :=
    { receiverPushed := rfl
      argsPushed := rfl
      className := rfl
      unchanged := fun _ _ => rfl }
  obtain ⟨e, hload, hagrees⟩ :=
    h .bare { frameCount := 1, stackBelow := 0 } (lit "hi") 0 0 _ _ _ _ _ hevaluated
  have he : Exit.dispatch ((greeter [.klass 0]).withOps [.closure 0]) = e :=
    Except.ok.inj (Resumption.done.inj (congrArg ExceptT.run hload))
  subst he
  obtain ⟨t, ht, hagrees⟩ := hagrees
  obtain rfl : Value.closure 0 = t := (List.cons.inj ht).1
  have hinvoke : INVOKE_METHOD .bare { frameCount := 1, stackBelow := 0 } (lit "hi") 0 1
      (greeter [.nil, .klass 0]) = pure (.raiseFault ((greeter [.nil, .klass 0]).throwException
        (lit "AttributeError") (lit "Class 'Greeter' has no static method 'hi'"))) := rfl
  rcases hagrees with ⟨_, _, _, _, _, _, _, hcall, _⟩ | ⟨_, e, hcalled, hfault⟩
  · exact callCode_ne_raiseFault (hcall.symm.trans hinvoke)
  · have hpushed : Exit.fault (.pushFrame (greeter [.closure 0])
        { function := 1, ip := 0, slots := [.value .nil], ops := [], superCalled := false,
          closureUpvalues := [] } []) = e.fault :=
      congrArg Exit.fault (Except.ok.inj (Resumption.done.inj (congrArg ExceptT.run hcalled)))
    rw [← hpushed] at hfault
    cases hfault

end Agreement

end EZLanguage
