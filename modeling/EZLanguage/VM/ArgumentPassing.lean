import EZLanguage.VM.Handler

/-!
# Argument passing

What a callee is to receive, and what `dispatchCall` hands it. The count of the arguments is a byte. The
sites that count with an `int` or a `size_t` lose the multiples of 256 on the way.
-/

namespace EZLanguage

namespace ArgumentPassing

variable (rt : Runtime) (ctx : Ctx)

/-! ### What is to be received -/

/-- The values of the parameters: the arguments themselves, or with the rest of them in an array. -/
def Receives (f : FunctionObj) (s : Shared) (args params : List Value) : Prop :=
  if f.isVariadic then
    ∃ rest, s.arrays rest = args.drop (f.arity - 1) ∧
      params = args.take (f.arity - 1) ++
        List.replicate (f.arity - 1 - args.length) Value.nil ++ [.array rest]
  else params = args

/-- A compiled function got its frame, or was queued as a task, with the arguments. -/
def EntersFunction (f : FunctionObj) (bcFunc : Nat) (args below : List Value) (p : Proc Dispatched) :
    Prop :=
  ∃ params l, Receives f l.shared args params ∧
    ((∃ frame upvalues callee missing, p = pure (.pushed l frame upvalues) ∧
        l.ops = callee :: below ∧ frame.function = bcFunc ∧
        frame.slots = (params ++ List.replicate missing Value.nil).map Slot.value) ∨
      ∃ callee, l.ops = below ∧
        p = pure (.queued (l.withHeap (rt.spawn callee params l.heap).2)
          (.future (rt.spawn callee params l.heap).1)))

/-- The callee is entered with exactly the arguments, and with its result the operands are the ones
below the call again. A receiver comes before the arguments of its method. -/
def Enters (s : Shared) : Value → List Value → List Value → Proc Dispatched → Prop
  | .nativeFunction id, args, below, p => ∃ l callee, l.ops = args.reverse ++ callee :: below ∧
      p = do
        let ended ← Proc.native l id args
        return nativeEnd args.length ended.1 ended.2
  | .boundMethod receiver method, args, below, p => Enters s method (receiver :: args) below p
  | .closure r, args, below, p =>
      EntersFunction rt (s.functions (s.closures r).function) (s.closures r).function args below p
  | .function r, args, below, p => ∃ bcFunc, rt.compileEZFunction r = some bcFunc ∧
      EntersFunction rt (s.functions bcFunc) bcFunc args below p
  | .klass r, args, below, p => ∃ l callee, l.shared = s ∧ l.ops = args.reverse ++ callee :: below ∧
      p = do
        let made ← instantiate l r args
        return .value (made.1.withOps (made.1.ops.drop (args.length + 1))) made.2
  | _, _, _, _ => False

/-- There is no constructor that takes the arguments of a model. -/
def Ignores (s : Shared) : Value → Nat → Prop
  | .klass r, n => (s.newInstance r).2.chainMethod r (lit "init") = .nil ∧ 0 < n
  | .boundMethod _ method, n => Ignores s method (n + 1)
  | _, _ => False

/-- A fault is recorded, nothing is entered, and the operands below the call are in their place. -/
def Refuses (below : List Value) (p : Proc Dispatched) : Prop :=
  ∃ l, (p = pure (.refused l) ∨ p = pure (.limit l)) ∧ l.shared.running = false ∧ below <:+ l.ops

/-- What is called in the place of a super value. -/
def resolve (l : Local) : Value → Option Value
  | .super instRef parentKlass =>
      match lookup (l.shared.classes parentKlass).methods (lit "init") with
      | none | some .nil => none
      | some method =>
          if l.frame.superCalled then none else some (.boundMethod (.inst instRef) method)
  | callee => some callee

/-- A call passes its arguments on to what it calls, or is refused. -/
def Faithful (l : Local) (callee : Value) (args below : List Value) (p : Proc Dispatched) : Prop :=
  Refuses below p ∨ ∃ target, resolve l callee = some target ∧
    Enters rt l.shared target args below p ∧ ¬Ignores l.shared target args.length

/-! ### Which counts are taken -/

/-- The checks for a compiled function: its arity, the depth of calls and the room on the stack, of
which `height` values are taken. -/
def TakesFunction (f : FunctionObj) (height n : Nat) : Prop :=
  f.accepts n = true ∧ (f.isAsync = true ∨ ctx.frameCount < rt.maxFrames ∧
    ctx.stackBelow + (height - n) + (if f.isVariadic then f.arity - 1 + 1 else n) + f.localCount +
      STACK_HEADROOM ≤ rt.stackMax)

/-- The checks for a callee pass with so many arguments. -/
def Takes (s : Shared) : Value → (height n : Nat) → Prop
  | .nativeFunction id, _, n => rt.nativeArity id ≤ n
  | .boundMethod _ method, height, n => n < 255 ∧ Takes s method (height + 1) (n + 1)
  | .closure r, height, n => TakesFunction rt ctx (s.functions (s.closures r).function) height n
  | .function r, height, n => ∃ bcFunc, rt.compileEZFunction r = some bcFunc ∧
      TakesFunction rt ctx (s.functions bcFunc) height n
  | .klass _, _, _ => True
  | _, _, _ => False

/-- The dispatch of a call, with the count in a byte. -/
def dispatched (l : Local) (callee : Value) (args below : List Value) (callSite : Option Nat) :
    Proc Dispatched :=
  dispatchCall rt ctx callee (l.withOps (args.reverse ++ callee :: below)) (args.length % 256) callSite

variable {rt ctx}

/-! ### One callee -/

theorem take_reverse {args below : List Value} {callee : Value} :
    (args.reverse ++ callee :: below).take args.length = args.reverse := by
  rw [← List.length_reverse, List.take_left]

theorem take_args {args below : List Value} {callee : Value} :
    ((args.reverse ++ callee :: below).take args.length).reverse = args := by
  rw [take_reverse, List.reverse_reverse]

theorem drop_args {args below : List Value} {callee : Value} :
    (args.reverse ++ callee :: below).drop args.length = callee :: below := by
  rw [← List.length_reverse, List.drop_left]

theorem drop_call {args below : List Value} {callee : Value} :
    (args.reverse ++ callee :: below).drop (args.length + 1) = below := by
  rw [← List.drop_drop, drop_args]
  rfl

theorem suffix_of_ops {args below : List Value} {callee : Value} :
    below <:+ args.reverse ++ callee :: below :=
  (List.suffix_cons callee below).trans (List.suffix_append _ _)

/-- The packed arguments are what the parameters are to receive. -/
theorem packRest_receives {f : FunctionObj} (hvariadic : f.isVariadic = true) (l : Local)
    (args : List Value) : Receives f (packRest l f args).1.shared args (packRest l f args).2 := by
  have hrest : (if args.length ≥ f.arity then args.drop (f.arity - 1) else []) =
      args.drop (f.arity - 1) := by
    split
    · rfl
    · exact (List.drop_of_length_le (by omega)).symm
  have hmissing : f.arity - 1 - (args.take (f.arity - 1)).length = f.arity - 1 - args.length := by
    rw [List.length_take]
    omega
  rw [Receives, if_pos hvariadic]
  refine ⟨l.shared.next, ?_, ?_⟩
  · show Function.update l.shared.arrays l.shared.next _ l.shared.next = _
    rw [Function.update_self]
    exact hrest
  · show args.take (f.arity - 1) ++ List.replicate (f.arity - 1 - (args.take (f.arity - 1)).length)
      Value.nil ++ [.array l.shared.next] = _
    rw [hmissing]

theorem packRest_length (l : Local) (f : FunctionObj) (args : List Value) :
    (packRest l f args).2.length = f.arity - 1 + 1 := by
  show (args.take (f.arity - 1) ++ List.replicate (f.arity - 1 - (args.take (f.arity - 1)).length)
    Value.nil ++ [Value.array l.shared.next]).length = _
  rw [List.length_append, List.length_append, List.length_replicate, List.length_take,
    List.length_singleton]
  omega

/-- The arguments of a compiled function as `dispatchCall` binds them. -/
def packed (f : FunctionObj) (l : Local) (args : List Value) : Local × List Value :=
  if f.isVariadic then packRest l f args else (l, args)

theorem packed_receives (f : FunctionObj) (l : Local) (args : List Value) :
    Receives f (packed f l args).1.shared args (packed f l args).2 := by
  unfold packed
  by_cases hvariadic : f.isVariadic = true
  · rw [if_pos hvariadic]
    exact packRest_receives hvariadic l args
  · rw [if_neg hvariadic, Receives, if_neg hvariadic]

theorem packed_ops (f : FunctionObj) (l : Local) (args : List Value) :
    (packed f l args).1.ops = l.ops := by
  unfold packed
  split <;> rfl

theorem packed_length (f : FunctionObj) (l : Local) (args : List Value) :
    (packed f l args).2.length = if f.isVariadic then f.arity - 1 + 1 else args.length := by
  unfold packed
  split
  · exact packRest_length l f args
  · rfl

theorem packed_functions (f : FunctionObj) (l : Local) (args : List Value) :
    (packed f l args).1.shared.functions = l.shared.functions := by
  unfold packed
  split <;> rfl

section Function

variable {l : Local} {bcFunc : Nat} {args below : List Value} {callee target : Value}
  {upvalues : ClosureState}

theorem dispatchFunction_accepts (hops : l.ops = args.reverse ++ callee :: below)
    (haccepts : (l.shared.functions bcFunc).accepts args.length = true) :
    dispatchFunction rt ctx l target bcFunc upvalues args.length false =
      let bound := packed (l.shared.functions bcFunc) (l.withOps (callee :: below)) args
      if (l.shared.functions bcFunc).isAsync then
        let made := rt.spawn target bound.2 bound.1.heap
        .queued ((bound.1.withOps below).withHeap made.2) (.future made.1)
      else pushCallFrame rt ctx bound.1 bcFunc bound.2 upvalues := by
  have hbelow : (packed (l.shared.functions bcFunc) (l.withOps (callee :: below)) args).1.ops.drop 1 =
      below := by
    rw [packed_ops]
    rfl
  unfold packed at hbelow
  unfold dispatchFunction
  dsimp only
  rw [if_neg (not_not.2 haccepts), hops, drop_args, take_args, hbelow]
  simp only [Bool.false_eq_true, not_false_eq_true, and_true]
  rfl

/-- What the binding of the arguments leaves of the caller. -/
theorem packed_spec (hops : l.ops = args.reverse ++ callee :: below) (f : FunctionObj) :
    ∃ caller params, packed f (l.withOps (callee :: below)) args = (caller, params) ∧
      Receives f caller.shared args params ∧ caller.ops = callee :: below ∧
      params.length = (if f.isVariadic then f.arity - 1 + 1 else args.length) ∧
      l.ops.length = args.length + caller.ops.length ∧
      caller.shared.functions = l.shared.functions := by
  have hbelow := packed_ops f (l.withOps (callee :: below)) args
  have hheight : l.ops.length =
      args.length + (packed f (l.withOps (callee :: below)) args).1.ops.length := by
    rw [hops, hbelow, List.length_append, List.length_reverse]
    rfl
  exact ⟨_, _, rfl, packed_receives f _ args, hbelow, packed_length f _ args, hheight,
    packed_functions f _ args⟩

theorem dispatchFunction_enters (hops : l.ops = args.reverse ++ callee :: below)
    (htakes : TakesFunction rt ctx (l.shared.functions bcFunc) l.ops.length args.length) :
    EntersFunction rt (l.shared.functions bcFunc) bcFunc args below
      (pure (dispatchFunction rt ctx l target bcFunc upvalues args.length false)) := by
  obtain ⟨haccepts, hroom⟩ := htakes
  obtain ⟨caller, params, hpacked, hreceives, hbelow, hlength, hheight, hfunctions⟩ :=
    packed_spec hops (l.shared.functions bcFunc)
  rw [dispatchFunction_accepts hops haccepts, hpacked]
  dsimp only
  by_cases hasync : (l.shared.functions bcFunc).isAsync = true
  · rw [if_pos hasync]
    exact ⟨params, caller.withOps below, hreceives, .inr ⟨target, rfl, rfl⟩⟩
  · rw [if_neg hasync]
    obtain ⟨hdepth, hstack⟩ := hroom.resolve_left hasync
    have hfunction : caller.shared.functions bcFunc = l.shared.functions bcFunc :=
      congrFun hfunctions bcFunc
    refine ⟨params, caller, hreceives, .inl ?_⟩
    unfold pushCallFrame
    dsimp only
    rw [if_neg (by omega), hfunction, if_neg (by rw [hlength]; omega)]
    exact ⟨_, _, callee, _, rfl, hbelow, rfl, rfl⟩

theorem dispatchFunction_refuses (hops : l.ops = args.reverse ++ callee :: below)
    (htakes : ¬TakesFunction rt ctx (l.shared.functions bcFunc) l.ops.length args.length) :
    Refuses below (pure (dispatchFunction rt ctx l target bcFunc upvalues args.length false)) := by
  by_cases haccepts : (l.shared.functions bcFunc).accepts args.length = true
  · obtain ⟨caller, params, hpacked, -, hbelow, hlength, hheight, hfunctions⟩ :=
      packed_spec hops (l.shared.functions bcFunc)
    rw [dispatchFunction_accepts hops haccepts, hpacked]
    dsimp only
    have hsync : ¬(l.shared.functions bcFunc).isAsync = true := fun h => htakes ⟨haccepts, .inl h⟩
    rw [if_neg hsync]
    have hsuffix : below <:+ caller.ops := by
      rw [hbelow]
      exact List.suffix_cons callee below
    have hfunction : caller.shared.functions bcFunc = l.shared.functions bcFunc :=
      congrFun hfunctions bcFunc
    unfold pushCallFrame
    dsimp only
    by_cases hdepth : ctx.frameCount ≥ rt.maxFrames
    · rw [if_pos hdepth]
      exact ⟨_, .inr rfl, Shared.throwException_running _ _ _, hsuffix⟩
    · rw [if_neg hdepth, hfunction, if_pos]
      · exact ⟨_, .inr rfl, rfl, hsuffix⟩
      · by_contra hstack
        refine htakes ⟨haccepts, .inr ⟨by omega, ?_⟩⟩
        rw [hlength] at hstack
        omega
  · have hsuffix : below <:+ l.ops := by
      rw [hops]
      exact suffix_of_ops
    unfold dispatchFunction
    dsimp only
    rw [if_pos haccepts]
    split
    · exact ⟨_, .inl rfl, Shared.throwException_running _ _ _, hsuffix⟩
    · exact ⟨_, .inl rfl, Shared.throwException_running _ _ _, hsuffix⟩

end Function

/-- The operands of a bound method with the receiver and the method in their places. -/
theorem bound_ops {args below : List Value} {callee receiver method : Value} :
    (args.reverse ++ callee :: below).take args.length ++ receiver :: method ::
        (args.reverse ++ callee :: below).drop (args.length + 1) =
      (receiver :: args).reverse ++ method :: below := by
  rw [drop_call, take_reverse, List.reverse_cons, List.append_assoc]
  rfl

theorem bound_height {args below : List Value} {callee receiver method : Value} :
    ((receiver :: args).reverse ++ method :: below).length =
      (args.reverse ++ callee :: below).length + 1 := by
  simp only [List.length_append, List.length_reverse, List.length_cons]
  omega

/-- A callee whose checks pass is entered. -/
theorem dispatchCallee_enters (target : Value) : ∀ {l : Local} {args below : List Value}
    {callee : Value} (callSite : Option Nat), l.ops = args.reverse ++ callee :: below →
    Takes rt ctx l.shared target l.ops.length args.length →
    Enters rt l.shared target args below (dispatchCallee rt ctx target l args.length callSite) := by
  induction target with
  | nativeFunction id =>
      intro l args below callee callSite hops htakes
      have harity : ¬(0 ≤ rt.nativeArity id ∧ (args.length : Int) < rt.nativeArity id) := by
        rintro ⟨-, hless⟩
        exact Int.not_lt.2 htakes hless
      refine ⟨l, callee, hops, ?_⟩
      unfold dispatchCallee
      rw [if_neg harity, hops, take_args]
  | boundMethod receiver method _ ih =>
      intro l args below callee callSite hops htakes
      obtain ⟨hless, hmethod⟩ := htakes
      unfold dispatchCallee
      dsimp only
      rw [if_neg (by omega), hops, bound_ops]
      have hbound := Local.withOps_ops l ((receiver :: args).reverse ++ method :: below)
      have hheight : (l.withOps ((receiver :: args).reverse ++ method :: below)).ops.length =
          l.ops.length + 1 := by
        rw [hbound, hops]
        exact bound_height
      apply ih none hbound
      rw [hheight]
      exact hmethod
  | closure r =>
      intro l args below callee callSite hops htakes
      exact dispatchFunction_enters hops htakes
  | function r =>
      intro l args below callee callSite hops htakes
      obtain ⟨bcFunc, hcompile, htakes⟩ := htakes
      refine ⟨bcFunc, hcompile, ?_⟩
      unfold dispatchCallee
      rw [hcompile]
      exact dispatchFunction_enters hops htakes
  | klass r =>
      intro l args below callee callSite hops _
      refine ⟨l, callee, rfl, hops, ?_⟩
      unfold dispatchCallee
      rw [hops, take_args]
  | _ =>
      intro l args below callee callSite _ htakes
      exact htakes.elim

/-- A callee whose checks do not pass is refused. -/
theorem dispatchCallee_refuses (target : Value) : ∀ {l : Local} {args below : List Value}
    {callee : Value} (callSite : Option Nat), l.ops = args.reverse ++ callee :: below →
    ¬Takes rt ctx l.shared target l.ops.length args.length →
    Refuses below (dispatchCallee rt ctx target l args.length callSite) := by
  induction target with
  | nativeFunction id =>
      intro l args below callee callSite hops htakes
      have hless : (args.length : Int) < rt.nativeArity id := Int.not_le.1 htakes
      unfold dispatchCallee
      rw [if_pos ⟨by omega, hless⟩]
      exact ⟨_, .inl rfl, rfl, hops ▸ suffix_of_ops⟩
  | boundMethod receiver method _ ih =>
      intro l args below callee callSite hops htakes
      unfold dispatchCallee
      by_cases hless : args.length < 255
      · dsimp only
        rw [if_neg (by omega), hops, bound_ops]
        have hbound := Local.withOps_ops l ((receiver :: args).reverse ++ method :: below)
        have hheight : (l.withOps ((receiver :: args).reverse ++ method :: below)).ops.length =
            l.ops.length + 1 := by
          rw [hbound, hops]
          exact bound_height
        apply ih none hbound
        intro hmethod
        rw [hheight] at hmethod
        exact htakes ⟨hless, hmethod⟩
      · rw [if_pos (by omega)]
        exact ⟨_, .inl rfl, rfl, hops ▸ suffix_of_ops⟩
  | closure r =>
      intro l args below callee callSite hops htakes
      exact dispatchFunction_refuses hops htakes
  | function r =>
      intro l args below callee callSite hops htakes
      unfold dispatchCallee
      cases hcompile : rt.compileEZFunction r with
      | none => exact ⟨_, .inl rfl, rfl, hops ▸ suffix_of_ops⟩
      | some bcFunc =>
          apply dispatchFunction_refuses hops
          intro htakes'
          exact htakes ⟨bcFunc, hcompile, htakes'⟩
  | klass r =>
      intro l args below callee callSite _ htakes
      exact absurd trivial htakes
  | _ =>
      intro l args below callee callSite hops _
      exact ⟨_, .inl rfl, Shared.throwException_running _ _ _, hops ▸ suffix_of_ops⟩

/-! ### Entered once -/

theorem EntersFunction.below_eq {f : FunctionObj} {bcFunc : Nat} {args args' below below' : List Value}
    {p : Proc Dispatched} (h : EntersFunction rt f bcFunc args below p)
    (h' : EntersFunction rt f bcFunc args' below' p) : below = below' := by
  obtain ⟨params, l, -, ⟨frame, upvalues, callee, missing, rfl, hops, -, -⟩ |
    ⟨callee, hops, rfl⟩⟩ := h
  · obtain ⟨params', l', -, ⟨frame', upvalues', callee', missing', hp, hops', -, -⟩ |
      ⟨callee', hops', hp⟩⟩ := h'
    · have hends := Except.ok.inj (Resumption.done.inj hp)
      cases hends
      exact (List.cons.inj (hops.symm.trans hops')).2
    · cases hp
  · obtain ⟨params', l', -, ⟨frame', upvalues', callee', missing', hp, hops', -, -⟩ |
      ⟨callee', hops', hp⟩⟩ := h'
    · cases hp
    · have hends := (Dispatched.queued.inj (Except.ok.inj (Resumption.done.inj hp))).1
      have hframe := congrArg Local.ops hends
      exact hops.symm.trans (hframe.trans hops')

theorem instantiate_ignores {l : Local} {r : Nat} (args : List Value)
    (hinit : (l.shared.newInstance r).2.chainMethod r (lit "init") = .nil) :
    instantiate l r args =
      pure (l.withShared (l.shared.newInstance r).2, .inst (l.shared.newInstance r).1) := by
  have hinit' : (l.withShared (l.shared.newInstance r).2).shared.chainMethod r (lit "init") = .nil :=
    hinit
  unfold instantiate
  dsimp only
  rw [hinit']

theorem instantiate_constructs {l : Local} {r : Nat} (args : List Value)
    (hinit : (l.shared.newInstance r).2.chainMethod r (lit "init") ≠ .nil) :
    instantiate l r args = do
      let ended ← Proc.call (l.withShared (l.shared.newInstance r).2)
        ((l.shared.newInstance r).2.chainMethod r (lit "init"))
        (.inst (l.shared.newInstance r).1 :: args)
      return (ended.1, .inst (l.shared.newInstance r).1) := by
  unfold instantiate
  dsimp only
  split
  · next h => exact absurd h hinit
  · rfl

/-- No dispatch enters a callee with two numbers of arguments over operands of two heights. -/
theorem Enters.length_eq {s : Shared} {target : Value} : ∀ {args args' below below' : List Value}
    {p : Proc Dispatched}, Enters rt s target args below p → Enters rt s target args' below' p →
    args.length = args'.length ∨ below = below' := by
  induction target with
  | nativeFunction id =>
      intro args args' below below' p h h'
      obtain ⟨l, callee, -, rfl⟩ := h
      obtain ⟨l', callee', -, hp⟩ := h'
      have hask : Request.native l id args = Request.native l' id args' := (Resumption.ask.inj hp).1
      exact .inl (congrArg List.length (Request.native.inj hask).2.2)
  | boundMethod receiver method _ ih =>
      intro args args' below below' p h h'
      exact (ih h h').imp_left fun hlength => Nat.succ.inj hlength
  | closure r =>
      intro args args' below below' p h h'
      exact .inr (h.below_eq h')
  | function r =>
      intro args args' below below' p h h'
      obtain ⟨bcFunc, hcompile, h⟩ := h
      obtain ⟨bcFunc', hcompile', h'⟩ := h'
      obtain rfl := Option.some.inj (hcompile.symm.trans hcompile')
      exact .inr (h.below_eq h')
  | klass r =>
      intro args args' below below' p h h'
      obtain ⟨l, callee, hshared, hops, rfl⟩ := h
      obtain ⟨l', callee', hshared', hops', hp⟩ := h'
      by_cases hinit : (s.newInstance r).2.chainMethod r (lit "init") = .nil
      · rw [instantiate_ignores args (by rw [hshared]; exact hinit),
          instantiate_ignores args' (by rw [hshared']; exact hinit)] at hp
        have hends := (Dispatched.value.inj (Except.ok.inj (Resumption.done.inj hp))).1
        have hdrop : l.ops.drop (args.length + 1) = l'.ops.drop (args'.length + 1) :=
          congrArg Local.ops hends
        rw [hops, hops', drop_call, drop_call] at hdrop
        exact .inr hdrop
      · rw [instantiate_constructs args (by rw [hshared]; exact hinit),
          instantiate_constructs args' (by rw [hshared']; exact hinit)] at hp
        have hask := (Resumption.ask.inj hp).1
        have hargs := (Request.call.inj hask).2.2
        exact .inl (Nat.succ.inj (congrArg List.length hargs))
  | _ =>
      intro args args' below below' p h _
      exact h.elim

/-- What enters a callee is no refusal. -/
theorem Enters.not_refuses {s : Shared} {target : Value} : ∀ {args below below' : List Value}
    {p : Proc Dispatched}, Enters rt s target args below p → ¬Refuses below' p := by
  have hfunction : ∀ {f : FunctionObj} {bcFunc : Nat} {args below below' : List Value}
      {p : Proc Dispatched}, EntersFunction rt f bcFunc args below p → ¬Refuses below' p := by
    rintro f bcFunc args below below' p ⟨params, l, -, hp⟩ ⟨l', hp', -⟩
    obtain ⟨frame, upvalues, callee, missing, rfl, -⟩ | ⟨callee, -, rfl⟩ := hp
    · obtain hp' | hp' := hp' <;> cases hp'
    · obtain hp' | hp' := hp' <;> cases hp'
  induction target with
  | nativeFunction id =>
      rintro args below below' p ⟨l, callee, -, rfl⟩ ⟨l', hp', -⟩
      obtain hp' | hp' := hp' <;> cases hp'
  | boundMethod receiver method _ ih => exact fun h => ih h
  | closure r => exact hfunction
  | function r =>
      rintro args below below' p ⟨bcFunc, -, h⟩
      exact hfunction h
  | klass r =>
      rintro args below below' p ⟨l, callee, -, -, rfl⟩ ⟨l', hp', -⟩
      by_cases hinit : (l.shared.newInstance r).2.chainMethod r (lit "init") = .nil
      · rw [instantiate_ignores args hinit] at hp'
        obtain hp' | hp' := hp' <;> cases hp'
      · rw [instantiate_constructs args hinit] at hp'
        obtain hp' | hp' := hp' <;> cases hp'
  | _ =>
      intro args below below' p h
      exact h.elim

/-! ### A call -/

/-- The place of the callee holds another value where the count wrapped around. -/
theorem wrapped_ops {args : List Value} (below : List Value) (callee : Value) (hwrap : 256 ≤ args.length) :
    ∃ (args' : List Value) (callee' : Value) (below' : List Value),
      args'.length = args.length % 256 ∧
      below.length < below'.length ∧ below <:+ below' ∧
      args.reverse ++ callee :: below = args'.reverse ++ callee' :: below' := by
  have hless : args.length % 256 < 256 := Nat.mod_lt _ (by decide)
  have hlength : args.length % 256 < args.reverse.length := by
    rw [List.length_reverse]
    omega
  refine ⟨(args.reverse.take (args.length % 256)).reverse, args.reverse[args.length % 256],
    args.reverse.drop (args.length % 256 + 1) ++ callee :: below, ?_, ?_, ?_, ?_⟩
  · rw [List.length_reverse, List.length_take]
    omega
  · rw [List.length_append, List.length_cons]
    omega
  · exact (List.suffix_cons callee below).trans (List.suffix_append _ _)
  · rw [List.reverse_reverse, ← List.cons_append, ← List.append_assoc, ← List.drop_eq_getElem_cons,
      List.take_append_drop]

/-- A super value with a constructor to call. -/
theorem dispatchCall_super {l : Local} {instRef parentKlass n : Nat} {target : Value}
    (callSite : Option Nat) (hresolve : resolve l (.super instRef parentKlass) = some target) :
    dispatchCall rt ctx (.super instRef parentKlass) l n callSite =
      dispatchCallee rt ctx target
        (({ l with frame := { l.frame with superCalled := true } } : Local).withOps
          (l.ops.take n ++ target :: l.ops.drop (n + 1))) n none := by
  revert hresolve
  unfold resolve dispatchCall
  dsimp only
  cases lookup (l.shared.classes parentKlass).methods (lit "init") with
  | none => exact nofun
  | some method =>
      cases method with
      | nil => exact nofun
      | _ =>
          dsimp only
          intro hresolve
          by_cases hcalled : l.frame.superCalled = true
          · rw [if_pos hcalled] at hresolve
            cases hresolve
          · rw [if_neg hcalled] at hresolve
            obtain rfl := Option.some.inj hresolve
            rw [if_neg hcalled]
            rfl

/-- A super value with nothing to call. -/
theorem dispatchCall_super_none (rt : Runtime) (ctx : Ctx) {l : Local}
    {instRef parentKlass : Nat} (n : Nat) (callSite : Option Nat) (hresolve : resolve l (.super instRef parentKlass) = none) :
    ∃ message, dispatchCall rt ctx (.super instRef parentKlass) l n callSite =
      pure (.refused (l.runtimeError message)) := by
  revert hresolve
  unfold resolve dispatchCall
  dsimp only
  cases lookup (l.shared.classes parentKlass).methods (lit "init") with
  | none => exact fun _ => ⟨_, rfl⟩
  | some method =>
      cases method with
      | nil => exact fun _ => ⟨_, rfl⟩
      | _ =>
          dsimp only
          intro hresolve
          by_cases hcalled : l.frame.superCalled = true
          · rw [if_pos hcalled]
            exact ⟨_, rfl⟩
          · rw [if_neg hcalled] at hresolve
            cases hresolve

/-- A super value leaves its place to a bound method. -/
theorem dispatchCall_resolved (rt : Runtime) (ctx : Ctx) {l : Local} {args below : List Value}
    {callee c target : Value} (callSite : Option Nat) (hops : l.ops = args.reverse ++ c :: below)
    (hresolve : resolve l callee = some target) :
    ∃ (l' : Local) (c' : Value) (callSite' : Option Nat), l'.shared = l.shared ∧
      l'.ops = args.reverse ++ c' :: below ∧
      dispatchCall rt ctx callee l args.length callSite =
        dispatchCallee rt ctx target l' args.length callSite' := by
  cases callee with
  | super instRef parentKlass =>
      refine ⟨_, target, none, ?_, ?_, dispatchCall_super callSite hresolve⟩
      · rfl
      · show l.ops.take args.length ++ target :: l.ops.drop (args.length + 1) = _
        rw [hops, drop_call, take_reverse]
  | _ =>
      obtain rfl := Option.some.inj hresolve
      exact ⟨l, c, callSite, rfl, hops, rfl⟩

theorem dispatchCall_unresolved {l : Local} {args below : List Value} {callee c : Value}
    (callSite : Option Nat) (hops : l.ops = args.reverse ++ c :: below)
    (hresolve : resolve l callee = none) :
    Refuses below (dispatchCall rt ctx callee l args.length callSite) := by
  cases callee with
  | super instRef parentKlass =>
      obtain ⟨message, hrefused⟩ := dispatchCall_super_none rt ctx args.length callSite hresolve
      have hsuffix : below <:+ l.ops := by
        rw [hops]
        exact suffix_of_ops
      rw [hrefused]
      exact ⟨_, .inl rfl, rfl, hsuffix⟩
  | _ => cases hresolve

/-! ### The sites -/

section Sites

variable {l : Local} {callee : Value} {args below : List Value}

/-- Every number of arguments a byte can hold. -/
theorem CALL_dispatched (hbyte : args.length ≤ 255)
    (hstr : Handler.isStrOfInstance rt (l.withOps (args.reverse ++ callee :: below)) callee
      args.reverse = false) :
    Handler.CALL rt ctx args.length (l.withOps (args.reverse ++ callee :: below)) = do
      let called ← dispatched rt ctx l ((Handler.overload
        (l.withOps (args.reverse ++ callee :: below)) (lit "__call__") callee).getD callee) args below
        (some l.frame.ip)
      return called.dispatchOrRefresh := by
  unfold Handler.CALL dispatched
  dsimp only
  rw [Local.withOps_ops, drop_args, take_reverse, Nat.mod_eq_of_lt (by omega)]
  dsimp only
  rw [hstr, if_neg Bool.false_ne_true]
  cases Handler.overload (l.withOps (args.reverse ++ callee :: below)) (lit "__call__") callee <;> rfl

/-- The elements of an array, of any length. -/
theorem CALL_SPREAD_dispatched (r : Nat) :
    Handler.CALL_SPREAD rt ctx (l.withOps (.array r :: callee :: below)) = do
      let called ← dispatched rt ctx l callee (l.shared.arrays r) below (some l.frame.ip)
      return called.dispatchOrRefresh := rfl

/-- A method gets its receiver as one more argument. -/
theorem INVOKE_METHOD_dispatched {r icIdx : Nat} {propName : CString} {m : Local} {method : Value}
    (hmethod : Handler.invokedOn (l.withOps (args.reverse ++ .inst r :: below)) r propName icIdx =
      .method m method) :
    Handler.INVOKE_METHOD rt ctx propName icIdx args.length
        (l.withOps (args.reverse ++ .inst r :: below)) = do
      let called ← dispatched rt ctx m method (.inst r :: args) below (some m.frame.ip)
      return called.dispatchOrRefresh := by
  have hops : args.reverse ++ .inst r :: method :: below =
      (Value.inst r :: args).reverse ++ method :: below := by
    rw [List.reverse_cons, List.append_assoc]
    rfl
  unfold Handler.INVOKE_METHOD
  dsimp only
  rw [Local.withOps_ops, drop_args, take_reverse]
  dsimp only
  rw [hmethod]
  dsimp only
  rw [hops]
  rfl

/-- A value that is no method is called with the arguments alone. -/
theorem INVOKE_METHOD_value_dispatched {r icIdx : Nat} {propName : CString} {m : Local}
    {value : Value} (hbyte : args.length ≤ 255)
    (hvalue : Handler.invokedOn (l.withOps (args.reverse ++ .inst r :: below)) r propName icIdx =
      .value m value) :
    Handler.INVOKE_METHOD rt ctx propName icIdx args.length
        (l.withOps (args.reverse ++ .inst r :: below)) = do
      let called ← dispatched rt ctx m value args below (some m.frame.ip)
      return called.dispatchOrRefresh := by
  unfold Handler.INVOKE_METHOD dispatched
  dsimp only
  rw [Local.withOps_ops, drop_args, take_reverse,
    Nat.mod_eq_of_lt (show args.length < 256 from Nat.lt_succ_of_le hbyte)]
  dsimp only
  rw [hvalue]
  rfl

/-- A static member of a class. -/
theorem INVOKE_METHOD_static_dispatched {k icIdx : Nat} {propName : CString} {member : Value}
    (hbyte : args.length ≤ 255) (hvisible : l.hidden k propName = false)
    (hmember : (if propName = lit "load" ∧ (l.shared.classes k).persists
      then .nativeFunction (rt.loadFunction k) else l.shared.getStaticMember k propName) = member)
    (hcallable : member.isCallable = true) :
    Handler.INVOKE_METHOD rt ctx propName icIdx args.length
        (l.withOps (args.reverse ++ .klass k :: below)) = do
      let called ← dispatched rt ctx l member args below (some l.frame.ip)
      return called.dispatchOrRefresh := by
  have hvisible' : (l.withOps (args.reverse ++ .klass k :: below)).hidden k propName = false :=
    hvisible
  unfold Handler.INVOKE_METHOD dispatched
  dsimp only
  rw [Local.withOps_ops, drop_args, take_reverse,
    Nat.mod_eq_of_lt (show args.length < 256 from Nat.lt_succ_of_le hbyte)]
  dsimp only
  rw [hvisible', if_neg Bool.false_ne_true, Local.withOps_shared, hmember, if_pos hcallable]
  rfl

/-- A callable value of a dictionary. -/
theorem INVOKE_METHOD_dictionary_dispatched {r icIdx : Nat} {propName : CString} {val : Value}
    (hbyte : args.length ≤ 255)
    (hval : (lookup (l.shared.dicts r) propName).getD .nil = val) (hcallable : val.isCallable = true) :
    Handler.INVOKE_METHOD rt ctx propName icIdx args.length
        (l.withOps (args.reverse ++ .dictionary r :: below)) = do
      let called ← dispatched rt ctx l val args below (some l.frame.ip)
      return called.dispatchOrRefresh := by
  unfold Handler.INVOKE_METHOD dispatched
  dsimp only
  rw [Local.withOps_ops, drop_args, take_reverse,
    Nat.mod_eq_of_lt (show args.length < 256 from Nat.lt_succ_of_le hbyte)]
  dsimp only
  rw [Local.withOps_shared, hval, if_pos hcallable]
  rfl

/-- A call from C++ code, as a callback or a constructor is called. -/
theorem callFunction_dispatched (hdepth : l.shared.cxxFrameDepth < 200)
    (hpending : l.shared.pendingException.isNil = true) (hnative : ∀ id, callee ≠ .nativeFunction id) :
    ∃ finish, callFunction rt ctx l callee args =
      tryCatch (dispatched rt ctx (enterCall l callee args) callee args l.ops none)
        (fun unwinding => throw (restoreState l unwinding.1, unwinding.2)) >>= finish := by
  unfold callFunction
  rw [if_neg (by omega), if_neg (not_not.2 hpending)]
  cases callee with
  | nativeFunction id => exact absurd rfl (hnative id)
  | _ => exact ⟨_, rfl⟩

/-- A builtin called from C++ code gets its arguments without the operand stack. -/
theorem callFunction_native (id : Nat) (hdepth : l.shared.cxxFrameDepth < 200)
    (hpending : l.shared.pendingException.isNil = true) (harity : rt.nativeArity id ≤ args.length) :
    ∃ finish, callFunction rt ctx l (.nativeFunction id) args =
      Proc.native l id args >>= finish := by
  unfold callFunction
  rw [if_neg (by omega), if_neg (not_not.2 hpending)]
  dsimp only
  unfold callNative
  rw [if_neg (by omega)]
  exact ⟨_, rfl⟩

end Sites

/-! ### The byte -/

/-- The checks before a call pass for so many arguments. -/
def Passes (rt : Runtime) (ctx : Ctx) (l : Local) (callee : Value) (height n : Nat) : Prop :=
  ∃ target, resolve l callee = some target ∧ Takes rt ctx l.shared target height n

/-- The number of the arguments fits a byte, and a model that gets some has a constructor for them. -/
def Fits (l : Local) (callee : Value) (n : Nat) : Prop :=
  n ≤ 255 ∧ ∀ target, resolve l callee = some target → ¬Ignores l.shared target n

section Byte

variable {l : Local} {callee : Value} {args below : List Value} (callSite : Option Nat)

theorem dispatchCall_enters {c target : Value} (hops : l.ops = args.reverse ++ c :: below)
    (htarget : resolve l callee = some target)
    (htakes : Takes rt ctx l.shared target l.ops.length args.length) :
    Enters rt l.shared target args below (dispatchCall rt ctx callee l args.length callSite) := by
  obtain ⟨l', c', callSite', hshared, hops', hdispatch⟩ :=
    dispatchCall_resolved rt ctx callSite hops htarget
  have hheight : l'.ops.length = l.ops.length := by
    rw [hops, hops', List.length_append, List.length_append]
    rfl
  rw [hdispatch, ← hshared]
  apply dispatchCallee_enters target callSite' hops'
  rw [hshared, hheight]
  exact htakes

theorem dispatchCall_refuses {c : Value} (hops : l.ops = args.reverse ++ c :: below)
    (hpasses : ¬Passes rt ctx l callee l.ops.length args.length) :
    Refuses below (dispatchCall rt ctx callee l args.length callSite) := by
  cases htarget : resolve l callee with
  | none => exact dispatchCall_unresolved callSite hops htarget
  | some target =>
      obtain ⟨l', c', callSite', hshared, hops', hdispatch⟩ :=
        dispatchCall_resolved rt ctx callSite hops htarget
      have hheight : l'.ops.length = l.ops.length := by
        rw [hops, hops', List.length_append, List.length_append]
        rfl
      rw [hdispatch]
      apply dispatchCallee_refuses target callSite' hops'
      intro htakes
      rw [hshared, hheight] at htakes
      exact hpasses ⟨target, htarget, htakes⟩

theorem resolve_withOps (ops : List Value) : resolve (l.withOps ops) callee = resolve l callee := by
  cases callee <;> rfl

theorem height_eq (callee : Value) : (args.reverse ++ callee :: below).length = args.length + 1 + below.length := by
  rw [List.length_append, List.length_reverse, List.length_cons]
  omega

/-- What is left of the arguments in a byte, over what is left of the operands. -/
theorem dispatched_operands (callee : Value) (args below : List Value) : ∃ (args' : List Value) (callee' : Value) (below' : List Value),
    args'.length = args.length % 256 ∧
      (args.length ≤ 255 ∧ args' = args ∧ below' = below ∨
        256 ≤ args.length ∧ below.length < below'.length) ∧ below <:+ below' ∧
      args.reverse ++ callee :: below = args'.reverse ++ callee' :: below' := by
  by_cases hbyte : args.length ≤ 255
  · exact ⟨args, callee, below, (Nat.mod_eq_of_lt (Nat.lt_succ_of_le hbyte)).symm,
      .inl ⟨hbyte, rfl, rfl⟩, List.suffix_rfl, rfl⟩
  · obtain ⟨args', callee', below', hlength, hbelow, hsuffix, hops⟩ :=
      wrapped_ops below callee (Nat.lt_of_not_le hbyte)
    exact ⟨args', callee', below', hlength, .inr ⟨Nat.lt_of_not_le hbyte, hbelow⟩, hsuffix, hops⟩

/-- Where the checks do not pass, the call is refused. -/
theorem dispatched_refuses
    (hpasses : ¬Passes rt ctx l callee (args.length + 1 + below.length) (args.length % 256)) :
    Refuses below (dispatched rt ctx l callee args below callSite) := by
  obtain ⟨args', callee', below', hlength, -, hsuffix, hops⟩ :=
    dispatched_operands callee args below
  rw [← height_eq callee, hops, ← hlength] at hpasses
  rw [dispatched, hops, ← hlength]
  have hwrapped : ¬Passes rt ctx (l.withOps (args'.reverse ++ callee' :: below')) callee
      (args'.reverse ++ callee' :: below').length args'.length := by
    rintro ⟨target, htarget, htakes⟩
    exact hpasses ⟨target, (resolve_withOps _).symm.trans htarget, htakes⟩
  obtain ⟨l', hends, hrunning, hsuffix'⟩ := dispatchCall_refuses callSite
    (Local.withOps_ops l (args'.reverse ++ callee' :: below')) hwrapped
  exact ⟨l', hends, hrunning, hsuffix.trans hsuffix'⟩

/-- Where the checks pass, what is left of the arguments enters the callee. -/
theorem dispatched_enters {target : Value} (htarget : resolve l callee = some target)
    (htakes : Takes rt ctx l.shared target (args.length + 1 + below.length) (args.length % 256)) :
    ∃ args' below' : List Value, args'.length = args.length % 256 ∧
      (args.length ≤ 255 ∧ args' = args ∧ below' = below ∨
        256 ≤ args.length ∧ below.length < below'.length) ∧
      Enters rt l.shared target args' below' (dispatched rt ctx l callee args below callSite) := by
  obtain ⟨args', callee', below', hlength, hbelow, -, hops⟩ :=
    dispatched_operands callee args below
  rw [← height_eq callee, hops, ← hlength] at htakes
  refine ⟨args', below', hlength, hbelow, ?_⟩
  rw [dispatched, hops, ← hlength]
  exact dispatchCall_enters callSite (Local.withOps_ops l (args'.reverse ++ callee' :: below'))
    ((resolve_withOps _).trans htarget) htakes

/-- Arguments that do not fit get lost where the checks pass. -/
theorem not_faithful_of_passes
    (hpasses : Passes rt ctx l callee (args.length + 1 + below.length) (args.length % 256))
    (hfits : ¬Fits l callee args.length) :
    ¬Faithful rt l callee args below (dispatched rt ctx l callee args below callSite) := by
  obtain ⟨target, htarget, htakes⟩ := hpasses
  obtain ⟨args', below', hlength, hbelow, henters⟩ := dispatched_enters callSite htarget htakes
  rintro (hrefuses | ⟨target', htarget', henters', htaken⟩)
  · exact henters.not_refuses hrefuses
  · obtain rfl := Option.some.inj (htarget.symm.trans htarget')
    apply hfits
    have hbyte : args.length ≤ 255 := by
      obtain ⟨hbyte, -, -⟩ | ⟨hwrap, hmore⟩ := hbelow
      · exact hbyte
      · exfalso
        obtain hsame | hsame := henters.length_eq henters'
        · omega
        · rw [hsame] at hmore
          exact Nat.lt_irrefl _ hmore
    refine ⟨hbyte, fun target' htarget' => ?_⟩
    obtain rfl := Option.some.inj (htarget.symm.trans htarget')
    exact htaken

/-- Arguments that fit are passed on, or refused. -/
theorem faithful_of_fits (hfits : Fits l callee args.length) :
    Faithful rt l callee args below (dispatched rt ctx l callee args below callSite) := by
  obtain ⟨hbyte, htaken⟩ := hfits
  by_cases hpasses : Passes rt ctx l callee (args.length + 1 + below.length) (args.length % 256)
  · obtain ⟨target, htarget, htakes⟩ := hpasses
    obtain ⟨args', below', hlength, hbelow, henters⟩ := dispatched_enters callSite htarget htakes
    obtain ⟨-, rfl, rfl⟩ | ⟨hwrap, -⟩ := hbelow
    · exact .inr ⟨target, htarget, henters, htaken target htarget⟩
    · omega
  · exact .inl (dispatched_refuses callSite hpasses)

end Byte

/-- Nothing but a script at its start. -/
def script : Local where
  frame := { function := 0, ip := 0, slots := [], ops := [], superCalled := false, closureUpvalues := [] }
  upvalues := []
  shared := Shared.start (Heap.ofProgram [FunctionObj.ofCode [] []] [] [])

end ArgumentPassing

end EZLanguage
