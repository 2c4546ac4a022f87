import EZLanguage.VM.ArgumentPassing

/-!
# Keyword calls

`CALL_KW` makes one list of arguments of the positional ones and the keywords, with nil where there is
none. `dispatchCall` then finds every parameter supplied: nothing that is left out is missed any more.
-/

namespace EZLanguage

namespace KeywordCalls

/-! ### The arguments -/

/-- `MAKE_DICT`, which takes the pairs off the operands from the last one on. -/
def makeDict (kwargs : List (CString × Value)) : List (CString × Value) :=
  kwargs.reverse.foldl (fun m entry => assign m entry.1 entry.2) []

/-- The arguments `CALL_KW` hands to `dispatchCall`, or none where it raises an error itself. -/
def keywordArgs (params : List CString) (posArgs : List Value) (kwargs : List (CString × Value)) :
    Option (List Value) :=
  if posArgs.length < params.length then
    let bound := Handler.bindKeywords params posArgs kwargs
    match bound.2.head? with
    | some (unexpected, _) => if unexpected.isEmpty then some bound.1 else none
    | none => some bound.1
  else if kwargs.isEmpty then some posArgs else none

/-- The parameters before the rest and the rest, as `dispatchCall` fills them, or none where it raises an
arity error. -/
def delivered (f : FunctionObj) (args : List Value) : Option (List Value × List Value) :=
  if f.isVariadic then
    some (args.take (f.arity - 1) ++ List.replicate (f.arity - 1 - args.length) Value.nil,
      args.drop (f.arity - 1))
  else if f.accepts args.length then
    some (args ++ List.replicate (f.arity - args.length) Value.nil, [])
  else none

/-- What a keyword call calls: the function that is entered in the end, the receiver that comes before
the arguments, and the parameters `CALL_KW` sees, which are none where a constructor is inherited. -/
structure Target where
  function : FunctionObj
  receiver : List Value
  seen : List CString
  arity_eq : function.arity = function.paramNames.length
  nodup : function.paramNames.Nodup
  receiver_le : receiver.length ≤ function.paramNames.length
  seen_or : seen = function.paramNames.drop receiver.length ∨ seen = []

namespace Target

/-- The parameters the caller supplies. -/
def params (t : Target) : List CString := t.function.paramNames.drop t.receiver.length

/-- The keywords of a call, as they are written. -/
structure Keywords where
  entries : List (CString × Value)
  ne_nil : entries ≠ []
  name_ne_nil : ∀ entry ∈ entries, entry.1 ≠ []

variable (t : Target) (posArgs : List Value) (kwargs : Keywords)

/-- A keyword call. -/
def callKw : Option (List Value × List Value) :=
  (keywordArgs t.seen posArgs (makeDict kwargs.entries)).bind fun args =>
    delivered t.function (t.receiver ++ args)

/-! ### What a keyword call is for -/

/-- The argument for each parameter, by its place or by its name. -/
def given : List CString → List Value → List (CString × Value) → List (Option Value)
  | [], _, _ => []
  | _ :: params, arg :: posArgs, kwargs => some arg :: given params posArgs kwargs
  | param :: params, [], kwargs => lookup kwargs param :: given params [] kwargs

/-- Every name is the name of a parameter that is not bound by its place. -/
def Known : Prop := ∀ entry ∈ kwargs.entries, entry.1 ∈ t.params.drop posArgs.length

/-- No name is bound twice. -/
def Distinct (kwargs : Keywords) : Prop := (kwargs.entries.map Prod.fst).Nodup

/-- Every parameter without a default has its argument. -/
def RequiredGiven : Prop :=
  ∀ arg ∈ (given t.params posArgs kwargs.entries).take
    (t.function.minArity - t.receiver.length), arg.isSome = true

/-- The rest parameter has its argument. -/
def RestGiven : Prop :=
  ∀ arg ∈ (given t.params posArgs kwargs.entries).drop (t.params.length - 1), arg.isSome = true

instance : Decidable (t.Known posArgs kwargs) :=
  inferInstanceAs (Decidable (∀ entry ∈ kwargs.entries, entry.1 ∈ t.params.drop posArgs.length))

instance : Decidable (Distinct kwargs) :=
  inferInstanceAs (Decidable (kwargs.entries.map Prod.fst).Nodup)

instance : Decidable (t.RequiredGiven posArgs kwargs) :=
  inferInstanceAs (Decidable (∀ arg ∈ (given t.params posArgs kwargs.entries).take
    (t.function.minArity - t.receiver.length), arg.isSome = true))

/-- The positional call that lists the same arguments in the order of the parameters: what is left out
is nil, so that its default is taken, an arity error, or the empty rest. -/
def bindNamed : Option (List Value × List Value) :=
  if t.Known posArgs kwargs ∧ Distinct kwargs then
    let args := given t.params posArgs kwargs.entries
    if t.function.isVariadic then
      some (t.receiver ++ (args.take (t.params.length - 1)).map (·.getD .nil),
        (args.drop (t.params.length - 1)).filterMap id)
    else if t.RequiredGiven posArgs kwargs then some (t.receiver ++ args.map (·.getD .nil), [])
    else none
  else none

end Target

/-! ### The instruction -/

theorem bindKeywords_length (params : List CString) : ∀ (posArgs : List Value)
    (kwargs : List (CString × Value)),
    (Handler.bindKeywords params posArgs kwargs).1.length = params.length := by
  induction params with
  | nil => exact fun _ _ => rfl
  | cons param params ih =>
      intro posArgs kwargs
      cases posArgs with
      | nil => exact congrArg Nat.succ (ih [] _)
      | cons arg posArgs => exact congrArg Nat.succ (ih posArgs kwargs)

section Instruction

open ArgumentPassing

variable {rt : Runtime} {ctx : Ctx} {l : Local} {callee : Value} {posArgs below : List Value} {d : Nat}

/-- `CALL_KW` of what is no builtin makes the dispatch of its arguments, or raises an error. -/
theorem CALL_KW_dispatched (hnative : ∀ id, callee ≠ .nativeFunction id)
    (hbyte : posArgs.length ≤ 255)
    (hops : l.ops = .dictionary d :: (posArgs.reverse ++ callee :: below)) :
    match keywordArgs (Handler.callerParams rt l callee) posArgs (l.shared.dicts d) with
    | some args => ∃ l' : Local, l'.frame.ip = l.frame.ip ∧
        Handler.CALL_KW rt ctx posArgs.length l = do
          let called ← dispatched rt ctx l' callee args below (some l.frame.ip)
          return called.dispatchOrRefresh
    | none => ∃ l' : Local, Handler.CALL_KW rt ctx posArgs.length l = pure (.raiseFault l') ∧
        l'.shared.running = false := by
  have hunfold : Handler.CALL_KW rt ctx posArgs.length l =
      let params := Handler.callerParams rt l callee
      let m := l.withOps (posArgs.reverse ++ callee :: below)
      if posArgs.length < params.length then
        let bound := Handler.bindKeywords params posArgs (l.shared.dicts d)
        let m := (m.withShared { m.shared with
          dicts := Function.update m.shared.dicts d bound.2 }).withOps
          (bound.1.reverse ++ callee :: below)
        match bound.2.head? with
        | some (unexpected, _) =>
            if unexpected.isEmpty then
              Handler.callAndRefresh rt ctx m callee (params.length % 256)
            else
              return .raiseFault (m.runtimeError
                (lit "Unexpected keyword argument '" ++ unexpected ++ lit "'"))
        | none => Handler.callAndRefresh rt ctx m callee (params.length % 256)
      else if (l.shared.dicts d).isEmpty then Handler.callAndRefresh rt ctx m callee posArgs.length
      else return .raiseFault (m.runtimeError (lit "Unexpected keyword argument")) := by
    unfold Handler.CALL_KW
    rw [hops]
    dsimp only
    rw [drop_args, take_reverse, List.reverse_reverse]
    cases callee with
    | nativeFunction id => exact absurd rfl (hnative id)
    | _ => rfl
  rw [hunfold]
  dsimp only
  unfold keywordArgs
  generalize hparams : Handler.callerParams rt l callee = params
  have hlength := bindKeywords_length params posArgs (l.shared.dicts d)
  by_cases hless : posArgs.length < params.length
  · rw [if_pos hless, if_pos hless]
    dsimp only
    generalize Handler.bindKeywords params posArgs (l.shared.dicts d) = bound at *
    rw [← hlength]
    let erased := l.withShared
      { l.shared with dicts := Function.update l.shared.dicts d bound.2 }
    cases hleft : bound.2.head? with
    | none => exact ⟨erased, rfl, rfl⟩
    | some entry =>
        obtain ⟨unexpected, v⟩ := entry
        dsimp only
        cases unexpected with
        | nil => exact ⟨erased, rfl, rfl⟩
        | cons byte bytes => exact ⟨_, rfl, rfl⟩
  · rw [if_neg hless, if_neg hless]
    cases (l.shared.dicts d).isEmpty with
    | true =>
        rw [if_pos rfl, if_pos rfl]
        refine ⟨l, rfl, ?_⟩
        rw [dispatched, Nat.mod_eq_of_lt (Nat.lt_succ_of_le hbyte)]
        rfl
    | false => exact ⟨_, rfl, rfl⟩

/-- The parameters of a function or a task. -/
theorem callerParams_closure (r : Nat) : Handler.callerParams rt l (.closure r) =
    (l.shared.functions (l.shared.closures r).function).paramNames := rfl

/-- The parameters of a method, behind the receiver. -/
theorem callerParams_boundMethod {receiver : Value} {r : Nat}
    (hself : (l.shared.functions (l.shared.closures r).function).paramNames.head? =
      some (lit "self")) :
    Handler.callerParams rt l (.boundMethod receiver (.closure r)) =
      (l.shared.functions (l.shared.closures r).function).paramNames.drop 1 :=
  if_pos ⟨rfl, hself⟩

/-- The parameters of a model with a constructor of its own. -/
theorem callerParams_constructor {k r : Nat}
    (hinit : lookup (l.shared.classes k).methods (lit "init") = some (.closure r))
    (hself : (l.shared.functions (l.shared.closures r).function).paramNames.head? =
      some (lit "self")) :
    Handler.callerParams rt l (.klass k) =
      (l.shared.functions (l.shared.closures r).function).paramNames.drop 1 := by
  have htarget : Handler.keywordTarget l (.klass k) = (.closure r, true) := by
    rw [Handler.keywordTarget, hinit]
    rfl
  unfold Handler.callerParams
  rw [htarget]
  exact if_pos ⟨rfl, hself⟩

/-- A model that inherits its constructor shows no parameters. -/
theorem callerParams_inherited {k : Nat}
    (hinit : lookup (l.shared.classes k).methods (lit "init") = none) :
    Handler.callerParams rt l (.klass k) = [] := by
  have htarget : Handler.keywordTarget l (.klass k) = (.nil, true) := by
    rw [Handler.keywordTarget, hinit]
    rfl
  unfold Handler.callerParams
  rw [htarget]
  exact ite_self _

/-- What is delivered is what the parameters receive, with the rest in an array and nil in the places
that are left. -/
theorem delivered_of_receives {f : FunctionObj} {s : Shared} {args params : List Value}
    (haccepts : f.accepts args.length = true) (hreceives : Receives f s args params) :
    ∃ fixed rest, delivered f args = some (fixed, rest) ∧
      if f.isVariadic then ∃ r, s.arrays r = rest ∧ params = fixed ++ [.array r]
      else fixed = params ++ List.replicate (f.arity - args.length) Value.nil := by
  unfold Receives at hreceives
  unfold delivered
  by_cases hvariadic : f.isVariadic = true
  · rw [if_pos hvariadic] at hreceives
    obtain ⟨r, hr, rfl⟩ := hreceives
    rw [if_pos hvariadic]
    exact ⟨_, _, rfl, by rw [if_pos hvariadic]; exact ⟨r, hr, rfl⟩⟩
  · rw [if_neg hvariadic] at hreceives
    rw [if_neg hvariadic, if_pos haccepts]
    exact ⟨_, _, rfl, by rw [if_neg hvariadic, hreceives]⟩

end Instruction

/-! ### The dictionary -/

/-- The first of the pairs with a name is the one that counts. -/
theorem lookup_makeDict (kwargs : List (CString × Value)) (name : CString) :
    lookup (makeDict kwargs) name = lookup kwargs name := by
  induction kwargs with
  | nil => rfl
  | cons entry kwargs ih =>
      have hcons : makeDict (entry :: kwargs) = assign (makeDict kwargs) entry.1 entry.2 := by
        rw [makeDict, makeDict, List.reverse_cons, List.foldl_append]
        rfl
      rw [hcons, lookup_assign, lookup_cons, ih]

theorem lookup_isSome_iff (table : List (CString × Value)) (name : CString) :
    (lookup table name).isSome = true ↔ ∃ entry ∈ table, entry.1 = name := by
  rw [lookup, Option.isSome_map, List.find?_isSome]
  simp only [beq_iff_eq]

/-- The names of the dictionary are the names that are written. -/
theorem forall_makeDict_iff (kwargs : List (CString × Value)) (P : CString → Prop) :
    (∀ entry ∈ makeDict kwargs, P entry.1) ↔ ∀ entry ∈ kwargs, P entry.1 := by
  have hnames : ∀ name, (∃ entry ∈ makeDict kwargs, entry.1 = name) ↔
      ∃ entry ∈ kwargs, entry.1 = name := by
    intro name
    rw [← lookup_isSome_iff, ← lookup_isSome_iff, lookup_makeDict]
  constructor
  · intro h entry hentry
    obtain ⟨entry', hentry', hname⟩ := (hnames entry.1).2 ⟨entry, hentry, rfl⟩
    rw [← hname]
    exact h entry' hentry'
  · intro h entry hentry
    obtain ⟨entry', hentry', hname⟩ := (hnames entry.1).1 ⟨entry, hentry, rfl⟩
    rw [← hname]
    exact h entry' hentry'

theorem lookup_filter_ne (table : List (CString × Value)) {name name' : CString} (h : name ≠ name') :
    lookup (table.filter fun entry => entry.1 != name') name = lookup table name := by
  induction table with
  | nil => rfl
  | cons entry table ih =>
      by_cases hname : entry.1 = name'
      · have hother : entry.1 ≠ name := fun heq => h (heq.symm.trans hname)
        rw [List.filter_cons_of_neg (by rw [hname]; simp), ih, lookup_cons, if_neg hother]
      · have hkept : (entry.1 != name') = true := bne_iff_ne.2 hname
        rw [List.filter_cons, if_pos hkept, lookup_cons, lookup_cons, ih]

/-! ### Binding -/

open Target (given)

theorem given_congr {kwargs kwargs' : List (CString × Value)} : ∀ {params : List CString}
    (posArgs : List Value), (∀ name ∈ params, lookup kwargs name = lookup kwargs' name) →
    given params posArgs kwargs = given params posArgs kwargs' := by
  intro params
  induction params with
  | nil => exact fun _ _ => rfl
  | cons param params ih =>
      intro posArgs h
      cases posArgs with
      | nil =>
          rw [given, given, h param List.mem_cons_self,
            ih [] fun name hname => h name (List.mem_cons_of_mem _ hname)]
      | cons arg posArgs =>
          rw [given, given, ih posArgs fun name hname => h name (List.mem_cons_of_mem _ hname)]

theorem given_length (kwargs : List (CString × Value)) : ∀ (params : List CString)
    (posArgs : List Value), (given params posArgs kwargs).length = params.length := by
  intro params
  induction params with
  | nil => exact fun _ => rfl
  | cons param params ih =>
      intro posArgs
      cases posArgs with
      | nil => rw [given, List.length_cons, ih, List.length_cons]
      | cons arg posArgs => rw [given, List.length_cons, ih, List.length_cons]

/-- What `bindKeywords` binds, with nil where there is nothing. -/
theorem bindKeywords_fst {params : List CString} (hnodup : params.Nodup) : ∀ (posArgs : List Value)
    (kwargs : List (CString × Value)), (Handler.bindKeywords params posArgs kwargs).1 =
      (given params posArgs kwargs).map (·.getD .nil) := by
  induction params with
  | nil => exact fun _ _ => rfl
  | cons param params ih =>
      obtain ⟨hparam, hparams⟩ := List.nodup_cons.1 hnodup
      intro posArgs kwargs
      cases posArgs with
      | nil =>
          have hsame : given params [] (kwargs.filter fun entry => entry.1 != param) =
              given params [] kwargs := by
            apply given_congr
            intro name hname
            apply lookup_filter_ne
            rintro rfl
            exact hparam hname
          rw [Handler.bindKeywords, given, List.map_cons, ← hsame]
          exact congrArg _ (ih hparams _ _)
      | cons arg posArgs =>
          rw [Handler.bindKeywords, given, List.map_cons]
          exact congrArg _ (ih hparams _ _)

/-- What `bindKeywords` leaves in the dictionary. -/
theorem mem_bindKeywords_snd {params : List CString} : ∀ {posArgs : List Value}
    {kwargs : List (CString × Value)} {entry : CString × Value},
    entry ∈ (Handler.bindKeywords params posArgs kwargs).2 ↔
      entry ∈ kwargs ∧ entry.1 ∉ params.drop posArgs.length := by
  induction params with
  | nil =>
      intro posArgs kwargs entry
      rw [Handler.bindKeywords, List.drop_nil]
      exact (and_iff_left (List.not_mem_nil)).symm
  | cons param params ih =>
      intro posArgs kwargs entry
      cases posArgs with
      | nil =>
          have hstep : entry ∈ (Handler.bindKeywords (param :: params) [] kwargs).2 ↔
              entry ∈ kwargs.filter (fun entry => entry.1 != param) ∧ entry.1 ∉ params := ih
          rw [hstep, List.mem_filter, bne_iff_ne, and_assoc]
          show _ ↔ entry ∈ kwargs ∧ entry.1 ∉ param :: params
          rw [List.mem_cons, not_or]
      | cons arg posArgs =>
          have hstep : entry ∈ (Handler.bindKeywords (param :: params) (arg :: posArgs) kwargs).2 ↔
              entry ∈ kwargs ∧ entry.1 ∉ params.drop posArgs.length := ih
          rw [hstep]
          rfl

/-- `CALL_KW` raises an error of its own exactly for a name that is unknown or bound by its place. -/
theorem keywordArgs_makeDict {params : List CString} (hnodup : params.Nodup) (posArgs : List Value)
    (kwargs : Target.Keywords) :
    ((∀ entry ∈ kwargs.entries, entry.1 ∈ params.drop posArgs.length) →
      keywordArgs params posArgs (makeDict kwargs.entries) =
        some ((given params posArgs kwargs.entries).map (·.getD .nil))) ∧
    ((¬∀ entry ∈ kwargs.entries, entry.1 ∈ params.drop posArgs.length) →
      keywordArgs params posArgs (makeDict kwargs.entries) = none) := by
  have hknown := forall_makeDict_iff kwargs.entries fun name => name ∈ params.drop posArgs.length
  have hfst : (Handler.bindKeywords params posArgs (makeDict kwargs.entries)).1 =
      (given params posArgs kwargs.entries).map (·.getD .nil) := by
    rw [bindKeywords_fst hnodup]
    exact congrArg _ (given_congr posArgs fun name _ => lookup_makeDict kwargs.entries name)
  have hnonempty : makeDict kwargs.entries ≠ [] := by
    intro hnil
    have hall := (forall_makeDict_iff kwargs.entries fun _ => False).1 (by rw [hnil]; nofun)
    obtain ⟨entry, hentry⟩ := List.exists_mem_of_ne_nil _ kwargs.ne_nil
    exact hall entry hentry
  have hnamed : ∀ entry ∈ makeDict kwargs.entries, entry.1 ≠ [] :=
    (forall_makeDict_iff kwargs.entries fun name => name ≠ []).2 kwargs.name_ne_nil
  constructor
  · intro hall
    have hleft : (Handler.bindKeywords params posArgs (makeDict kwargs.entries)).2 = [] := by
      apply List.eq_nil_iff_forall_not_mem.2
      intro entry hentry
      obtain ⟨hmem, hunknown⟩ := mem_bindKeywords_snd.1 hentry
      exact hunknown (hknown.2 hall entry hmem)
    have hless : posArgs.length < params.length := by
      obtain ⟨entry, hentry⟩ := List.exists_mem_of_ne_nil _ kwargs.ne_nil
      by_contra hle
      have hdrop := hall entry hentry
      rw [List.drop_of_length_le (Nat.not_lt.1 hle)] at hdrop
      exact List.not_mem_nil hdrop
    unfold keywordArgs
    rw [if_pos hless]
    dsimp only
    rw [hleft, hfst]
    rfl
  · intro hunknown
    unfold keywordArgs
    by_cases hless : posArgs.length < params.length
    · rw [if_pos hless]
      dsimp only
      cases hleft : (Handler.bindKeywords params posArgs (makeDict kwargs.entries)).2 with
      | nil =>
          exfalso
          apply hunknown
          apply hknown.1
          intro entry hentry
          by_contra hnot
          have hmem := mem_bindKeywords_snd.2 ⟨hentry, hnot⟩
          rw [hleft] at hmem
          exact List.not_mem_nil hmem
      | cons entry left =>
          have hmem : entry ∈ makeDict kwargs.entries :=
            (mem_bindKeywords_snd.1 (hleft ▸ List.mem_cons_self)).1
          have hname : entry.1.isEmpty = false := by
            rw [List.isEmpty_eq_false_iff]
            exact hnamed entry hmem
          rw [List.head?_cons]
          dsimp only
          rw [hname, if_neg Bool.false_ne_true]
    · rw [if_neg hless, if_neg]
      rw [List.isEmpty_iff]
      exact hnonempty

/-! ### Delivery -/

namespace Target

variable (t : Target)

theorem arity_params : t.function.arity = t.receiver.length + t.params.length := by
  have hle := t.receiver_le
  rw [t.arity_eq, params, List.length_drop]
  omega

theorem params_nodup : t.params.Nodup := t.nodup.sublist (List.drop_sublist _ _)

/-- A full list of arguments is never refused, and the last of them is the rest. -/
theorem delivered_full {args : List Value} (hlength : args.length = t.params.length)
    (hpos : 0 < t.params.length) :
    delivered t.function (t.receiver ++ args) =
      if t.function.isVariadic then
        some (t.receiver ++ args.take (t.params.length - 1), args.drop (t.params.length - 1))
      else some (t.receiver ++ args, []) := by
  have harity := t.arity_params
  have hcount : (t.receiver ++ args).length = t.function.arity := by
    rw [List.length_append, hlength, harity]
  unfold delivered
  by_cases hvariadic : t.function.isVariadic = true
  · have hfixed : t.function.arity - 1 = t.receiver.length + (t.params.length - 1) := by omega
    have hmissing : t.function.arity - 1 - (t.receiver ++ args).length = 0 := by omega
    rw [if_pos hvariadic, if_pos hvariadic, hmissing, hfixed, List.take_length_add_append,
      List.drop_length_add_append, List.replicate_zero, List.append_nil]
  · have haccepts : t.function.accepts (t.receiver ++ args).length = true := by
      unfold FunctionObj.accepts FunctionObj.minArity
      rw [hcount]
      simp
    rw [if_neg hvariadic, if_neg hvariadic, if_pos haccepts, hcount, Nat.sub_self,
      List.replicate_zero, List.append_nil]

variable (posArgs : List Value) (kwargs : Keywords)

theorem pos_of_known (hknown : t.Known posArgs kwargs) : 0 < t.params.length := by
  obtain ⟨entry, hentry⟩ := List.exists_mem_of_ne_nil _ kwargs.ne_nil
  exact List.length_pos_of_mem (List.mem_of_mem_drop (hknown entry hentry))

/-- Where `CALL_KW` sees the parameters, it passes one argument for each, or nil. -/
theorem callKw_of_seen (hseen : t.seen = t.params) (hknown : t.Known posArgs kwargs) :
    t.callKw posArgs kwargs =
      let args := (given t.params posArgs kwargs.entries).map (·.getD .nil)
      if t.function.isVariadic then
        some (t.receiver ++ args.take (t.params.length - 1), args.drop (t.params.length - 1))
      else some (t.receiver ++ args, []) := by
  have hlength : ((given t.params posArgs kwargs.entries).map (·.getD .nil)).length =
      t.params.length := by
    rw [List.length_map, given_length]
  rw [callKw, hseen, (keywordArgs_makeDict t.params_nodup posArgs kwargs).1 hknown, Option.bind_some,
    t.delivered_full hlength (t.pos_of_known posArgs kwargs hknown)]

theorem callKw_of_unknown (hseen : t.seen = t.params) (hknown : ¬t.Known posArgs kwargs) :
    t.callKw posArgs kwargs = none := by
  rw [callKw, hseen, (keywordArgs_makeDict t.params_nodup posArgs kwargs).2 hknown, Option.bind_none]

/-- Without parameters to see there is no keyword to take. -/
theorem callKw_of_unseen (hseen : t.seen = []) : t.callKw posArgs kwargs = none := by
  have hunknown : ¬∀ entry ∈ kwargs.entries, entry.1 ∈ ([] : List CString).drop posArgs.length := by
    intro hall
    obtain ⟨entry, hentry⟩ := List.exists_mem_of_ne_nil _ kwargs.ne_nil
    have hmem := hall entry hentry
    rw [List.drop_nil] at hmem
    exact List.not_mem_nil hmem
  rw [callKw, hseen, (keywordArgs_makeDict List.nodup_nil posArgs kwargs).2 hunknown,
    Option.bind_none]

theorem bindNamed_of_unknown (hknown : ¬t.Known posArgs kwargs) : t.bindNamed posArgs kwargs = none := by
  rw [bindNamed, if_neg fun h => hknown h.1]

theorem bindNamed_of_not_distinct (hdistinct : ¬Distinct kwargs) :
    t.bindNamed posArgs kwargs = none := by
  rw [bindNamed, if_neg fun h => hdistinct h.2]

/-- The rest is the last argument exactly where that is given. -/
theorem rest_eq_iff {x : Option Value} : [x.getD .nil] = [x].filterMap id ↔ x.isSome = true := by
  cases x with
  | none => exact ⟨nofun, nofun⟩
  | some v => exact ⟨fun _ => rfl, fun _ => rfl⟩

/-- When a keyword call binds as the positional call does, or both are refused. -/
def Agrees : Prop :=
  ¬t.Known posArgs kwargs ∨
    if t.seen = t.params then
      Distinct kwargs ∧
        if t.function.isVariadic then t.RestGiven posArgs kwargs else t.RequiredGiven posArgs kwargs
    else ¬Distinct kwargs ∨ t.function.isVariadic = false ∧ ¬t.RequiredGiven posArgs kwargs

theorem callKw_seen_iff (hseen : t.seen = t.params) (hknown : t.Known posArgs kwargs) :
    t.callKw posArgs kwargs = t.bindNamed posArgs kwargs ↔ Distinct kwargs ∧
      if t.function.isVariadic then t.RestGiven posArgs kwargs else t.RequiredGiven posArgs kwargs := by
  have hpos := t.pos_of_known posArgs kwargs hknown
  have hlength : (given t.params posArgs kwargs.entries).length = t.params.length :=
    given_length _ _ _
  rw [t.callKw_of_seen posArgs kwargs hseen hknown]
  dsimp only
  by_cases hdistinct : Distinct kwargs
  · have hvalid : t.Known posArgs kwargs ∧ Distinct kwargs := ⟨hknown, hdistinct⟩
    rw [and_iff_right hdistinct, bindNamed, if_pos hvalid]
    dsimp only
    by_cases hvariadic : t.function.isVariadic = true
    · rw [if_pos hvariadic, if_pos hvariadic, if_pos hvariadic, RestGiven]
      obtain ⟨x, hx⟩ : ∃ x, (given t.params posArgs kwargs.entries).drop (t.params.length - 1) = [x] := by
        apply List.length_eq_one_iff.1
        rw [List.length_drop, hlength]
        omega
      rw [Option.some.injEq, Prod.mk.injEq, ← List.map_take, and_iff_right rfl, ← List.map_drop, hx,
        List.forall_mem_singleton, ← rest_eq_iff]
      rfl
    · rw [if_neg hvariadic, if_neg hvariadic, if_neg hvariadic]
      by_cases hrequired : t.RequiredGiven posArgs kwargs
      · rw [if_pos hrequired]
        exact iff_of_true rfl hrequired
      · rw [if_neg hrequired]
        exact iff_of_false nofun hrequired
  · rw [t.bindNamed_of_not_distinct posArgs kwargs hdistinct]
    refine iff_of_false ?_ fun h => hdistinct h.1
    split <;> nofun

theorem bindNamed_eq_none_iff (hknown : t.Known posArgs kwargs) :
    none = t.bindNamed posArgs kwargs ↔
      ¬Distinct kwargs ∨ t.function.isVariadic = false ∧ ¬t.RequiredGiven posArgs kwargs := by
  by_cases hdistinct : Distinct kwargs
  · have hvalid : t.Known posArgs kwargs ∧ Distinct kwargs := ⟨hknown, hdistinct⟩
    rw [bindNamed, if_pos hvalid, or_iff_right (not_not.2 hdistinct)]
    dsimp only
    by_cases hvariadic : t.function.isVariadic = true
    · rw [if_pos hvariadic]
      exact iff_of_false nofun fun h => absurd (hvariadic.symm.trans h.1) nofun
    · rw [if_neg hvariadic]
      by_cases hrequired : t.RequiredGiven posArgs kwargs
      · rw [if_pos hrequired]
        exact iff_of_false nofun fun h => h.2 hrequired
      · rw [if_neg hrequired]
        exact iff_of_true rfl ⟨Bool.eq_false_iff.2 hvariadic, hrequired⟩
  · exact iff_of_true (t.bindNamed_of_not_distinct posArgs kwargs hdistinct).symm (.inl hdistinct)

end Target

/-- `task f(a, b) { }` -/
def twoParams : Target where
  function := { FunctionObj.ofCode [] [] with paramNames := [[97], [98]], arity := 2 }
  receiver := []
  seen := [[97], [98]]
  arity_eq := rfl
  nodup := by decide
  receiver_le := Nat.zero_le _
  seen_or := .inl rfl

/-- `f(b = 1)` -/
def onlySecond : Target.Keywords where
  entries := [([98], .int 1)]
  ne_nil := nofun
  name_ne_nil := by decide

end KeywordCalls

end EZLanguage
