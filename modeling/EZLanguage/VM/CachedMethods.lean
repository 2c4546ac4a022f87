import EZLanguage.Support.KeyedTable
import EZLanguage.VM.Property
import EZLanguage.VM.Text

/-!
# Results of cached methods

A method marked `@cached` looks its result up when it is entered and stores it when it returns, both
times under the texts of its parameters at that moment. A stored result answers a call with equal
arguments provided that the body leaves the texts of the parameters as they were, that different
arguments of the method's calls have different texts, and that no other cached method of the name runs
on the instance.
-/

namespace EZLanguage

open Support

/-- The values the parameters of the running method have, from the first one past `self`. -/
def Local.arguments (l : Local) : List Value :=
  ((List.range l.function.paramNames.length).drop (if l.function.isMethod then 1 else 0)).map l.getLocal

namespace Handler

variable (rt : Runtime)

theorem parameterTexts_eq (l : Local) :
    parameterTexts rt l = l.arguments.map (rt.toString l.heap) := by
  rw [parameterTexts, Local.arguments, List.map_map]
  rfl

theorem cacheKey_eq (l : Local) (name : CString) :
    cacheKey rt l name = name ++ separated 0x1f (parameterTexts rt l) := rfl

end Handler

/-! ### The calls on an instance -/

/-- What a cached method does with the store: a call looks its result up when it is entered, and the
call entered at a given step stores its result. -/
inductive CacheStep where
  | enter
  | finish (call : Nat)

/-- The lookups and stores of the cached methods of one instance, in their order, with the states in
which the instructions start and those they leave. A cached method names itself in both instructions.
What happens in between gives the instance no results, but may take some away or make them dirty. -/
structure CacheHistory (rt : Runtime) (r : Nat) where
  steps : Nat → CacheStep
  states : Nat → Local
  after : Nat → Local
  onInstance : ∀ n, (states n).getLocal 0 = .inst r
  identifier : ∀ n, 0x1f ∉ (states n).function.name
  entered : ∀ n c, steps n = .finish c → c < n ∧ steps c = .enter ∧
    (states n).frame.function = (states c).frame.function ∧
    (states n).function.name = (states c).function.name
  ran : ∀ n, (match steps n with
    | .enter => Handler.GET_CACHED_RESULT rt (states n).function.name (states n)
    | .finish _ => Handler.STORE_CACHED_RESULT rt (states n).function.name (states n)) =
      .dispatch (after n)
  start : ((states 0).shared.instances r).cacheStore = []
  next : ∀ n k cached, lookup ((states (n + 1)).shared.instances r).cacheStore k = some cached →
    ∃ before, lookup ((after n).shared.instances r).cacheStore k = some before ∧
      before.result = cached.result

namespace CacheHistory

variable {rt : Runtime} {r : Nat} (hist : CacheHistory rt r)

/-- The call that is entered returns a stored result. -/
def Answers (n : Nat) (v : Value) : Prop :=
  hist.steps n = .enter ∧ (hist.after n).ops = v :: (hist.states n).ops ∧ v ≠ .nil

/-- Two calls have the same arguments, each at its time. -/
def SameArguments (fpu : FloatUnit) (c n : Nat) : Prop :=
  List.Forall₂ (Value.Same fpu (hist.states c).heap (hist.states n).heap)
    (hist.states c).arguments (hist.states n).arguments

/-- What a call is answered with is the result an earlier call of the same method with the same
arguments has stored. -/
def FaithfulAt (fpu : FloatUnit) (n : Nat) : Prop :=
  ∀ v, hist.Answers n v → ∃ m c, m < n ∧ hist.steps m = .finish c ∧
    (hist.states m).ops.head? = some v ∧
    (hist.states c).frame.function = (hist.states n).frame.function ∧ hist.SameArguments fpu c n

/-- The parameters have the texts at the return that they had at the entry, calls with different
arguments have different texts, and one method of the name is cached. -/
structure Careful (fpu : FloatUnit) : Prop where
  parametersKept : ∀ n c, hist.steps n = .finish c →
    Handler.parameterTexts rt (hist.states n) = Handler.parameterTexts rt (hist.states c)
  textsDiffer : ∀ c n, hist.steps c = .enter → hist.steps n = .enter →
    (hist.states c).frame.function = (hist.states n).frame.function →
    separated 0x1f (Handler.parameterTexts rt (hist.states c)) =
      separated 0x1f (Handler.parameterTexts rt (hist.states n)) →
    hist.SameArguments fpu c n
  oneMethod : ∀ m n, (hist.states m).function.name = (hist.states n).function.name →
    (hist.states m).frame.function = (hist.states n).frame.function

/-! ### The store -/

/-- What step `n` stores. -/
def puts (n : Nat) : Option (CString × Value) :=
  match hist.steps n with
  | .enter => none
  | .finish _ =>
      ((hist.states n).ops.head?).map fun v =>
        (Handler.cacheKey rt (hist.states n) (hist.states n).function.name, v)

variable {hist}

theorem after_enter {n : Nat} (h : hist.steps n = .enter) :
    (hist.after n).shared = (hist.states n).shared := by
  have hran := hist.ran n
  simp only [h, Handler.GET_CACHED_RESULT, hist.onInstance n] at hran
  split at hran <;> exact (congrArg Local.shared (Exit.dispatch.inj hran)).symm

theorem after_finish {n c : Nat} (h : hist.steps n = .finish c) :
    ∃ v, (hist.states n).ops.head? = some v ∧
      ((hist.after n).shared.instances r).cacheStore =
        assign ((hist.states n).shared.instances r).cacheStore
          (Handler.cacheKey rt (hist.states n) (hist.states n).function.name)
          { result := v, dirty := false } := by
  have hran := hist.ran n
  simp only [h, Handler.STORE_CACHED_RESULT, hist.onInstance n] at hran
  cases hops : (hist.states n).ops with
  | nil =>
      rw [hops] at hran
      cases hran
  | cons v rest =>
      rw [hops] at hran
      refine ⟨v, rfl, ?_⟩
      rw [← Exit.dispatch.inj hran]
      simp only [Local.withShared, Shared.updateInstance, Function.update_self]

/-- An answer was in the store under the key of the call. -/
theorem lookup_of_answers {n : Nat} {v : Value} (h : hist.Answers n v) :
    ∃ cached, lookup ((hist.states n).shared.instances r).cacheStore
        (Handler.cacheKey rt (hist.states n) (hist.states n).function.name) = some cached ∧
      cached.result = v := by
  obtain ⟨henter, hops, hv⟩ := h
  have hran := hist.ran n
  simp only [henter, Handler.GET_CACHED_RESULT, hist.onInstance n] at hran
  cases hlookup : lookup ((hist.states n).shared.instances r).cacheStore
      (Handler.cacheKey rt (hist.states n) (hist.states n).function.name) with
  | none =>
      rw [hlookup] at hran
      rw [← Exit.dispatch.inj hran, Local.push_ops] at hops
      exact absurd (List.cons.inj hops).1.symm hv
  | some cached =>
      rw [hlookup] at hran
      rw [← Exit.dispatch.inj hran, Local.push_ops] at hops
      refine ⟨cached, rfl, ?_⟩
      by_cases hdirty : cached.dirty = true
      · rw [if_pos hdirty] at hops
        exact absurd (List.cons.inj hops).1.symm hv
      · rw [if_neg hdirty] at hops
        exact (List.cons.inj hops).1

variable (hist)

/-- The results in the store of the instance. -/
def results (n : Nat) (k : CString) : Option Value :=
  (lookup ((hist.states n).shared.instances r).cacheStore k).map CachedResult.result

variable {hist}

theorem results_succ {n : Nat} {k : CString} {v : Value} (h : hist.results (n + 1) k = some v) :
    hist.puts n = some (k, v) ∨ hist.results n k = some v := by
  obtain ⟨cached, hcached, rfl⟩ := Option.map_eq_some_iff.mp h
  obtain ⟨before, hbefore, hresult⟩ := hist.next n k cached hcached
  cases hstep : hist.steps n with
  | enter =>
      right
      rw [after_enter hstep] at hbefore
      rw [results, hbefore, Option.map_some, hresult]
  | finish c =>
      obtain ⟨v, hv, hstore⟩ := after_finish hstep
      rw [hstore, lookup_assign] at hbefore
      by_cases hkey : Handler.cacheKey rt (hist.states n) (hist.states n).function.name = k
      · left
        rw [if_pos hkey] at hbefore
        obtain rfl := Option.some.inj hbefore
        simp only [puts, hstep, hv, Option.map_some, hkey, ← hresult]
      · right
        rw [if_neg hkey] at hbefore
        rw [results, hbefore, Option.map_some, hresult]

variable (hist)

def tableRun : TableRun CString Value where
  table := hist.results
  puts := hist.puts
  start k := by
    rw [results, hist.start]
    rfl
  next _ _ _ h := results_succ h

variable {hist}

/-- A call that is answered has the key under which an earlier call has stored the answer. -/
theorem exists_finish_of_answers {n : Nat} {v : Value} (h : hist.Answers n v) :
    ∃ m c, m < n ∧ hist.steps m = .finish c ∧ (hist.states m).ops.head? = some v ∧
      Handler.cacheKey rt (hist.states m) (hist.states m).function.name =
        Handler.cacheKey rt (hist.states n) (hist.states n).function.name := by
  obtain ⟨cached, hcached, hresult⟩ := lookup_of_answers h
  have hresults : hist.tableRun.table n
      (Handler.cacheKey rt (hist.states n) (hist.states n).function.name) = some v := by
    show hist.results n _ = some v
    rw [results, hcached, Option.map_some, hresult]
  obtain ⟨m, hm, hputs⟩ := hist.tableRun.exists_puts hresults
  have hput : hist.puts m = some _ := hputs
  cases hstep : hist.steps m with
  | enter =>
      simp only [puts, hstep] at hput
      cases hput
  | finish c =>
      simp only [puts, hstep] at hput
      obtain ⟨w, hw, hpair⟩ := Option.map_eq_some_iff.mp hput
      obtain ⟨hkey, rfl⟩ := Prod.mk.inj hpair
      exact ⟨m, c, hm, hstep, hw, hkey⟩

end CacheHistory

/-- The results of careful cached methods answer calls with the same arguments. -/
theorem cachedResults_faithful {rt : Runtime} {r : Nat} (hist : CacheHistory rt r) (fpu : FloatUnit)
    (hcareful : hist.Careful fpu) (n : Nat) : hist.FaithfulAt fpu n := by
  intro v hanswers
  obtain ⟨m, c, hm, hfinish, hresult, hkey⟩ := CacheHistory.exists_finish_of_answers hanswers
  obtain ⟨-, henter, hfunction, hname⟩ := hist.entered m c hfinish
  rw [Handler.cacheKey_eq, Handler.cacheKey_eq] at hkey
  obtain ⟨hnames, htexts⟩ := named_inj (hist.identifier m) (hist.identifier n) hkey
  have hsame : (hist.states c).frame.function = (hist.states n).frame.function :=
    hfunction.symm.trans (hcareful.oneMethod m n hnames)
  refine ⟨m, c, hm, hfinish, hresult, hsame, ?_⟩
  apply hcareful.textsDiffer c n henter hanswers.1 hsame
  rw [← hcareful.parametersKept m c hfinish, htexts]

/-! ### Arguments whose texts differ -/

/-- Kinds of arguments that are told apart by their texts. -/
inductive PlainKind where
  | integer
  | boolean
  | word

def PlainKind.Has : PlainKind → Value → Prop
  | integer, .int _ => True
  | boolean, .bool _ => True
  | word, .string s => 0x1f ∉ s
  | _, _ => False

namespace PlainKind

variable {kind : PlainKind} {v w : Value} (printer : Printer) (fpu : FloatUnit) (h h' : Heap)

theorem sep_notMem_integerText (i : Int64) : 0x1f ∉ integerText i := by
  intro hmem
  obtain ⟨c, hc, hbyte⟩ := List.mem_map.mp hmem
  have hchar := toString_chars hc
  have hcode : c.toNat = 0x1f := by
    have hsmall := char_lt_256 hchar
    have htoNat := congrArg UInt8.toNat hbyte
    rw [UInt8.toNat_ofNat', Nat.mod_eq_of_lt hsmall] at htoNat
    exact htoNat
  rcases hchar with rfl | hdigit
  · cases hcode
  · simp only [Char.isDigit, Bool.and_eq_true, decide_eq_true_eq] at hdigit
    have hlow : 0x30 ≤ c.toNat := UInt32.le_iff_toNat_le.mp hdigit.1
    omega

theorem boolText_injective {b b' : Bool}
    (htext : (Value.bool b).plainText printer = (Value.bool b').plainText printer) : b = b' := by
  cases b <;> cases b' <;> first | rfl | cases htext

theorem sep_notMem_text (hv : kind.Has v) : 0x1f ∉ v.toText printer h := by
  cases kind <;> cases v <;> first | exact False.elim hv | rw [Value.toText_plain printer fun _ => rfl]
  case integer.int i => exact sep_notMem_integerText i
  case boolean.bool b =>
    have hnot : ∀ b : Bool, 0x1f ∉ (if b then lit "true" else lit "false") := by decide
    exact hnot b
  case word.string s => exact hv

/-- The text of an argument of a plain kind determines it. -/
theorem same_of_text (hv : kind.Has v) (hw : kind.Has w)
    (htext : v.toText printer h = w.toText printer h') : Value.Same fpu h h' v w := by
  cases kind <;> cases v <;> try exact hv.elim
  all_goals cases w <;> try exact hw.elim
  all_goals rw [Value.toText_plain printer fun _ => rfl, Value.toText_plain printer fun _ => rfl] at htext
  case integer.int.int i j => exact integerText_injective htext
  case boolean.bool.bool b b' =>
    exact Value.Equals.of_first fun _ => boolText_injective printer htext
  case word.string.string s s' => exact Value.Equals.of_first fun _ => htext

end PlainKind

namespace CacheHistory

variable {rt : Runtime} {r : Nat} {hist : CacheHistory rt r}

/-- Arguments of fixed plain kinds have different texts when they differ. -/
theorem textsDiffer_of_plain {printer : Printer} (hprints : rt.toString = Value.toText printer)
    (fpu : FloatUnit) {kinds : Nat → List PlainKind}
    (hplain : ∀ n, hist.steps n = .enter →
      List.Forall₂ PlainKind.Has (kinds (hist.states n).frame.function) (hist.states n).arguments)
    {c n : Nat} (hc : hist.steps c = .enter) (hn : hist.steps n = .enter)
    (hfunction : (hist.states c).frame.function = (hist.states n).frame.function)
    (htexts : separated 0x1f (Handler.parameterTexts rt (hist.states c)) =
      separated 0x1f (Handler.parameterTexts rt (hist.states n))) :
    hist.SameArguments fpu c n := by
  have hfree : ∀ m, hist.steps m = .enter →
      ∀ text ∈ Handler.parameterTexts rt (hist.states m), 0x1f ∉ text := by
    intro m hm text htext
    rw [Handler.parameterTexts_eq, hprints] at htext
    obtain ⟨v, hv, rfl⟩ := List.mem_map.mp htext
    obtain ⟨i, hi⟩ := List.mem_iff_getElem?.mp hv
    have hlength := (hplain m hm).length_eq
    obtain ⟨hi', rfl⟩ := List.getElem?_eq_some_iff.mp hi
    have hkind := (List.forall₂_iff_get.mp (hplain m hm)).2 i (hlength ▸ hi') hi'
    exact PlainKind.sep_notMem_text printer _ hkind
  have hlists := separated_inj (hfree c hc) (hfree n hn) htexts
  rw [Handler.parameterTexts_eq, Handler.parameterTexts_eq, hprints] at hlists
  have hkinds := hplain c hc
  have hkinds' := hplain n hn
  rw [hfunction] at hkinds
  rw [SameArguments]
  generalize (hist.states c).arguments = args at hlists hkinds ⊢
  generalize (hist.states n).arguments = args' at hlists hkinds' ⊢
  generalize kinds (hist.states n).frame.function = ks at hkinds hkinds'
  induction hkinds generalizing args' with
  | nil =>
      cases hkinds'
      exact List.Forall₂.nil
  | cons hv _ ih =>
      cases hkinds' with
      | cons hw hrest =>
          rw [List.map_cons, List.map_cons] at hlists
          obtain ⟨hfirst, hothers⟩ := List.cons.inj hlists
          exact List.Forall₂.cons (PlainKind.same_of_text printer fpu _ _ hv hw hfirst)
            (ih _ hothers hrest)

end CacheHistory

/-! ### An integer and its text -/

/-- The runtime of the concrete calls. -/
def printingRuntime : Runtime :=
  { Runtime.bare with toString := Value.toText { fpu := .bare, interfaceName := fun _ => [] } }

/-- A script with an instance of `model Box { @cached task same(x) { give x } }`, in a call of `same`. -/
def boxes (x : Value) (ops : List Value) (cacheStore : List (CString × CachedResult)) : Local :=
  { frame :=
      { function := 0, ip := 1, slots := [.value (.inst 0), .value x], ops, superCalled := false,
        closureUpvalues := [] }
    upvalues := []
    shared := Shared.start
      { Heap.ofProgram
          [{ FunctionObj.ofCode (lit "same")
                [.GET_CACHED_RESULT (lit "same"), .DUP, .LOAD_CONST (some .nil),
                  .primitive .EQUAL, .JUMP_IF_FALSE 2, .POP, .JUMP 1, .RETURN, .LOAD_LOCAL 1,
                  .STORE_CACHED_RESULT (lit "same"), .RETURN, .LOAD_CONST (some .nil),
                  .STORE_CACHED_RESULT (lit "same"), .RETURN] with
              paramNames := [lit "self", lit "x"], arity := 2, isMethod := true, hasCached := true,
              localCount := 2 }]
          [Klass.ofMethods (lit "Box") [(lit "same", .closure 0)]]
          [{ function := 0, upvalues := [] }] with
        instances := fun _ =>
          { klass := 0, shape := { root := 0, names := [] }, propertyValues := [], cacheStore } } }

def boxEntry : CString × CachedResult :=
  (lit "same" ++ 0x1f :: lit "1", { result := .int 1, dirty := false })

/-- The state after the first call has stored its result. -/
def boxStored : Local :=
  (boxes (.int 1) [.int 1] []).withShared
    ((boxes (.int 1) [.int 1] []).shared.updateInstance 0
      { klass := 0, shape := { root := 0, names := [] }, propertyValues := [], cacheStore := [boxEntry] })

/-- The integer 1 or its text. -/
def one (asText : Bool) : Value := if asText then .string (lit "1") else .int 1

/-- The call `same(1)`, and then calls of `same` with 1 again or with its text. -/
def boxCalls (asText : Bool) : CacheHistory printingRuntime 0 where
  steps
    | 0 => .enter
    | 1 => .finish 0
    | _ + 2 => .enter
  states
    | 0 => boxes (.int 1) [] []
    | 1 => boxes (.int 1) [.int 1] []
    | _ + 2 => boxes (one asText) [] [boxEntry]
  after
    | 0 => boxes (.int 1) [.nil] []
    | 1 => boxStored
    | _ + 2 => boxes (one asText) [.int 1] [boxEntry]
  onInstance
    | 0 => rfl
    | 1 => rfl
    | _ + 2 => rfl
  identifier
    | 0 | 1 | _ + 2 => show 0x1f ∉ lit "same" by decide
  entered
    | 1, 0, rfl => ⟨by decide, rfl, rfl, rfl⟩
  ran
    | 0 => rfl
    | 1 => rfl
    | _ + 2 => by cases asText <;> rfl
  start := rfl
  next
    | 0, _, cached, h => ⟨cached, h, rfl⟩
    | 1, _, cached, h => ⟨cached, h, rfl⟩
    | _ + 2, _, cached, h => ⟨cached, h, rfl⟩

theorem boxCalls_careful : (boxCalls false).Careful .bare := by
  have harguments : ∀ n, ((boxCalls false).states n).arguments = [.int 1] := by
    intro n
    match n with
    | 0 | 1 | _ + 2 => rfl
  have hfunction : ∀ n, ((boxCalls false).states n).frame.function = 0 := by
    intro n
    match n with
    | 0 | 1 | _ + 2 => rfl
  refine ⟨?_, ?_, ?_⟩
  · intro n c h
    match n, c, h with
    | 1, 0, _ => rfl
  · intro c n _ _ _ _
    rw [CacheHistory.SameArguments, harguments c, harguments n]
    exact List.Forall₂.cons rfl List.Forall₂.nil
  · intro m n _
    rw [hfunction m, hfunction n]

/-- The second call with 1 is answered with the result of the first. -/
theorem boxCalls_faithful : (boxCalls false).FaithfulAt .bare 2 :=
  cachedResults_faithful (boxCalls false) .bare boxCalls_careful 2

/-- The call with the text of 1 is answered with the result of the call with 1. -/
theorem boxCalls_unfaithful : ¬∀ n, (boxCalls true).FaithfulAt .bare n := by
  intro h
  obtain ⟨m, c, hm, hfinish, -, -, hargs⟩ := h 2 (.int 1) ⟨rfl, rfl, by decide⟩
  have hc : c = 0 := by
    match m, c, hfinish with
    | 1, 0, _ => rfl
  subst hc
  cases hargs with
  | cons hsame _ =>
      have hfirst := Value.Equals.by hsame
      cases hfirst

end EZLanguage
