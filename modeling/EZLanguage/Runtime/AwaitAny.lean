import EZLanguage.Runtime.EZFuture

/-!
# Waiting for one of several futures

`awaitAny` registers a callback with each future of an array, waits until one of them has run, and looks
for the first future that is ready. The callback sets a flag of its own and belongs to one call.

A future calls its callbacks, or executes them at once, as soon as it has an outcome. On Windows it is
ready only when its event is signaled, which comes later.
-/

namespace EZLanguage

namespace AwaitAny

open Interleaving Runs EZFuture

variable {Name Thread Callback : Type*}

/-- Where the call is, in its loops at an index. -/
inductive Pc where
  | registering (k : Nat)
  | waiting
  | scanning (k : Nat)
  | returned (result : Except CString Value)
  /-- The error `awaitAny() failed to wait`. -/
  | failed

structure State (Name Thread Callback : Type*) where
  future : Name → World Thread (Point Callback) (Shared Thread Callback)
  fired : Bool
  pc : Pc

def State.outcome (st : State Name Thread Callback) (i : Name) : Option (Except CString Value) :=
  (st.future i).shared.future.outcome

def start : State Name Thread Callback := ⟨fun _ => initial, false, .registering 0⟩

section Steps

variable [DecidableEq Name] [DecidableEq Thread] [DecidableEq Callback]
variable (windows : Bool) (arr : List Name) (me : Thread) (fire : Callback)

/-- Whether the event sets the flag. -/
def fires : Event Callback → Bool
  | .executed callback => callback = fire
  | _ => false

/-- A step of the call, or of any thread at any of the futures. -/
inductive Step : State Name Thread Callback → State Name Thread Callback → Prop
  | future {st : State Name Thread Callback} {i : Name} {t : Thread} {e : Event Callback}
      {w : World Thread (Point Callback) (Shared Thread Callback)} (hown : e ≠ .registered fire)
      (hstep : EZFuture.step windows (t, e) (st.future i) w) :
      Step st { st with future := Function.update st.future i w, fired := st.fired || fires fire e }
  | register {st : State Name Thread Callback} {k : Nat} {i : Name}
      {w : World Thread (Point Callback) (Shared Thread Callback)} (hpc : st.pc = .registering k)
      (hi : arr[k]? = some i) (hstep : EZFuture.step windows (me, .registered fire) (st.future i) w) :
      Step st { st with future := Function.update st.future i w, pc := .registering (k + 1) }
  | wait {st : State Name Thread Callback} (hpc : st.pc = .registering arr.length) :
      Step st { st with pc := .waiting }
  | pass {st : State Name Thread Callback} (hpc : st.pc = .waiting) (hfired : st.fired = true) :
      Step st { st with pc := .scanning 0 }
  | ready {st : State Name Thread Callback} {k : Nat} {i : Name} (hpc : st.pc = .scanning k)
      (hi : arr[k]? = some i) (hready : (st.future i).shared.future.ready = true) :
      Step st { st with pc := .returned (st.future i).shared.future.get }
  | skip {st : State Name Thread Callback} {k : Nat} {i : Name} (hpc : st.pc = .scanning k)
      (hi : arr[k]? = some i) (hready : (st.future i).shared.future.ready = false) :
      Step st { st with pc := .scanning (k + 1) }
  | fail {st : State Name Thread Callback} (hpc : st.pc = .scanning arr.length) :
      Step st { st with pc := .failed }

/-- The states that a call can come to. -/
def Reach : State Name Thread Callback → Prop := Relation.ReflTransGen (Step windows arr me fire) start

/-! ### What a step of a future does -/

theorem outcome_step {history : List (Thread × Event Callback)}
    {w w' : World Thread (Point Callback) (Shared Thread Callback)} {l : Thread × Event Callback}
    (hrun : Run (step windows) initial history w) (hstep : step windows l w w')
    {r : Except CString Value} (hr : w.shared.future.outcome = some r) :
    w'.shared.future.outcome = some r := by
  have hrecorded := recorded_of_run hrun
  have hrecorded' := recorded_of_run (hrun.snoc hstep)
  rw [hrecorded.outcome] at hr
  rw [hrecorded'.outcome, completions_append, List.head?_append, hr, Option.some_or]

theorem completed_of_executed {history : List (Thread × Event Callback)}
    {w w' : World Thread (Point Callback) (Shared Thread Callback)} {t : Thread} {callback : Callback}
    (hrun : Run (step windows) initial history w) (hstep : step windows (t, .executed callback) w w') :
    w.shared.future.outcome ≠ none ∧ callback ∈ registered history := by
  have hrecorded := recorded_of_run hrun
  obtain ⟨_, _, hsubperm, _⟩ := future_completes_once (hrun.snoc hstep)
  have hregistered : registered (history ++ [(t, .executed callback)]) = registered history := by
    rw [registered_append]
    exact List.append_nil _
  constructor
  · obtain ⟨hact⟩ := hstep
    exact hrecorded.completed t (executed_pastCompletion hact)
  · rw [← hregistered]
    refine hsubperm.subset ?_
    rw [executed_append]
    exact List.mem_append_right _ List.mem_cons_self

/-! ### The call -/

/-- The elements that the callback is registered with. -/
def Pc.done (pc : Pc) : List Name :=
  match pc with
  | .registering k => arr.take k
  | _ => arr

/-- What is known of one future. -/
structure Known (st : State Name Thread Callback) (i : Name) (history : List (Thread × Event Callback)) :
    Prop where
  run : Run (step windows) initial history (st.future i)
  mine : fire ∈ registered history → i ∈ arr
  fired : fire ∈ executed history → st.fired = true
  registered : i ∈ st.pc.done arr → fire ∈ registered history

structure Inv (st : State Name Thread Callback) : Prop where
  known : ∀ i, ∃ history, Known windows arr fire st i history
  fired : st.fired = true → ∃ i ∈ arr, st.outcome i ≠ none
  ahead : ∀ k, st.pc = .scanning k → windows = false →
    ∃ j i, k ≤ j ∧ arr[j]? = some i ∧ st.outcome i ≠ none
  result : ∀ r, st.pc = .returned r → ∃ i ∈ arr, st.outcome i = some r
  failed : st.pc = .failed → windows = true

theorem inv_start : Inv windows arr fire (start : State Name Thread Callback) where
  known _ := ⟨[], .nil, fun h => absurd h List.not_mem_nil, fun h => absurd h List.not_mem_nil,
    fun h => absurd h List.not_mem_nil⟩
  fired h := absurd h Bool.false_ne_true
  ahead k h := by cases h
  result r h := by cases h
  failed h := by cases h

variable {windows arr me fire}
variable {st : State Name Thread Callback} {i j : Name} {t : Thread}
  {w : World Thread (Point Callback) (Shared Thread Callback)} {history : List (Thread × Event Callback)}

/-- The outcomes stay when one future takes a step. -/
theorem outcome_kept (hst : Inv windows arr fire st) {l : Thread × Event Callback}
    (hstep : step windows l (st.future i) w) {r : Except CString Value}
    (hr : st.outcome j = some r) : (Function.update st.future i w j).shared.future.outcome = some r := by
  by_cases hj : j = i
  · subst hj
    obtain ⟨history, hknown⟩ := hst.known j
    rw [Function.update_self]
    exact outcome_step windows hknown.run hstep hr
  · rw [Function.update_of_ne hj]
    exact hr

theorem inv_future (hst : Inv windows arr fire st) {e : Event Callback}
    (hown : e ≠ .registered fire) (hstep : step windows (t, e) (st.future i) w) :
    Inv windows arr fire { st with future := Function.update st.future i w, fired := st.fired || fires fire e } := by
  have hkept : ∀ j, st.outcome j ≠ none → (Function.update st.future i w j).shared.future.outcome ≠ none := by
    intro j hj
    obtain ⟨r, hr⟩ := Option.ne_none_iff_exists'.mp hj
    rw [outcome_kept hst hstep hr]
    exact Option.some_ne_none r
  obtain ⟨history, hknown⟩ := hst.known i
  have hregistered : fire ∈ registered (history ++ [(t, e)]) ↔ fire ∈ registered history := by
    rw [registered_append, List.mem_append]
    refine or_iff_left fun hmem => ?_
    cases e with
    | registered callback => exact hown (by rw [List.mem_singleton.mp hmem])
    | _ => cases hmem
  have hexecuted : fire ∈ executed [(t, e)] ↔ fires fire e = true := by
    cases e with
    | executed callback => simp [executed, fires, eq_comm]
    | _ => exact iff_of_false List.not_mem_nil Bool.false_ne_true
  refine ⟨fun j => ?_, fun hfired => ?_, fun k hk hposix => ?_, fun r hr => ?_, hst.failed⟩
  · by_cases hj : j = i
    · subst hj
      refine ⟨history ++ [(t, e)], ?_, fun h => hknown.mine (hregistered.mp h), fun h => ?_,
        fun h => hregistered.mpr (hknown.registered h)⟩
      · show Run _ _ _ (Function.update st.future j w j)
        rw [Function.update_self]
        exact hknown.run.snoc hstep
      · rw [executed_append, List.mem_append, hexecuted] at h
        rw [Bool.or_eq_true]
        exact h.imp_left hknown.fired
    · obtain ⟨history', hknown'⟩ := hst.known j
      refine ⟨history', ?_, hknown'.mine, fun h => ?_, hknown'.registered⟩
      · show Run _ _ _ (Function.update st.future i w j)
        rw [Function.update_of_ne hj]
        exact hknown'.run
      · rw [Bool.or_eq_true]
        exact Or.inl (hknown'.fired h)
  · rcases (Bool.or_eq_true _ _).mp hfired with hbefore | hnow
    · obtain ⟨j, hj, houtcome⟩ := hst.fired hbefore
      exact ⟨j, hj, hkept j houtcome⟩
    · cases e with
      | executed callback =>
          obtain rfl : callback = fire := of_decide_eq_true hnow
          obtain ⟨houtcome, hmine⟩ := completed_of_executed windows hknown.run hstep
          exact ⟨i, hknown.mine hmine, hkept i houtcome⟩
      | _ => cases hnow
  · obtain ⟨j, i', hle, hj, houtcome⟩ := hst.ahead k hk hposix
    exact ⟨j, i', hle, hj, hkept i' houtcome⟩
  · obtain ⟨j, hj, houtcome⟩ := hst.result r hr
    exact ⟨j, hj, outcome_kept hst hstep houtcome⟩

theorem inv_register (hst : Inv windows arr fire st) {k : Nat} (hpc : st.pc = .registering k)
    (hi : arr[k]? = some i) (hstep : step windows (me, .registered fire) (st.future i) w) :
    Inv windows arr fire { st with future := Function.update st.future i w, pc := .registering (k + 1) } := by
  have hmem : i ∈ arr := List.mem_of_getElem? hi
  refine ⟨fun j => ?_, fun hfired => ?_, fun _ h => (by cases h), fun _ h => (by cases h),
    fun h => (by cases h)⟩
  · obtain ⟨history, hknown⟩ := hst.known j
    have htake : j ∈ arr.take (k + 1) ↔ j ∈ arr.take k ∨ j = i := by
      rw [List.take_add_one, hi, List.mem_append]
      simp
    by_cases hj : j = i
    · subst hj
      refine ⟨history ++ [(me, .registered fire)], ?_, fun _ => hmem, fun h => hknown.fired ?_, fun _ => ?_⟩
      · show Run _ _ _ (Function.update st.future j w j)
        rw [Function.update_self]
        exact hknown.run.snoc hstep
      · rw [executed_append] at h
        exact (List.mem_append.mp h).resolve_right List.not_mem_nil
      · rw [registered_append]
        exact List.mem_append_right _ List.mem_cons_self
    · refine ⟨history, ?_, hknown.mine, hknown.fired, fun h => hknown.registered ?_⟩
      · show Run _ _ _ (Function.update st.future i w j)
        rw [Function.update_of_ne hj]
        exact hknown.run
      · rw [hpc]
        exact (htake.mp h).resolve_right hj
  · obtain ⟨j, hj, houtcome⟩ := hst.fired hfired
    obtain ⟨r, hr⟩ := Option.ne_none_iff_exists'.mp houtcome
    refine ⟨j, hj, ?_⟩
    show (Function.update st.future i w j).shared.future.outcome ≠ none
    rw [outcome_kept hst hstep hr]
    exact Option.some_ne_none r

omit [DecidableEq Name] [DecidableEq Callback] in
/-- Only the place of the call changes, and what it says. -/
theorem Inv.move (hst : Inv windows arr fire st) {pc : Pc}
    (hdone : ∀ i, i ∈ pc.done arr → i ∈ st.pc.done arr)
    (hahead : ∀ k, pc = .scanning k → windows = false →
      ∃ j i, k ≤ j ∧ arr[j]? = some i ∧ st.outcome i ≠ none)
    (hresult : ∀ r, pc = .returned r → ∃ i ∈ arr, st.outcome i = some r)
    (hfailed : pc = .failed → windows = true) : Inv windows arr fire { st with pc } := by
  refine ⟨fun i => ?_, hst.fired, hahead, hresult, hfailed⟩
  obtain ⟨history, hknown⟩ := hst.known i
  exact ⟨history, hknown.run, hknown.mine, hknown.fired, fun h => hknown.registered (hdone i h)⟩

theorem inv_step {st st' : State Name Thread Callback} (hst : Inv windows arr fire st)
    (hstep : Step windows arr me fire st st') : Inv windows arr fire st' := by
  cases hstep with
  | future hown hstep => exact inv_future hst hown hstep
  | register hpc hi hstep => exact inv_register hst hpc hi hstep
  | wait hpc =>
      refine hst.move (fun i h => ?_) (fun _ h => by cases h) (fun _ h => by cases h) fun h => by cases h
      rw [hpc]
      show i ∈ arr.take arr.length
      rw [List.take_length]
      exact h
  | pass hpc hfired =>
      refine hst.move (fun i h => by rw [hpc]; exact h) (fun k h _ => ?_) (fun _ h => by cases h)
        fun h => by cases h
      cases h
      obtain ⟨i, hi, houtcome⟩ := hst.fired hfired
      obtain ⟨j, hlt, hj⟩ := List.getElem_of_mem hi
      exact ⟨j, i, Nat.zero_le j, List.getElem?_eq_some_iff.mpr ⟨hlt, hj⟩, houtcome⟩
  | @ready k i hpc hi hready =>
      refine hst.move (fun i h => by rw [hpc]; exact h) (fun _ h => by cases h) (fun r h => ?_)
        fun h => by cases h
      cases h
      obtain ⟨history, hknown⟩ := hst.known i
      have hcompleted := (recorded_of_run hknown.run).consistent.completed hready
      obtain ⟨r, hr⟩ := Option.ne_none_iff_exists'.mp hcompleted
      exact ⟨i, List.mem_of_getElem? hi, hr.trans (by rw [get_of_outcome hr])⟩
  | @skip k i hpc hi hready =>
      refine hst.move (fun i h => by rw [hpc]; exact h) (fun k' h hposix => ?_) (fun _ h => by cases h)
        fun h => by cases h
      cases h
      obtain ⟨j, i', hle, hj, houtcome⟩ := hst.ahead k hpc hposix
      refine ⟨j, i', Nat.lt_of_le_of_ne hle ?_, hj, houtcome⟩
      rintro rfl
      obtain rfl := Option.some_inj.mp (hi.symm.trans hj)
      obtain ⟨history, hknown⟩ := hst.known i
      have htrue := (recorded_of_run hknown.run).consistent.ready hposix houtcome
      rw [hready] at htrue
      cases htrue
  | fail hpc =>
      refine hst.move (fun i h => by rw [hpc]; exact h) (fun _ h => by cases h) (fun _ h => by cases h)
        fun _ => ?_
      by_contra hposix
      obtain ⟨j, i, hle, hj, _⟩ := hst.ahead _ hpc (Bool.eq_false_iff.mpr hposix)
      obtain ⟨hlt, _⟩ := List.getElem?_eq_some_iff.mp hj
      omega

theorem inv_of_reach (hst : Reach windows arr me fire st) : Inv windows arr fire st :=
  invariant_of_run (inv_start windows arr fire) (fun _ _ h hstep => inv_step h hstep) hst

/-- A call that returns gives the outcome of one of its futures. A call that waits does so in vain only as
long as no future is complete, or a thread is still inside a call at those that are. -/
theorem awaitAny_result (hst : Reach windows arr me fire st) :
    (∀ r, st.pc = .returned r → ∃ i ∈ arr, st.outcome i = some r) ∧
      (st.pc = .waiting → ∀ i ∈ arr, st.outcome i ≠ none → (∀ t, (st.future i).point t = .outside) →
        st.fired = true) := by
  have hinv := inv_of_reach hst
  refine ⟨hinv.result, fun hpc i hi houtcome houtside => ?_⟩
  obtain ⟨history, hknown⟩ := hinv.known i
  obtain ⟨hfirst, _, _, hperm, _⟩ := future_completes_once hknown.run
  have hsome : completions history ≠ [] := by
    intro hnil
    rw [hnil] at hfirst
    exact houtcome hfirst
  have hregistered := hknown.registered (by rw [hpc]; exact hi)
  exact hknown.fired ((hperm hsome houtside).mem_iff.mpr hregistered)

/-! ### The event comes too late -/

theorem step_of {e : Event Callback} {p p' : Point Callback} {s : Shared Thread Callback}
    (hpoint : w.point t = p) (hact : act windows e t p w.shared p' s) :
    step windows (t, e) w ⟨Function.update w.point t p', s⟩ := by
  subst hpoint
  exact .mk hact

/-- One future has its outcome, no event is signaled, and the call is not inside any of the futures. -/
structure Early (arr : List Name) (me : Thread) (fire : Callback) (first : Name) (k : Nat)
    (st : State Name Thread Callback) : Prop where
  reach : Reach true arr me fire st
  pc : st.pc = .registering k
  idle : ∀ i, (st.future i).point me = .outside
  unready : ∀ i, (st.future i).shared.future.ready = false
  completed : (st.future first).shared.future.result.isSome = true
  fired : 0 < k → st.fired = true

/-- The loop over the callbacks of a future, with the one callback. -/
theorem reach_called (hst : Reach windows arr me fire st)
    (hpoint : (st.future i).point me = ⟨.calling [fire], []⟩) :
    ∃ st', Reach windows arr me fire st' ∧ st'.pc = st.pc ∧ st'.fired = true ∧
      (st'.future i).point me = .outside ∧ (∀ j, j ≠ i → st'.future j = st.future j) ∧
      (st'.future i).shared = (st.future i).shared := by
  have hcalled := hst.tail (.future (by simp) (step_of hpoint .call))
  have hreturned := hcalled.tail (.future (e := .returned) (i := i) (t := me) (by simp)
    (step_of (p := ⟨.user, [[]]⟩) (by simp) .returns))
  have hfinished := hreturned.tail (.future (e := .finished) (i := i) (t := me) (by simp)
    (step_of (p := ⟨.calling [], []⟩) (by simp) .finish))
  refine ⟨_, hfinished, rfl, ?_, ?_, fun j hj => ?_, ?_⟩
  · simp [fires]
  · simp [Point.outside]
  · simp [Function.update_of_ne hj]
  · simp

theorem then_eq (windows : Bool) (future : EZFuture Callback) (callback : Callback) :
    future.then_ windows callback = (true, future) ∨
      future.then_ windows callback = (false, { future with onReady := future.onReady ++ [callback] }) := by
  unfold EZFuture.then_
  by_cases hnow : (if windows then future.result.isSome || future.hasError else future.ready) = true
  · exact Or.inl (if_pos hnow)
  · exact Or.inr (if_neg hnow)

/-- One future takes in the callback, and the others stay. -/
theorem Early.advance {first : Name} {k : Nat} {st' : State Name Thread Callback}
    (hst : Early arr me fire first k st) (hreach : Reach true arr me fire st')
    (hpc : st'.pc = .registering (k + 1)) (hfired : st'.fired = true)
    (hother : ∀ j, j ≠ i → st'.future j = st.future j) (hidle : (st'.future i).point me = .outside)
    (hready : (st'.future i).shared.future.ready = (st.future i).shared.future.ready)
    (hresult : (st'.future i).shared.future.result = (st.future i).shared.future.result) :
    Early arr me fire first (k + 1) st' := by
  refine ⟨hreach, hpc, fun j => ?_, fun j => ?_, ?_, fun _ => hfired⟩
  · by_cases hj : j = i
    · rw [hj, hidle]
    · rw [hother j hj, hst.idle j]
  · by_cases hj : j = i
    · rw [hj, hready, hst.unready i]
    · rw [hother j hj, hst.unready j]
  · by_cases hj : first = i
    · rw [hj, hresult, ← hj, hst.completed]
    · rw [hother first hj, hst.completed]

theorem early_register {first : Name} {k : Nat} (hst : Early arr me fire first k st) (hi : arr[k]? = some i)
    (hfirst : k = 0 → i = first) : ∃ st', Early arr me fire first (k + 1) st' := by
  have hregister : EZFuture.step true (me, .registered fire) (st.future i) _ := step_of (hst.idle i) .then_
  have hreach := hst.reach.tail (.register hst.pc hi hregister)
  rcases then_eq true (st.future i).shared.future fire with hthen | hthen
  · obtain ⟨st', hst', hpc, hfired, hidle, hother, hshared⟩ := reach_called hreach (i := i) (by simp [hthen])
    refine ⟨st', hst.advance hst' hpc hfired (fun j hj => ?_) hidle ?_ ?_⟩
    · rw [hother j hj]
      exact Function.update_of_ne hj _ _
    · rw [hshared]
      simp [hthen]
    · rw [hshared]
      simp [hthen]
  · have hk : k ≠ 0 := by
      intro hk
      have hcompleted := hst.completed
      rw [← hfirst hk] at hcompleted
      unfold EZFuture.then_ at hthen
      simp [hcompleted] at hthen
    exact ⟨_, hst.advance (i := i) hreach rfl (hst.fired (Nat.pos_of_ne_zero hk))
      (fun j hj => Function.update_of_ne hj _ _) (by simp [hthen, Point.outside]) (by simp [hthen])
      (by simp [hthen])⟩

/-- Another thread gives the first future its outcome before the call begins. -/
theorem early_start (first : Name) {other : Thread} (hother : other ≠ me) :
    ∃ st, Early arr me fire first 0 st := by
  have hset : EZFuture.step true (other, .set .nil)
      (initial : World Thread (Point Callback) (Shared Thread Callback)) _ :=
    step_of (p := ⟨.user, []⟩) rfl .set
  have hreach : Reach true arr me fire _ :=
    Relation.ReflTransGen.refl.tail (.future (i := first) (by simp) hset)
  refine ⟨_, hreach, rfl, fun i => ?_, fun i => ?_, ?_, fun h => absurd h (Nat.lt_irrefl 0)⟩
  · by_cases hi : i = first
    · simp [hi, Function.update_of_ne hother.symm, initial]
    · simp [Function.update_of_ne hi, start, initial]
  · by_cases hi : i = first
    · simp [hi, EZFuture.set, initial]
    · simp [Function.update_of_ne hi, start, initial]
  · simp [EZFuture.set, initial]

theorem early_all (fire : Callback) (first : Name) (rest : List Name) {other : Thread} (hother : other ≠ me)
    (k : Nat) (hk : k ≤ (first :: rest).length) : ∃ st, Early (first :: rest) me fire first k st := by
  induction k with
  | zero => exact early_start first hother
  | succ k ih =>
      obtain ⟨st, hst⟩ := ih (Nat.le_of_succ_le hk)
      refine early_register hst (List.getElem?_eq_getElem (Nat.lt_of_succ_le hk)) fun hzero => ?_
      subst hzero
      rfl

/-- The scan passes over every future. -/
theorem reach_scanned {first : Name} (hne : arr ≠ []) (hst : Early arr me fire first arr.length st)
    (k : Nat) (hk : k ≤ arr.length) :
    Reach true arr me fire { st with pc := .scanning k } := by
  induction k with
  | zero =>
      have hfired := hst.fired (List.length_pos_iff.mpr hne)
      exact (hst.reach.tail (.wait hst.pc)).tail (.pass rfl hfired)
  | succ k ih =>
      exact (ih (Nat.le_of_succ_le hk)).tail
        (.skip rfl (List.getElem?_eq_getElem (Nat.lt_of_succ_le hk)) (hst.unready _))

/-- The call fails in some run exactly where a future can be complete and not ready. -/
theorem awaitAny_fails_iff (harr : arr ≠ []) {other : Thread} (hother : other ≠ me) :
    (∃ st, Reach windows arr me fire st ∧ st.pc = .failed) ↔ windows = true := by
  constructor
  · rintro ⟨st, hst, hpc⟩
    exact (inv_of_reach hst).failed hpc
  · rintro rfl
    obtain ⟨first, rest, rfl⟩ := List.exists_cons_of_ne_nil harr
    obtain ⟨st, hst⟩ := early_all fire first rest hother _ (Nat.le_refl _)
    exact ⟨_, (reach_scanned harr hst _ (Nat.le_refl _)).tail (.fail rfl), rfl⟩

/-- One future and two threads, on Windows. -/
theorem oneFuture_fails : ∃ st : State Unit Bool Unit, Reach true [()] true () st ∧ st.pc = .failed :=
  have hiff : (∃ st : State Unit Bool Unit, Reach true [()] true () st ∧ st.pc = .failed) ↔ true = true :=
    awaitAny_fails_iff (List.cons_ne_nil () []) Bool.false_ne_true
  hiff.mpr rfl

/-- The same on another system: the call returns. -/
theorem oneFuture_returns : ∃ st : State Unit Bool Unit, Reach false [()] true () st ∧
    ∃ r, st.pc = .returned r ∧ ∃ i ∈ [()], st.outcome i = some r := by
  have hstep : EZFuture.step false (false, .set .nil)
      (initial : World Bool (Point Unit) (Shared Bool Unit)) _ :=
    step_of (p := ⟨.user, []⟩) rfl .set
  have hset : Reach false [()] true () (_ : State Unit Bool Unit) :=
    Relation.ReflTransGen.refl.tail (.future (i := ()) (by simp) hstep)
  have hregister := hset.tail (.register rfl rfl (step_of (p := ⟨.user, []⟩) rfl .then_))
  obtain ⟨st, hst, hpc, hfired, _, _, hshared⟩ := reach_called hregister (i := ()) rfl
  have hreturned := ((hst.tail (.wait hpc)).tail (.pass rfl hfired)).tail
    (.ready (k := 0) (i := ()) rfl rfl (by rw [hshared]; rfl))
  exact ⟨_, hreturned, _, rfl, (awaitAny_result hreturned).1 _ rfl⟩

end Steps

end AwaitAny

end EZLanguage
