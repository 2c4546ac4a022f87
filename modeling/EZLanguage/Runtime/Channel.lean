import EZLanguage.Support.Interleaving
import EZLanguage.Support.Runs
import EZLanguage.VM.Value

/-!
# Channels

A channel is a queue, a closed flag, a mutex and a condition variable. Every section that holds the mutex
is one step of a thread, and so is the notification of `send`, which comes after the mutex is released. A
thread that waits can wake up at any time, notified or not, and then looks at the channel again.

The values that left the queue, in their order, and the values still in it are the values that were
accepted, in their order.
-/

namespace EZLanguage

/-- The fields of a channel that its mutex guards. -/
structure EZChannel where
  q : List Value
  closed : Bool
  deriving DecidableEq

namespace EZChannel

open Interleaving Runs

def send (chan : EZChannel) (value : Value) : Except CString EZChannel :=
  if chan.closed then .error (lit "Cannot send on closed channel")
  else .ok { chan with q := chan.q ++ [value] }

def close (chan : EZChannel) : EZChannel := { chan with closed := true }

/-- What `receive` and `receiveTimeout` wait for. -/
def ready (chan : EZChannel) : Bool := !chan.q.isEmpty || chan.closed

/-- The end of every receiving operation: the front of the queue, if there is one. -/
def take (chan : EZChannel) : Option Value × EZChannel :=
  match chan.q with
  | value :: rest => (some value, { chan with q := rest })
  | [] => (none, chan)

def size (chan : EZChannel) : Nat := chan.q.length

/-- What a receiving operation returns: nil where there was nothing to take. -/
def result (outcome : Option Value) : Value := outcome.getD .nil

/-- The argument check of `receiveTimeout`. -/
def checkMilliseconds (ms : Value) : Except CString Unit :=
  if ms.isNumber then .ok ()
  else .error (lit "receiveTimeout() expects milliseconds (number)")

/-- The receiving operations. -/
inductive Form where
  | receive | tryReceive | receiveTimeout
  deriving DecidableEq

/-- What a thread does to the channel in one step. -/
inductive Event where
  | sent (value : Value)
  | refused (value : Value) (message : CString)
  | notified
  | blocked (form : Form)
  | received (form : Form) (outcome : Option Value)
  | misused (ms : Value) (message : CString)
  | closed
  | measured (size : Nat)
  | asked (closed : Bool)
  deriving DecidableEq

/-- Where a thread is. -/
inductive Point where
  | outside
  /-- `send` has released the mutex and not notified yet. -/
  | sending
  /-- Inside `cv.wait` or `cv.wait_for`, with the mutex released. -/
  | waiting (form : Form)
  deriving DecidableEq

variable {Thread : Type*}

/-- The values of the accepted sends. -/
def accepted (history : List (Thread × Event)) : List Value :=
  history.filterMap fun l => match l.2 with
    | .sent value => some value
    | _ => none

/-- The values the receiving operations took. -/
def received (history : List (Thread × Event)) : List Value :=
  history.filterMap fun l => match l.2 with
    | .received _ outcome => outcome
    | _ => none

/-- What the step of an event finds. -/
def Event.Truthful (chan : EZChannel) : Event → Prop
  | .sent _ => chan.closed = false
  | .refused _ _ => chan.closed = true
  | .received form outcome =>
      outcome = chan.q.head? ∧ (outcome = none → form = .receive → chan.closed = true)
  | _ => True

/-! ### What an operation does to the channel -/

@[simp] theorem accepted_nil : accepted ([] : List (Thread × Event)) = [] := rfl

@[simp] theorem received_nil : received ([] : List (Thread × Event)) = [] := rfl

theorem accepted_append (history rest : List (Thread × Event)) :
    accepted (history ++ rest) = accepted history ++ accepted rest :=
  List.filterMap_append

theorem received_append (history rest : List (Thread × Event)) :
    received (history ++ rest) = received history ++ received rest :=
  List.filterMap_append

theorem take_spec (chan : EZChannel) :
    chan.take.1 = chan.q.head? ∧ chan.take.1.toList ++ chan.take.2.q = chan.q ∧
      chan.take.2.closed = chan.closed := by
  cases hq : chan.q with
  | nil => simp [take, hq]
  | cons value rest => simp [take, hq]

theorem send_ok {chan chan' : EZChannel} {value : Value} (hsend : chan.send value = .ok chan') :
    chan.closed = false ∧ chan' = { chan with q := chan.q ++ [value] } := by
  cases hclosed : chan.closed with
  | true => simp [send, hclosed] at hsend
  | false => simpa [send, hclosed, eq_comm] using hsend

theorem send_error {chan : EZChannel} {value : Value} {message : CString}
    (hsend : chan.send value = .error message) : chan.closed = true := by
  cases hclosed : chan.closed with
  | true => rfl
  | false => simp [send, hclosed] at hsend

theorem ready_false {chan : EZChannel} (hready : chan.ready = false) :
    chan.q = [] ∧ chan.closed = false := by
  simpa [ready] using hready

theorem closed_of_ready {chan : EZChannel} (hready : chan.ready = true)
    (hnone : chan.take.1 = none) : chan.closed = true := by
  rw [(take_spec chan).1, List.head?_eq_none_iff] at hnone
  simpa [ready, hnone] using hready

/-- The record that a step makes of what it adds to the queue and takes off it. -/
structure Booked (Thread : Type*) (chan : EZChannel) (e : Event) (chan' : EZChannel) : Prop where
  values : ∀ t : Thread, received [(t, e)] ++ chan'.q = chan.q ++ accepted [(t, e)]
  closes : chan'.closed = true ↔ chan.closed = true ∨ e = .closed
  truthful : e.Truthful chan

/-- An event that neither sends, receives nor closes. -/
theorem Booked.same {chan : EZChannel} {e : Event} (hsent : ∀ v, e ≠ .sent v)
    (hreceived : ∀ form v, e ≠ .received form (some v)) (hclosed : e ≠ .closed)
    (htruthful : e.Truthful chan) : Booked Thread chan e chan := by
  refine ⟨fun t => ?_, ⟨Or.inl, fun h => h.resolve_right hclosed⟩, htruthful⟩
  cases e with
  | sent value => exact absurd rfl (hsent value)
  | received form outcome =>
      cases outcome with
      | none => simp [received, accepted]
      | some value => exact absurd rfl (hreceived form value)
  | _ => simp [received, accepted]

theorem Booked.take {chan : EZChannel} {form : Form}
    (hclosed : chan.take.1 = none → form = .receive → chan.closed = true) :
    Booked Thread chan (.received form chan.take.1) chan.take.2 := by
  obtain ⟨hhead, hvalues, hkept⟩ := take_spec chan
  refine ⟨fun t => ?_, ?_, hhead, hclosed⟩
  · calc received [(t, .received form chan.take.1)] ++ chan.take.2.q
        = chan.take.1.toList ++ chan.take.2.q := by cases chan.take.1 <;> rfl
      _ = chan.q := hvalues
      _ = chan.q ++ accepted [(t, .received form chan.take.1)] := by simp [accepted]
  · rw [hkept]
    simp

/-- An operation that returns nil took a nil, or found the queue empty. -/
theorem nil_received {chan : EZChannel} {form : Form} {outcome : Option Value}
    (htruthful : (Event.received form outcome).Truthful chan) (hnil : result outcome = .nil) :
    chan.q.head? = some .nil ∨ chan.q = [] ∧ (form = .receive → chan.closed = true) := by
  obtain ⟨hhead, hclosed⟩ := htruthful
  cases outcome with
  | none => exact .inr ⟨List.head?_eq_none_iff.mp hhead.symm, hclosed rfl⟩
  | some value =>
      rw [result, Option.getD_some] at hnil
      exact .inl (by rw [← hhead, hnil])

/-! ### Steps and runs -/

/-- The channel, and the threads asleep on `cv` that nobody has notified. -/
structure Shared (Thread : Type*) where
  channel : EZChannel
  cv : List Thread

variable [DecidableEq Thread]

/-- The steps of the operations, in the order of the source. -/
inductive act : Event → Atomic Thread Point (Shared Thread)
  | send {t s value channel} (hsend : s.channel.send value = .ok channel) :
      act (.sent value) t .outside s .sending { s with channel := channel }
  | refuse {t s value message} (hsend : s.channel.send value = .error message) :
      act (.refused value message) t .outside s .outside s
  | notifyOne {t s u} (hasleep : u ∈ s.cv) :
      act .notified t .sending s .outside { s with cv := s.cv.erase u }
  | notifyNobody {t s} (hnobody : s.cv = []) : act .notified t .sending s .outside s
  | receive {t s} (hready : s.channel.ready = true) :
      act (.received .receive s.channel.take.1) t .outside s .outside
        { s with channel := s.channel.take.2 }
  | wait {t s} (hready : s.channel.ready = false) :
      act (.blocked .receive) t .outside s (.waiting .receive) { s with cv := t :: s.cv }
  | close {t s} :
      act .closed t .outside s .outside { channel := s.channel.close, cv := [] }
  | tryReceive {t s} :
      act (.received .tryReceive s.channel.take.1) t .outside s .outside
        { s with channel := s.channel.take.2 }
  | misuse {t s ms message} (hms : checkMilliseconds ms = .error message) :
      act (.misused ms message) t .outside s .outside s
  | receiveTimeout {t s ms} (hms : checkMilliseconds ms = .ok ())
      (hready : s.channel.ready = true) :
      act (.received .receiveTimeout s.channel.take.1) t .outside s .outside
        { s with channel := s.channel.take.2 }
  | waitFor {t s ms} (hms : checkMilliseconds ms = .ok ()) (hready : s.channel.ready = false) :
      act (.blocked .receiveTimeout) t .outside s (.waiting .receiveTimeout)
        { s with cv := t :: s.cv }
  -- The wait of either form after a wake-up, which need not come from a notification.
  | wake {t s form} (hready : s.channel.ready = true) :
      act (.received form s.channel.take.1) t (.waiting form) s .outside
        { channel := s.channel.take.2, cv := s.cv.erase t }
  | sleep {t s form} (hready : s.channel.ready = false) :
      act (.blocked form) t (.waiting form) s (.waiting form) { s with cv := t :: s.cv.erase t }
  | timeOut {t s} (hready : s.channel.ready = false) :
      act (.received .receiveTimeout none) t (.waiting .receiveTimeout) s .outside
        { s with cv := s.cv.erase t }
  | size {t s} : act (.measured s.channel.size) t .outside s .outside s
  | isClosed {t s} : act (.asked s.channel.closed) t .outside s .outside s

/-- A thread takes the step of an event. -/
def step (l : Thread × Event) :
    World Thread Point (Shared Thread) → World Thread Point (Shared Thread) → Prop :=
  Step (act l.2) l.1

/-- A new channel, and no thread at it. -/
def initial : World Thread Point (Shared Thread) :=
  { point := fun _ => .outside, shared := { channel := ⟨[], false⟩, cv := [] } }

theorem act_booked {e : Event} {t : Thread} {p p' : Point} {s s' : Shared Thread}
    (hact : act e t p s p' s') : Booked Thread s.channel e s'.channel := by
  cases hact with
  | send hsend =>
      obtain ⟨hopen, hchannel⟩ := send_ok hsend
      rw [hchannel]
      exact ⟨fun t => by simp [received, accepted], by simp, hopen⟩
  | refuse hsend =>
      exact .same (by simp) (by simp) (by simp) (send_error hsend)
  | close =>
      exact ⟨fun t => by simp [received, accepted, close], by simp [close], trivial⟩
  | receive hready => exact .take fun hnone _ => closed_of_ready hready hnone
  | receiveTimeout _ hready => exact .take fun hnone _ => closed_of_ready hready hnone
  | wake hready => exact .take fun hnone _ => closed_of_ready hready hnone
  | tryReceive => exact .take fun _ hform => nomatch hform
  | timeOut hready =>
      apply Booked.same (by simp) (by simp) (by simp)
      exact ⟨by rw [(ready_false hready).1]; rfl, fun _ hform => nomatch hform⟩
  | _ => exact .same (by simp) (by simp) (by simp) trivial

theorem step_booked {l : Thread × Event} {w w' : World Thread Point (Shared Thread)}
    (hstep : step l w w') : Booked Thread w.shared.channel l.2 w'.shared.channel := by
  obtain ⟨hact⟩ := hstep
  exact act_booked hact

/-- What the history of a channel says about it. -/
structure Recorded (history : List (Thread × Event)) (chan : EZChannel) : Prop where
  values : received history ++ chan.q = accepted history
  closes : chan.closed = true ↔ ∃ t, (t, .closed) ∈ history

theorem recorded_of_run {history : List (Thread × Event)}
    {w : World Thread Point (Shared Thread)} (hrun : Run step initial history w) :
    Recorded history w.shared.channel := by
  apply Run.history (I := fun history w => Recorded history w.shared.channel) _ _ hrun
  · exact ⟨rfl, by simp [initial]⟩
  · intro history l s s' _ hrecorded hstep
    have hbooked := step_booked hstep
    constructor
    · calc received (history ++ [l]) ++ s'.shared.channel.q
          = received history ++ (received [l] ++ s'.shared.channel.q) := by
            rw [received_append, List.append_assoc]
        _ = received history ++ s.shared.channel.q ++ accepted [l] := by
            rw [hbooked.values l.1, List.append_assoc]
        _ = accepted (history ++ [l]) := by rw [hrecorded.values, accepted_append]
    · rw [hbooked.closes, hrecorded.closes]
      constructor
      · intro h
        obtain ⟨t, ht⟩ | hclosed := h
        · exact ⟨t, List.mem_append_left _ ht⟩
        · exact ⟨l.1, by rw [← hclosed]; simp⟩
      · intro h
        obtain ⟨t, ht⟩ := h
        obtain ht | ht := List.mem_append.mp ht
        · exact .inl ⟨t, ht⟩
        · exact .inr (by rw [← List.mem_singleton.mp ht])

theorem act_awake {e : Event} {t : Thread} {p p' : Point} {s s' : Shared Thread}
    (hact : act e t p s p' s') (hawake : s.channel.closed = true → s.cv = [])
    (hclosed : s'.channel.closed = true) : s'.cv = [] := by
  cases hact with
  | send hsend =>
      obtain ⟨hopen, hchannel⟩ := send_ok hsend
      simp [hchannel, hopen] at hclosed
  | close => rfl
  | notifyOne hu => simp [hawake hclosed] at hu
  | wait hready | waitFor _ hready | sleep hready =>
      simp [(ready_false hready).2] at hclosed
  | receive _ | tryReceive | receiveTimeout _ _ =>
      rw [(take_spec _).2.2] at hclosed
      exact hawake hclosed
  | wake _ =>
      rw [(take_spec _).2.2] at hclosed
      simp [hawake hclosed]
  | timeOut _ => simp [hawake hclosed]
  | _ => exact hawake hclosed

/-- A closed channel leaves nobody asleep. -/
theorem awake_of_closed {history : List (Thread × Event)}
    {w : World Thread Point (Shared Thread)} (hrun : Run step initial history w) :
    w.shared.channel.closed = true → w.shared.cv = [] := by
  apply Run.invariant (I := fun w => w.shared.channel.closed = true → w.shared.cv = []) _ _ hrun
  · intro _
    rfl
  · intro l s s' hawake hstep
    obtain ⟨hact⟩ := hstep
    exact act_awake hact hawake

/-- A thread that waits on a closed channel can go on, and takes the front of the queue. -/
theorem wakes_of_closed {w : World Thread Point (Shared Thread)} {t : Thread} {form : Form}
    (hclosed : w.shared.channel.closed = true) (hwaits : w.point t = .waiting form) :
    ∃ w', step (t, .received form w.shared.channel.q.head?) w w' := by
  have hready : w.shared.channel.ready = true := by
    rw [ready, hclosed, Bool.or_true]
  have hact := @act.wake _ _ t _ form hready
  rw [← hwaits, (take_spec w.shared.channel).1] at hact
  exact ⟨_, .mk hact⟩

/-- In every run, the values taken from a channel are the values sent, in order, less those still in its
queue. No send is accepted after a close. Every receiving operation takes the front of the queue, and
takes nothing only where the queue is empty, `receive` only where the channel is closed too. Once closed,
nobody sleeps and all who wait can take what is left. -/
theorem channel_fifo {history : List (Thread × Event)} {w : World Thread Point (Shared Thread)}
    (hrun : Run step initial history w) :
    received history ++ w.shared.channel.q = accepted history ∧
      (∀ before t after, history = before ++ (t, .closed) :: after → accepted after = []) ∧
      (∀ before t e after, history = before ++ (t, e) :: after →
        ∃ chan : EZChannel, received before ++ chan.q = accepted before ∧
          (chan.closed = true ↔ ∃ u, (u, .closed) ∈ before) ∧ e.Truthful chan) ∧
      (w.shared.channel.closed = true → w.shared.cv = [] ∧
        ∀ t form, w.point t = .waiting form →
          ∃ w', step (t, .received form w.shared.channel.q.head?) w w') := by
  have htruthful : ∀ before t e after, history = before ++ (t, e) :: after →
      ∃ chan : EZChannel, received before ++ chan.q = accepted before ∧
        (chan.closed = true ↔ ∃ u, (u, .closed) ∈ before) ∧ e.Truthful chan := by
    intro before t e after hhistory
    rw [hhistory] at hrun
    obtain ⟨s, s', hbefore, hstep, -⟩ := hrun.step_at
    have hrecorded := recorded_of_run hbefore
    exact ⟨s.shared.channel, hrecorded.values, hrecorded.closes, (step_booked hstep).truthful⟩
  refine ⟨(recorded_of_run hrun).values, ?_, htruthful, ?_⟩
  · intro before t after hhistory
    apply List.filterMap_eq_nil_iff.mpr
    intro l hl
    obtain ⟨u, e⟩ := l
    cases e with
    | sent value =>
        obtain ⟨middle, rest, hafter⟩ := List.append_of_mem hl
        obtain ⟨chan, -, hcloses, hopen⟩ :=
          htruthful (before ++ (t, .closed) :: middle) u (.sent value) rest (by
            rw [hhistory, hafter, List.append_assoc, List.cons_append])
        have hclosed := hcloses.mpr ⟨t, by simp⟩
        rw [Event.Truthful, hclosed] at hopen
        cases hopen
    | _ => rfl
  · intro hclosed
    exact ⟨awake_of_closed hrun hclosed, fun t form hwaits => wakes_of_closed hclosed hwaits⟩

/-- A receiver waits, is woken by a sender, and finds the channel closed the next time. -/
def handover : List (Bool × Event) :=
  [(false, .blocked .receive), (true, .sent (.int 5)), (true, .notified),
    (false, .received .receive (some (.int 5))), (true, .closed), (false, .received .receive none)]

theorem run_snoc {history : List (Thread × Event)} {w : World Thread Point (Shared Thread)}
    (hrun : Run step initial history w) (t : Thread) (e : Event) {p : Point} {s : Shared Thread}
    (hact : act e t (w.point t) w.shared p s) :
    Run step initial (history ++ [(t, e)]) ⟨Function.update w.point t p, s⟩ :=
  hrun.snoc (.mk hact)

theorem handover_run : ∃ w : World Bool Point (Shared Bool), Run step initial handover w := by
  have hblocked := run_snoc .nil false (.blocked .receive) (.wait rfl)
  have hsent := run_snoc hblocked true (.sent (.int 5)) (.send rfl)
  have hnotified := run_snoc hsent true .notified (.notifyOne (u := false) (.head _))
  have htaken := run_snoc hnotified false _ (@act.wake _ _ _ _ .receive rfl)
  have hclosed := run_snoc htaken true .closed .close
  have hempty := run_snoc hclosed false _ (act.receive rfl)
  exact ⟨_, hempty⟩

theorem handover_fifo :
    ∃ w : World Bool Point (Shared Bool),
      received handover ++ w.shared.channel.q = accepted handover := by
  obtain ⟨w, hrun⟩ := handover_run
  exact ⟨w, (channel_fifo hrun).1⟩

end EZChannel

end EZLanguage
