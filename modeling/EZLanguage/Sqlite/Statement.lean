import EZLanguage.Sqlite.Transaction
import EZLanguage.VM.Text
import Mathlib.Data.List.Forall2
import Mathlib.Data.List.Induction
import Mathlib.Data.List.Nodup
import Mathlib.Data.List.Perm.Subperm
import Mathlib.Logic.Function.Basic

/-!
# Prepared statements

A `Statement` owns a handle of SQLite's. Its methods refuse to work once the handle is finalized, and
`with_statement` finalizes it when the function it was given is through, one way or the other.
`exec_many` runs one statement with a list of parameter sets.
-/

namespace EZLanguage

namespace Sqlite

namespace Stmt

/-! ### SQLite -/

/-- A value that a parameter is given, as far as `bind_value` tells. -/
inductive Value where
  | nil
  | bool (b : Bool)
  | integer (n : Int)
  | float (bits : UInt64)
  | string (s : CString)
  | buffer (bytes : CString)
  | other (typeName : CString)
  deriving DecidableEq

inductive Bound where
  | null
  | int64 (n : Int)
  | double (bits : UInt64)
  | text (s : CString)
  | blob (bytes : CString)
  deriving DecidableEq

/-- A call with the handle. What only asks about the statement or its row is a query. -/
inductive Event where
  | bind (idx : Nat) (v : Bound)
  | step
  | reset
  | clearBindings
  | finalize
  | query
  deriving DecidableEq

/-- What the calls so far have made of a statement: whether it can be bound, what its parameters are bound
to, and what they were bound to at each step. -/
structure View where
  ready : Bool
  bound : Nat → Option Bound
  seen : List (Nat → Option Bound)

def View.start : View := ⟨true, fun _ => none, []⟩

def View.after (v : View) : Event → View
  | .bind idx x => if v.ready then { v with bound := Function.update v.bound idx (some x) } else v
  | .step => { v with ready := false, seen := v.seen ++ [v.bound] }
  | .reset => { v with ready := true }
  | .clearBindings => { v with bound := fun _ => none }
  | .finalize => v
  | .query => v

def view (log : List Event) : View := log.foldl View.after View.start

theorem view_append (log more : List Event) : view (log ++ more) = more.foldl View.after (view log) :=
  List.foldl_append

/-- The parameters of a statement, from the first on. Those with a name have it to themselves, its sigil
belongs to it. -/
structure Parameters where
  names : List (Option CString)
  distinct : (names.filterMap id).Nodup

/-- A column of the current row, or the tag of a type that SQLite does not have. -/
inductive Column where
  | value (v : Value)
  | unknown (tag : Nat)

/-- What SQLite answers after the calls so far. -/
structure Engine where
  parameters : Parameters
  rc : List Event → Nat
  row : List Event → List (CString × Column)
  changes : List Event → Nat
  errmsg : List Event → CString

/-! ### Methods -/

structure Prepared where
  log : List Event
  finalized : Bool

def fresh : Prepared := ⟨[], false⟩

structure Failure where
  code : Nat
  message : CString

def Call (α : Type) : Type := Prepared → Except Failure α × Prepared

instance : Monad Call where
  pure a := fun st => (.ok a, st)
  bind c next := fun st =>
    match c st with
    | (.ok a, st) => next a st
    | (.error e, st) => (.error e, st)

variable {α β : Type}

def raise (code : Nat) (message : CString) : Call α := fun st => (.error ⟨code, message⟩, st)

def issue (e : Event) : Call Unit := fun st => (.ok (), { st with log := st.log ++ [e] })

def ask (answer : List Event → α) : Call α := fun st => (.ok (answer st.log), st)

def rangeCode : Nat := 25
def misuseCode : Nat := 21
def mismatchCode : Nat := 20
def rowCode : Nat := 100
def doneCode : Nat := 101

/-- `_check_live`. -/
def checkLive : Call Unit := fun st =>
  if st.finalized then (.error ⟨misuseCode, lit "statement has been finalized"⟩, st) else (.ok (), st)

def bindValue (idx : Nat) : Value → Call Unit
  | .nil => issue (.bind idx .null)
  | .bool b => issue (.bind idx (.int64 (if b then 1 else 0)))
  | .integer n => issue (.bind idx (.int64 n))
  | .float bits => issue (.bind idx (.double bits))
  | .string s => issue (.bind idx (.text s))
  | .buffer bytes => issue (.bind idx (.blob bytes))
  | .other typeName =>
      raise mismatchCode (lit "cannot bind a value of type '" ++ typeName ++ lit "' to parameter " ++
        lit (toString (idx : Int)) ++ lit (" (bind nil, bool, integer, float, string or buffer; " ++
        "serialise anything else yourself, e.g. with to_json)"))

section Binding

variable (ps : Parameters)

/-- The number of a parameter, or 0 if there is none of this name. -/
def Parameters.index (nm : CString) : Nat :=
  if some nm ∈ ps.names then ps.names.idxOf (some nm) + 1 else 0

def bindParameterIndex (nm : CString) : Call Nat := do
  issue .query
  pure (ps.index nm)

/-- `when idx == 0`, one more name is tried. -/
def whenZero (idx : Nat) (nm : CString) : Call Nat :=
  if idx = 0 then bindParameterIndex ps nm else pure idx

/-- The number for a key of the dictionary, with the sigils it may leave away. -/
def keyIndex (k : CString) : Call Nat := do
  let idx ← bindParameterIndex ps k
  let idx ← whenZero ps idx (58 :: k)
  let idx ← whenZero ps idx (64 :: k)
  whenZero ps idx (36 :: k)

/-- The loop over the keys. -/
def bindKeys : List (CString × Value) → Call Unit
  | [] => pure ()
  | (k, v) :: rest => do
      let idx ← keyIndex ps k
      if idx = 0 then raise rangeCode (lit "no parameter named '" ++ k ++ lit "' in this statement")
      else do
        bindValue idx v
        bindKeys rest

/-- The loop over the parameters. -/
def checkGiven (keys : List CString) : List (Option CString) → Call Unit
  | [] => pure ()
  | none :: _ => do
      issue .query
      raise rangeCode (lit "statement mixes named and positional parameters; use one style")
  | some nm :: rest => do
      issue .query
      if nm ∉ keys ∧ nm.drop 1 ∉ keys then
        raise rangeCode (lit "missing value for parameter '" ++ nm ++ lit "'")
      else checkGiven keys rest

/-- The loop over an array, at index `i`. -/
def bindArray (i : Nat) : List Value → Call Unit
  | [] => pure ()
  | v :: rest => do
      bindValue (i + 1) v
      bindArray (i + 1) rest

inductive Params where
  | nil
  | array (values : List Value)
  | dictionary (entries : List (CString × Value))
  | single (v : Value)

def expectedCount (expected got : Nat) : CString :=
  lit "expected " ++ lit (toString (expected : Int)) ++ lit " parameter(s), got " ++
    lit (toString (got : Int))

def bindParams : Params → Call Unit
  | .nil => pure ()
  | .array values => do
      issue .query
      if values.length ≠ ps.names.length then
        raise rangeCode (expectedCount ps.names.length values.length)
      else bindArray 0 values
  | .dictionary entries => do
      bindKeys ps entries
      issue .query
      checkGiven (entries.map Prod.fst) ps.names
  | .single v => do
      issue .query
      if ps.names.length ≠ 1 then raise rangeCode (expectedCount ps.names.length 1)
      else bindValue 1 v

end Binding

section Methods

variable (engine : Engine)

def bind (params : Params) : Call Unit := do
  checkLive
  bindParams engine.parameters params

def next : Call Bool := do
  checkLive
  issue .step
  let rc ← ask engine.rc
  if rc = rowCode then pure true
  else if rc = doneCode then pure false
  else do
    issue .reset
    let message ← ask engine.errmsg
    raise rc message

def columnCount : Call Nat := do
  checkLive
  issue .query
  let row ← ask engine.row
  pure row.length

/-- `read_column`, with its calls taken as one. -/
def readColumn : Column → Call Value
  | .value v => do
      issue .query
      pure v
  | .unknown tag => do
      issue .query
      raise mismatchCode (lit "unknown SQLite column type tag: " ++ lit (toString (tag : Int)))

/-- The loop of `row_array`. -/
def readColumns : List (CString × Column) → Call (List Value)
  | [] => pure []
  | (_, column) :: rest => do
      let v ← readColumn column
      let vals ← readColumns rest
      pure (v :: vals)

def rowArray : Call (List Value) := do
  checkLive
  issue .query
  let row ← ask engine.row
  readColumns row

/-- The loop that looks for a key the row does not have. -/
def freeKey (keys : List CString) (name : CString) : Nat → Nat → CString → Option CString
  | 0, _, _ => none
  | fuel + 1, suffix, key =>
      if keys.contains key then
        freeKey keys name fuel (suffix + 1) (name ++ 58 :: lit (toString (suffix : Int)))
      else some key

/-- The loop of `row_dict`. -/
def readNamed (fuel : Nat) :
    List (CString × Column) → List (CString × Value) → Call (Option (List (CString × Value)))
  | [], row => pure (some row)
  | (name, column) :: rest, row => do
      issue .query
      match freeKey (row.map Prod.fst) name fuel 1 name with
      | none => pure none
      | some key => do
          let v ← readColumn column
          readNamed fuel rest (row ++ [(key, v)])

def rowDict (fuel : Nat) : Call (Option (List (CString × Value))) := do
  checkLive
  issue .query
  let row ← ask engine.row
  readNamed fuel row []

def reset (clearBindings : Bool) : Call Unit := do
  checkLive
  issue .reset
  if clearBindings then issue .clearBindings else pure ()

def finalize : Call Unit := fun st =>
  if st.finalized then (.ok (), st) else (.ok (), { log := st.log ++ [.finalize], finalized := true })

def isFinalized : Call Bool := fun st => (.ok st.finalized, st)

def withStatement (fn : Call α) : Call α := fun st =>
  match fn st with
  | (.error failure, st) => (.error failure, (finalize st).2)
  | (.ok result, st) => (.ok result, (finalize st).2)

/-- The loop of `exec_many`. -/
def execSets : List Params → Nat → Call Nat
  | [], total => pure total
  | p :: rest, total => do
      reset true
      bind engine p
      let _ ← next engine
      let changed ← ask engine.changes
      execSets rest (total + changed)

def execMany (sets : List Params) : Call Nat := withStatement (execSets engine sets 0)

end Methods

/-! ### What a computation calls -/

theorem bind_ok {c : Call α} {k : α → Call β} {st st' : Prepared} {a : α} (hc : c st = (.ok a, st')) :
    (c >>= k) st = k a st' := by
  simp only [Bind.bind, hc]

theorem bind_error {c : Call α} {k : α → Call β} {st st' : Prepared} {e : Failure}
    (hc : c st = (.error e, st')) : (c >>= k) st = (.error e, st') := by
  simp only [Bind.bind, hc]

/-- The computation makes the same calls whatever the state, and comes to the same end. -/
def Emits (c : Call α) (r : Except Failure α) (es : List Event) : Prop :=
  ∀ st, c st = (r, { st with log := st.log ++ es })

theorem emits_pure (a : α) : Emits (pure a) (.ok a) [] := fun st => by
  rw [List.append_nil]
  rfl

theorem emits_raise (code : Nat) (message : CString) :
    Emits (raise code message : Call α) (.error ⟨code, message⟩) [] := fun st => by
  rw [List.append_nil]
  rfl

theorem emits_issue (e : Event) : Emits (issue e) (.ok ()) [e] := fun _ => rfl

theorem Emits.bind {c : Call α} {k : α → Call β} {a : α} {r : Except Failure β} {es fs : List Event}
    (hc : Emits c (.ok a) es) (hk : Emits (k a) r fs) : Emits (c >>= k) r (es ++ fs) := fun st => by
  rw [bind_ok (hc st), hk, List.append_assoc]

theorem Emits.bind_error {c : Call α} {k : α → Call β} {e : Failure} {es : List Event}
    (hc : Emits c (.error e) es) : Emits (c >>= k) (.error e) es := fun st =>
  Stmt.bind_error (hc st)

/-- The calls that bind, in their order. -/
def bindings (es : List Event) : List (Nat × Bound) :=
  es.filterMap fun
    | .bind idx x => some (idx, x)
    | _ => none

theorem bindings_append (es fs : List Event) : bindings (es ++ fs) = bindings es ++ bindings fs :=
  List.filterMap_append

/-- Nothing but binding and questions. -/
def Binding (es : List Event) : Prop := ∀ e ∈ es, e = .query ∨ ∃ idx x, e = .bind idx x

theorem Binding.nil : Binding [] := fun _ h => absurd h List.not_mem_nil

theorem Binding.append {es fs : List Event} (hes : Binding es) (hfs : Binding fs) : Binding (es ++ fs) :=
  fun e he => (List.mem_append.mp he).elim (hes e) (hfs e)

theorem Binding.query : Binding [.query] := fun _ h => Or.inl (List.mem_singleton.mp h)

theorem Binding.bind (idx : Nat) (x : Bound) : Binding [.bind idx x] :=
  fun _ h => Or.inr ⟨idx, x, List.mem_singleton.mp h⟩

/-- The parameters once everything in the list was bound. -/
def assign (b : Nat → Option Bound) (assignments : List (Nat × Bound)) : Nat → Option Bound :=
  assignments.foldl (fun b p => Function.update b p.1 (some p.2)) b

theorem assign_apply (b : Nat → Option Bound) (assignments : List (Nat × Bound)) (j : Nat) :
    assign b assignments j =
      ((assignments.reverse.find? fun p => p.1 == j).map Prod.snd).or (b j) := by
  induction assignments using List.reverseRecOn with
  | nil => rfl
  | append_singleton front p ih =>
      rw [assign, List.foldl_append, List.foldl_cons, List.foldl_nil, List.reverse_append,
        List.reverse_singleton, List.singleton_append, List.find?_cons]
      by_cases hp : p.1 = j
      · rw [beq_iff_eq.mpr hp, hp, Function.update_self]
        rfl
      · rw [beq_eq_false_iff_ne.mpr hp, Function.update_of_ne (Ne.symm hp)]
        exact ih

theorem view_binding {es : List Event} (hes : Binding es) {v : View} (hready : v.ready = true) :
    es.foldl View.after v = { v with bound := assign v.bound (bindings es) } := by
  induction es generalizing v with
  | nil => rfl
  | cons e es ih =>
      have hrest : Binding es := fun e' he' => hes e' (List.mem_cons_of_mem _ he')
      rcases hes e List.mem_cons_self with rfl | ⟨idx, x, rfl⟩
      · exact ih hrest hready
      · have hbind : v.after (.bind idx x) = { v with bound := Function.update v.bound idx (some x) } :=
          if_pos hready
        have hstep := @ih hrest { v with bound := Function.update v.bound idx (some x) } hready
        rw [List.foldl_cons, hbind, hstep]
        rfl

/-! ### Parameter sets -/

/-- What a value is bound as, if it can be bound. -/
def Value.stored : Value → Option Bound
  | .nil => some .null
  | .bool b => some (.int64 (if b then 1 else 0))
  | .integer n => some (.int64 n)
  | .float bits => some (.double bits)
  | .string s => some (.text s)
  | .buffer bytes => some (.blob bytes)
  | .other _ => none

theorem bindValue_emits (idx : Nat) (v : Value) :
    (∃ x, v.stored = some x ∧ Emits (bindValue idx v) (.ok ()) [.bind idx x]) ∨
      v.stored = none ∧ ∃ e, Emits (bindValue idx v) (.error e) [] := by
  cases v with
  | other typeName => exact Or.inr ⟨rfl, _, emits_raise _ _⟩
  | _ => exact Or.inl ⟨_, rfl, emits_issue _⟩

variable (ps : Parameters)

/-- The names that a key is taken for, in the order they are tried in. -/
def candidates (k : CString) : List CString := [k, 58 :: k, 64 :: k, 36 :: k]

/-- The name of the parameter that a key is for. -/
def Parameters.find (k : CString) : Option CString := (candidates k).find? fun nm => some nm ∈ ps.names

/-- The number of the parameter that a key is for. -/
def Parameters.number (k : CString) : Nat := (ps.find k).elim 0 ps.index

theorem index_eq_zero_iff (nm : CString) : ps.index nm = 0 ↔ some nm ∉ ps.names := by
  unfold Parameters.index
  by_cases hmem : some nm ∈ ps.names
  · rw [if_pos hmem]
    exact iff_of_false (Nat.succ_ne_zero _) (fun h => h hmem)
  · rw [if_neg hmem]
    exact iff_of_true rfl hmem

theorem bindParameterIndex_emits (nm : CString) :
    Emits (bindParameterIndex ps nm) (.ok (ps.index nm)) [.query] :=
  (emits_issue .query).bind (emits_pure _)

theorem whenZero_emits (idx : Nat) (nm : CString) :
    ∃ es, Binding es ∧ bindings es = [] ∧
      Emits (whenZero ps idx nm) (.ok (if idx = 0 then ps.index nm else idx)) es := by
  unfold whenZero
  by_cases hidx : idx = 0
  · rw [if_pos hidx, if_pos hidx]
    exact ⟨_, .query, rfl, bindParameterIndex_emits ps nm⟩
  · rw [if_neg hidx, if_neg hidx]
    exact ⟨_, .nil, rfl, emits_pure idx⟩

theorem number_eq (k : CString) : ps.number k =
    let idx := ps.index k
    let idx := if idx = 0 then ps.index (58 :: k) else idx
    let idx := if idx = 0 then ps.index (64 :: k) else idx
    if idx = 0 then ps.index (36 :: k) else idx := by
  have hzero : ∀ nm, some nm ∉ ps.names → ps.index nm = 0 := fun nm => (index_eq_zero_iff ps nm).mpr
  have hpos : ∀ nm, some nm ∈ ps.names → ps.index nm ≠ 0 :=
    fun nm hmem h => (index_eq_zero_iff ps nm).mp h hmem
  by_cases h₀ : some k ∈ ps.names
  · simp [Parameters.number, Parameters.find, candidates, h₀, hpos k h₀]
  by_cases h₁ : some (58 :: k) ∈ ps.names
  · simp [Parameters.number, Parameters.find, candidates, h₀, h₁, hzero k h₀, hpos _ h₁]
  by_cases h₂ : some (64 :: k) ∈ ps.names
  · simp [Parameters.number, Parameters.find, candidates, h₀, h₁, h₂, hzero k h₀, hzero _ h₁, hpos _ h₂]
  by_cases h₃ : some (36 :: k) ∈ ps.names
  · simp [Parameters.number, Parameters.find, candidates, h₀, h₁, h₂, h₃, hzero k h₀, hzero _ h₁,
      hzero _ h₂]
  · simp [Parameters.number, Parameters.find, candidates, h₀, h₁, h₂, h₃, hzero k h₀, hzero _ h₁,
      hzero _ h₂, hzero _ h₃]

theorem keyIndex_emits (k : CString) :
    ∃ es, Binding es ∧ bindings es = [] ∧ Emits (keyIndex ps k) (.ok (ps.number k)) es := by
  obtain ⟨es₁, hb₁, hn₁, h₁⟩ := whenZero_emits ps (ps.index k) (58 :: k)
  obtain ⟨es₂, hb₂, hn₂, h₂⟩ := whenZero_emits ps _ (64 :: k)
  obtain ⟨es₃, hb₃, hn₃, h₃⟩ := whenZero_emits ps _ (36 :: k)
  refine ⟨[.query] ++ (es₁ ++ (es₂ ++ es₃)), Binding.query.append (hb₁.append (hb₂.append hb₃)), ?_, ?_⟩
  · rw [bindings_append, bindings_append, bindings_append, hn₁, hn₂, hn₃]
    rfl
  · rw [number_eq]
    exact (bindParameterIndex_emits ps k).bind (h₁.bind (h₂.bind h₃))

theorem number_eq_zero_iff (k : CString) : ps.number k = 0 ↔ ps.find k = none := by
  unfold Parameters.number
  cases hfind : ps.find k with
  | none => exact iff_of_true rfl rfl
  | some nm =>
      have hmem := List.find?_some hfind
      rw [decide_eq_true_eq] at hmem
      refine iff_of_false (fun h => ?_) (Option.some_ne_none nm)
      exact (index_eq_zero_iff ps nm).mp h hmem

/-- What is bound for an entry of the dictionary. -/
def assignment (entry : CString × Value) : Option (Nat × Bound) :=
  entry.2.stored.map fun x => (ps.number entry.1, x)

/-- The entry is for a parameter and can be bound. -/
def Fits (entry : CString × Value) : Prop := ps.find entry.1 ≠ none ∧ entry.2.stored ≠ none

instance (entry : CString × Value) : Decidable (Fits ps entry) :=
  inferInstanceAs (Decidable (_ ∧ _))

theorem not_ok (e : Failure) : ¬ ∃ u, (.error e : Except Failure Unit) = .ok u := fun ⟨_, h⟩ => by cases h

theorem bindKeys_emits (entries : List (CString × Value)) :
    ∃ r es, Binding es ∧ Emits (bindKeys ps entries) r es ∧ ((∃ u, r = .ok u) ↔ ∀ e ∈ entries, Fits ps e) ∧
      ((∃ u, r = .ok u) → bindings es = entries.filterMap (assignment ps)) := by
  induction entries with
  | nil =>
      exact ⟨_, _, .nil, emits_pure (), iff_of_true ⟨_, rfl⟩ (fun _ h => absurd h List.not_mem_nil),
        fun _ => rfl⟩
  | cons entry rest ih =>
      obtain ⟨k, v⟩ := entry
      obtain ⟨esKey, hbKey, hnKey, hKey⟩ := keyIndex_emits ps k
      by_cases hzero : ps.number k = 0
      · refine ⟨.error ⟨rangeCode, lit "no parameter named '" ++ k ++ lit "' in this statement"⟩, esKey ++ [],
          hbKey.append .nil, hKey.bind ?_, ?_, ?_⟩
        · rw [if_pos hzero]
          exact emits_raise _ _
        · refine iff_of_false (not_ok _) (fun hall => ?_)
          exact (hall _ List.mem_cons_self).1 ((number_eq_zero_iff ps k).mp hzero)
        · exact fun h => absurd h (not_ok _)
      · have hfind : ps.find k ≠ none := fun h => hzero ((number_eq_zero_iff ps k).mpr h)
        rcases bindValue_emits (ps.number k) v with ⟨x, hx, hValue⟩ | ⟨hx, e, hValue⟩
        · obtain ⟨r, es, hb, hRest, hok, hbind⟩ := ih
          refine ⟨r, esKey ++ ([.bind (ps.number k) x] ++ es), hbKey.append ((Binding.bind _ _).append hb),
            hKey.bind ?_, ?_, ?_⟩
          · rw [if_neg hzero]
            exact hValue.bind hRest
          · rw [hok, List.forall_mem_cons]
            exact ⟨fun h => ⟨⟨hfind, by rw [hx]; exact Option.some_ne_none x⟩, h⟩, fun h => h.2⟩
          · intro hr
            have hentry : assignment ps (k, v) = some (ps.number k, x) := by
              rw [assignment, hx]
              rfl
            rw [bindings_append, bindings_append, hnKey, hbind hr, List.filterMap_cons_some hentry]
            rfl
        · refine ⟨.error e, esKey ++ [], hbKey.append .nil, hKey.bind ?_, ?_, ?_⟩
          · rw [if_neg hzero]
            exact hValue.bind_error
          · refine iff_of_false (not_ok _) (fun hall => ?_)
            exact (hall _ List.mem_cons_self).2 hx
          · exact fun h => absurd h (not_ok _)

/-- The parameter has a name, and a key stands for it. -/
def Given (keys : List CString) (o : Option CString) : Prop :=
  ∃ nm, o = some nm ∧ (nm ∈ keys ∨ nm.drop 1 ∈ keys)

theorem checkGiven_emits (keys : List CString) (names : List (Option CString)) :
    ∃ r es, Binding es ∧ bindings es = [] ∧ Emits (checkGiven keys names) r es ∧
      ((∃ u, r = .ok u) ↔ ∀ o ∈ names, Given keys o) := by
  induction names with
  | nil =>
      exact ⟨_, _, .nil, rfl, emits_pure (), iff_of_true ⟨_, rfl⟩ (fun _ h => absurd h List.not_mem_nil)⟩
  | cons o rest ih =>
      cases o with
      | none =>
          refine ⟨_, _, Binding.query.append .nil, rfl, (emits_issue .query).bind (emits_raise _ _), ?_⟩
          refine iff_of_false (not_ok _) (fun hall => ?_)
          obtain ⟨nm, hnm, _⟩ := hall none List.mem_cons_self
          cases hnm
      | some nm =>
          by_cases hmissing : nm ∉ keys ∧ nm.drop 1 ∉ keys
          · refine ⟨.error ⟨rangeCode, lit "missing value for parameter '" ++ nm ++ lit "'"⟩, [.query] ++ [],
              Binding.query.append .nil, rfl, (emits_issue .query).bind ?_, ?_⟩
            · rw [if_pos hmissing]
              exact emits_raise _ _
            · refine iff_of_false (not_ok _) (fun hall => ?_)
              obtain ⟨nm', hnm, hkey⟩ := hall _ List.mem_cons_self
              obtain rfl := Option.some_inj.mp hnm
              exact hkey.elim hmissing.1 hmissing.2
          · obtain ⟨r, es, hb, hn, hRest, hok⟩ := ih
            refine ⟨r, [.query] ++ es, Binding.query.append hb, ?_, (emits_issue .query).bind ?_, ?_⟩
            · rw [bindings_append, hn]
              rfl
            · rw [if_neg hmissing]
              exact hRest
            · rw [hok, List.forall_mem_cons]
              refine ⟨fun h => ⟨⟨nm, rfl, ?_⟩, h⟩, fun h => h.2⟩
              by_contra hnot
              exact hmissing (not_or.mp hnot)

theorem bindArray_emits (i : Nat) (values : List Value) :
    ∃ r es, Binding es ∧ Emits (bindArray i values) r es := by
  induction values generalizing i with
  | nil => exact ⟨_, _, .nil, emits_pure ()⟩
  | cons v rest ih =>
      rcases bindValue_emits (i + 1) v with ⟨x, _, hValue⟩ | ⟨_, e, hValue⟩
      · obtain ⟨r, es, hb, hRest⟩ := ih (i + 1)
        exact ⟨r, _, (Binding.bind _ _).append hb, hValue.bind hRest⟩
      · exact ⟨_, _, .nil, hValue.bind_error⟩

theorem bindDictionary_emits (entries : List (CString × Value)) :
    ∃ r es, Binding es ∧ Emits (bindParams ps (.dictionary entries)) r es ∧
      ((∃ u, r = .ok u) ↔
        (∀ e ∈ entries, Fits ps e) ∧ ∀ o ∈ ps.names, Given (entries.map Prod.fst) o) ∧
      ((∃ u, r = .ok u) → bindings es = entries.filterMap (assignment ps)) := by
  obtain ⟨r, es, hb, hKeys, hok, hbind⟩ := bindKeys_emits ps entries
  cases r with
  | error e =>
      refine ⟨.error e, es, hb, hKeys.bind_error, ?_, fun h => absurd h (not_ok _)⟩
      exact iff_of_false (not_ok _) (fun h => not_ok e (hok.mpr h.1))
  | ok u =>
      obtain ⟨r', fs, hb', hn', hGiven, hok'⟩ := checkGiven_emits (entries.map Prod.fst) ps.names
      refine ⟨r', es ++ ([.query] ++ fs), hb.append (Binding.query.append hb'),
        hKeys.bind ((emits_issue .query).bind hGiven), ?_, fun _ => ?_⟩
      · rw [hok']
        exact ⟨fun h => ⟨hok.mp ⟨u, rfl⟩, h⟩, fun h => h.2⟩
      · rw [bindings_append, bindings_append, hn', hbind ⟨u, rfl⟩]
        exact List.append_nil _

/-- A question, and a failure or the rest behind it. -/
theorem asked_emits {bad : Prop} [Decidable bad] (code : Nat) (message : CString) {c : Call Unit}
    (hc : ∃ r es, Binding es ∧ Emits c r es) : ∃ r es, Binding es ∧
      Emits (issue .query >>= fun _ => if bad then raise code message else c) r es := by
  obtain ⟨r, es, hb, hEmits⟩ := hc
  by_cases hbad : bad
  · refine ⟨.error ⟨code, message⟩, _, Binding.query.append .nil, (emits_issue .query).bind ?_⟩
    rw [if_pos hbad]
    exact emits_raise _ _
  · refine ⟨r, _, Binding.query.append hb, (emits_issue .query).bind ?_⟩
    rw [if_neg hbad]
    exact hEmits

theorem bindParams_emits (params : Params) : ∃ r es, Binding es ∧ Emits (bindParams ps params) r es := by
  cases params with
  | nil => exact ⟨_, _, .nil, emits_pure ()⟩
  | array values => exact asked_emits _ _ (bindArray_emits 0 values)
  | dictionary entries =>
      obtain ⟨r, es, hb, hDictionary, _⟩ := bindDictionary_emits ps entries
      exact ⟨r, es, hb, hDictionary⟩
  | single v =>
      refine asked_emits _ _ ?_
      rcases bindValue_emits 1 v with ⟨x, _, hValue⟩ | ⟨_, e, hValue⟩
      · exact ⟨_, _, .bind 1 x, hValue⟩
      · exact ⟨_, _, .nil, hValue⟩

/-- What a parameter set alone binds the parameters to, or why it cannot be bound. -/
def boundBy (params : Params) : Except Failure (Nat → Option Bound) :=
  (bindParams ps params fresh).1.map fun _ => (view (bindParams ps params fresh).2.log).bound

theorem boundBy_eq {params : Params} {r : Except Failure Unit} {es : List Event} (hes : Binding es)
    (hparams : Emits (bindParams ps params) r es) :
    boundBy ps params = r.map fun _ => assign (fun _ => none) (bindings es) := by
  have hview : view ([] ++ es) = { View.start with bound := assign (fun _ => none) (bindings es) } :=
    view_binding hes rfl
  rw [boundBy, hparams fresh]
  show r.map (fun _ => (view ([] ++ es)).bound) = _
  rw [hview]

/-! ### Dictionaries -/

theorem find_of_name {nm : CString} (hnm : some nm ∈ ps.names) : ps.find nm = some nm := by
  unfold Parameters.find candidates
  rw [List.find?_cons_of_pos (by simpa using hnm)]

theorem find_some {k nm : CString} (hk : ps.find k = some nm) :
    some nm ∈ ps.names ∧ (k = nm ∨ k = nm.drop 1) := by
  have hmem := List.find?_some hk
  rw [decide_eq_true_eq] at hmem
  refine ⟨hmem, ?_⟩
  have hcandidate := List.mem_of_find?_eq_some hk
  simp only [candidates, List.mem_cons, List.not_mem_nil, or_false] at hcandidate
  rcases hcandidate with rfl | rfl | rfl | rfl
  · exact Or.inl rfl
  all_goals exact Or.inr rfl

theorem idxOf_distinct {names : List (Option CString)} (hdistinct : (names.filterMap id).Nodup) {i : Nat}
    {nm : CString} (hi : names[i]? = some (some nm)) : names.idxOf (some nm) = i := by
  induction names generalizing i with
  | nil => cases hi
  | cons o rest ih =>
      cases i with
      | zero =>
          obtain rfl := Option.some_inj.mp hi
          exact List.idxOf_cons_self
      | succ i =>
          have hmem : nm ∈ rest.filterMap id := by
            rw [List.mem_filterMap]
            exact ⟨some nm, List.mem_of_getElem? hi, rfl⟩
          cases o with
          | none => rw [List.idxOf_cons_ne _ (by simp), ih hdistinct hi]
          | some first =>
              obtain ⟨hfirst, hrest⟩ := List.nodup_cons.mp hdistinct
              have hne : some first ≠ some nm := fun h => hfirst (Option.some_inj.mp h ▸ hmem)
              rw [List.idxOf_cons_ne _ hne, ih hrest hi]

theorem number_eq_succ_iff {k : CString} {i : Nat} {nm : CString} (hi : ps.names[i]? = some (some nm)) :
    ps.number k = i + 1 ↔ ps.find k = some nm := by
  have hindex : ∀ nm', some nm' ∈ ps.names → (ps.index nm' = i + 1 ↔ nm' = nm) := by
    intro nm' hmem
    rw [Parameters.index, if_pos hmem, Nat.succ_inj]
    constructor
    · intro hidx
      have hget := List.getElem?_idxOf hmem
      rw [hidx, hi] at hget
      exact (Option.some_inj.mp (Option.some_inj.mp hget)).symm
    · rintro rfl
      exact idxOf_distinct ps.distinct hi
  unfold Parameters.number
  cases hfind : ps.find k with
  | none => exact iff_of_false (Nat.succ_ne_zero i).symm (Option.some_ne_none nm).symm
  | some nm' =>
      rw [Option.some_inj]
      exact hindex nm' (find_some ps hfind).1

theorem find_assignment {entries : List (CString × Value)} (hfits : ∀ e ∈ entries, Fits ps e) {i : Nat}
    {nm : CString} (hi : ps.names[i]? = some (some nm)) :
    ((entries.filterMap (assignment ps)).find? fun p => p.1 == i + 1).map Prod.snd =
      (entries.find? fun e => ps.find e.1 = some nm).bind fun e => e.2.stored := by
  induction entries with
  | nil => rfl
  | cons entry rest ih =>
      obtain ⟨hentry, hrest⟩ := List.forall_mem_cons.mp hfits
      obtain ⟨x, hx⟩ := Option.ne_none_iff_exists'.mp hentry.2
      have hassign : assignment ps entry = some (ps.number entry.1, x) := by
        rw [assignment, hx]
        rfl
      rw [List.filterMap_cons_some hassign]
      by_cases hnumber : ps.number entry.1 = i + 1
      · have hfind := (number_eq_succ_iff ps hi).mp hnumber
        rw [List.find?_cons_of_pos (by simpa using hnumber), List.find?_cons_of_pos (by simpa using hfind)]
        exact hx.symm
      · have hfind := fun h => hnumber ((number_eq_succ_iff ps hi).mpr h)
        rw [List.find?_cons_of_neg (by simpa using hnumber), List.find?_cons_of_neg (by simpa using hfind)]
        exact ih hrest

/-- A dictionary can be bound when its entries fit and every parameter is given, and then each parameter
gets the value of the last entry for it. -/
theorem boundBy_dictionary (entries : List (CString × Value)) :
    ((∃ b, boundBy ps (.dictionary entries) = .ok b) ↔
      (∀ e ∈ entries, Fits ps e) ∧ ∀ o ∈ ps.names, Given (entries.map Prod.fst) o) ∧
    ∀ b, boundBy ps (.dictionary entries) = .ok b → ∀ i nm, ps.names[i]? = some (some nm) →
      b (i + 1) = (entries.reverse.find? fun e => ps.find e.1 = some nm).bind fun e => e.2.stored := by
  obtain ⟨r, es, hes, hemits, hok, hbind⟩ := bindDictionary_emits ps entries
  have heq := boundBy_eq ps hes hemits
  cases r with
  | error e =>
      rw [heq]
      refine ⟨iff_of_false (fun ⟨b, hb⟩ => by cases hb) (fun h => ?_), fun b hb => by cases hb⟩
      obtain ⟨u, hu⟩ := hok.mpr h
      cases hu
  | ok u =>
      have hall := hok.mp ⟨u, rfl⟩
      rw [heq]
      refine ⟨iff_of_true ⟨_, rfl⟩ hall, fun b hb i nm hi => ?_⟩
      obtain rfl := Except.ok.inj hb
      have hreverse : ∀ e ∈ entries.reverse, Fits ps e := fun e he => hall.1 e (List.mem_reverse.mp he)
      show assign (fun _ => none) (bindings es) (i + 1) = _
      rw [assign_apply, hbind ⟨u, rfl⟩, ← List.filterMap_reverse, find_assignment ps hreverse hi,
        Option.or_none]

/-- A parameter goes without a value exactly when its own name is no key and another parameter is found for
the name without the sigil. -/
theorem unbound_iff {entries : List (CString × Value)} {b : Nat → Option Bound}
    (hb : boundBy ps (.dictionary entries) = .ok b) {i : Nat} {nm : CString}
    (hi : ps.names[i]? = some (some nm)) :
    b (i + 1) = none ↔ nm ∉ entries.map Prod.fst ∧ ps.find (nm.drop 1) ≠ some nm := by
  obtain ⟨hok, hslot⟩ := boundBy_dictionary ps entries
  obtain ⟨hfits, hgiven⟩ := hok.mp ⟨b, hb⟩
  have hmem : some nm ∈ ps.names := List.mem_of_getElem? hi
  rw [hslot b hb i nm hi]
  constructor
  · intro hnone
    have hfind : ∀ e ∈ entries, ps.find e.1 ≠ some nm := by
      intro e he hfor
      cases hfirst : entries.reverse.find? fun e => ps.find e.1 = some nm with
      | none =>
          have hno := List.find?_eq_none.mp hfirst e (List.mem_reverse.mpr he)
          exact hno (by simpa using hfor)
      | some e' =>
          rw [hfirst] at hnone
          exact (hfits e' (List.mem_reverse.mp (List.mem_of_find?_eq_some hfirst))).2 hnone
    have hown : nm ∉ entries.map Prod.fst := by
      intro hkey
      obtain ⟨e, he, rfl⟩ := List.mem_map.mp hkey
      exact hfind e he (find_of_name ps hmem)
    refine ⟨hown, fun hbare => ?_⟩
    obtain ⟨nm', hnm, hkey⟩ := hgiven _ hmem
    obtain rfl := Option.some_inj.mp hnm
    obtain ⟨e, he, hdrop⟩ := List.mem_map.mp (hkey.resolve_left hown)
    exact hfind e he (hdrop ▸ hbare)
  · rintro ⟨hown, hbare⟩
    have hfirst : (entries.reverse.find? fun e => ps.find e.1 = some nm) = none := by
      rw [List.find?_eq_none]
      intro e he hfor
      rw [decide_eq_true_eq] at hfor
      have hkey : e.1 ∈ entries.map Prod.fst := List.mem_map_of_mem (List.mem_reverse.mp he)
      rcases (find_some ps hfor).2 with h | h
      · exact hown (h ▸ hkey)
      · exact hbare (h ▸ hfor)
    rw [hfirst]
    rfl

/-- A dictionary gives every parameter a value exactly when each entry fits, and each parameter has its own
name for a key, or is the one that is found for its name without the sigil. -/
theorem dictionary_binds_all_iff (entries : List (CString × Value)) :
    (∃ b, boundBy ps (.dictionary entries) = .ok b ∧ ∀ i < ps.names.length, b (i + 1) ≠ none) ↔
      (∀ e ∈ entries, ps.find e.1 ≠ none ∧ e.2.stored ≠ none) ∧
        ∀ o ∈ ps.names, ∃ nm, o = some nm ∧ (nm ∈ entries.map Prod.fst ∨
          nm.drop 1 ∈ entries.map Prod.fst ∧ ps.find (nm.drop 1) = some nm) := by
  have hok := (boundBy_dictionary ps entries).1
  constructor
  · rintro ⟨b, hb, hall⟩
    obtain ⟨hfits, hgiven⟩ := hok.mp ⟨b, hb⟩
    refine ⟨hfits, fun o ho => ?_⟩
    obtain ⟨nm, rfl, hkey⟩ := hgiven o ho
    obtain ⟨i, hlt, hi⟩ := List.getElem_of_mem ho
    have hslot := hall i hlt
    rw [Ne, unbound_iff ps hb (List.getElem?_eq_some_iff.mpr ⟨hlt, hi⟩), not_and_or, not_not, not_not] at hslot
    by_cases hown : nm ∈ entries.map Prod.fst
    · exact ⟨nm, rfl, Or.inl hown⟩
    · exact ⟨nm, rfl, Or.inr ⟨hkey.resolve_left hown, hslot.resolve_left hown⟩⟩
  · rintro ⟨hfits, hgiven⟩
    obtain ⟨b, hb⟩ := hok.mpr ⟨hfits, fun o ho => by
      obtain ⟨nm, rfl, hkey⟩ := hgiven o ho
      exact ⟨nm, rfl, hkey.imp_right And.left⟩⟩
    refine ⟨b, hb, fun i hlt hnone => ?_⟩
    obtain ⟨nm, hnm, hkey⟩ := hgiven _ (List.getElem_mem hlt)
    rw [unbound_iff ps hb (List.getElem?_eq_some_iff.mpr ⟨hlt, hnm⟩)] at hnone
    exact hkey.elim hnone.1 fun h => hnone.2 h.2

/-! ### The handle -/

/-- The handle is there, or it was finalized by the last call. -/
def Live (st : Prepared) : Prop := st.finalized = false ∧ .finalize ∉ st.log

def Dead (st : Prepared) : Prop :=
  st.finalized = true ∧ ∃ calls, st.log = calls ++ [.finalize] ∧ .finalize ∉ calls

def Sound (st : Prepared) : Prop := Live st ∨ Dead st

theorem live_fresh : Live fresh := ⟨rfl, List.not_mem_nil⟩

theorem Live.append {st : Prepared} (hst : Live st) {es : List Event} (hes : .finalize ∉ es) :
    Live { st with log := st.log ++ es } :=
  ⟨hst.1, fun hmem => (List.mem_append.mp hmem).elim hst.2 hes⟩

/-- The computation keeps a property of the statement. -/
def Keeps (P : Prepared → Prop) (c : Call α) : Prop := ∀ st, P st → P (c st).2

/-- The computation leaves a handle alone that is there. -/
abbrev KeepsLive (c : Call α) : Prop := Keeps Live c

/-- The computation makes no call once the handle is finalized. -/
abbrev KeepsSound (c : Call α) : Prop := Keeps Sound c

theorem keeps_of_state {P : Prepared → Prop} {c : Call α} (hc : ∀ st, (c st).2 = st) : Keeps P c :=
  fun st hst => by
    rw [hc]
    exact hst

theorem Keeps.bind {P : Prepared → Prop} {c : Call α} {k : α → Call β} (hc : Keeps P c)
    (hk : ∀ a, Keeps P (k a)) : Keeps P (c >>= k) := by
  intro st hst
  have hfirst := hc st hst
  cases hrun : c st with
  | mk r st' =>
      rw [hrun] at hfirst
      cases r with
      | ok a => rw [bind_ok hrun]; exact hk a st' hfirst
      | error e => rw [Stmt.bind_error hrun]; exact hfirst

theorem keepsLive_issue {e : Event} (he : e ≠ .finalize) : KeepsLive (issue e) :=
  fun _ hst => hst.append fun hmem => he (List.mem_singleton.mp hmem).symm

theorem keepsLive_asked {e : Event} (he : e ≠ .finalize) {answer : List Event → α} {k : α → Call β}
    (hk : ∀ a, KeepsLive (k a)) : KeepsLive (issue e >>= fun _ => ask answer >>= k) :=
  (keepsLive_issue he).bind fun _ => (keeps_of_state fun _ => rfl).bind hk

/-- What asks for the handle first may do anything but finalize it. -/
theorem keepsSound_guarded {k : Unit → Call β} (hk : KeepsLive (k ())) : KeepsSound (checkLive >>= k) := by
  intro st hst
  rcases hst with hlive | hdead
  · have hcheck : checkLive st = (.ok (), st) := if_neg (by rw [hlive.1]; exact Bool.false_ne_true)
    rw [bind_ok hcheck]
    exact Or.inl (hk st hlive)
  · have hcheck : checkLive st = (.error ⟨misuseCode, lit "statement has been finalized"⟩, st) :=
      if_pos hdead.1
    rw [Stmt.bind_error hcheck]
    exact Or.inr hdead

theorem keepsLive_emits {c : Call α} {r : Except Failure α} {es : List Event} (hes : Binding es)
    (hc : Emits c r es) : KeepsLive c := by
  intro st hst
  rw [hc st]
  refine hst.append fun hmem => ?_
  rcases hes _ hmem with h | ⟨_, _, h⟩ <;> cases h

theorem keepsSound_bind (engine : Engine) (params : Params) : KeepsSound (bind engine params) := by
  obtain ⟨r, es, hes, hemits⟩ := bindParams_emits engine.parameters params
  exact keepsSound_guarded (keepsLive_emits hes hemits)

theorem keepsSound_next (engine : Engine) : KeepsSound (next engine) := by
  refine keepsSound_guarded (keepsLive_asked (by decide) fun rc => ?_)
  split_ifs
  · exact keeps_of_state fun _ => rfl
  · exact keeps_of_state fun _ => rfl
  · exact keepsLive_asked (by decide) fun _ => keeps_of_state fun _ => rfl

theorem keepsLive_readColumn (column : Column) : KeepsLive (readColumn column) := by
  cases column with
  | value v => exact (keepsLive_issue (by decide)).bind fun _ => keeps_of_state fun _ => rfl
  | unknown tag => exact (keepsLive_issue (by decide)).bind fun _ => keeps_of_state fun _ => rfl

theorem keepsLive_readColumns (row : List (CString × Column)) : KeepsLive (readColumns row) := by
  induction row with
  | nil => exact keeps_of_state fun _ => rfl
  | cons entry rest ih =>
      exact (keepsLive_readColumn entry.2).bind fun _ => ih.bind fun _ => keeps_of_state fun _ => rfl

theorem keepsLive_readNamed (fuel : Nat) (columns : List (CString × Column)) (row : List (CString × Value)) :
    KeepsLive (readNamed fuel columns row) := by
  induction columns generalizing row with
  | nil => exact keeps_of_state fun _ => rfl
  | cons entry rest ih =>
      refine (keepsLive_issue (by decide)).bind fun _ => ?_
      cases freeKey (row.map Prod.fst) entry.1 fuel 1 entry.1 with
      | none => exact keeps_of_state fun _ => rfl
      | some key => exact (keepsLive_readColumn entry.2).bind fun _ => ih _

theorem keepsSound_columnCount (engine : Engine) : KeepsSound (columnCount engine) :=
  keepsSound_guarded (keepsLive_asked (by decide) fun _ => keeps_of_state fun _ => rfl)

theorem keepsSound_rowArray (engine : Engine) : KeepsSound (rowArray engine) :=
  keepsSound_guarded (keepsLive_asked (by decide) fun row => keepsLive_readColumns row)

theorem keepsSound_rowDict (engine : Engine) (fuel : Nat) : KeepsSound (rowDict engine fuel) :=
  keepsSound_guarded (keepsLive_asked (by decide) fun row => keepsLive_readNamed fuel row [])

theorem keepsSound_reset (clearBindings : Bool) : KeepsSound (reset clearBindings) := by
  refine keepsSound_guarded ((keepsLive_issue (by decide)).bind fun _ => ?_)
  split_ifs
  · exact keepsLive_issue (by decide)
  · exact keeps_of_state fun _ => rfl

theorem dead_finalize {st : Prepared} (hst : Sound st) : Dead (finalize st).2 := by
  rcases hst with hlive | hdead
  · have hrun : finalize st = (.ok (), { log := st.log ++ [.finalize], finalized := true }) :=
      if_neg (by rw [hlive.1]; exact Bool.false_ne_true)
    rw [hrun]
    exact ⟨rfl, st.log, rfl, hlive.2⟩
  · have hrun : finalize st = (.ok (), st) := if_pos hdead.1
    rw [hrun]
    exact hdead

theorem keepsSound_finalize : KeepsSound finalize := fun _ hst => Or.inr (dead_finalize hst)

theorem dead_withStatement {fn : Call α} (hfn : KeepsSound fn) {st : Prepared} (hst : Sound st) :
    Dead (withStatement fn st).2 := by
  have hrun := hfn st hst
  unfold withStatement
  cases heq : fn st with
  | mk r st' =>
      rw [heq] at hrun
      cases r with
      | ok a => exact dead_finalize hrun
      | error e => exact dead_finalize hrun

/-! ### Functions for `with_statement` -/

/-- A method of the statement. -/
inductive Method where
  | bind (params : Params)
  | next
  | columnCount
  | rowArray
  | rowDict (fuel : Nat)
  | reset (clearBindings : Bool)
  | finalize
  | isFinalized

inductive Reply where
  | done
  | bool (b : Bool)
  | count (n : Nat)
  | values (vals : List Value)
  | row (row : Option (List (CString × Value)))

def Method.call (engine : Engine) : Method → Call Reply
  | .bind params => do
      Stmt.bind engine params
      pure .done
  | .next => do
      let more ← Stmt.next engine
      pure (.bool more)
  | .columnCount => do
      let n ← Stmt.columnCount engine
      pure (.count n)
  | .rowArray => do
      let vals ← Stmt.rowArray engine
      pure (.values vals)
  | .rowDict fuel => do
      let row ← Stmt.rowDict engine fuel
      pure (.row row)
  | .reset clearBindings => do
      Stmt.reset clearBindings
      pure .done
  | .finalize => do
      Stmt.finalize
      pure .done
  | .isFinalized => do
      let b ← Stmt.isFinalized
      pure (.bool b)

/-- A function that calls methods of its statement. It goes on with what each of them returned or threw. -/
inductive Function (α : Type) where
  | give (a : α)
  | throw (e : Failure)
  | call (method : Method) (next : Except Failure Reply → Function α)

def Function.run (engine : Engine) : Function α → Call α
  | .give a => fun st => (.ok a, st)
  | .throw e => fun st => (.error e, st)
  | .call method next => fun st => (next (method.call engine st).1).run engine (method.call engine st).2

theorem keepsSound_method (engine : Engine) (method : Method) : KeepsSound (method.call engine) := by
  have hpure : ∀ {γ : Type} (f : γ → Reply) (a : γ), KeepsSound (pure (f a) : Call Reply) :=
    fun _ _ => keeps_of_state fun _ => rfl
  cases method with
  | bind params => exact (keepsSound_bind engine params).bind (hpure fun _ => .done)
  | next => exact (keepsSound_next engine).bind (hpure .bool)
  | columnCount => exact (keepsSound_columnCount engine).bind (hpure .count)
  | rowArray => exact (keepsSound_rowArray engine).bind (hpure .values)
  | rowDict fuel => exact (keepsSound_rowDict engine fuel).bind (hpure .row)
  | reset clearBindings => exact (keepsSound_reset clearBindings).bind (hpure fun _ => .done)
  | finalize => exact keepsSound_finalize.bind (hpure fun _ => .done)
  | isFinalized => exact (keeps_of_state fun _ => rfl).bind (hpure .bool)

theorem keepsSound_run (engine : Engine) (fn : Function α) : KeepsSound (fn.run engine) := by
  induction fn with
  | give a => exact keeps_of_state fun _ => rfl
  | throw e => exact keeps_of_state fun _ => rfl
  | call method next ih => exact fun st hst => ih _ _ (keepsSound_method engine method st hst)

/-- Whatever a function does with its statement and however it ends, the handle is finalized once, and no
call is made with it after that. -/
theorem withStatement_finalizes_once (engine : Engine) (fn : Function α) :
    ∃ calls, (withStatement (fn.run engine) fresh).2.log = calls ++ [.finalize] ∧ .finalize ∉ calls :=
  (dead_withStatement (keepsSound_run engine fn) (Or.inl live_fresh)).2

/-! ### Many parameter sets -/

section Many

variable (engine : Engine)

theorem keepsSound_execSets (sets : List Params) (total : Nat) : KeepsSound (execSets engine sets total) := by
  induction sets generalizing total with
  | nil => exact keeps_of_state fun _ => rfl
  | cons p rest ih =>
      exact (keepsSound_reset true).bind fun _ => (keepsSound_bind engine p).bind fun _ =>
        (keepsSound_next engine).bind fun _ => (keeps_of_state fun _ => rfl).bind fun _ => ih _

theorem checkLive_live {st : Prepared} (hst : Live st) (k : Unit → Call β) :
    (checkLive >>= k) st = k () st :=
  bind_ok (if_neg (by rw [hst.1]; exact Bool.false_ne_true))

theorem reset_live {st : Prepared} (hst : Live st) :
    reset true st = (.ok (), { st with log := st.log ++ [.reset, .clearBindings] }) := by
  rw [reset, checkLive_live hst, bind_ok (emits_issue .reset st), if_pos rfl, emits_issue .clearBindings,
    List.append_assoc]
  rfl

/-- A step, and a reset behind it if it failed. -/
theorem next_live {st : Prepared} (hst : Live st) :
    (∃ more, next engine st = (.ok more, { st with log := st.log ++ [.step] })) ∨
      ∃ e, next engine st = (.error e, { st with log := st.log ++ [.step, .reset] }) := by
  rw [next, checkLive_live hst, bind_ok (emits_issue .step st)]
  rw [show ∀ k : Nat → Call Bool, (ask engine.rc >>= k) { st with log := st.log ++ [.step] } =
    k (engine.rc (st.log ++ [.step])) { st with log := st.log ++ [.step] } from fun _ => rfl]
  split_ifs
  · exact Or.inl ⟨true, rfl⟩
  · exact Or.inl ⟨false, rfl⟩
  · refine Or.inr ⟨⟨engine.rc (st.log ++ [.step]), engine.errmsg (st.log ++ [.step, .reset])⟩, ?_⟩
    rw [bind_ok (emits_issue .reset _), List.append_assoc]
    rfl

/-- What the statement looks like to its step after a parameter set was bound. -/
theorem view_step {log es : List Event} (hes : Binding es) :
    view (log ++ [.reset, .clearBindings] ++ es ++ [.step]) =
      { ready := false, bound := assign (fun _ => none) (bindings es),
        seen := (view log).seen ++ [assign (fun _ => none) (bindings es)] } := by
  rw [view_append, view_append, view_append]
  have hready : ([.reset, .clearBindings].foldl View.after (view log)).ready = true := rfl
  rw [view_binding hes hready]
  rfl

/-- Each step sees what its own parameter set binds, whatever was bound before. -/
theorem execSets_seen (sets : List Params) (total : Nat) {st : Prepared} (hst : Live st) :
    ∃ bounds, (view (execSets engine sets total st).2.log).seen = (view st.log).seen ++ bounds ∧
      List.Forall₂ (fun p b => boundBy engine.parameters p = .ok b) (sets.take bounds.length) bounds ∧
      ((∃ n, (execSets engine sets total st).1 = .ok n) → bounds.length = sets.length) := by
  induction sets generalizing total st with
  | nil => exact ⟨[], (List.append_nil _).symm, .nil, fun _ => rfl⟩
  | cons p rest ih =>
      obtain ⟨r, es, hes, hemits⟩ := bindParams_emits engine.parameters p
      have hbound := boundBy_eq engine.parameters hes hemits
      have hst₁ : Live { st with log := st.log ++ [.reset, .clearBindings] } := hst.append (by decide)
      have hbind : bind engine p { st with log := st.log ++ [.reset, .clearBindings] } =
          (r, { st with log := st.log ++ [.reset, .clearBindings] ++ es }) :=
        (checkLive_live hst₁ fun _ => bindParams engine.parameters p).trans (hemits _)
      rw [execSets, bind_ok (reset_live hst)]
      cases r with
      | error e =>
          rw [Stmt.bind_error hbind]
          refine ⟨[], ?_, .nil, fun ⟨n, hn⟩ => by cases hn⟩
          rw [view_append, view_append, view_binding hes rfl]
          exact (List.append_nil _).symm
      | ok u =>
          have hst₂ := keepsLive_emits hes hemits _ hst₁
          rw [hemits] at hst₂
          rw [bind_ok hbind]
          rcases next_live engine hst₂ with ⟨more, hnext⟩ | ⟨e, hnext⟩
          · have hst₃ := @Live.append _ hst₂ [.step] (by decide)
            rw [bind_ok hnext]
            obtain ⟨bounds, hseen, hforall, hlength⟩ := ih _ hst₃
            refine ⟨assign (fun _ => none) (bindings es) :: bounds, ?_, .cons hbound hforall, fun hok => ?_⟩
            · refine hseen.trans ?_
              rw [view_step hes, List.append_assoc]
              rfl
            · rw [List.length_cons, List.length_cons, hlength hok]
          · rw [Stmt.bind_error hnext]
            refine ⟨[assign (fun _ => none) (bindings es)], ?_, .cons hbound .nil, fun ⟨n, hn⟩ => by cases hn⟩
            rw [show st.log ++ [.reset, .clearBindings] ++ es ++ [Event.step, .reset] =
              st.log ++ [.reset, .clearBindings] ++ es ++ [.step] ++ [.reset] by
                rw [List.append_assoc _ [Event.step]]; rfl, view_append, view_step hes]
            rfl

/-- The steps of `exec_many` see one parameter set each, in order and up to the first failure, with nothing
left of the sets before. The handle is finalized once, by the last call. -/
theorem execMany_steps (sets : List Params) :
    (∃ done ≤ sets.length, List.Forall₂ (fun p b => boundBy engine.parameters p = .ok b) (sets.take done)
        (view (execMany engine sets fresh).2.log).seen ∧
      ((∃ n, (execMany engine sets fresh).1 = .ok n) → done = sets.length)) ∧
    ∃ calls, (execMany engine sets fresh).2.log = calls ++ [.finalize] ∧ .finalize ∉ calls := by
  refine ⟨?_, (dead_withStatement (keepsSound_execSets engine sets 0) (Or.inl live_fresh)).2⟩
  obtain ⟨bounds, hseen, hforall, hlength⟩ := execSets_seen engine sets 0 live_fresh
  have hfinal : ∀ st, (view (finalize st).2.log).seen = (view st.log).seen := by
    intro st
    unfold finalize
    split_ifs
    · rfl
    · rw [view_append]
      rfl
  have hall : (view (execMany engine sets fresh).2.log).seen = bounds := by
    unfold execMany withStatement
    cases hrun : execSets engine sets 0 fresh with
    | mk r st =>
        rw [hrun] at hseen
        cases r with
        | ok n => exact (hfinal st).trans hseen
        | error e => exact (hfinal st).trans hseen
  refine ⟨bounds.length, ?_, hall ▸ hforall, fun ⟨n, hn⟩ => hlength ?_⟩
  · have hle := hforall.length_eq
    rw [List.length_take] at hle
    omega
  · unfold execMany withStatement at hn
    cases hrun : execSets engine sets 0 fresh with
    | mk r st =>
        rw [hrun] at hn
        cases r with
        | ok n => exact ⟨n, rfl⟩
        | error e => cases hn

end Many

/-! ### Rows -/

/-- A name with a number behind it, or the name itself. -/
def suffixed (name : CString) : Nat → CString
  | 0 => name
  | k + 1 => name ++ 58 :: lit (toString ((k + 1 : Nat) : Int))

theorem lit_number_inj {i j : Int} (h : lit (toString i) = lit (toString j)) : i = j := by
  have hi := lit_chars fun c hc => char_lt_256 (toString_chars (i := i) hc)
  have hj := lit_chars fun c hc => char_lt_256 (toString_chars (i := j) hc)
  rw [h] at hi
  exact toString_injective (hi.symm.trans hj)

theorem suffixed_inj {name : CString} {j k : Nat} (h : suffixed name j = suffixed name k) : j = k := by
  cases j with
  | zero =>
      cases k with
      | zero => rfl
      | succ k =>
          exact absurd (List.append_cancel_left ((List.append_nil name).trans h)).symm (List.cons_ne_nil _ _)
  | succ j =>
      cases k with
      | zero =>
          exact absurd (List.append_cancel_left (h.trans (List.append_nil name).symm)) (List.cons_ne_nil _ _)
      | succ k =>
          have hnumber := lit_number_inj (List.cons.inj (List.append_cancel_left h)).2
          omega

/-- The loop ends with the first name that is free. -/
theorem freeKey_spec (keys : List CString) (name : CString) {fuel k : Nat}
    (htaken : ∀ j < k, suffixed name j ∈ keys) (hfuel : keys.length < fuel + k) :
    ∃ n, freeKey keys name fuel (k + 1) (suffixed name k) = some (suffixed name n) ∧
      suffixed name n ∉ keys ∧ ∀ j < n, suffixed name j ∈ keys := by
  induction fuel generalizing k with
  | zero =>
      have hsub : (List.range k).map (suffixed name) ⊆ keys := by
        intro key hkey
        obtain ⟨j, hj, rfl⟩ := List.mem_map.mp hkey
        exact htaken j (List.mem_range.mp hj)
      have hnodup : ((List.range k).map (suffixed name)).Nodup :=
        List.Nodup.map (fun _ _ h => suffixed_inj h) List.nodup_range
      have hle := (List.subperm_of_subset hnodup hsub).length_le
      rw [List.length_map, List.length_range] at hle
      omega
  | succ fuel ih =>
      rw [freeKey]
      split_ifs with hkey <;> rw [List.contains_iff_mem] at hkey
      · exact ih (k := k + 1) (fun j hj => (Nat.lt_succ_iff_lt_or_eq.mp hj).elim (htaken j) (· ▸ hkey))
          (by omega)
      · exact ⟨k, rfl, hkey, htaken⟩

/-- Each column has its value in the row, under the first of its names that was free. -/
inductive Keyed : List CString → List (CString × Value) → List (CString × Value) → Prop
  | nil {keys : List CString} : Keyed keys [] []
  | cons {keys : List CString} {name : CString} {v : Value} {rest row : List (CString × Value)} (k : Nat)
      (hfree : suffixed name k ∉ keys) (htaken : ∀ j < k, suffixed name j ∈ keys)
      (hrest : Keyed (keys ++ [suffixed name k]) rest row) :
      Keyed keys ((name, v) :: rest) ((suffixed name k, v) :: row)

theorem Keyed.nodup {keys : List CString} {columns row : List (CString × Value)}
    (h : Keyed keys columns row) (hkeys : keys.Nodup) : (keys ++ row.map Prod.fst).Nodup := by
  induction h with
  | nil => rwa [List.map_nil, List.append_nil]
  | @cons keys name v rest row k hfree _ _ ih =>
      have hmore := ih (List.nodup_append_comm.mp (List.nodup_cons.mpr ⟨hfree, hkeys⟩))
      rwa [List.append_assoc] at hmore

def present (column : CString × Value) : CString × Column := (column.1, .value column.2)

theorem readNamed_spec {fuel : Nat} (columns row : List (CString × Value)) (st : Prepared)
    (hfuel : row.length + columns.length < fuel) :
    ∃ added, (readNamed fuel (columns.map present) row st).1 = .ok (some (row ++ added)) ∧
      Keyed (row.map Prod.fst) columns added := by
  induction columns generalizing row st with
  | nil => exact ⟨[], by rw [List.append_nil]; rfl, .nil⟩
  | cons column rest ih =>
      obtain ⟨name, v⟩ := column
      obtain ⟨n, hkey, hfree, htaken⟩ := @freeKey_spec (row.map Prod.fst) name fuel 0
        (fun j hj => absurd hj (Nat.not_lt_zero j)) (by rw [List.length_map]; simp at hfuel; omega)
      rw [List.map_cons, present, readNamed, bind_ok (emits_issue .query st)]
      rw [show freeKey (row.map Prod.fst) name fuel 1 name = some (suffixed name n) from hkey]
      obtain ⟨added, hread, hkeyed⟩ := ih (row ++ [(suffixed name n, v)])
        { st with log := st.log ++ [.query] ++ [.query] } (by simp at hfuel ⊢; omega)
      rw [List.map_append] at hkeyed
      refine ⟨(suffixed name n, v) :: added, ?_, .cons n hfree htaken hkeyed⟩
      exact hread.trans (by rw [List.append_assoc, List.singleton_append])

/-- `row_dict` comes to an end and keeps every column: in order, under keys that are all different. -/
theorem rowDict_keeps (engine : Engine) {columns : List (CString × Value)} {fuel : Nat} {st : Prepared}
    (hst : Live st) (hrow : engine.row (st.log ++ [.query]) = columns.map present)
    (hfuel : columns.length < fuel) :
    ∃ row, (rowDict engine fuel st).1 = .ok (some row) ∧ Keyed [] columns row ∧
      (row.map Prod.fst).Nodup := by
  obtain ⟨row, hread, hkeyed⟩ := readNamed_spec columns [] { st with log := st.log ++ [.query] }
    (by rw [List.length_nil, Nat.zero_add]; exact hfuel)
  refine ⟨row, ?_, hkeyed, hkeyed.nodup List.nodup_nil⟩
  rw [rowDict, checkLive_live hst, bind_ok (emits_issue .query st)]
  show (readNamed fuel (engine.row (st.log ++ [.query])) [] _).1 = _
  rw [hrow]
  exact hread

/-- A row with one name three times over, in a way. -/
def sampleColumns : List (CString × Value) :=
  [([105], .integer 1), ([105], .nil), ([105, 58, 49], .string [120]), ([105], .bool true)]

def sampleEngine : Engine := ⟨⟨[], List.nodup_nil⟩, fun _ => rowCode, fun _ => sampleColumns.map present,
  fun _ => 0, fun _ => []⟩

theorem sampleColumns_kept : ∃ row, (rowDict sampleEngine 5 fresh).1 = .ok (some row) ∧
    Keyed [] sampleColumns row ∧ (row.map Prod.fst).Nodup :=
  rowDict_keeps sampleEngine live_fresh rfl (by decide)

end Stmt

end Sqlite

end EZLanguage
