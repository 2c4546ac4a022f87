import EZLanguage.Bytecode.Chunk
import Mathlib.Data.List.Basic

/-!
# Transactions

`Database.transaction` begins a transaction, or a savepoint where its counter says that one is open, runs
a body, and commits or rolls back. SQLite keeps the open transaction and the savepoints on a stack, each
with the data at its start. Any statement can fail, before or after it is prepared, and a statement that
fails changes nothing. The connection is open.

A body is a program of statements and nested transactions. It goes on with what each of them returned or
threw.
-/

namespace EZLanguage

namespace Sqlite

/-! ### SQLite -/

/-- What is open: a transaction, the savepoint `ez_sp_` with its number, or one of another name. -/
inductive Mark where
  | transaction
  | ezSp (n : Nat)
  | named (name : CString)
  deriving DecidableEq

/-- The data as the connection sees it, and what is open, the innermost first, with the data at its
start. -/
structure Connection (Data : Type*) where
  data : Data
  stack : List (Mark × Data)

inductive Control where
  | beginImmediate
  | commit
  | rollback
  | savepoint (name : Mark)
  | release (name : Mark)
  | rollbackTo (name : Mark)

variable {Data Err Val : Type*}

/-- From the innermost savepoint of a name on. -/
def Connection.fromMark (conn : Connection Data) (name : Mark) : List (Mark × Data) :=
  conn.stack.dropWhile fun entry => entry.1 != name

/-- What a control statement does, or none where SQLite refuses it. -/
def Control.apply (c : Control) (conn : Connection Data) : Option (Connection Data) :=
  match c with
  | .beginImmediate =>
      if conn.stack.isEmpty then some { conn with stack := [(.transaction, conn.data)] } else none
  | .commit => if conn.stack.isEmpty then none else some { conn with stack := [] }
  | .rollback =>
      match conn.stack.getLast? with
      | some start => some { data := start.2, stack := [] }
      | none => none
  | .savepoint name => some { conn with stack := (name, conn.data) :: conn.stack }
  | .release name =>
      match conn.fromMark name with
      | _ :: outer => some { conn with stack := outer }
      | [] => none
  | .rollbackTo name =>
      match conn.fromMark name with
      | start :: outer => some { data := start.2, stack := start :: outer }
      | [] => none

/-! ### Statements -/

/-- How a statement fares: it fails to compile, with a handle or without, or to run. -/
inductive Attempt (Err : Type*) where
  | ok
  | prepareFails (withHandle : Bool) (e : Err)
  | stepFails (e : Err)

/-- The fields of `Database`, its connection, how many control statements were issued and statements
prepared, and the handles that were finalized. -/
structure Database (Data : Type*) where
  conn : Connection Data
  txDepth : Nat
  savepointSeq : Nat
  issued : Nat
  prepared : Nat
  finalized : List Nat

/-- The model `Statement`. -/
structure Statement where
  handle : Nat
  finalized : Bool

namespace Database

/-- `Database.prepare`. -/
def prepare (attempt : Attempt Err) (db : Database Data) : Except Err Statement × Database Data :=
  match attempt with
  | .prepareFails true e =>
      (.error e,
        { db with prepared := db.prepared + 1, finalized := db.finalized ++ [db.prepared] })
  | .prepareFails false e => (.error e, db)
  | _ => (.ok ⟨db.prepared, false⟩, { db with prepared := db.prepared + 1 })

/-- `Statement.finalize`. -/
def finalize (st : Statement) (db : Database Data) : Statement × Database Data :=
  if st.finalized then (st, db)
  else ({ st with finalized := true }, { db with finalized := db.finalized ++ [st.handle] })

def withStatement (st : Statement) (fn : Database Data → Except Err Val × Database Data)
    (db : Database Data) : Except Err Val × Database Data :=
  let (result, db) := fn db
  (result, (db.finalize st).2)

/-- `Statement.next`, for a statement with an effect on the connection. -/
def next (attempt : Attempt Err) (effect : Connection Data → Except Err (Val × Connection Data))
    (db : Database Data) : Except Err Val × Database Data :=
  match attempt with
  | .stepFails e => (.error e, db)
  | _ =>
      match effect db.conn with
      | .error e => (.error e, db)
      | .ok (val, conn) => (.ok val, { db with conn })

def exec (attempt : Attempt Err) (effect : Connection Data → Except Err (Val × Connection Data))
    (db : Database Data) : Except Err Val × Database Data :=
  match db.prepare attempt with
  | (.error e, db) => (.error e, db)
  | (.ok st, db) => db.withStatement st (next attempt effect)

/-! ### The transaction -/

variable (pattern : Nat → Attempt Err) (refusal : Err)

/-- A control statement, which fares as the pattern of failures says. -/
def control (c : Control) (db : Database Data) : Except Err Unit × Database Data :=
  exec (pattern db.issued)
    (fun conn => match c.apply conn with
      | some conn => .ok ((), conn)
      | none => .error refusal)
    { db with issued := db.issued + 1 }

/-- `transaction` up to the call of the body. -/
def opening (db : Database Data) : Except Err Unit × Database Data :=
  let depth := db.txDepth + 1
  let db := { db with txDepth := depth }
  if depth = 1 then db.control pattern refusal .beginImmediate
  else
    let db := { db with savepointSeq := db.savepointSeq + 1 }
    db.control pattern refusal (.savepoint (.ezSp db.savepointSeq))

/-- What `transaction` does about a body that threw. -/
def rollingBack (depth : Nat) (name : Mark) (db : Database Data) : Database Data :=
  if depth = 1 then (db.control pattern refusal .rollback).2
  else
    match db.control pattern refusal (.rollbackTo name) with
    | (.ok _, db) => (db.control pattern refusal (.release name)).2
    | (.error _, db) => db

/-- What `transaction` does about a body that returned. -/
def committing (depth : Nat) (name : Mark) (db : Database Data) : Except Err Unit × Database Data :=
  if depth = 1 then db.control pattern refusal .commit
  else db.control pattern refusal (.release name)

def transaction (fn : Database Data → Except Err Val × Database Data) (db : Database Data) :
    Except Err Val × Database Data :=
  let depth := db.txDepth + 1
  let name := Mark.ezSp (db.savepointSeq + 1)
  match db.opening pattern refusal with
  | (.error e, db) => (.error e, db)
  | (.ok _, db) =>
      match fn db with
      | (.error failure, db) =>
          (.error failure, { db.rollingBack pattern refusal depth name with txDepth := depth - 1 })
      | (.ok result, db) =>
          match db.committing pattern refusal depth name with
          | (.error e, db) => (.error e, { db with txDepth := depth - 1 })
          | (.ok _, db) => (.ok result, { db with txDepth := depth - 1 })

end Database

/-- A body: it returns, throws, runs a statement that reads and writes the data, or calls `transaction`,
and goes on with what came of it. -/
inductive Body (Data Err Val : Type*) where
  | give (val : Val)
  | throw (e : Err)
  | statement (attempt : Attempt Err) (effect : Data → Except Err (Val × Data))
      (rest : Except Err Val → Body Data Err Val)
  | transaction (inner : Body Data Err Val) (rest : Except Err Val → Body Data Err Val)

/-- A statement that leaves alone what is open. -/
def onData (effect : Data → Except Err (Val × Data)) (conn : Connection Data) :
    Except Err (Val × Connection Data) :=
  match effect conn.data with
  | .ok (val, data) => .ok (val, { conn with data })
  | .error e => .error e

variable (pattern : Nat → Attempt Err) (refusal : Err)

def Body.run : Body Data Err Val → Database Data → Except Err Val × Database Data
  | .give val, db => (.ok val, db)
  | .throw e, db => (.error e, db)
  | .statement attempt effect rest, db =>
      let (result, db) := db.exec attempt (onData effect)
      (rest result).run db
  | .transaction inner rest, db =>
      let (result, db) := db.transaction pattern refusal inner.run
      (rest result).run db

/-! ### What a call should do -/

/-- The statements prepared in between are those finalized in between, each once. -/
def Finalized (db db' : Database Data) : Prop :=
  db.prepared ≤ db'.prepared ∧
    db'.finalized = db.finalized ++ List.range' db.prepared (db'.prepared - db.prepared)

/-- A call of `transaction` leaves the depth and what is open as they were. What the body wrote is kept
if the call returns and undone if it throws, and an error of the body is thrown. -/
structure Right (fn : Database Data → Except Err Val × Database Data) (db : Database Data) : Prop where
  txDepth : (db.transaction pattern refusal fn).2.txDepth = db.txDepth
  stack : (db.transaction pattern refusal fn).2.conn.stack = db.conn.stack
  kept : ∀ val, (db.transaction pattern refusal fn).1 = .ok val →
    (fn (db.opening pattern refusal).2).1 = .ok val ∧
      (db.transaction pattern refusal fn).2.conn.data = (fn (db.opening pattern refusal).2).2.conn.data
  undone : ∀ e, (db.transaction pattern refusal fn).1 = .error e →
    (db.transaction pattern refusal fn).2.conn.data = db.conn.data
  thrown : ∀ e, (db.opening pattern refusal).1 = .ok () →
    (fn (db.opening pattern refusal).2).1 = .error e →
      (db.transaction pattern refusal fn).1 = .error e
  finalized : Finalized db (db.transaction pattern refusal fn).2

/-- The control statements that end the call succeed, after a body that ended with the result. -/
def Ends (depth issued : Nat) : Except Err Val → Prop
  | .ok _ => pattern issued = .ok
  | .error _ => pattern issued = .ok ∧ (depth ≠ 1 → pattern (issued + 1) = .ok)

/-- The control statements of the call succeed: the one that opens it, which is a BEGIN only where
nothing is open, and those that end it. -/
def Succeeds (fn : Database Data → Except Err Val × Database Data) (db : Database Data) : Prop :=
  pattern db.issued = .ok ∧ (db.txDepth = 0 → db.conn.stack = []) ∧
    Ends pattern (db.txDepth + 1) (fn (db.opening pattern refusal).2).2.issued
      (fn (db.opening pattern refusal).2).1

/-! ### Statements prepared and finalized -/

theorem Finalized.refl (db : Database Data) : Finalized db db := by
  simp [Finalized]

theorem Finalized.trans {db db' db'' : Database Data} (hfirst : Finalized db db')
    (hsecond : Finalized db' db'') : Finalized db db'' := by
  obtain ⟨hle, heq⟩ := hfirst
  obtain ⟨hle', heq'⟩ := hsecond
  refine ⟨Nat.le_trans hle hle', ?_⟩
  have hrange : List.range' db.prepared (db'.prepared - db.prepared) ++
      List.range' db'.prepared (db''.prepared - db'.prepared) =
        List.range' db.prepared (db''.prepared - db.prepared) := by
    have hstart : db'.prepared = db.prepared + 1 * (db'.prepared - db.prepared) := by omega
    have htotal : db''.prepared - db.prepared =
        db'.prepared - db.prepared + (db''.prepared - db'.prepared) := by omega
    rw [htotal, ← List.range'_append, ← hstart]
  rw [heq', heq, List.append_assoc, hrange]

/-- What a statement does, the rest of the connection left alone. -/
structure Executed (attempt : Attempt Err)
    (effect : Connection Data → Except Err (Val × Connection Data)) (db : Database Data)
    (result : Except Err Val) (db' : Database Data) : Prop where
  txDepth : db'.txDepth = db.txDepth
  savepointSeq : db'.savepointSeq = db.savepointSeq
  issued : db'.issued = db.issued
  finalized : Finalized db db'
  outcome : (∃ val, result = .ok val ∧ attempt = .ok ∧ effect db.conn = .ok (val, db'.conn)) ∨
    (∃ e, result = .error e) ∧ db'.conn = db.conn ∧
      ∀ val conn, ¬(attempt = .ok ∧ effect db.conn = .ok (val, conn))

theorem finalized_one (db : Database Data) (conn : Connection Data) :
    Finalized db { db with
      conn, prepared := db.prepared + 1, finalized := db.finalized ++ [db.prepared] } :=
  ⟨Nat.le_succ _, by simp⟩

theorem exec_spec (attempt : Attempt Err)
    (effect : Connection Data → Except Err (Val × Connection Data)) (db : Database Data) :
    Executed attempt effect db (db.exec attempt effect).1 (db.exec attempt effect).2 := by
  cases attempt with
  | prepareFails withHandle e =>
      cases withHandle with
      | true =>
          exact ⟨rfl, rfl, rfl, finalized_one db db.conn, .inr ⟨⟨e, rfl⟩, rfl, by simp⟩⟩
      | false => exact ⟨rfl, rfl, rfl, .refl db, .inr ⟨⟨e, rfl⟩, rfl, by simp⟩⟩
  | stepFails e =>
      exact ⟨rfl, rfl, rfl, finalized_one db db.conn, .inr ⟨⟨e, rfl⟩, rfl, by simp⟩⟩
  | ok =>
      cases heffect : effect db.conn with
      | error e =>
          have hexec : db.exec .ok effect = (.error e, { db with
              prepared := db.prepared + 1, finalized := db.finalized ++ [db.prepared] }) := by
            simp [Database.exec, Database.prepare, Database.withStatement, Database.next, heffect,
              Database.finalize]
          rw [hexec]
          exact ⟨rfl, rfl, rfl, finalized_one db db.conn,
            .inr ⟨⟨e, rfl⟩, rfl, by simp [heffect]⟩⟩
      | ok out =>
          obtain ⟨val, conn⟩ := out
          have hexec : db.exec .ok effect = (.ok val, { db with
              conn, prepared := db.prepared + 1, finalized := db.finalized ++ [db.prepared] }) := by
            simp [Database.exec, Database.prepare, Database.withStatement, Database.next, heffect,
              Database.finalize]
          rw [hexec]
          exact ⟨rfl, rfl, rfl, finalized_one db conn, .inl ⟨val, rfl, rfl, heffect⟩⟩

/-- What a control statement does. -/
structure Controlled (c : Control) (db : Database Data) (result : Except Err Unit)
    (db' : Database Data) : Prop where
  txDepth : db'.txDepth = db.txDepth
  savepointSeq : db'.savepointSeq = db.savepointSeq
  issued : db'.issued = db.issued + 1
  finalized : Finalized db db'
  outcome : (result = .ok () ∧ pattern db.issued = .ok ∧ c.apply db.conn = some db'.conn) ∨
    (∃ e, result = .error e) ∧ db'.conn = db.conn ∧
      ∀ conn, ¬(pattern db.issued = .ok ∧ c.apply db.conn = some conn)

theorem control_spec (c : Control) (db : Database Data) :
    Controlled pattern c db (db.control pattern refusal c).1 (db.control pattern refusal c).2 := by
  have hexec := exec_spec (pattern db.issued)
    (fun conn => match c.apply conn with
      | some conn => .ok ((), conn)
      | none => .error refusal) { db with issued := db.issued + 1 }
  refine ⟨hexec.txDepth, hexec.savepointSeq, hexec.issued, hexec.finalized, ?_⟩
  obtain ⟨val, hresult, hok, heffect⟩ | ⟨herror, hconn, hnot⟩ := hexec.outcome
  · left
    refine ⟨hresult, hok, ?_⟩
    cases happly : c.apply db.conn with
    | none =>
        simp only [happly] at heffect
        cases heffect
    | some conn =>
        simp only [happly] at heffect
        have hsame := (Prod.mk.inj (Except.ok.inj heffect)).2
        rw [hsame]
        rfl
  · right
    refine ⟨herror, hconn, fun conn hboth => hnot () conn ⟨hboth.1, ?_⟩⟩
    simp only [hboth.2]

/-! ### The statements that open and end a call -/

/-- What a call at a depth opens. -/
def openedMark (db : Database Data) : Mark :=
  if db.txDepth = 0 then .transaction else .ezSp (db.savepointSeq + 1)

structure Opened (db : Database Data) (result : Except Err Unit) (db' : Database Data) : Prop where
  txDepth : db'.txDepth = db.txDepth + 1
  savepointSeq : db'.savepointSeq = if db.txDepth = 0 then db.savepointSeq else db.savepointSeq + 1
  finalized : Finalized db db'
  outcome : (result = .ok () ∧ (pattern db.issued = .ok ∧ (db.txDepth = 0 → db.conn.stack = [])) ∧
      db'.conn = ⟨db.conn.data, (openedMark db, db.conn.data) :: db.conn.stack⟩) ∨
    (∃ e, result = .error e) ∧ db'.conn = db.conn ∧
      ¬(pattern db.issued = .ok ∧ (db.txDepth = 0 → db.conn.stack = []))

theorem opening_spec (db : Database Data) :
    Opened pattern db (db.opening pattern refusal).1 (db.opening pattern refusal).2 := by
  by_cases hdepth : db.txDepth = 0
  · have hcontrol := control_spec pattern refusal .beginImmediate { db with txDepth := db.txDepth + 1 }
    have hopening : db.opening pattern refusal =
        Database.control pattern refusal .beginImmediate { db with txDepth := db.txDepth + 1 } := by
      rw [Database.opening, if_pos (by omega)]
    rw [hopening]
    refine ⟨hcontrol.txDepth, ?_, hcontrol.finalized, ?_⟩
    · rw [if_pos hdepth]
      exact hcontrol.savepointSeq
    · obtain ⟨hresult, hok, happly⟩ | ⟨herror, hconn, hnot⟩ := hcontrol.outcome
      · have hempty : db.conn.stack = [] := by
          by_contra hopen
          simp [Control.apply, hopen] at happly
        simp only [Control.apply, hempty, List.isEmpty_nil, if_true, Option.some.injEq] at happly
        refine .inl ⟨hresult, ⟨hok, fun _ => hempty⟩, ?_⟩
        rw [← happly, openedMark, if_pos hdepth, hempty]
      · refine .inr ⟨herror, hconn, fun hboth => ?_⟩
        apply hnot ⟨db.conn.data, [(.transaction, db.conn.data)]⟩
        exact ⟨hboth.1, by simp [Control.apply, hboth.2 hdepth]⟩
  · have hcontrol := control_spec pattern refusal (.savepoint (.ezSp (db.savepointSeq + 1)))
      { db with txDepth := db.txDepth + 1, savepointSeq := db.savepointSeq + 1 }
    have hopening : db.opening pattern refusal =
        Database.control pattern refusal (.savepoint (.ezSp (db.savepointSeq + 1)))
          { db with txDepth := db.txDepth + 1, savepointSeq := db.savepointSeq + 1 } := by
      rw [Database.opening, if_neg (by omega)]
    rw [hopening]
    refine ⟨hcontrol.txDepth, ?_, hcontrol.finalized, ?_⟩
    · rw [if_neg hdepth]
      exact hcontrol.savepointSeq
    · obtain ⟨hresult, hok, happly⟩ | ⟨herror, hconn, hnot⟩ := hcontrol.outcome
      · refine .inl ⟨hresult, ⟨hok, fun hzero => absurd hzero hdepth⟩, ?_⟩
        rw [openedMark, if_neg hdepth]
        exact (Option.some.inj happly).symm
      · exact .inr ⟨herror, hconn, fun hboth => hnot _ ⟨hboth.1, rfl⟩⟩

/-- What is open at the end of a body: what it left, the mark of the call and what was open before. -/
structure Inside (depth : Nat) (mark : Mark) (start : Data) (extra outer : List (Mark × Data))
    (db : Database Data) : Prop where
  stack : db.conn.stack = extra ++ (mark, start) :: outer
  other : ∀ entry ∈ extra, entry.1 ≠ mark
  outermost : depth = 1 → outer = []

variable {pattern refusal} {depth : Nat} {mark : Mark} {start : Data}
  {extra outer : List (Mark × Data)} {db : Database Data}

theorem Inside.fromMark (hin : Inside depth mark start extra outer db) :
    db.conn.fromMark mark = (mark, start) :: outer := by
  rw [Connection.fromMark, hin.stack, List.dropWhile_append_of_pos]
  · simp
  · intro entry hentry
    simpa using hin.other entry hentry

theorem Inside.getLast? (hin : Inside depth mark start extra outer db) (hdepth : depth = 1) :
    db.conn.stack.getLast? = some (mark, start) := by
  rw [hin.stack, hin.outermost hdepth]
  simp

variable (pattern refusal)

/-- The end of a call whose body returned. -/
structure Committed (outer : List (Mark × Data)) (db : Database Data) (result : Except Err Unit)
    (db' : Database Data) : Prop where
  savepointSeq : db'.savepointSeq = db.savepointSeq
  finalized : Finalized db db'
  outcome : (result = .ok () ∧ pattern db.issued = .ok ∧ db'.conn = ⟨db.conn.data, outer⟩) ∨
    (∃ e, result = .error e) ∧ pattern db.issued ≠ .ok ∧ db'.conn = db.conn

theorem committing_spec (hin : Inside depth mark start extra outer db) :
    Committed pattern outer db (db.committing pattern refusal depth mark).1
      (db.committing pattern refusal depth mark).2 := by
  obtain ⟨c, hcommitting, happly⟩ : ∃ c : Control,
      db.committing pattern refusal depth mark = db.control pattern refusal c ∧
        c.apply db.conn = some ⟨db.conn.data, outer⟩ := by
    by_cases hdepth : depth = 1
    · refine ⟨.commit, by rw [Database.committing, if_pos hdepth], ?_⟩
      simp [Control.apply, hin.stack, hin.outermost hdepth]
    · refine ⟨.release mark, by rw [Database.committing, if_neg hdepth], ?_⟩
      rw [Control.apply, hin.fromMark]
  have hcontrol := control_spec pattern refusal c db
  rw [hcommitting]
  refine ⟨hcontrol.savepointSeq, hcontrol.finalized, ?_⟩
  obtain ⟨hresult, hok, hconn⟩ | ⟨herror, hconn, hnot⟩ := hcontrol.outcome
  · refine .inl ⟨hresult, hok, ?_⟩
    rw [happly] at hconn
    exact (Option.some.inj hconn).symm
  · exact .inr ⟨herror, fun hok => hnot _ ⟨hok, happly⟩, hconn⟩

/-- The end of a call whose body threw. -/
structure RolledBack (depth : Nat) (mark : Mark) (start : Data) (extra outer : List (Mark × Data))
    (db db' : Database Data) : Prop where
  savepointSeq : db'.savepointSeq = db.savepointSeq
  finalized : Finalized db db'
  outcome : ((pattern db.issued = .ok ∧ (depth ≠ 1 → pattern (db.issued + 1) = .ok)) ∧
      db'.conn = ⟨start, outer⟩) ∨
    ¬(pattern db.issued = .ok ∧ (depth ≠ 1 → pattern (db.issued + 1) = .ok)) ∧
      ∃ left, db'.conn.stack = left ++ (mark, start) :: outer ∧ ∀ entry ∈ left, entry ∈ extra

theorem rollingBack_spec (hin : Inside depth mark start extra outer db) :
    RolledBack pattern depth mark start extra outer db (db.rollingBack pattern refusal depth mark) := by
  by_cases hdepth : depth = 1
  · have hcontrol := control_spec pattern refusal .rollback db
    rw [Database.rollingBack, if_pos hdepth]
    refine ⟨hcontrol.savepointSeq, hcontrol.finalized, ?_⟩
    have happly : Control.apply .rollback db.conn = some ⟨start, []⟩ := by
      rw [Control.apply, hin.getLast? hdepth]
    obtain ⟨-, hok, hconn⟩ | ⟨-, hconn, hnot⟩ := hcontrol.outcome
    · refine .inl ⟨⟨hok, fun h => absurd hdepth h⟩, ?_⟩
      rw [happly] at hconn
      rw [hin.outermost hdepth]
      exact (Option.some.inj hconn).symm
    · refine .inr ⟨fun hboth => hnot _ ⟨hboth.1, happly⟩, extra, ?_, fun _ h => h⟩
      rw [hconn, hin.stack]
  · have hcontrol := control_spec pattern refusal (.rollbackTo mark) db
    have happly : Control.apply (.rollbackTo mark) db.conn =
        some ⟨start, (mark, start) :: outer⟩ := by
      rw [Control.apply, hin.fromMark]
    rw [Database.rollingBack, if_neg hdepth]
    generalize hfirst : db.control pattern refusal (.rollbackTo mark) = first at hcontrol ⊢
    obtain ⟨result, db'⟩ := first
    obtain ⟨hresult, hok, hconn⟩ | ⟨⟨e, hresult⟩, hconn, hnot⟩ := hcontrol.outcome
    · simp only at hresult
      subst hresult
      rw [happly] at hconn
      have hafter : db'.conn = ⟨start, (mark, start) :: outer⟩ := (Option.some.inj hconn).symm
      have hrelease := control_spec pattern refusal (.release mark) db'
      have happly' : Control.apply (.release mark) db'.conn = some ⟨start, outer⟩ := by
        rw [hafter]
        simp [Control.apply, Connection.fromMark]
      refine ⟨hrelease.savepointSeq.trans hcontrol.savepointSeq,
        hcontrol.finalized.trans hrelease.finalized, ?_⟩
      have hissued : db'.issued = db.issued + 1 := hcontrol.issued
      obtain ⟨-, hok', hconn'⟩ | ⟨-, hconn', hnot'⟩ := hrelease.outcome
      · rw [hissued] at hok'
        refine .inl ⟨⟨hok, fun _ => hok'⟩, ?_⟩
        rw [happly'] at hconn'
        exact (Option.some.inj hconn').symm
      · refine .inr ⟨fun hboth => ?_, [], ?_, by simp⟩
        · refine hnot' _ ⟨?_, happly'⟩
          rw [hissued]
          exact hboth.2 hdepth
        · simp only [hconn', hafter, List.nil_append]
    · simp only at hresult
      subst hresult
      refine ⟨hcontrol.savepointSeq, hcontrol.finalized, .inr ⟨?_, extra, ?_, fun _ h => h⟩⟩
      · exact fun hboth => hnot _ ⟨hboth.1, happly⟩
      · simp only at hconn
        rw [hconn, hin.stack]

/-! ### A call and its body -/

/-- The savepoints were opened after the number had been reached. -/
def Later (seq : Nat) (extra : List (Mark × Data)) : Prop :=
  ∀ entry ∈ extra, ∃ n, entry.1 = .ezSp n ∧ seq < n

/-- What a body does to a connection with something open: it may leave savepoints of its own. -/
structure Grown (db db' : Database Data) : Prop where
  txDepth : db.txDepth ≤ db'.txDepth
  savepointSeq : db.savepointSeq ≤ db'.savepointSeq
  finalized : Finalized db db'
  stack : ∃ extra, db'.conn.stack = extra ++ db.conn.stack ∧ Later db.savepointSeq extra

theorem Later.mono {seq seq' : Nat} (hseq : seq ≤ seq') {extra : List (Mark × Data)}
    (hextra : Later seq' extra) : Later seq extra := by
  intro entry hentry
  obtain ⟨n, hname, hn⟩ := hextra entry hentry
  exact ⟨n, hname, Nat.lt_of_le_of_lt hseq hn⟩

theorem Grown.refl (db : Database Data) : Grown db db :=
  ⟨Nat.le_refl _, Nat.le_refl _, .refl db, [], rfl, fun _ h => absurd h List.not_mem_nil⟩

theorem Grown.trans {db db' db'' : Database Data} (hfirst : Grown db db')
    (hsecond : Grown db' db'') : Grown db db'' := by
  obtain ⟨extra, hstack, hlater⟩ := hfirst.stack
  obtain ⟨extra', hstack', hlater'⟩ := hsecond.stack
  refine ⟨Nat.le_trans hfirst.txDepth hsecond.txDepth,
    Nat.le_trans hfirst.savepointSeq hsecond.savepointSeq,
    hfirst.finalized.trans hsecond.finalized, extra' ++ extra, ?_, ?_⟩
  · rw [hstack', hstack, List.append_assoc]
  · intro entry hentry
    obtain hentry | hentry := List.mem_append.mp hentry
    · exact hlater'.mono hfirst.savepointSeq entry hentry
    · exact hlater entry hentry

/-- A body that keeps to what it opens itself. -/
def Behaved (fn : Database Data → Except Err Val × Database Data) : Prop :=
  ∀ db, 1 ≤ db.txDepth → Grown db (fn db).2

/-- The statement that opens a call succeeds. -/
def Opens (db : Database Data) : Prop :=
  pattern db.issued = .ok ∧ (db.txDepth = 0 → db.conn.stack = [])

/-- The call could not open. -/
structure NotOpened (fn : Database Data → Except Err Val × Database Data) (db : Database Data) :
    Prop where
  opens : ¬Opens pattern db
  result : ∃ e, (db.opening pattern refusal).1 = .error e ∧
    (db.transaction pattern refusal fn).1 = .error e
  txDepth : (db.transaction pattern refusal fn).2.txDepth = db.txDepth + 1
  conn : (db.transaction pattern refusal fn).2.conn = db.conn

/-- The control statements of the call succeeded. -/
structure EndedWell (fn : Database Data → Except Err Val × Database Data) (db : Database Data) :
    Prop where
  opens : Opens pattern db
  ends : Ends pattern (db.txDepth + 1) (fn (db.opening pattern refusal).2).2.issued
    (fn (db.opening pattern refusal).2).1
  result : (db.transaction pattern refusal fn).1 = (fn (db.opening pattern refusal).2).1
  txDepth : (db.transaction pattern refusal fn).2.txDepth = db.txDepth
  stack : (db.transaction pattern refusal fn).2.conn.stack = db.conn.stack
  data : (db.transaction pattern refusal fn).2.conn.data =
    match (fn (db.opening pattern refusal).2).1 with
    | .ok _ => (fn (db.opening pattern refusal).2).2.conn.data
    | .error _ => db.conn.data

/-- A control statement at the end failed, and what the call opened is still open. -/
structure LeftOpen (fn : Database Data → Except Err Val × Database Data) (db : Database Data) :
    Prop where
  opens : Opens pattern db
  ends : ¬Ends pattern (db.txDepth + 1) (fn (db.opening pattern refusal).2).2.issued
    (fn (db.opening pattern refusal).2).1
  thrown : ∀ e, (fn (db.opening pattern refusal).2).1 = .error e →
    (db.transaction pattern refusal fn).1 = .error e
  txDepth : (db.transaction pattern refusal fn).2.txDepth = db.txDepth
  stack : ∃ left, (db.transaction pattern refusal fn).2.conn.stack =
      left ++ (openedMark db, db.conn.data) :: db.conn.stack ∧ Later db.savepointSeq left

/-- How a call ends. -/
structure Called (fn : Database Data → Except Err Val × Database Data) (db : Database Data) :
    Prop where
  savepointSeq : db.savepointSeq ≤ (db.transaction pattern refusal fn).2.savepointSeq
  finalized : Finalized db (db.transaction pattern refusal fn).2
  outcome : NotOpened pattern refusal fn db ∨ EndedWell pattern refusal fn db ∨
    LeftOpen pattern refusal fn db

variable {pattern refusal}

/-- What is open at the end of a body that was called with the mark of the call open. -/
theorem inside_of_grown {db' db'' : Database Data}
    (hopened : Opened pattern db (.ok () : Except Err Unit) db') (hgrown : Grown db' db'') :
    ∃ extra, Inside (db.txDepth + 1) (openedMark db) db.conn.data extra db.conn.stack db'' ∧
      Later db.savepointSeq extra := by
  obtain ⟨-, ⟨-, hempty⟩, hconn⟩ | ⟨⟨e, he⟩, -⟩ := hopened.outcome
  · obtain ⟨extra, hstack, hlater⟩ := hgrown.stack
    rw [hopened.savepointSeq] at hlater
    refine ⟨extra, ⟨?_, fun entry hentry hmark => ?_, fun hdepth => hempty (by omega)⟩, ?_⟩
    · rw [hstack, hconn]
    · obtain ⟨n, hname, hn⟩ := hlater entry hentry
      rw [hname, openedMark] at hmark
      by_cases hzero : db.txDepth = 0
      · rw [if_pos hzero] at hmark
        cases hmark
      · rw [if_neg hzero] at hmark hn
        have := Mark.ezSp.inj hmark
        omega
    · apply hlater.mono
      split <;> omega
  · cases he

variable (pattern refusal)

/-- The outermost call ends without a name. -/
theorem rollingBack_openedMark (db db' : Database Data) :
    db'.rollingBack pattern refusal (db.txDepth + 1) (.ezSp (db.savepointSeq + 1)) =
      db'.rollingBack pattern refusal (db.txDepth + 1) (openedMark db) := by
  by_cases hdepth : db.txDepth = 0
  · simp [Database.rollingBack, hdepth]
  · rw [openedMark, if_neg hdepth]

theorem committing_openedMark (db db' : Database Data) :
    db'.committing pattern refusal (db.txDepth + 1) (.ezSp (db.savepointSeq + 1)) =
      db'.committing pattern refusal (db.txDepth + 1) (openedMark db) := by
  by_cases hdepth : db.txDepth = 0
  · simp [Database.committing, hdepth]
  · rw [openedMark, if_neg hdepth]

theorem transaction_spec {fn : Database Data → Except Err Val × Database Data} (hfn : Behaved fn)
    (db : Database Data) : Called pattern refusal fn db := by
  have hopened := opening_spec pattern refusal db
  generalize hopening : db.opening pattern refusal = opening at hopened
  obtain ⟨result, db'⟩ := opening
  have hseq : db.savepointSeq ≤ db'.savepointSeq := by
    rw [hopened.savepointSeq]
    split <;> omega
  have hdepth : 1 ≤ db'.txDepth := by
    rw [hopened.txDepth]
    omega
  obtain ⟨rfl, hopens, hconn⟩ | ⟨⟨e, rfl⟩, hconn, hnot⟩ := hopened.outcome
  · have hgrown := hfn db' hdepth
    obtain ⟨extra, hinside, hlater⟩ := inside_of_grown hopened hgrown
    generalize hfn' : fn db' = ended at hgrown hinside
    obtain ⟨outcome, db''⟩ := ended
    cases outcome with
    | error failure =>
        have hrolled := rollingBack_spec pattern refusal hinside
        have hcall : db.transaction pattern refusal fn = (.error failure,
            { db''.rollingBack pattern refusal (db.txDepth + 1) (openedMark db) with
              txDepth := db.txDepth }) := by
          rw [Database.transaction, hopening]
          simp only [hfn', rollingBack_openedMark, Nat.add_sub_cancel]
        refine ⟨?_, ?_, .inr ?_⟩
        · rw [hcall]
          exact Nat.le_trans hseq (Nat.le_trans hgrown.savepointSeq (Nat.le_of_eq
            hrolled.savepointSeq.symm))
        · rw [hcall]
          exact hopened.finalized.trans (hgrown.finalized.trans hrolled.finalized)
        obtain ⟨hends, hback⟩ | ⟨hends, left, hstack, hleft⟩ := hrolled.outcome
        · left
          constructor
          · exact hopens
          · rw [hopening, hfn']
            exact ⟨hends.1, fun h => hends.2 h⟩
          · rw [hcall, hopening, hfn']
          · rw [hcall]
          · rw [hcall]
            exact congrArg Connection.stack hback
          · rw [hcall, hopening, hfn']
            exact congrArg Connection.data hback
        · right
          constructor
          · exact hopens
          · rw [hopening, hfn']
            exact hends
          · intro e he
            rw [hopening, hfn'] at he
            rw [hcall]
            exact he
          · rw [hcall]
          · rw [hcall]
            exact ⟨left, hstack, fun entry hentry => hlater entry (hleft entry hentry)⟩
    | ok val =>
        have hcommitted := committing_spec pattern refusal hinside
        generalize hcommitting :
          db''.committing pattern refusal (db.txDepth + 1) (openedMark db) = committing at hcommitted
        obtain ⟨outcome, db3⟩ := committing
        have hcall : db.transaction pattern refusal fn =
            (outcome.map fun _ => val, { db3 with txDepth := db.txDepth }) := by
          rw [Database.transaction, hopening]
          simp only [hfn', committing_openedMark, hcommitting, Nat.add_sub_cancel]
          cases outcome <;> rfl
        refine ⟨?_, ?_, .inr ?_⟩
        · rw [hcall]
          exact Nat.le_trans hseq (Nat.le_trans hgrown.savepointSeq (Nat.le_of_eq
            hcommitted.savepointSeq.symm))
        · rw [hcall]
          exact hopened.finalized.trans (hgrown.finalized.trans hcommitted.finalized)
        obtain ⟨rfl, hok, hback⟩ | ⟨⟨e, rfl⟩, hbad, hsame⟩ := hcommitted.outcome
        · have hstack := congrArg Connection.stack hback
          have hdata := congrArg Connection.data hback
          left
          constructor
          · exact hopens
          · rw [hopening, hfn']
            exact hok
          · rw [hcall, hopening, hfn']
            rfl
          · rw [hcall]
          · rw [hcall]
            exact hstack
          · rw [hcall, hopening, hfn']
            exact hdata
        · right
          constructor
          · exact hopens
          · rw [hopening, hfn']
            exact hbad
          · intro failure hfailure
            rw [hopening, hfn'] at hfailure
            cases hfailure
          · rw [hcall]
          · rw [hcall]
            exact ⟨extra, (congrArg Connection.stack hsame).trans hinside.stack, hlater⟩
  · have hcall : db.transaction pattern refusal fn = (.error e, db') := by
      rw [Database.transaction, hopening]
    refine ⟨?_, ?_, .inl ⟨hnot, ⟨e, by rw [hopening], by rw [hcall]⟩, ?_, ?_⟩⟩
    · rw [hcall]
      exact hseq
    · rw [hcall]
      exact hopened.finalized
    · rw [hcall]
      exact hopened.txDepth
    · rw [hcall]
      exact hconn

/-- A call of `transaction` in a body keeps to what it opens itself. -/
theorem behaved_transaction {fn : Database Data → Except Err Val × Database Data}
    (hfn : Behaved fn) : Behaved fun db => db.transaction pattern refusal fn := by
  intro db hdepth
  have hcalled := transaction_spec pattern refusal hfn db
  obtain hnot | hwell | hleft := hcalled.outcome
  · refine ⟨?_, hcalled.savepointSeq, hcalled.finalized, [], ?_, by simp [Later]⟩
    · rw [hnot.txDepth]
      omega
    · rw [hnot.conn, List.nil_append]
  · refine ⟨Nat.le_of_eq hwell.txDepth.symm, hcalled.savepointSeq, hcalled.finalized, [], ?_,
      by simp [Later]⟩
    rw [hwell.stack, List.nil_append]
  · obtain ⟨left, hstack, hlater⟩ := hleft.stack
    refine ⟨Nat.le_of_eq hleft.txDepth.symm, hcalled.savepointSeq, hcalled.finalized,
      left ++ [(openedMark db, db.conn.data)], ?_, ?_⟩
    · rw [hstack, List.append_assoc]
      rfl
    · intro entry hentry
      obtain hentry | hentry := List.mem_append.mp hentry
      · exact hlater entry hentry
      · rw [List.mem_singleton.mp hentry, openedMark, if_neg (by omega)]
        exact ⟨_, rfl, Nat.lt_succ_self _⟩

theorem exec_grown (attempt : Attempt Err) (effect : Data → Except Err (Val × Data))
    (db : Database Data) : Grown db (db.exec attempt (onData effect)).2 := by
  have hexec := exec_spec attempt (onData effect) db
  refine ⟨Nat.le_of_eq hexec.txDepth.symm, Nat.le_of_eq hexec.savepointSeq.symm, hexec.finalized,
    [], ?_, by simp [Later]⟩
  obtain ⟨val, -, -, heffect⟩ | ⟨-, hconn, -⟩ := hexec.outcome
  · rw [onData] at heffect
    split at heffect
    · have hconn := (Prod.mk.inj (Except.ok.inj heffect)).2
      rw [← hconn, List.nil_append]
    · cases heffect
  · rw [hconn, List.nil_append]

/-- Every body keeps to what its calls open. -/
theorem behaved_run (body : Body Data Err Val) : Behaved (body.run pattern refusal) := by
  induction body with
  | give val => exact fun db _ => .refl db
  | throw e => exact fun db _ => .refl db
  | statement attempt effect rest ih =>
      intro db hdepth
      have hfirst := exec_grown attempt effect db
      exact hfirst.trans (ih _ _ (Nat.le_trans hdepth hfirst.txDepth))
  | transaction inner rest ihInner ih =>
      intro db hdepth
      have hfirst := behaved_transaction pattern refusal ihInner db hdepth
      exact hfirst.trans (ih _ _ (Nat.le_trans hdepth hfirst.txDepth))

/-- A call does what it should, exactly when its control statements succeed. -/
theorem right_iff_of_behaved {fn : Database Data → Except Err Val × Database Data}
    (hfn : Behaved fn) (db : Database Data) :
    Right pattern refusal fn db ↔ Succeeds pattern refusal fn db := by
  have hcalled := transaction_spec pattern refusal hfn db
  obtain hnot | hwell | hleft := hcalled.outcome
  · constructor
    · intro hright
      have hdepth := hright.txDepth
      rw [hnot.txDepth] at hdepth
      omega
    · intro hsucceeds
      exact absurd ⟨hsucceeds.1, hsucceeds.2.1⟩ hnot.opens
  · refine ⟨fun _ => ⟨hwell.opens.1, hwell.opens.2, hwell.ends⟩, fun _ => ?_⟩
    constructor
    · exact hwell.txDepth
    · exact hwell.stack
    · intro val hval
      have hdata := hwell.data
      rw [hwell.result] at hval
      rw [hval] at hdata
      exact ⟨hval, hdata⟩
    · intro e he
      have hdata := hwell.data
      rw [hwell.result] at he
      rw [he] at hdata
      exact hdata
    · intro e _ he
      rw [hwell.result]
      exact he
    · exact hcalled.finalized
  · constructor
    · intro hright
      obtain ⟨left, hstack, -⟩ := hleft.stack
      have hlength := congrArg List.length (hstack.symm.trans hright.stack)
      rw [List.length_append, List.length_cons] at hlength
      omega
    · intro hsucceeds
      exact absurd hsucceeds.2.2 hleft.ends

/-- Whatever the body, and whichever statements fail: a call of `transaction` leaves the connection as it
should, exactly when its control statements succeed. -/
theorem transaction_right_iff (body : Body Data Err Val) (db : Database Data) :
    Right pattern refusal (body.run pattern refusal) db ↔
      Succeeds pattern refusal (body.run pattern refusal) db :=
  right_iff_of_behaved pattern refusal (behaved_run pattern refusal body) db

/-- A new connection to a database. -/
def connect (data : Data) : Database Data :=
  { conn := ⟨data, []⟩, txDepth := 0, savepointSeq := 0, issued := 0, prepared := 0, finalized := [] }

/-- The second control statement finds the database busy. -/
def busyCommit (n : Nat) : Attempt Nat := if n = 1 then .stepFails 5 else .ok

/-- A body that writes 7. -/
def writesSeven : Body Nat Nat Unit := .statement .ok (fun _ => .ok ((), 7)) fun _ => .give ()

/-- The COMMIT fails, and the transaction stays open with what the body wrote. -/
theorem busyCommit_not_right :
    ¬Right busyCommit 1 (writesSeven.run busyCommit 1) (connect 0) := by
  intro hright
  have hstack := congrArg List.length hright.stack
  revert hstack
  decide

end Sqlite

end EZLanguage
