import Mathlib.Algebra.GroupWithZero.Nat
import Mathlib.Algebra.Group.Int.Defs
import EZLanguage.Sqlite.Transaction
import EZLanguage.Support.Runs
import Mathlib.Data.List.Sort

/-!
# Migrations

`migrate` sorts its migrations by version and applies those above the version of the database, each in a
transaction of its own together with the new version. SQLite keeps the version in a field of 32 bits.

The migrations of a list are applied once and in order as long as their versions fit into that field.
-/

namespace EZLanguage

namespace Sqlite

/-- The field for `user_version`, a signed number of 32 bits: what is there after a number was stored. -/
structure UserVersionField where
  store : Int → Int
  keeps : ∀ v, -2 ^ 31 ≤ v → v < 2 ^ 31 → store v = v
  range : ∀ v, -2 ^ 31 ≤ store v ∧ store v < 2 ^ 31

/-- A database file: all that migrations change, and the version. -/
structure Contents (Schema : Type*) where
  schema : Schema
  userVersion : Int

/-! ### The list of migrations -/

/-- A value in the dictionary of a migration, as far as `typeOf` tells. -/
inductive Field where
  | integer (v : Int)
  | function
  | other (typeName : CString)

def Field.typeOf : Field → CString
  | .integer _ => lit "integer"
  | .function => lit "function"
  | .other typeName => typeName

/-- The dictionary of a migration, its name as text. -/
structure Entry where
  version : Option Field
  name : CString
  up : Option Field

/-- A migration that passed the validation. -/
structure Migration where
  version : Int
  name : CString
  deriving DecidableEq

/-- The loop that validates the array. An element that is not a dictionary is none. -/
def checkMigrations (seen : List Int) : List (Option Entry) → Except CString (List Migration)
  | [] => .ok []
  | none :: _ => .error (lit "each migration must be a dictionary")
  | some m :: rest =>
      match m.version with
      | none => .error (lit "migration is missing 'version'")
      | some (.integer v) =>
          if v ≤ 0 then
            .error (lit "migration version must be > 0 (0 means 'fresh database')")
          else if v ∈ seen then .error (lit "duplicate migration version " ++ lit (toString v))
          else
            match m.up with
            | some .function => (checkMigrations (v :: seen) rest).map (⟨v, m.name⟩ :: ·)
            | _ =>
                .error (lit "migration " ++ lit (toString v) ++
                  lit " is missing an 'up' function |db| \x7b ... \x7d")
      | some field =>
          .error (lit "migration version must be an integer, got " ++ field.typeOf)

/-- The inner loop of `_sort_by_version`, at index `i`. -/
def insertLoop (m : Migration) (inserted : Bool) (i : Nat) (outList : List Migration) :
    Bool × List Migration :=
  if h : i < outList.length then
    if !inserted && m.version < (outList.get ⟨i, h⟩).version then
      insertLoop m true (outList.length + 1 + 1) (outList.insertIdx i m)
    else insertLoop m inserted (i + 1) outList
  else (inserted, outList)
termination_by outList.length - i
decreasing_by
  · have := @List.length_insertIdx_le_succ _ outList m i
    omega
  · omega

def insertByVersion (outList : List Migration) (m : Migration) : List Migration :=
  let (inserted, outList) := insertLoop m false 0 outList
  if inserted then outList else outList ++ [m]

/-- `_sort_by_version`. -/
def sortByVersion (migrations : List Migration) : List Migration :=
  migrations.foldl insertByVersion []

/-! ### Calls -/

variable {Schema Err : Type*}

/-- What the functions do that a call of `migrate` is given: the body of the migration of a version, and
`on_apply`, which may throw. -/
structure Call (Schema Err : Type*) where
  up : Int → Body (Contents Schema) Err Unit
  onApply : Int → CString → Option Err

/-- A run of a body: the version, whether its transaction went through, and the contents around it. -/
structure Ran (Schema : Type*) where
  version : Int
  applied : Bool
  before : Contents Schema
  after : Contents Schema

/-- The control statements of a transaction succeed. -/
def noFailure (_ : Nat) : Attempt Err := .ok

variable (field : UserVersionField) (refusal : Err) (misuse : CString → Err)

/-- `schema_version`, a query that changes nothing. -/
def schemaVersion (db : Database (Contents Schema)) : Int := db.conn.data.userVersion

def setSchemaVersion (v : Int) (db : Database (Contents Schema)) :
    Except Err Unit × Database (Contents Schema) :=
  if v < 0 then (.error (misuse (lit "schema version cannot be negative")), db)
  else db.exec .ok (onData fun contents => .ok ((), { contents with userVersion := field.store v }))

/-- The function that `migrate` passes to `transaction`. -/
def migrationBody (up : Body (Contents Schema) Err Unit) (v : Int) (db : Database (Contents Schema)) :
    Except Err Unit × Database (Contents Schema) :=
  match up.run noFailure refusal db with
  | (.error e, db) => (.error e, db)
  | (.ok _, db) => setSchemaVersion field misuse v db

/-- The loop over the sorted migrations: what it returns, the database, and the bodies it ran. -/
def migrateLoop (call : Call Schema Err) (current : Int) :
    List Migration → Database (Contents Schema) →
      Except Err (List Int) × Database (Contents Schema) × List (Ran Schema)
  | [], db => (.ok [], db, [])
  | m :: rest, db =>
      if current < m.version then
        match db.transaction noFailure refusal
            (migrationBody field refusal misuse (call.up m.version) m.version) with
        | (.error e, db') => (.error e, db', [⟨m.version, false, db.conn.data, db'.conn.data⟩])
        | (.ok _, db') =>
            match call.onApply m.version m.name with
            | some e => (.error e, db', [⟨m.version, true, db.conn.data, db'.conn.data⟩])
            | none =>
                let (applied, db'', ran) := migrateLoop call current rest db'
                (applied.map (m.version :: ·), db'',
                  ⟨m.version, true, db.conn.data, db'.conn.data⟩ :: ran)
      else migrateLoop call current rest db

def migrate (array : List (Option Entry)) (call : Call Schema Err)
    (db : Database (Contents Schema)) :
    Except Err (List Int) × Database (Contents Schema) × List (Ran Schema) :=
  match checkMigrations [] array with
  | .error message => (.error (misuse message), db, [])
  | .ok migrations =>
      migrateLoop field refusal misuse call (schemaVersion db) (sortByVersion migrations) db

/-- A call of `migrate` in a history. -/
structure Record (Schema Err : Type*) where
  call : Call Schema Err
  start : Contents Schema
  result : Except Err (List Int)
  ran : List (Ran Schema)
  final : Contents Schema

/-- A call of `migrate` with the list. -/
def callStep (array : List (Option Entry)) (record : Record Schema Err)
    (db db' : Database (Contents Schema)) : Prop :=
  migrate field refusal misuse array record.call db = (record.result, db', record.ran) ∧
    record.start = db.conn.data ∧ record.final = db'.conn.data

/-- Nothing is open on the connection. -/
def Idle (db : Database (Contents Schema)) : Prop := db.txDepth = 0 ∧ db.conn.stack = []

/-! ### What a history should say -/

/-- The contents go from one run to the next. -/
def Chained (start : Contents Schema) : List (Ran Schema) → Contents Schema → Prop
  | [], final => final = start
  | ran :: rest, final => ran.before = start ∧ Chained ran.after rest final

/-- The bodies of a call ran in order: each one above the version at the start and after all smaller ones
above it, a failed one changed nothing, and a list that is returned is the ascending one of those that
were applied. -/
structure InOrder (migrations : List Migration) (record : Record Schema Err) : Prop where
  ascending : (record.ran.map Ran.version).Pairwise (· < ·)
  smaller : ∀ before ran after, record.ran = before ++ ran :: after →
    record.start.userVersion < ran.version ∧ ∀ m ∈ migrations,
      record.start.userVersion < m.version → m.version < ran.version →
        ∃ earlier ∈ before, earlier.version = m.version ∧ earlier.applied = true
  failed : ∀ ran ∈ record.ran, ran.applied = false → ran.after = ran.before
  chained : Chained record.start record.ran record.final
  returned : ∀ applied, record.result = .ok applied →
    applied = record.ran.map Ran.version ∧ ∀ ran ∈ record.ran, ran.applied = true

/-- No later call runs a migration that was applied. -/
def AppliedOnce (history : List (Record Schema Err)) : Prop :=
  ∀ before record middle later after, history = before ++ record :: (middle ++ later :: after) →
    ∀ ran ∈ record.ran, ran.applied = true → ∀ again ∈ later.ran, again.version ≠ ran.version

/-! ### The sorted list -/

/-- The order in which `_sort_by_version` looks for a place. -/
def before (m m' : Migration) : Prop := m.version < m'.version

instance : DecidableRel before := fun m m' => inferInstanceAs (Decidable (m.version < m'.version))

/-- The end of the outer loop of `_sort_by_version`. -/
def pushUnless (m : Migration) (looped : Bool × List Migration) : List Migration :=
  if looped.1 then looped.2 else looped.2 ++ [m]

theorem insertIdx_length (front rest : List Migration) (m : Migration) :
    (front ++ rest).insertIdx front.length m = front ++ m :: rest := by
  induction front with
  | nil => rfl
  | cons x front ih => rw [List.cons_append, List.length_cons, List.insertIdx_succ_cons, ih,
      List.cons_append]

/-- The inner loop inserts before the first larger version, if there is one. -/
theorem insertLoop_eq (m : Migration) (front rest : List Migration) :
    pushUnless m (insertLoop m false front.length (front ++ rest)) =
      front ++ rest.orderedInsert before m := by
  induction rest generalizing front with
  | nil =>
      rw [insertLoop, dif_neg (by simp)]
      simp [pushUnless]
  | cons x rest ih =>
      have hlength : front.length < (front ++ x :: rest).length := by simp
      have hget : (front ++ x :: rest).get ⟨front.length, hlength⟩ = x := by simp
      rw [insertLoop, dif_pos hlength, hget, List.orderedInsert_cons]
      by_cases hless : before m x
      · have hversion : m.version < x.version := hless
        have hdone : ¬(front ++ x :: rest).length + 1 + 1 < (front ++ m :: x :: rest).length := by
          simp only [List.length_append, List.length_cons]
          omega
        rw [if_pos hless, if_pos (by simpa using hversion), insertIdx_length, insertLoop,
          dif_neg hdone]
        rfl
      · have hnext := ih (front ++ [x])
        rw [List.length_append, List.length_singleton, List.append_assoc, List.append_assoc] at hnext
        have hversion : ¬m.version < x.version := hless
        rw [if_neg hless, if_neg (by simpa using hversion)]
        exact hnext

theorem insertByVersion_eq (outList : List Migration) (m : Migration) :
    insertByVersion outList m = outList.orderedInsert before m :=
  insertLoop_eq m [] outList

theorem pairwise_orderedInsert {outList : List Migration} (m : Migration)
    (hsorted : outList.Pairwise fun a b => a.version ≤ b.version) :
    (outList.orderedInsert before m).Pairwise fun a b => a.version ≤ b.version := by
  induction outList with
  | nil => simp
  | cons x rest ih =>
      obtain ⟨hx, hrest⟩ := List.pairwise_cons.mp hsorted
      rw [List.orderedInsert_cons]
      by_cases hless : before m x
      · rw [if_pos hless]
        refine List.pairwise_cons.mpr ⟨fun y hy => ?_, hsorted⟩
        have hmx : m.version < x.version := hless
        obtain rfl | hy := List.mem_cons.mp hy
        · omega
        · have := hx y hy
          omega
      · rw [if_neg hless]
        refine List.pairwise_cons.mpr ⟨fun y hy => ?_, ih hrest⟩
        have hxm : ¬m.version < x.version := hless
        obtain rfl | hy := (List.mem_orderedInsert before).mp hy
        · omega
        · exact hx y hy

theorem sortByVersion_sorted (migrations : List Migration) :
    (sortByVersion migrations).Pairwise fun a b => a.version ≤ b.version := by
  suffices hfold : ∀ outList : List Migration, (outList.Pairwise fun a b => a.version ≤ b.version) →
      (migrations.foldl insertByVersion outList).Pairwise fun a b => a.version ≤ b.version by
    exact hfold [] .nil
  induction migrations with
  | nil => exact fun outList h => h
  | cons m migrations ih =>
      intro outList hsorted
      rw [List.foldl_cons, insertByVersion_eq]
      exact ih _ (pairwise_orderedInsert m hsorted)

theorem sortByVersion_perm (migrations : List Migration) :
    (sortByVersion migrations).Perm migrations := by
  suffices hfold : ∀ outList, (migrations.foldl insertByVersion outList).Perm (outList ++ migrations) by
    exact hfold []
  induction migrations with
  | nil => intro outList; simp
  | cons m migrations ih =>
      intro outList
      rw [List.foldl_cons, insertByVersion_eq]
      refine (ih _).trans (((List.perm_orderedInsert before m outList).append_right _).trans ?_)
      exact List.perm_middle.symm

/-- The versions of a list that was accepted are positive and differ. -/
theorem versions_of_checkMigrations {seen : List Int} {array : List (Option Entry)}
    {migrations : List Migration} (haccepted : checkMigrations seen array = .ok migrations) :
    (∀ m ∈ migrations, 0 < m.version ∧ m.version ∉ seen) ∧
      (migrations.map Migration.version).Nodup := by
  induction array generalizing seen migrations with
  | nil =>
      cases haccepted
      simp
  | cons element rest ih =>
      cases element with
      | none => cases haccepted
      | some entry =>
          rw [checkMigrations] at haccepted
          split at haccepted
          · cases haccepted
          · split at haccepted
            · cases haccepted
            · split at haccepted
              · cases haccepted
              · rename_i v _ hpositive hseen
                split at haccepted
                · cases hrest : checkMigrations (v :: seen) rest with
                  | error message =>
                      rw [hrest] at haccepted
                      cases haccepted
                  | ok others =>
                      rw [hrest] at haccepted
                      cases haccepted
                      obtain ⟨hfresh, hnodup⟩ := ih hrest
                      refine ⟨fun m hm => ?_, ?_⟩
                      · obtain rfl | hm := List.mem_cons.mp hm
                        · exact ⟨Int.not_le.mp hpositive, hseen⟩
                        · obtain ⟨hpos, hnew⟩ := hfresh m hm
                          exact ⟨hpos, fun h => hnew (List.mem_cons_of_mem _ h)⟩
                      · rw [List.map_cons, List.nodup_cons]
                        refine ⟨fun hin => ?_, hnodup⟩
                        obtain ⟨m, hm, hversion⟩ := List.mem_map.mp hin
                        exact (hfresh m hm).2 (hversion ▸ List.mem_cons_self)
                · cases haccepted
          · cases haccepted

theorem sortByVersion_ascending {array : List (Option Entry)} {migrations : List Migration}
    (haccepted : checkMigrations [] array = .ok migrations) :
    (sortByVersion migrations).Pairwise fun a b => a.version < b.version := by
  have hnodup := (versions_of_checkMigrations haccepted).2
  have hsorted := sortByVersion_sorted migrations
  rw [← ((sortByVersion_perm migrations).map Migration.version).nodup_iff, List.nodup_iff_pairwise_ne,
    List.pairwise_map] at hnodup
  refine (hsorted.and hnodup).imp fun h => ?_
  omega

/-! ### One migration -/

theorem setSchemaVersion_grown (v : Int) (db : Database (Contents Schema)) :
    Grown db (setSchemaVersion field misuse v db).2 := by
  rw [setSchemaVersion]
  split
  · exact .refl db
  · exact exec_grown _ _ db

theorem behaved_migrationBody (up : Body (Contents Schema) Err Unit) (v : Int) :
    Behaved (migrationBody field refusal misuse up v) := by
  intro db hdepth
  have hup := behaved_run noFailure refusal up db hdepth
  rw [migrationBody]
  generalize up.run noFailure refusal db = ended at hup ⊢
  obtain ⟨result, db'⟩ := ended
  cases result with
  | error e => exact hup
  | ok _ => exact hup.trans (setSchemaVersion_grown field misuse v db')

/-- A body that returns has set the version. -/
theorem migrationBody_version {up : Body (Contents Schema) Err Unit} {v : Int}
    {db : Database (Contents Schema)}
    (hok : (migrationBody field refusal misuse up v db).1 = .ok ()) :
    (migrationBody field refusal misuse up v db).2.conn.data.userVersion = field.store v := by
  rw [migrationBody] at hok ⊢
  generalize up.run noFailure refusal db = ended at hok ⊢
  obtain ⟨result, db'⟩ := ended
  cases result with
  | error e => cases hok
  | ok _ =>
      simp only [setSchemaVersion] at hok ⊢
      by_cases hv : v < 0
      · rw [if_pos hv] at hok
        cases hok
      · rw [if_neg hv]
        rfl

/-- On an idle connection a transaction goes through or changes nothing. -/
theorem transaction_of_idle {fn : Database (Contents Schema) →
      Except Err Unit × Database (Contents Schema)} (hfn : Behaved fn)
    {db : Database (Contents Schema)} (hidle : Idle db) :
    Idle (db.transaction noFailure refusal fn).2 ∧
      (db.transaction noFailure refusal fn).1 = (fn (db.opening noFailure refusal).2).1 ∧
      ((db.transaction noFailure refusal fn).1 = .ok () ∧
          (db.transaction noFailure refusal fn).2.conn.data =
            (fn (db.opening noFailure refusal).2).2.conn.data ∨
        ∃ e, (db.transaction noFailure refusal fn).1 = .error e ∧
          (db.transaction noFailure refusal fn).2.conn.data = db.conn.data) := by
  have hsucceeds : Succeeds noFailure refusal fn db := by
    refine ⟨rfl, fun _ => hidle.2, ?_⟩
    cases (fn (db.opening noFailure refusal).2).1 with
    | ok _ => rfl
    | error e => exact ⟨rfl, fun _ => rfl⟩
  obtain hnot | hwell | hleft := (transaction_spec noFailure refusal hfn db).outcome
  · exact absurd ⟨hsucceeds.1, hsucceeds.2.1⟩ hnot.opens
  · refine ⟨⟨hwell.txDepth.trans hidle.1, hwell.stack.trans hidle.2⟩, hwell.result, ?_⟩
    have hdata := hwell.data
    rw [hwell.result]
    cases hbody : (fn (db.opening noFailure refusal).2).1 with
    | ok _ =>
        rw [hbody] at hdata
        exact .inl ⟨rfl, hdata⟩
    | error e =>
        rw [hbody] at hdata
        exact .inr ⟨e, rfl, hdata⟩
  · exact absurd hsucceeds.2.2 hleft.ends

/-! ### One call -/

variable {call : Call Schema Err} {current : Int}

/-- What the loop makes of the migrations that are pending. -/
structure Looped (pending : List Migration) (db : Database (Contents Schema))
    (out : Except Err (List Int) × Database (Contents Schema) × List (Ran Schema)) : Prop where
  idle : Idle out.2.1
  front : out.2.2.map Ran.version <+: pending.map Migration.version
  earlier : ∀ earlier ran later, out.2.2 = earlier ++ ran :: later →
    ∀ x ∈ earlier, x.applied = true
  failed : ∀ ran ∈ out.2.2, ran.applied = false → ran.after = ran.before
  stored : ∀ ran ∈ out.2.2, ran.applied = true → ran.after.userVersion = field.store ran.version
  chained : Chained db.conn.data out.2.2 out.2.1.conn.data
  returned : ∀ applied, out.1 = .ok applied →
    applied = out.2.2.map Ran.version ∧ ∀ ran ∈ out.2.2, ran.applied = true

/-- A loop that ends with the run of one migration. -/
theorem looped_single {m : Migration} {rest : List Migration} {db db' : Database (Contents Schema)}
    {e : Err} {applied : Bool} (hidle : Idle db')
    (hfailed : applied = false → db'.conn.data = db.conn.data)
    (hstored : applied = true → db'.conn.data.userVersion = field.store m.version) :
    Looped field (m :: rest) db
      (.error e, db', [⟨m.version, applied, db.conn.data, db'.conn.data⟩]) := by
  constructor
  · exact hidle
  · exact ⟨rest.map Migration.version, rfl⟩
  · intro earlier ran later hsplit x hx
    obtain ⟨rfl, -⟩ := List.append_eq_singleton_iff.mp hsplit.symm |>.resolve_right (by simp)
    cases hx
  · intro ran hran
    rw [List.mem_singleton.mp hran]
    exact hfailed
  · intro ran hran
    rw [List.mem_singleton.mp hran]
    exact hstored
  · exact ⟨rfl, rfl⟩
  · intro applied happlied
    cases happlied

theorem looped_cons {m : Migration} {rest : List Migration} {db db' : Database (Contents Schema)}
    {out : Except Err (List Int) × Database (Contents Schema) × List (Ran Schema)}
    (hout : Looped field rest db' out)
    (hstored : db'.conn.data.userVersion = field.store m.version) :
    Looped field (m :: rest) db (out.1.map (m.version :: ·), out.2.1,
      ⟨m.version, true, db.conn.data, db'.conn.data⟩ :: out.2.2) := by
  constructor
  · exact hout.idle
  · exact (List.prefix_cons_inj m.version).mpr hout.front
  · intro earlier ran later hsplit x hx
    cases earlier with
    | nil => cases hx
    | cons first earlier =>
        obtain ⟨rfl, htail⟩ := List.cons.inj hsplit
        obtain rfl | hx := List.mem_cons.mp hx
        · rfl
        · exact hout.earlier earlier ran later htail x hx
  · intro ran hran
    obtain rfl | hran := List.mem_cons.mp hran
    · intro hfalse
      cases hfalse
    · exact hout.failed ran hran
  · intro ran hran
    obtain rfl | hran := List.mem_cons.mp hran
    · exact fun _ => hstored
    · exact hout.stored ran hran
  · exact ⟨rfl, hout.chained⟩
  · intro applied happlied
    cases hresult : out.1 with
    | error e =>
        rw [hresult] at happlied
        cases happlied
    | ok others =>
        rw [hresult] at happlied
        cases happlied
        obtain ⟨hothers, hall⟩ := hout.returned others hresult
        refine ⟨by rw [hothers]; rfl, fun ran hran => ?_⟩
        obtain rfl | hran := List.mem_cons.mp hran
        · rfl
        · exact hall ran hran

theorem migrateLoop_spec (ordered : List Migration) {db : Database (Contents Schema)}
    (hidle : Idle db) :
    Looped field (ordered.filter fun m => current < m.version) db
      (migrateLoop field refusal misuse call current ordered db) := by
  induction ordered generalizing db with
  | nil =>
      refine ⟨hidle, List.prefix_rfl, ?_, by simp [migrateLoop], by simp [migrateLoop], rfl, ?_⟩
      · intro earlier ran later hsplit
        cases earlier <;> cases hsplit
      · intro applied happlied
        cases happlied
        simp [migrateLoop]
  | cons m rest ih =>
      rw [migrateLoop]
      by_cases hpending : current < m.version
      · rw [if_pos hpending, List.filter_cons_of_pos (by simpa using hpending)]
        obtain ⟨hidle', hresult, hcases⟩ := transaction_of_idle refusal
          (behaved_migrationBody field refusal misuse (call.up m.version) m.version) hidle
        generalize hcall : db.transaction noFailure refusal
          (migrationBody field refusal misuse (call.up m.version) m.version) = ended
          at hidle' hresult hcases ⊢
        obtain ⟨result, db'⟩ := ended
        obtain ⟨hok, hdata⟩ | ⟨e, herror, hdata⟩ := hcases
        · simp only at hok
          subst hok
          have hstored : db'.conn.data.userVersion = field.store m.version := by
            simp only at hdata
            rw [hdata]
            exact migrationBody_version field refusal misuse hresult.symm
          simp only
          cases call.onApply m.version m.name with
          | some e => exact looped_single field hidle' (fun h => nomatch h) fun _ => hstored
          | none => exact looped_cons field (ih hidle') hstored
        · simp only at herror
          subst herror
          exact looped_single field hidle' (fun _ => hdata) fun h => nomatch h
      · rw [if_neg hpending, List.filter_cons_of_neg (by simpa using hpending)]
        exact ih hidle

/-- A call runs the migrations of an accepted list as the loop does. -/
theorem looped_of_callStep {array : List (Option Entry)} {migrations : List Migration}
    (haccepted : checkMigrations [] array = .ok migrations) {record : Record Schema Err}
    {db db' : Database (Contents Schema)} (hidle : Idle db)
    (hstep : callStep field refusal misuse array record db db') :
    Looped field ((sortByVersion migrations).filter fun m => record.start.userVersion < m.version) db
      (record.result, db', record.ran) := by
  obtain ⟨hcall, hstart, -⟩ := hstep
  rw [migrate, haccepted] at hcall
  rw [← hcall, hstart]
  exact migrateLoop_spec field refusal misuse (sortByVersion migrations) hidle

/-- The versions above the one at the start, in ascending order. -/
theorem pending_ascending {array : List (Option Entry)} {migrations : List Migration}
    (haccepted : checkMigrations [] array = .ok migrations) (start : Int) :
    (((sortByVersion migrations).filter fun m => start < m.version).map
      Migration.version).Pairwise (· < ·) :=
  ((sortByVersion_ascending haccepted).sublist List.filter_sublist).map _ fun _ _ h => h

theorem inOrder_of_looped {array : List (Option Entry)} {migrations : List Migration}
    (haccepted : checkMigrations [] array = .ok migrations) {record : Record Schema Err}
    {db db' : Database (Contents Schema)}
    (hlooped : Looped field
      ((sortByVersion migrations).filter fun m => record.start.userVersion < m.version) db
      (record.result, db', record.ran))
    (hstart : record.start = db.conn.data) (hfinal : record.final = db'.conn.data) :
    InOrder migrations record := by
  have hpending := pending_ascending haccepted record.start.userVersion
  obtain ⟨rest, hfront⟩ := hlooped.front
  constructor
  · exact hpending.sublist hlooped.front.sublist
  · intro before ran after hsplit
    simp only [hsplit, List.map_append, List.map_cons, List.append_assoc, List.cons_append] at hfront
    have hin : ∀ v ∈ ((sortByVersion migrations).filter fun m =>
        record.start.userVersion < m.version).map Migration.version, record.start.userVersion < v := by
      intro v hv
      obtain ⟨m, hm, rfl⟩ := List.mem_map.mp hv
      exact of_decide_eq_true (List.mem_filter.mp hm).2
    refine ⟨hin ran.version (by rw [← hfront]; simp), fun m hm habove hbelow => ?_⟩
    have hversion : m.version ∈ ((sortByVersion migrations).filter fun m =>
        record.start.userVersion < m.version).map Migration.version := by
      apply List.mem_map_of_mem
      exact List.mem_filter.mpr ⟨(sortByVersion_perm migrations).mem_iff.mpr hm,
        decide_eq_true habove⟩
    rw [← hfront] at hversion hpending
    obtain hbefore | hlater := List.mem_append.mp hversion
    · obtain ⟨earlier, hearlier, hsame⟩ := List.mem_map.mp hbefore
      exact ⟨earlier, hearlier, hsame, hlooped.earlier before ran after hsplit earlier hearlier⟩
    · have htail := (List.pairwise_append.mp hpending).2.1
      obtain hsame | hlater := List.mem_cons.mp hlater
      · omega
      · have := (List.pairwise_cons.mp htail).1 _ hlater
        omega
  · exact hlooped.failed
  · rw [hstart, hfinal]
    exact hlooped.chained
  · exact hlooped.returned

/-! ### All calls -/

/-- Versions that fit are there after the call, and no smaller one is. -/
theorem version_of_chained {log : List (Ran Schema)} {start final : Contents Schema}
    (hchained : Chained start log final)
    (hstored : ∀ ran ∈ log, ran.applied = true → ran.after.userVersion = ran.version)
    (hfailed : ∀ ran ∈ log, ran.applied = false → ran.after = ran.before)
    (hascending : (log.map Ran.version).Pairwise (· < ·))
    (habove : ∀ ran ∈ log, start.userVersion < ran.version) :
    start.userVersion ≤ final.userVersion ∧
      ∀ ran ∈ log, ran.applied = true → ran.version ≤ final.userVersion := by
  induction log generalizing start with
  | nil =>
      have hfinal : final = start := hchained
      rw [hfinal]
      exact ⟨le_refl _, fun ran hran => absurd hran List.not_mem_nil⟩
  | cons first log ih =>
      obtain ⟨hbefore, hrest⟩ := hchained
      obtain ⟨hfirst, htail⟩ := List.pairwise_cons.mp hascending
      have hlow := habove first List.mem_cons_self
      have hafter : start.userVersion ≤ first.after.userVersion ∧
          first.after.userVersion ≤ first.version ∧
          (first.applied = true → first.after.userVersion = first.version) := by
        cases happlied : first.applied with
        | true =>
            have hversion := hstored first List.mem_cons_self happlied
            exact ⟨by omega, by omega, fun _ => hversion⟩
        | false =>
            rw [hfailed first List.mem_cons_self happlied, hbefore]
            exact ⟨by omega, by omega, fun h => nomatch h⟩
      obtain ⟨hle, hall⟩ := ih hrest (fun ran hran => hstored ran (List.mem_cons_of_mem _ hran))
        (fun ran hran => hfailed ran (List.mem_cons_of_mem _ hran)) htail (by
          intro ran hran
          have := hfirst ran.version (List.mem_map_of_mem hran)
          omega)
      refine ⟨by omega, fun ran hran happlied => ?_⟩
      obtain rfl | hran := List.mem_cons.mp hran
      · have := hafter.2.2 happlied
        omega
      · exact hall ran hran happlied

/-- The version of a run is that of a migration of the list, and above the one at the start. -/
theorem mem_of_ran {migrations : List Migration} {start : Int} {db : Database (Contents Schema)}
    {out : Except Err (List Int) × Database (Contents Schema) × List (Ran Schema)}
    (hlooped : Looped field ((sortByVersion migrations).filter fun m => start < m.version) db out)
    {ran : Ran Schema} (hran : ran ∈ out.2.2) :
    start < ran.version ∧ ∃ m ∈ migrations, m.version = ran.version := by
  have hversion := hlooped.front.subset (List.mem_map_of_mem hran)
  obtain ⟨m, hm, hsame⟩ := List.mem_map.mp hversion
  obtain ⟨hin, habove⟩ := List.mem_filter.mp hm
  rw [← hsame]
  exact ⟨of_decide_eq_true habove, m, (sortByVersion_perm migrations).mem_iff.mp hin, rfl⟩

variable {array : List (Option Entry)} {migrations : List Migration}
  {start final : Database (Contents Schema)} {history : List (Record Schema Err)}

theorem idle_of_run (haccepted : checkMigrations [] array = .ok migrations) (hidle : Idle start)
    (hrun : Runs.Run (callStep field refusal misuse array) start history final) : Idle final :=
  hrun.invariant hidle fun _ _ _ hs hstep =>
    (looped_of_callStep field refusal misuse haccepted hs hstep).idle

/-- Every call of a history runs its bodies in order. -/
theorem inOrder_of_run (haccepted : checkMigrations [] array = .ok migrations) (hidle : Idle start)
    (hrun : Runs.Run (callStep field refusal misuse array) start history final) :
    ∀ record ∈ history, InOrder migrations record := by
  intro record hrecord
  obtain ⟨earlier, later, rfl⟩ := List.append_of_mem hrecord
  obtain ⟨s, s', hbefore, hstep, -⟩ := hrun.step_at
  have hs := idle_of_run field refusal misuse haccepted hidle hbefore
  exact inOrder_of_looped field haccepted
    (looped_of_callStep field refusal misuse haccepted hs hstep) hstep.2.1 hstep.2.2

/-- A history goes on as it should when the new call runs none of what was applied. -/
theorem AppliedOnce.snoc {record : Record Schema Err} (honce : AppliedOnce history)
    (hnew : ∀ earlier ∈ history, ∀ ran ∈ earlier.ran, ran.applied = true →
      ∀ again ∈ record.ran, again.version ≠ ran.version) :
    AppliedOnce (history ++ [record]) := by
  intro before earlier middle later after hsplit ran hran happlied again hagain
  induction after using List.reverseRecOn with
  | nil =>
      have hends : history ++ [record] = (before ++ earlier :: middle) ++ [later] := by
        rw [hsplit]
        simp
      obtain ⟨hhistory, hlast⟩ := List.append_inj' hends rfl
      obtain rfl := List.singleton_inj.mp hlast
      exact hnew earlier (by rw [hhistory]; simp) ran hran happlied again hagain
  | append_singleton after last _ =>
      have hhistory : history = before ++ earlier :: (middle ++ later :: after) := by
        have hends : history ++ [record] =
            (before ++ earlier :: (middle ++ later :: after)) ++ [last] := by
          rw [hsplit]
          simp
        exact (List.append_inj' hends rfl).1
      exact honce before earlier middle later after hhistory ran hran happlied again hagain

/-- What was applied is not above the version of the database. -/
structure Covered (history : List (Record Schema Err)) (db : Database (Contents Schema)) : Prop where
  idle : Idle db
  below : ∀ record ∈ history, ∀ ran ∈ record.ran, ran.applied = true →
    ran.version ≤ db.conn.data.userVersion
  once : AppliedOnce history

theorem Covered.step (haccepted : checkMigrations [] array = .ok migrations)
    (hfits : ∀ m ∈ migrations, m.version < 2 ^ 31) {db db' : Database (Contents Schema)}
    {record : Record Schema Err} (hcovered : Covered history db)
    (hstep : callStep field refusal misuse array record db db') :
    Covered (history ++ [record]) db' := by
  have hlooped := looped_of_callStep field refusal misuse haccepted hcovered.idle hstep
  obtain ⟨-, hstart, hfinal⟩ := hstep
  have hinOrder := inOrder_of_looped field haccepted hlooped hstart hfinal
  have habove : ∀ ran ∈ record.ran, record.start.userVersion < ran.version := fun ran hran =>
    (mem_of_ran field hlooped hran).1
  have hstored : ∀ ran ∈ record.ran, ran.applied = true → ran.after.userVersion = ran.version := by
    intro ran hran happlied
    obtain ⟨-, m, hm, hversion⟩ := mem_of_ran field hlooped hran
    have hpositive := ((versions_of_checkMigrations haccepted).1 m hm).1
    have hsmall := hfits m hm
    rw [hlooped.stored ran hran happlied]
    exact field.keeps _ (by omega) (by omega)
  obtain ⟨hle, hbelow⟩ :=
    version_of_chained hinOrder.chained hstored hlooped.failed hinOrder.ascending habove
  rw [hstart] at hle habove
  rw [hfinal] at hle hbelow
  refine ⟨hlooped.idle, fun earlier hearlier ran hran happlied => ?_,
    hcovered.once.snoc fun earlier hearlier ran hran happlied again hagain => ?_⟩
  · obtain hearlier | hnew := List.mem_append.mp hearlier
    · have := hcovered.below earlier hearlier ran hran happlied
      omega
    · rw [List.mem_singleton.mp hnew] at hran
      exact hbelow ran hran happlied
  · have hold := hcovered.below earlier hearlier ran hran happlied
    have hnew := habove again hagain
    omega

/-- Versions that fit are applied once, in every history. -/
theorem appliedOnce_of_run (haccepted : checkMigrations [] array = .ok migrations)
    (hfits : ∀ m ∈ migrations, m.version < 2 ^ 31) (hidle : Idle start)
    (hrun : Runs.Run (callStep field refusal misuse array) start history final) :
    AppliedOnce history := by
  have hcovered : Covered history final := by
    apply hrun.history (I := Covered)
    · refine ⟨hidle, by simp, ?_⟩
      intro before record middle later after hsplit
      exact absurd hsplit (by simp)
    · intro labels record s s' _ hcovered hstep
      exact hcovered.step field refusal misuse haccepted hfits hstep
  exact hcovered.once

/-! ### A version that does not fit -/

/-- Functions that do nothing. -/
def quietCall : Call Schema Err := { up := fun _ => .give (), onApply := fun _ _ => none }

theorem migrateLoop_quietCall (ordered : List Migration) (hpositive : ∀ m ∈ ordered, 0 < m.version)
    {db : Database (Contents Schema)} (hidle : Idle db) :
    (migrateLoop field refusal misuse quietCall current ordered db).1 =
      .ok ((ordered.filter fun m => current < m.version).map Migration.version) := by
  induction ordered generalizing db with
  | nil => rfl
  | cons m rest ih =>
      have hrest := fun m hm => hpositive m (List.mem_cons_of_mem _ hm)
      rw [migrateLoop]
      by_cases hpending : current < m.version
      · have hm := hpositive m List.mem_cons_self
        rw [if_pos hpending, List.filter_cons_of_pos (by simpa using hpending)]
        obtain ⟨hidle', hresult, -⟩ := transaction_of_idle refusal
          (behaved_migrationBody field refusal misuse (quietCall.up m.version) m.version) hidle
        generalize hcall : db.transaction noFailure refusal
          (migrationBody field refusal misuse (quietCall.up m.version) m.version) = ended
          at hidle' hresult ⊢
        obtain ⟨result, db'⟩ := ended
        have hok : result = .ok () := by
          simp only at hresult
          rw [hresult, migrationBody]
          simp only [quietCall, Body.run, setSchemaVersion]
          rw [if_neg (by omega)]
          rfl
        subst hok
        simp only [quietCall]
        have hlater := ih hrest hidle'
        simp only [quietCall] at hlater
        rw [hlater]
        rfl
      · rw [if_neg hpending, List.filter_cons_of_neg (by simpa using hpending)]
        exact ih hrest hidle

/-- A record of `migrate` with the functions that do nothing. -/
def quietRecord (array : List (Option Entry)) (db : Database (Contents Schema)) : Record Schema Err :=
  let out := migrate field refusal misuse array quietCall db
  { call := quietCall, start := db.conn.data, result := out.1, ran := out.2.2,
    final := out.2.1.conn.data }

theorem callStep_quietRecord (array : List (Option Entry)) (db : Database (Contents Schema)) :
    callStep field refusal misuse array (quietRecord field refusal misuse array db) db
      (migrate field refusal misuse array quietCall db).2.1 :=
  ⟨rfl, rfl, rfl⟩

/-- Such a call runs all that is pending. -/
theorem ran_quietRecord (haccepted : checkMigrations [] array = .ok migrations)
    {db : Database (Contents Schema)} (hidle : Idle db) {m : Migration} (hm : m ∈ migrations)
    (hpending : db.conn.data.userVersion < m.version) :
    ∃ ran ∈ (quietRecord field refusal misuse array db).ran,
      ran.version = m.version ∧ ran.applied = true := by
  have hlooped := looped_of_callStep field refusal misuse haccepted hidle
    (callStep_quietRecord field refusal misuse array db)
  have hresult : (quietRecord field refusal misuse array db).result =
      .ok (((sortByVersion migrations).filter fun m =>
        db.conn.data.userVersion < m.version).map Migration.version) := by
    simp only [quietRecord, migrate, haccepted]
    apply migrateLoop_quietCall field refusal misuse _ _ hidle
    intro m hm
    exact ((versions_of_checkMigrations haccepted).1 m
      ((sortByVersion_perm migrations).mem_iff.mp hm)).1
  obtain ⟨hall, happlied⟩ := hlooped.returned _ hresult
  have hversion : m.version ∈ ((sortByVersion migrations).filter fun m =>
      db.conn.data.userVersion < m.version).map Migration.version := by
    apply List.mem_map_of_mem
    exact List.mem_filter.mpr ⟨(sortByVersion_perm migrations).mem_iff.mpr hm,
      decide_eq_true hpending⟩
  rw [hall] at hversion
  obtain ⟨ran, hran, hsame⟩ := List.mem_map.mp hversion
  exact ⟨ran, hran, hsame, happlied ran hran⟩

/-- The version after a call is the one at its start, or one from the field. -/
theorem version_lt_of_chained {log : List (Ran Schema)} {start final : Contents Schema} {bound : Int}
    (hchained : Chained start log final) (hstart : start.userVersion < bound)
    (hlog : ∀ ran ∈ log, ran.after.userVersion < bound ∨ ran.after = ran.before) :
    final.userVersion < bound := by
  induction log generalizing start with
  | nil =>
      have hfinal : final = start := hchained
      rw [hfinal]
      exact hstart
  | cons first log ih =>
      obtain ⟨hbefore, hrest⟩ := hchained
      refine ih hrest ?_ fun ran hran => hlog ran (List.mem_cons_of_mem _ hran)
      obtain hlow | hsame := hlog first List.mem_cons_self
      · exact hlow
      · rw [hsame, hbefore]
        exact hstart

/-- A version that does not fit is applied by two calls, one after the other. -/
theorem not_appliedOnce_of_large (haccepted : checkMigrations [] array = .ok migrations)
    {m : Migration} (hm : m ∈ migrations) (hlarge : 2 ^ 31 ≤ m.version) (schema : Schema) :
    ∃ history final, Runs.Run (callStep field refusal misuse array)
      (connect ⟨schema, 0⟩ : Database (Contents Schema)) history final ∧ ¬AppliedOnce history := by
  generalize hstart : (connect ⟨schema, 0⟩ : Database (Contents Schema)) = start
  have hzero : start.conn.data.userVersion = 0 := by rw [← hstart]; rfl
  have hidle : Idle start := by rw [← hstart]; exact ⟨rfl, rfl⟩
  have hfirst := callStep_quietRecord field refusal misuse array start
  have hlooped := looped_of_callStep field refusal misuse haccepted hidle hfirst
  generalize hnext : (migrate field refusal misuse array quietCall start).2.1 = next at hfirst hlooped
  have hsecond := callStep_quietRecord field refusal misuse array next
  refine ⟨_, _, (Runs.Run.nil.snoc hfirst).snoc hsecond, fun honce => ?_⟩
  obtain ⟨ran, hran, hversion, happlied⟩ :=
    ran_quietRecord field refusal misuse haccepted hidle hm (by omega)
  have hlow : next.conn.data.userVersion < 2 ^ 31 := by
    apply version_lt_of_chained hlooped.chained
    · omega
    · intro ran hran
      cases happlied : ran.applied with
      | true =>
          left
          rw [hlooped.stored ran hran happlied]
          exact (field.range _).2
      | false => exact .inr (hlooped.failed ran hran happlied)
  have hidle' : Idle next := hlooped.idle
  obtain ⟨again, hagain, hsame, -⟩ :=
    ran_quietRecord field refusal misuse haccepted hidle' hm (by omega)
  exact honce [] _ [] _ [] rfl ran hran happlied again hagain (hsame.trans hversion.symm)

/-- Migrations of an accepted list apply once and in order in every history of calls, exactly when their
versions fit into 32 bits. -/
theorem migrations_apply_once_iff [Inhabited Schema]
    (haccepted : checkMigrations [] array = .ok migrations) :
    (∀ (start final : Database (Contents Schema)) (history : List (Record Schema Err)), Idle start →
        Runs.Run (callStep field refusal misuse array) start history final →
          (∀ record ∈ history, InOrder migrations record) ∧ AppliedOnce history) ↔
      ∀ m ∈ migrations, m.version < 2 ^ 31 := by
  constructor
  · intro hall m hm
    by_contra hlarge
    obtain ⟨history, final, hrun, hnot⟩ := not_appliedOnce_of_large field refusal misuse haccepted hm
      (Int.not_lt.mp hlarge) (default : Schema)
    exact hnot (hall _ final history ⟨rfl, rfl⟩ hrun).2
  · intro hfits start final history hidle hrun
    exact ⟨inOrder_of_run field refusal misuse haccepted hidle hrun,
      appliedOnce_of_run field refusal misuse haccepted hfits hidle hrun⟩

/-- `PRAGMA user_version` takes 0 for a number that does not fit. -/
def sqliteField : UserVersionField where
  store v := if -2 ^ 31 ≤ v ∧ v < 2 ^ 31 then v else 0
  keeps v hlow hhigh := if_pos ⟨hlow, hhigh⟩
  range v := by
    split
    · assumption
    · decide

/-- Two migrations, the later one first. -/
def twoMigrations : List (Option Entry) :=
  [some ⟨some (.integer 2), lit "add_email", some .function⟩,
    some ⟨some (.integer 1), lit "init", some .function⟩]

theorem twoMigrations_apply_once :
    (∀ (start final : Database (Contents Nat)) (history : List (Record Nat Nat)), Idle start →
        Runs.Run (callStep sqliteField 1 (fun _ => 2) twoMigrations) start history final →
          (∀ record ∈ history, InOrder [⟨2, lit "add_email"⟩, ⟨1, lit "init"⟩] record) ∧
            AppliedOnce history) ↔
      ∀ m ∈ [(⟨2, lit "add_email"⟩ : Migration), ⟨1, lit "init"⟩], m.version < 2 ^ 31 :=
  migrations_apply_once_iff sqliteField 1 (fun _ => 2) (by rfl)

/-- A migration whose version is 2147483648. -/
def largeMigration : List (Option Entry) :=
  [some ⟨some (.integer 2147483648), lit "large", some .function⟩]

/-- It is applied again when `migrate` is called again. -/
theorem largeMigration_not_once :
    ¬∀ (final : Database (Contents Nat)) (history : List (Record Nat Nat)),
      Runs.Run (callStep sqliteField 1 (fun _ => 2) largeMigration) (connect ⟨0, 0⟩) history final →
        AppliedOnce history := by
  intro honce
  have haccepted : checkMigrations [] largeMigration = .ok [⟨2147483648, lit "large"⟩] := rfl
  obtain ⟨history, final, hrun, hnot⟩ := not_appliedOnce_of_large sqliteField 1 (fun _ => 2) haccepted
    List.mem_cons_self (by decide) 0
  exact hnot (honce final history hrun)

end Sqlite

end EZLanguage
