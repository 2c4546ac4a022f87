import EZLanguage.Compiler.ClosedExpr
import EZLanguage.Compiler.Syntax
import Mathlib.Data.List.Nodup

/-!
# Enumerations

`enumStatement` lowers an enumeration to a model with static members. A member without a value of its own
gets a literal from a counter, which follows the members whose value is written as an integer literal and
no others: the values of other expressions are only known at run time. Reading the tokens of a member is
left to the parser of expressions, so a declaration is the list of its members here. The counter is a
64-bit integer that wraps.
-/

namespace EZLanguage

namespace EnumStatement

/-- A member as it is declared, with its value if one is given. -/
structure Item where
  name : CString
  value : Option ClosedExpr

/-- The variables of the loop over the members. -/
structure Progress where
  members : List (ModelMember ClosedExpr PUnit)
  nextValue : Int64
  seen : List CString

/-- The counter behind a member with a value: one more than an integer literal. -/
def reseed (nextValue : Int64) : ClosedExpr → Int64
  | .literal (.int i) => i + 1
  | _ => nextValue

def member (name : CString) (valueExpr : ClosedExpr) : ModelMember ClosedExpr PUnit where
  isPublic := true
  isStatic := true
  isMethod := false
  name := name
  initializer := some valueExpr

/-- The body of the loop over the members of the enumeration `name`. -/
def addMember (name : CString) (s : Progress) (item : Item) : Except CString Progress :=
  if item.name ∈ s.seen then
    .error (lit "Duplicate enum member '" ++ item.name ++ lit "' in enum '" ++ name ++ lit "'")
  else
    match item.value with
    | some valueExpr => .ok {
        members := s.members ++ [member item.name valueExpr]
        nextValue := reseed s.nextValue valueExpr
        seen := item.name :: s.seen }
    | none => .ok {
        members := s.members ++ [member item.name (.literal (.int s.nextValue))]
        nextValue := s.nextValue + 1
        seen := item.name :: s.seen }

def addMembers (name : CString) (s : Progress) : List Item → Except CString Progress
  | [] => .ok s
  | item :: items =>
      match addMember name s item with
      | .ok s => addMembers name s items
      | .error message => .error message

/-- The members of the model an enumeration becomes. -/
def enumStatement (name : CString) (items : List Item) :
    Except CString (List (ModelMember ClosedExpr PUnit)) :=
  match addMembers name ⟨[], 0, []⟩ items with
  | .error message => .error message
  | .ok s =>
      if s.members.isEmpty then .error (lit "Enum '" ++ name ++ lit "' has no members")
      else .ok s.members

/-! ### What the members are worth -/

section values

open Operator (Fault)

variable (fpu : FloatUnit)

/-- The name of a member and what its initializer comes to at run time. -/
def worth (m : ModelMember ClosedExpr PUnit) : CString × Option (Except Fault Scalar) :=
  (m.name, m.initializer.map (ClosedExpr.value fpu))

/-- The value of a member whose value is an integer. -/
def integer? (e : ClosedExpr) : Option Int64 :=
  match e.value fpu with
  | .ok (.int i) => some i
  | _ => none

/-- One more than the value of the nearest member with an integer value in front of a place, and 0 where
there is none. -/
def expected (next : Int) : List Item → Int
  | [] => next
  | ⟨_, none⟩ :: before => expected (next + 1) before
  | ⟨_, some e⟩ :: before =>
      expected (match integer? fpu e with
        | some i => i.toInt + 1
        | none => next) before

/-- The counter at a place: one more than the nearest literal or automatic member in front of it. -/
def counted (next : Int64) : List Item → Int64
  | [] => next
  | ⟨_, none⟩ :: before => counted (next + 1) before
  | ⟨_, some e⟩ :: before => counted (reseed next e) before

/-- The values the members should have, none where one would pass the largest integer. -/
def numbering (next : Int) : List Item → Option (List (CString × Option (Except Fault Scalar)))
  | [] => some []
  | ⟨name, none⟩ :: items =>
      if next ≤ Int64.maxValue.toInt then
        (numbering (next + 1) items).map ((name, some (.ok (.int (Int64.ofInt next)))) :: ·)
      else none
  | ⟨name, some e⟩ :: items =>
      (numbering (match integer? fpu e with
        | some i => i.toInt + 1
        | none => next) items).map ((name, some (e.value fpu)) :: ·)

/-- Where an automatic member stands the counter is what it should be and is in range. -/
def InStep (c : Int64) (next : Int) (items : List Item) : Prop :=
  ∀ before name after, items = before ++ ⟨name, none⟩ :: after →
    (counted c before).toInt = expected fpu next before ∧
      expected fpu next before ≤ Int64.maxValue.toInt

/-- An enumeration has the members declared, in order and with the values they should have, or it is an
error where one would pass the largest integer. -/
def Numbered (name : CString) (items : List Item) : Prop :=
  match numbering fpu 0 items with
  | some values => ∃ members, enumStatement name items = .ok members ∧
      members.map (worth fpu) = values
  | none => ∃ message, enumStatement name items = .error message

/-- The members the loop adds from a counter on. -/
def membersFrom (c : Int64) : List Item → List (ModelMember ClosedExpr PUnit)
  | [] => []
  | ⟨name, none⟩ :: items => member name (.literal (.int c)) :: membersFrom (c + 1) items
  | ⟨name, some e⟩ :: items => member name e :: membersFrom (reseed c e) items

/-- Distinct names are all added in their order. -/
theorem addMembers_eq (name : CString) (items : List Item) : ∀ s : Progress,
    (items.map Item.name).Nodup → (∀ item ∈ items, item.name ∉ s.seen) →
    ∃ s', addMembers name s items = .ok s' ∧
      s'.members = s.members ++ membersFrom s.nextValue items := by
  induction items with
  | nil =>
      intro s _ _
      exact ⟨s, rfl, (List.append_nil _).symm⟩
  | cons item items ih =>
      intro s hnodup hseen
      rw [List.map_cons, List.nodup_cons] at hnodup
      have hnew := hseen item List.mem_cons_self
      have hrest : ∀ other ∈ items, other.name ∉ item.name :: s.seen := by
        intro other hother hmem
        obtain heq | hold := List.mem_cons.mp hmem
        · exact hnodup.1 (heq ▸ List.mem_map_of_mem hother)
        · exact hseen other (List.mem_cons_of_mem _ hother) hold
      obtain ⟨itemName, value⟩ := item
      rw [addMembers, addMember, if_neg hnew]
      cases value with
      | none =>
          obtain ⟨s', hs', hmembers⟩ := ih
            ⟨s.members ++ [member itemName (.literal (.int s.nextValue))], s.nextValue + 1,
              itemName :: s.seen⟩ hnodup.2 hrest
          refine ⟨s', hs', ?_⟩
          rw [hmembers, membersFrom, List.append_assoc]
          rfl
      | some e =>
          obtain ⟨s', hs', hmembers⟩ := ih
            ⟨s.members ++ [member itemName e], reseed s.nextValue e, itemName :: s.seen⟩
            hnodup.2 hrest
          refine ⟨s', hs', ?_⟩
          rw [hmembers, membersFrom, List.append_assoc]
          rfl

theorem enumStatement_eq (name : CString) {items : List Item} (hne : items ≠ [])
    (hnodup : (items.map Item.name).Nodup) :
    enumStatement name items = .ok (membersFrom 0 items) := by
  obtain ⟨s, hs, hmembers⟩ := addMembers_eq name items ⟨[], 0, []⟩ hnodup
    (fun _ _ => List.not_mem_nil)
  have hsome : s.members.isEmpty = false := by
    rw [hmembers]
    cases items with
    | nil => exact absurd rfl hne
    | cons item items =>
        obtain ⟨itemName, value⟩ := item
        cases value <;> rfl
  rw [enumStatement, hs]
  dsimp only
  rw [hsome, hmembers]
  rfl

theorem inStep_nil (c : Int64) (next : Int) : InStep fpu c next [] := by
  intro before name after h
  exact absurd h (by simp)

theorem inStep_automatic (c : Int64) (next : Int) (name : CString) (items : List Item) :
    InStep fpu c next (⟨name, none⟩ :: items) ↔
      (c.toInt = next ∧ next ≤ Int64.maxValue.toInt) ∧ InStep fpu (c + 1) (next + 1) items := by
  constructor
  · intro h
    refine ⟨h [] name items rfl, ?_⟩
    intro before name' after heq
    exact h (⟨name, none⟩ :: before) name' after (by rw [heq, List.cons_append])
  · rintro ⟨hhere, hrest⟩ before name' after heq
    cases before with
    | nil => exact hhere
    | cons item before =>
        rw [List.cons_append, List.cons.injEq] at heq
        obtain ⟨rfl, heq⟩ := heq
        exact hrest before name' after heq

theorem inStep_explicit (c : Int64) (next : Int) (name : CString) (e : ClosedExpr)
    (items : List Item) :
    InStep fpu c next (⟨name, some e⟩ :: items) ↔
      InStep fpu (reseed c e) (match integer? fpu e with
        | some i => i.toInt + 1
        | none => next) items := by
  constructor
  · intro h before name' after heq
    exact h (⟨name, some e⟩ :: before) name' after (by rw [heq, List.cons_append])
  · intro hrest before name' after heq
    cases before with
    | nil => exact absurd heq (by simp)
    | cons item before =>
        rw [List.cons_append, List.cons.injEq] at heq
        obtain ⟨rfl, heq⟩ := heq
        exact hrest before name' after heq

theorem worth_member (name : CString) (e : ClosedExpr) :
    worth fpu (member name e) = (name, some (e.value fpu)) := rfl

theorem ofInt_eq_iff {c : Int64} {next : Int} (hmin : Int64.minValue.toInt ≤ next)
    (hmax : next ≤ Int64.maxValue.toInt) : Int64.ofInt next = c ↔ c.toInt = next := by
  have hvalue : (Int64.ofInt next).toInt = next := by
    apply Int64.toInt_ofInt_of_le
    · exact hmin
    · rw [Int64.toInt_maxValue] at hmax
      omega
  rw [← Int64.toInt_inj, hvalue]
  exact eq_comm

/-- The values are as they should be exactly when the counter is in step. -/
theorem numbering_iff (items : List Item) : ∀ (c : Int64) (next : Int),
    Int64.minValue.toInt ≤ next →
    (numbering fpu next items = some ((membersFrom c items).map (worth fpu)) ↔
      InStep fpu c next items) := by
  induction items with
  | nil =>
      intro c next _
      exact ⟨fun _ => inStep_nil fpu c next, fun _ => rfl⟩
  | cons item items ih =>
      intro c next hmin
      obtain ⟨name, value⟩ := item
      cases value with
      | none =>
          have hrest := ih (c + 1) (next + 1) (by omega)
          rw [inStep_automatic, ← hrest, numbering, membersFrom, List.map_cons, worth_member]
          by_cases hmax : next ≤ Int64.maxValue.toInt
          · have hvalue := ofInt_eq_iff (c := c) hmin hmax
            have hliteral : (ClosedExpr.literal (.int c)).value fpu = .ok (.int c) := rfl
            rw [if_pos hmax, Option.map_eq_some_iff, hliteral]
            constructor
            · rintro ⟨values, hvalues, heq⟩
              simp only [List.cons.injEq, Prod.mk.injEq, Option.some.injEq, Except.ok.injEq,
                Scalar.int.injEq, true_and] at heq
              exact ⟨⟨hvalue.mp heq.1, hmax⟩, by rw [hvalues, heq.2]⟩
            · rintro ⟨⟨hc, -⟩, hvalues⟩
              exact ⟨_, hvalues, by rw [hvalue.mpr hc]⟩
          · rw [if_neg hmax]
            exact ⟨nofun, fun h => absurd h.1.2 hmax⟩
      | some e =>
          have hseed : Int64.minValue.toInt ≤ (match integer? fpu e with
              | some i => i.toInt + 1
              | none => next) := by
            cases integer? fpu e with
            | none => exact hmin
            | some i =>
                have hi := Int64.minValue_le_toInt i
                have hnext : i.toInt ≤ i.toInt + 1 := by omega
                exact Int.le_trans hi hnext
          rw [inStep_explicit, ← ih (reseed c e) _ hseed, numbering, membersFrom, List.map_cons,
            worth_member, Option.map_eq_some_iff]
          constructor
          · rintro ⟨values, hvalues, heq⟩
            rw [List.cons.injEq] at heq
            rw [hvalues, heq.2]
          · intro hvalues
            exact ⟨_, hvalues, rfl⟩

/-- With distinct names it is the values that decide. -/
theorem numbered_iff (name : CString) {items : List Item} (hne : items ≠ [])
    (hnodup : (items.map Item.name).Nodup) :
    Numbered fpu name items ↔
      numbering fpu 0 items = some ((membersFrom 0 items).map (worth fpu)) := by
  rw [Numbered, enumStatement_eq name hne hnodup]
  cases numbering fpu 0 items with
  | none =>
      constructor
      · rintro ⟨message, h⟩
        cases h
      · exact nofun
  | some values =>
      constructor
      · rintro ⟨members, hok, hvalues⟩
        obtain rfl := Except.ok.inj hok
        rw [hvalues]
      · intro h
        exact ⟨_, rfl, (Option.some.inj h).symm⟩

/-- An enumeration with distinct names is numbered as it should be exactly when at each automatic member
one more than the nearest literal or automatic member is one more than the nearest integer value. -/
theorem enumStatement_numbered_iff (name : CString) (items : List Item) (hne : items ≠ [])
    (hnodup : (items.map Item.name).Nodup) :
    Numbered fpu name items ↔ InStep fpu 0 0 items :=
  (numbered_iff fpu name hne hnodup).trans (numbering_iff fpu items 0 0 (by decide))

end values

/-- `enum E { A = 5, B }`. -/
def seeded : List Item := [⟨lit "A", some (.literal (.int 5))⟩, ⟨lit "B", none⟩]

theorem enumStatement_numbered_seeded : Numbered .bare (lit "E") seeded := by
  apply (enumStatement_numbered_iff .bare (lit "E") seeded (List.cons_ne_nil _ _) (by decide)).mpr
  rw [seeded, inStep_explicit, inStep_automatic]
  exact ⟨by decide, inStep_nil _ _ _⟩

/-- `enum E { A = -5, B }`, where `B` is 0. -/
def negative : List Item :=
  [⟨lit "A", some (.unary .MINUS (.literal (.int 5)))⟩, ⟨lit "B", none⟩]

theorem negative_not_numbered :
    ¬ ∀ (fpu : FloatUnit) (name : CString) (items : List Item), items ≠ [] →
      (items.map Item.name).Nodup → Numbered fpu name items := by
  intro h
  have hne : negative ≠ [] := List.cons_ne_nil _ _
  have hnumbered := h .bare (lit "E") negative hne (by decide)
  rw [numbered_iff .bare (lit "E") hne (by decide), numbering_iff .bare negative 0 0 (by decide),
    negative, inStep_explicit, inStep_automatic] at hnumbered
  exact absurd hnumbered.1 (by decide)

end EnumStatement

end EZLanguage
