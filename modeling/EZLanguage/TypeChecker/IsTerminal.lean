import EZLanguage.Compiler.Syntax
import EZLanguage.Support.Runs
import EZLanguage.VM.Value

/-!
# Statements that do not complete

`isTerminal` decides whether the code behind a statement is reported as unreachable. What a statement does
is the control flow of the code the compiler makes of it: the statements around the current one are a stack
of frames, the VM's try stack is kept beside it, and `give`, `escape` and `skip` run the `finally` blocks
they leave, which are compiled into them. Since `escape` in a `catch` takes an entry off the try stack that
is gone already and `give` leaves entries on it, the two stacks need not agree. An expression is anything
that has a value or throws.
-/

namespace EZLanguage

namespace IsTerminal

mutual

/-- `TypeChecker::isTerminal`. -/
def isTerminal : Stmt → Bool
  | .mk _ _ (.GiveStmt _) => true
  | .mk _ _ (.ThrowStmt _) => true
  | .mk _ _ .EscapeStmt => true
  | .mk _ _ .SkipStmt => true
  | .mk _ _ (.BlockStmt statements) => anyTerminal statements
  | .mk _ _ (.WhenStmt _ thenBranch (some elseBranch)) =>
      isTerminal thenBranch && isTerminal elseBranch
  | .mk _ _ (.TryStmt tryBlock catchBlocks _) => isTerminal tryBlock && allCatches catchBlocks
  | .mk _ _ (.MatchStmt _ arms) => arms.any (·.pattern.isNone) && allArms arms
  | _ => false

def anyTerminal : List Stmt → Bool
  | [] => false
  | s :: statements => isTerminal s || anyTerminal statements

def allCatches : List (CatchBlock Stmt) → Bool
  | [] => true
  | ⟨_, _, body⟩ :: catchBlocks => isTerminal body && allCatches catchBlocks

def allArms : List (MatchArm Expr Stmt) → Bool
  | [] => true
  | ⟨_, body⟩ :: arms => isTerminal body && allArms arms

end

example : isTerminal (.mk 1 [] (.BlockStmt [])) = false := by simp [isTerminal, anyTerminal]

/-! ### The control flow of a task -/

/-- A loop's body. -/
def loopBody? : Stmt → Option Stmt
  | .mk _ _ (.WhileStmt _ body) => some body
  | .mk _ _ (.RepeatStmt _ _ _ _ body) => some body
  | .mk _ _ (.GetStmt _ _ _ body) => some body
  | _ => none

def finallyBlock? : Stmt → Option Stmt
  | .mk _ _ (.TryStmt _ _ finallyBlock) => finallyBlock
  | _ => none

/-- The statements without statements of their own to run. -/
def isSimple : Stmt → Bool
  | .mk _ _ (.ExpressionStmt _) | .mk _ _ (.OutStmt _) | .mk _ _ (.VarDeclStmt _ _)
  | .mk _ _ (.TaskStmt _) | .mk _ _ (.UseStmt _ _) | .mk _ _ (.ModelStmt _)
  | .mk _ _ (.StaticStmt _ _) | .mk _ _ (.InterfaceStmt _ _) => true
  | _ => false

/-- What the statements of a task do besides control flow: the values of expressions, simple statements,
whether a loop goes on, and the tests of arms and of catches. -/
structure World (Store : Type) where
  evaluates : Expr → Store → Except Value Value → Store → Prop
  performs : Stmt → Store → Option Value → Store → Prop
  continues : Stmt → Store → Except Value Bool → Store → Prop
  fits : Expr → Value → Store → Except Value Bool → Store → Prop
  instanceOf : Store → Value → CString → Bool

inductive Exit where
  | give
  | escape
  | skip

/-- What is around a statement. A `finally` block that an exit runs is compiled where the exit stands, and
the loop around that place, if it is in the `try`, is the one its own `escape` and `skip` mean. -/
inductive Frame where
  | block (line : Nat) (filename : CString) (before rest : List Stmt)
  | branch (parent : Stmt)
  | loop (parent : Stmt)
  | trying (parent : Stmt)
  | catching (parent : Stmt)
  | finishing (parent : Stmt) (pending : Value)
  | leaving (exit : Exit) (inner : Option (Stmt × List Frame))

inductive Mode where
  | run (s : Stmt)
  | done (s : Stmt)
  | check (s : Stmt)
  | select (s : Stmt) (subject : Value) (arms : List (MatchArm Expr Stmt))
  | thrown (v : Value)
  | handle (s : Stmt) (v : Value) (catchBlocks : List (CatchBlock Stmt))
  | leave (exit : Exit) (inner : Option (Stmt × List Frame))
  | ended

/-- An entry of the try stack. -/
structure Handler where
  parent : Stmt
  catchBlocks : List (CatchBlock Stmt)
  frames : List Frame

structure State (Store : Type) where
  mode : Mode
  frames : List Frame
  handlers : List Handler
  store : Store

/-- Where a `try` goes on behind its body or a catch. -/
def finish (parent : Stmt) (pending : Value) (k : List Frame) : Mode × List Frame :=
  match finallyBlock? parent with
  | some finallyBlock => (.run finallyBlock, .finishing parent pending :: k)
  | none => (.done parent, k)

/-- An exit out of a `try`. -/
def leaveTry (exit : Exit) (inner : Option (Stmt × List Frame)) (parent : Stmt) (k : List Frame) :
    Mode × List Frame :=
  match finallyBlock? parent with
  | some finallyBlock => (.run finallyBlock, .leaving exit inner :: k)
  | none => (.leave exit inner, k)

def catchesAll (cb : CatchBlock Stmt) : Bool := cb.typeName.isEmpty

section steps

variable {Store : Type} (w : World Store)

/-- The steps. A step is labelled with the exception it holds back for a `finally` block. -/
inductive Step : Option Value → State Store → State Store → Prop
  | simple {s k h σ σ'} (hsimple : isSimple s = true) (hdo : w.performs s σ none σ') :
      Step none ⟨.run s, k, h, σ⟩ ⟨.done s, k, h, σ'⟩
  | simpleThrow {s k h σ σ' v} (hsimple : isSimple s = true) (hdo : w.performs s σ (some v) σ') :
      Step none ⟨.run s, k, h, σ⟩ ⟨.thrown v, k, h, σ'⟩
  | blockEmpty {l f k h σ} :
      Step none ⟨.run (.mk l f (.BlockStmt [])), k, h, σ⟩ ⟨.done (.mk l f (.BlockStmt [])), k, h, σ⟩
  | blockFirst {l f s rest k h σ} :
      Step none ⟨.run (.mk l f (.BlockStmt (s :: rest))), k, h, σ⟩
        ⟨.run s, .block l f [] rest :: k, h, σ⟩
  | blockNext {l f before s t rest k h σ} :
      Step none ⟨.done s, .block l f before (t :: rest) :: k, h, σ⟩
        ⟨.run t, .block l f (before ++ [s]) rest :: k, h, σ⟩
  | blockDone {l f before s k h σ} :
      Step none ⟨.done s, .block l f before [] :: k, h, σ⟩
        ⟨.done (.mk l f (.BlockStmt (before ++ [s]))), k, h, σ⟩
  | whenThen {l f c t e k h σ σ' v} (hc : w.evaluates c σ (.ok v) σ') (hv : v.isTruthy = true) :
      Step none ⟨.run (.mk l f (.WhenStmt c t e)), k, h, σ⟩
        ⟨.run t, .branch (.mk l f (.WhenStmt c t e)) :: k, h, σ'⟩
  | whenElse {l f c t e k h σ σ' v} (hc : w.evaluates c σ (.ok v) σ') (hv : v.isTruthy = false) :
      Step none ⟨.run (.mk l f (.WhenStmt c t (some e))), k, h, σ⟩
        ⟨.run e, .branch (.mk l f (.WhenStmt c t (some e))) :: k, h, σ'⟩
  | whenNone {l f c t k h σ σ' v} (hc : w.evaluates c σ (.ok v) σ') (hv : v.isTruthy = false) :
      Step none ⟨.run (.mk l f (.WhenStmt c t none)), k, h, σ⟩
        ⟨.done (.mk l f (.WhenStmt c t none)), k, h, σ'⟩
  | whenThrow {l f c t e k h σ σ' v} (hc : w.evaluates c σ (.error v) σ') :
      Step none ⟨.run (.mk l f (.WhenStmt c t e)), k, h, σ⟩ ⟨.thrown v, k, h, σ'⟩
  | loopStart {s b k h σ} (hb : loopBody? s = some b) :
      Step none ⟨.run s, k, h, σ⟩ ⟨.check s, k, h, σ⟩
  | loopOn {s b k h σ σ'} (hb : loopBody? s = some b) (hc : w.continues s σ (.ok true) σ') :
      Step none ⟨.check s, k, h, σ⟩ ⟨.run b, .loop s :: k, h, σ'⟩
  | loopOff {s k h σ σ'} (hc : w.continues s σ (.ok false) σ') :
      Step none ⟨.check s, k, h, σ⟩ ⟨.done s, k, h, σ'⟩
  | loopThrow {s k h σ σ' v} (hc : w.continues s σ (.error v) σ') :
      Step none ⟨.check s, k, h, σ⟩ ⟨.thrown v, k, h, σ'⟩
  | loopAgain {s p k h σ} : Step none ⟨.done s, .loop p :: k, h, σ⟩ ⟨.check p, k, h, σ⟩
  | matchSubject {l f e arms k h σ σ' v} (he : w.evaluates e σ (.ok v) σ') :
      Step none ⟨.run (.mk l f (.MatchStmt e arms)), k, h, σ⟩
        ⟨.select (.mk l f (.MatchStmt e arms)) v arms, k, h, σ'⟩
  | matchThrow {l f e arms k h σ σ' v} (he : w.evaluates e σ (.error v) σ') :
      Step none ⟨.run (.mk l f (.MatchStmt e arms)), k, h, σ⟩ ⟨.thrown v, k, h, σ'⟩
  | armDefault {s v b arms k h σ} :
      Step none ⟨.select s v (⟨none, b⟩ :: arms), k, h, σ⟩ ⟨.run b, .branch s :: k, h, σ⟩
  | armFits {s v e b arms k h σ σ'} (he : w.fits e v σ (.ok true) σ') :
      Step none ⟨.select s v (⟨some e, b⟩ :: arms), k, h, σ⟩ ⟨.run b, .branch s :: k, h, σ'⟩
  | armNext {s v e b arms k h σ σ'} (he : w.fits e v σ (.ok false) σ') :
      Step none ⟨.select s v (⟨some e, b⟩ :: arms), k, h, σ⟩ ⟨.select s v arms, k, h, σ'⟩
  | armThrow {s v e b arms k h σ σ' x} (he : w.fits e v σ (.error x) σ') :
      Step none ⟨.select s v (⟨some e, b⟩ :: arms), k, h, σ⟩ ⟨.thrown x, k, h, σ'⟩
  | armNone {s v k h σ} : Step none ⟨.select s v [], k, h, σ⟩ ⟨.done s, k, h, σ⟩
  | branchDone {s p k h σ} : Step none ⟨.done s, .branch p :: k, h, σ⟩ ⟨.done p, k, h, σ⟩
  | exportInner {l f s k h σ} :
      Step none ⟨.run (.mk l f (.ExportStmt s)), k, h, σ⟩
        ⟨.run s, .branch (.mk l f (.ExportStmt s)) :: k, h, σ⟩
  | exportName {l f s k h σ} :
      Step none ⟨.run (.mk l f (.ExportStmt s)), k, h, σ⟩ ⟨.done (.mk l f (.ExportStmt s)), k, h, σ⟩
  | giveNil {l f k h σ} :
      Step none ⟨.run (.mk l f (.GiveStmt none)), k, h, σ⟩ ⟨.leave .give none, k, h, σ⟩
  | giveValue {l f e k h σ σ' v} (he : w.evaluates e σ (.ok v) σ') :
      Step none ⟨.run (.mk l f (.GiveStmt (some e))), k, h, σ⟩ ⟨.leave .give none, k, h, σ'⟩
  | giveThrow {l f e k h σ σ' v} (he : w.evaluates e σ (.error v) σ') :
      Step none ⟨.run (.mk l f (.GiveStmt (some e))), k, h, σ⟩ ⟨.thrown v, k, h, σ'⟩
  | throwValue {l f e k h σ σ' v} (he : w.evaluates e σ (.ok v) σ') :
      Step none ⟨.run (.mk l f (.ThrowStmt e)), k, h, σ⟩ ⟨.thrown v, k, h, σ'⟩
  | throwThrow {l f e k h σ σ' v} (he : w.evaluates e σ (.error v) σ') :
      Step none ⟨.run (.mk l f (.ThrowStmt e)), k, h, σ⟩ ⟨.thrown v, k, h, σ'⟩
  | escape {l f k h σ} :
      Step none ⟨.run (.mk l f .EscapeStmt), k, h, σ⟩ ⟨.leave .escape none, k, h, σ⟩
  | skip {l f k h σ} :
      Step none ⟨.run (.mk l f .SkipStmt), k, h, σ⟩ ⟨.leave .skip none, k, h, σ⟩
  | tryBody {l f b cs fin k h σ} :
      Step none ⟨.run (.mk l f (.TryStmt b cs fin)), k, h, σ⟩
        ⟨.run b, .trying (.mk l f (.TryStmt b cs fin)) :: k,
          ⟨.mk l f (.TryStmt b cs fin), cs, k⟩ :: h, σ⟩
  | tryDone {s p k h σ} :
      Step none ⟨.done s, .trying p :: k, h, σ⟩ ⟨(finish p .nil k).1, (finish p .nil k).2, h.tail, σ⟩
  -- the variable of the pending exception may still hold an earlier one
  | catchDone {s p k h σ} (pending : Value) :
      Step none ⟨.done s, .catching p :: k, h, σ⟩
        ⟨(finish p pending k).1, (finish p pending k).2, h, σ⟩
  | finallyDone {s p k h σ} :
      Step none ⟨.done s, .finishing p .nil :: k, h, σ⟩ ⟨.done p, k, h, σ⟩
  | finallyThrow {s p v k h σ} (hv : v ≠ .nil) :
      Step none ⟨.done s, .finishing p v :: k, h, σ⟩ ⟨.thrown v, k, h, σ⟩
  | leaveOn {s exit inner k h σ} :
      Step none ⟨.done s, .leaving exit inner :: k, h, σ⟩ ⟨.leave exit inner, k, h, σ⟩
  | caught {v e k h σ} :
      Step none ⟨.thrown v, k, e :: h, σ⟩ ⟨.handle e.parent v e.catchBlocks, e.frames, h, σ⟩
  | uncaught {v k σ} : Step none ⟨.thrown v, k, [], σ⟩ ⟨.ended, k, [], σ⟩
  | handleHere {s v cb cbs k h σ}
      (hcb : catchesAll cb = true ∨ w.instanceOf σ v cb.typeName = true) :
      Step none ⟨.handle s v (cb :: cbs), k, h, σ⟩ ⟨.run cb.body, .catching s :: k, h, σ⟩
  | handleNext {s v cb cbs k h σ} (hall : catchesAll cb = false)
      (htype : w.instanceOf σ v cb.typeName = false) :
      Step none ⟨.handle s v (cb :: cbs), k, h, σ⟩ ⟨.handle s v cbs, k, h, σ⟩
  | holdBack {s v fin k h σ} (hfin : finallyBlock? s = some fin) :
      Step (some v) ⟨.handle s v [], k, h, σ⟩ ⟨.run fin, .finishing s v :: k, h, σ⟩
  | rethrow {s v k h σ} (hfin : finallyBlock? s = none) :
      Step none ⟨.handle s v [], k, h, σ⟩ ⟨.thrown v, k, h, σ⟩
  | leaveBlock {exit inner l f before rest k h σ} :
      Step none ⟨.leave exit inner, .block l f before rest :: k, h, σ⟩ ⟨.leave exit inner, k, h, σ⟩
  | leaveBranch {exit inner p k h σ} :
      Step none ⟨.leave exit inner, .branch p :: k, h, σ⟩ ⟨.leave exit inner, k, h, σ⟩
  | leaveFinally {exit inner p v k h σ} :
      Step none ⟨.leave exit inner, .finishing p v :: k, h, σ⟩ ⟨.leave exit inner, k, h, σ⟩
  | giveLoop {inner p k h σ} :
      Step none ⟨.leave .give inner, .loop p :: k, h, σ⟩
        ⟨.leave .give (inner.or (some (p, k))), k, h, σ⟩
  | escapeLoop {inner p k h σ} :
      Step none ⟨.leave .escape inner, .loop p :: k, h, σ⟩ ⟨.done p, k, h, σ⟩
  | skipLoop {inner p k h σ} :
      Step none ⟨.leave .skip inner, .loop p :: k, h, σ⟩ ⟨.check p, k, h, σ⟩
  | giveTrying {inner p k h σ} :
      Step none ⟨.leave .give inner, .trying p :: k, h, σ⟩
        ⟨(leaveTry .give inner p k).1, (leaveTry .give inner p k).2, h, σ⟩
  | giveCatching {inner p k h σ} :
      Step none ⟨.leave .give inner, .catching p :: k, h, σ⟩
        ⟨(leaveTry .give inner p k).1, (leaveTry .give inner p k).2, h, σ⟩
  | jumpTrying {exit inner p k h σ} (hexit : exit ≠ .give) :
      Step none ⟨.leave exit inner, .trying p :: k, h, σ⟩
        ⟨(leaveTry exit inner p k).1, (leaveTry exit inner p k).2, h.tail, σ⟩
  -- the entry of this `try` is gone, and the one of another is taken off
  | jumpCatching {exit inner p k h σ} (hexit : exit ≠ .give) :
      Step none ⟨.leave exit inner, .catching p :: k, h, σ⟩
        ⟨(leaveTry exit inner p k).1, (leaveTry exit inner p k).2, h.tail, σ⟩
  -- a jump out of a `finally` block that `give` runs may pass a `try` by, since the loop it goes to can
  -- have been opened with more of them around it
  | passTrying {exit inner p k h σ} (hexit : exit ≠ .give) :
      Step none ⟨.leave exit inner, .trying p :: k, h, σ⟩ ⟨.leave exit inner, k, h, σ⟩
  | passCatching {exit inner p k h σ} (hexit : exit ≠ .give) :
      Step none ⟨.leave exit inner, .catching p :: k, h, σ⟩ ⟨.leave exit inner, k, h, σ⟩
  | giveLeaving {inner exit' inner' k h σ} :
      Step none ⟨.leave .give inner, .leaving exit' inner' :: k, h, σ⟩
        ⟨.leave .give (inner.or inner'), k, h, σ⟩
  | escapeInner {inner exit' p k' k h σ} :
      Step none ⟨.leave .escape inner, .leaving exit' (some (p, k')) :: k, h, σ⟩ ⟨.done p, k', h, σ⟩
  | skipInner {inner exit' p k' k h σ} :
      Step none ⟨.leave .skip inner, .leaving exit' (some (p, k')) :: k, h, σ⟩ ⟨.check p, k', h, σ⟩
  | jumpLeaving {exit inner exit' k h σ} (hexit : exit ≠ .give) :
      Step none ⟨.leave exit inner, .leaving exit' none :: k, h, σ⟩ ⟨.leave exit inner, k, h, σ⟩
  | given {inner h σ} : Step none ⟨.leave .give inner, [], h, σ⟩ ⟨.ended, [], h, σ⟩
  | fallsOff {s h σ} : Step none ⟨.done s, [], h, σ⟩ ⟨.ended, [], h, σ⟩
  -- a call in between takes an entry of its caller off
  | handlerLost {m k e h σ} : Step none ⟨m, k, e :: h, σ⟩ ⟨m, k, h, σ⟩

/-- The start of a statement, such as the body of a task. -/
def start (s : Stmt) (σ : Store) : State Store := ⟨.run s, [], [], σ⟩

end steps

/-- In a state no terminal statement has completed, and no statement behind one is run. -/
structure Sound {Store : Type} (s : State Store) : Prop where
  completes : ∀ t, s.mode = .done t → isTerminal t = false
  unreachable : ∀ t l f before rest k, s.mode = .run t → s.frames = .block l f before rest :: k →
    ∀ b ∈ before, isTerminal b = false

/-! ### Statements in their places -/

/-- A statement in its place: where it completes, what is around it may. -/
inductive At : Stmt → List Frame → Prop
  | root {s} : At s []
  | block {s l f before rest k} (hbefore : ∀ b ∈ before, isTerminal b = false)
      (hk : At (.mk l f (.BlockStmt (before ++ s :: rest))) k) : At s (.block l f before rest :: k)
  | branch {s p k} (hp : isTerminal s = false → isTerminal p = false) (hk : At p k) :
      At s (.branch p :: k)
  | loop {s p k} (hp : isTerminal p = false) (hk : At p k) : At s (.loop p :: k)
  | trying {s p k} (hp : isTerminal s = false → isTerminal p = false) (hk : At p k) :
      At s (.trying p :: k)
  | catching {s p k} (hp : isTerminal s = false → isTerminal p = false) (hk : At p k) :
      At s (.catching p :: k)
  | finishing {s p v k} (hp : v = .nil → isTerminal p = false) (hk : At p k) :
      At s (.finishing p v :: k)
  | leaving {s p exit inner k} (hk : At p k)
      (hloop : ∀ q k', inner = some (q, k') → isTerminal q = false)
      (hinner : ∀ q k', inner = some (q, k') → At q k') : At s (.leaving exit inner :: k)

/-- The loop around an exit is in its place. -/
def InnerAt (inner : Option (Stmt × List Frame)) : Prop :=
  ∀ q k', inner = some (q, k') → isTerminal q = false ∧ At q k'

def ModeAt : Mode → List Frame → Prop
  | .run s, k => At s k
  | .done s, k => isTerminal s = false ∧ At s k
  | .check s, k => isTerminal s = false ∧ At s k
  | .select s _ arms, k =>
      (isTerminal s = true → arms.any (·.pattern.isNone) = true ∧ allArms arms = true) ∧ At s k
  | .thrown _, _ => True
  | .handle s _ catchBlocks, k => (isTerminal s = true → allCatches catchBlocks = true) ∧ At s k
  | .leave _ inner, k => (∃ p, At p k) ∧ InnerAt inner
  | .ended, _ => True

/-- The invariant of the runs that hold no nil back. -/
structure Placed {Store : Type} (s : State Store) : Prop where
  mode : ModeAt s.mode s.frames
  handlers : ∀ h ∈ s.handlers,
    (isTerminal h.parent = true → allCatches h.catchBlocks = true) ∧ At h.parent h.frames

theorem anyTerminal_append (xs ys : List Stmt) :
    anyTerminal (xs ++ ys) = (anyTerminal xs || anyTerminal ys) := by
  induction xs with
  | nil => simp [anyTerminal]
  | cons s xs ih => simp [anyTerminal, ih, Bool.or_assoc]

theorem anyTerminal_false {xs : List Stmt} (h : ∀ s ∈ xs, isTerminal s = false) :
    anyTerminal xs = false := by
  induction xs with
  | nil => simp [anyTerminal]
  | cons s xs ih =>
      rw [anyTerminal, h s List.mem_cons_self, ih fun t ht => h t (List.mem_cons_of_mem _ ht)]
      rfl

theorem isTerminal_loop {s b : Stmt} (hb : loopBody? s = some b) : isTerminal s = false := by
  unfold loopBody? at hb
  split at hb <;> simp_all [isTerminal]

theorem isTerminal_simple {s : Stmt} (hs : isSimple s = true) : isTerminal s = false := by
  unfold isSimple at hs
  split at hs <;> simp_all [isTerminal]

theorem modeAt_finish {p : Stmt} {v : Value} {k : List Frame} (hp : isTerminal p = false)
    (hk : At p k) : ModeAt (finish p v k).1 (finish p v k).2 := by
  unfold finish
  cases finallyBlock? p with
  | some fin => exact .finishing (fun _ => hp) hk
  | none => exact ⟨hp, hk⟩

theorem modeAt_leaveTry {exit : Exit} {inner : Option (Stmt × List Frame)} {p : Stmt}
    {k : List Frame} (hinner : InnerAt inner) (hk : At p k) :
    ModeAt (leaveTry exit inner p k).1 (leaveTry exit inner p k).2 := by
  unfold leaveTry
  cases finallyBlock? p with
  | some fin =>
      exact .leaving hk (fun q k' h => (hinner q k' h).1) fun q k' h => (hinner q k' h).2
  | none => exact ⟨⟨p, hk⟩, hinner⟩

theorem innerAt_or {inner inner' : Option (Stmt × List Frame)} (h : InnerAt inner)
    (h' : InnerAt inner') : InnerAt (inner.or inner') := by
  cases inner with
  | some x => exact h
  | none => exact h'

theorem innerAt_none : InnerAt none := fun _ _ h => by cases h

/-- Around every statement in its place there is another. -/
theorem at_outer {s : Stmt} {f : Frame} {k : List Frame} (h : At s (f :: k)) : ∃ p, At p k := by
  cases h with
  | block _ hk => exact ⟨_, hk⟩
  | branch _ hk => exact ⟨_, hk⟩
  | loop _ hk => exact ⟨_, hk⟩
  | trying _ hk => exact ⟨_, hk⟩
  | catching _ hk => exact ⟨_, hk⟩
  | finishing _ hk => exact ⟨_, hk⟩
  | leaving hk _ _ => exact ⟨_, hk⟩

section invariant

variable {Store : Type} {w : World Store}

theorem step_mode {l : Option Value} {s s' : State Store} (h : Placed s) (hstep : Step w l s s')
    (hl : l ≠ some .nil) : ModeAt s'.mode s'.frames := by
  obtain ⟨hmode, hhandlers⟩ := h
  cases hstep with
  | simple hsimple => exact ⟨isTerminal_simple hsimple, hmode⟩
  | simpleThrow => trivial
  | blockEmpty => exact ⟨by simp [isTerminal, anyTerminal], hmode⟩
  | blockFirst => exact .block (fun _ hb => by cases hb) hmode
  | blockNext =>
      obtain ⟨hs, hat⟩ := hmode
      cases hat with
      | block hbefore hk =>
          apply At.block
          · intro b hb
            rw [List.mem_append, List.mem_singleton] at hb
            obtain hb | rfl := hb
            · exact hbefore b hb
            · exact hs
          · rw [List.append_assoc]
            exact hk
  | blockDone =>
      obtain ⟨hs, hat⟩ := hmode
      cases hat with
      | block hbefore hk =>
          refine ⟨?_, hk⟩
          rw [isTerminal, anyTerminal_append, anyTerminal_false hbefore, anyTerminal, hs]
          rfl
  | @whenThen _ _ _ _ e =>
      apply At.branch _ hmode
      intro ht
      cases e with
      | none => simp [isTerminal]
      | some e => simp [isTerminal, ht]
  | whenElse =>
      apply At.branch _ hmode
      intro he
      simp [isTerminal, he]
  | whenNone => exact ⟨by simp [isTerminal], hmode⟩
  | whenThrow => trivial
  | loopStart hb => exact ⟨isTerminal_loop hb, hmode⟩
  | loopOn => exact .loop hmode.1 hmode.2
  | loopOff => exact hmode
  | loopThrow => trivial
  | loopAgain =>
      cases hmode.2 with
      | loop hp hk => exact ⟨hp, hk⟩
  | matchSubject =>
      refine ⟨fun ht => ?_, hmode⟩
      rw [isTerminal, Bool.and_eq_true] at ht
      exact ht
  | matchThrow => trivial
  | armDefault =>
      apply At.branch _ hmode.2
      intro hb
      rw [← Bool.not_eq_true]
      intro hs
      have harms := (hmode.1 hs).2
      simp [allArms, hb] at harms
  | armFits =>
      apply At.branch _ hmode.2
      intro hb
      rw [← Bool.not_eq_true]
      intro hs
      have harms := (hmode.1 hs).2
      simp [allArms, hb] at harms
  | armNext =>
      refine ⟨fun hs => ?_, hmode.2⟩
      obtain ⟨hany, harms⟩ := hmode.1 hs
      rw [allArms, Bool.and_eq_true] at harms
      exact ⟨by simpa using hany, harms.2⟩
  | armThrow => trivial
  | armNone =>
      refine ⟨?_, hmode.2⟩
      rw [← Bool.not_eq_true]
      intro hs
      cases (hmode.1 hs).1
  | branchDone =>
      obtain ⟨hs, hat⟩ := hmode
      cases hat with
      | branch hp hk => exact ⟨hp hs, hk⟩
  | exportInner =>
      apply At.branch _ hmode
      intro _
      simp [isTerminal]
  | exportName => exact ⟨by simp [isTerminal], hmode⟩
  | giveNil => exact ⟨⟨_, hmode⟩, innerAt_none⟩
  | giveValue => exact ⟨⟨_, hmode⟩, innerAt_none⟩
  | giveThrow => trivial
  | throwValue => trivial
  | throwThrow => trivial
  | escape => exact ⟨⟨_, hmode⟩, innerAt_none⟩
  | skip => exact ⟨⟨_, hmode⟩, innerAt_none⟩
  | tryBody =>
      apply At.trying _ hmode
      intro hb
      simp [isTerminal, hb]
  | tryDone =>
      obtain ⟨hs, hat⟩ := hmode
      cases hat with
      | trying hp hk => exact modeAt_finish (hp hs) hk
  | catchDone =>
      obtain ⟨hs, hat⟩ := hmode
      cases hat with
      | catching hp hk => exact modeAt_finish (hp hs) hk
  | finallyDone =>
      cases hmode.2 with
      | finishing hp hk => exact ⟨hp rfl, hk⟩
  | finallyThrow => trivial
  | leaveOn =>
      cases hmode.2 with
      | leaving hk hloop hinner =>
          exact ⟨⟨_, hk⟩, fun q k' h => ⟨hloop q k' h, hinner q k' h⟩⟩
  | caught => exact hhandlers _ List.mem_cons_self
  | uncaught => trivial
  | handleHere =>
      apply At.catching _ hmode.2
      intro hb
      rw [← Bool.not_eq_true]
      intro hs
      have hcatches := hmode.1 hs
      simp [allCatches, hb] at hcatches
  | handleNext =>
      refine ⟨fun hs => ?_, hmode.2⟩
      have hcatches := hmode.1 hs
      rw [allCatches, Bool.and_eq_true] at hcatches
      exact hcatches.2
  | holdBack =>
      apply At.finishing _ hmode.2
      rintro rfl
      exact absurd rfl hl
  | rethrow => trivial
  | leaveBlock => exact ⟨at_outer hmode.1.choose_spec, hmode.2⟩
  | leaveBranch => exact ⟨at_outer hmode.1.choose_spec, hmode.2⟩
  | leaveFinally => exact ⟨at_outer hmode.1.choose_spec, hmode.2⟩
  | giveLoop =>
      obtain ⟨⟨s, hat⟩, hinner⟩ := hmode
      cases hat with
      | loop hp hk =>
          refine ⟨⟨_, hk⟩, innerAt_or hinner ?_⟩
          rintro q k' ⟨⟩
          exact ⟨hp, hk⟩
  | escapeLoop =>
      obtain ⟨⟨s, hat⟩, -⟩ := hmode
      cases hat with
      | loop hp hk => exact ⟨hp, hk⟩
  | skipLoop =>
      obtain ⟨⟨s, hat⟩, -⟩ := hmode
      cases hat with
      | loop hp hk => exact ⟨hp, hk⟩
  | giveTrying =>
      obtain ⟨⟨s, hat⟩, hinner⟩ := hmode
      cases hat with
      | trying hp hk => exact modeAt_leaveTry hinner hk
  | giveCatching =>
      obtain ⟨⟨s, hat⟩, hinner⟩ := hmode
      cases hat with
      | catching hp hk => exact modeAt_leaveTry hinner hk
  | jumpTrying =>
      obtain ⟨⟨s, hat⟩, hinner⟩ := hmode
      cases hat with
      | trying hp hk => exact modeAt_leaveTry hinner hk
  | jumpCatching =>
      obtain ⟨⟨s, hat⟩, hinner⟩ := hmode
      cases hat with
      | catching hp hk => exact modeAt_leaveTry hinner hk
  | passTrying => exact ⟨at_outer hmode.1.choose_spec, hmode.2⟩
  | passCatching => exact ⟨at_outer hmode.1.choose_spec, hmode.2⟩
  | giveLeaving =>
      obtain ⟨⟨s, hat⟩, hinner⟩ := hmode
      cases hat with
      | leaving hk hloop hinner' =>
          exact ⟨⟨_, hk⟩, innerAt_or hinner fun q k' h => ⟨hloop q k' h, hinner' q k' h⟩⟩
  | escapeInner =>
      obtain ⟨⟨s, hat⟩, -⟩ := hmode
      cases hat with
      | leaving hk hloop hinner => exact ⟨hloop _ _ rfl, hinner _ _ rfl⟩
  | skipInner =>
      obtain ⟨⟨s, hat⟩, -⟩ := hmode
      cases hat with
      | leaving hk hloop hinner => exact ⟨hloop _ _ rfl, hinner _ _ rfl⟩
  | jumpLeaving => exact ⟨at_outer hmode.1.choose_spec, hmode.2⟩
  | given => trivial
  | fallsOff => trivial
  | handlerLost => exact hmode

/-- The entries of the try stack are old ones or that of a `try` which starts. -/
theorem step_handlers {l : Option Value} {s s' : State Store} (hstep : Step w l s s') :
    (∀ h ∈ s'.handlers, h ∈ s.handlers) ∨
      ∃ line file b cs fin, s.mode = .run (.mk line file (.TryStmt b cs fin)) ∧
        s'.handlers = ⟨.mk line file (.TryStmt b cs fin), cs, s.frames⟩ :: s.handlers := by
  cases hstep with
  | tryBody => exact Or.inr ⟨_, _, _, _, _, rfl, rfl⟩
  | tryDone | jumpTrying | jumpCatching => exact Or.inl fun h hh => List.mem_of_mem_tail hh
  | caught | handlerLost => exact Or.inl fun h hh => List.mem_cons_of_mem _ hh
  | _ => exact Or.inl fun h hh => hh

theorem placed_step {l : Option Value} {s s' : State Store} (h : Placed s) (hstep : Step w l s s')
    (hl : l ≠ some .nil) : Placed s' := by
  refine ⟨step_mode h hstep hl, ?_⟩
  obtain hold | ⟨line, file, b, cs, fin, hmode, hnew⟩ := step_handlers hstep
  · intro e he
    exact h.handlers e (hold e he)
  · intro e he
    rw [hnew, List.mem_cons] at he
    obtain rfl | he := he
    · have hat := h.mode
      rw [hmode] at hat
      refine ⟨fun ht => ?_, hat⟩
      rw [isTerminal, Bool.and_eq_true] at ht
      exact ht.2
    · exact h.handlers e he

theorem placed_start (s : Stmt) (σ : Store) : Placed (start s σ) where
  mode := .root
  handlers _ h := by cases h

theorem sound_of_placed {s : State Store} (h : Placed s) : Sound s where
  completes t ht := by
    have hmode := h.mode
    rw [ht] at hmode
    exact hmode.1
  unreachable t l f before rest k ht hk := by
    have hmode := h.mode
    rw [ht, hk] at hmode
    cases hmode with
    | block hbefore _ => exact hbefore

end invariant

/-- A world in which every expression is nil. -/
def allNil : World Unit where
  evaluates _ _ r _ := r = .ok .nil
  performs _ _ r _ := r = none
  continues _ _ r _ := r = .ok false
  fits _ _ _ r _ := r = .ok false
  instanceOf _ _ _ := false

def nilExpr : Expr := .mk 1 1 [] (.LiteralExpr .nil)

def giveNil : Stmt := .mk 1 [] (.GiveStmt none)

/-- `try { throw nil } finally { }`. -/
def swallow : Stmt :=
  .mk 1 [] (.TryStmt (.mk 1 [] (.ThrowStmt nilExpr)) [] (some (.mk 1 [] (.BlockStmt []))))

end IsTerminal

end EZLanguage
