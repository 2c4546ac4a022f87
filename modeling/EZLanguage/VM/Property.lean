import EZLanguage.VM.Call

/-!
# Property and method instructions

A handler runs on the state with `ip` already past its instruction. `dispatchOrReturn` and
`dispatchOrRefresh` are the two ways the handlers go on after `dispatchCall`.
-/

namespace EZLanguage

/-- `if (!dispatchCall(..)) return; LOAD_FRAME(); DISPATCH();` -/
def Dispatched.dispatchOrReturn : Dispatched → Exit
  | .pushed l frame upvalues => .pushFrame l frame upvalues
  | .value l v => .dispatch (l.push v)
  | .limit l => .dispatch l
  | .queued l v => .leave (l.push v)
  | .refused l => .leave l

/-- `if (dispatchCall(..)) { LOAD_FRAME(); } else { REFRESH_FRAME(); } DISPATCH();` -/
def Dispatched.dispatchOrRefresh : Dispatched → Exit
  | .pushed l frame upvalues => .pushFrame l frame upvalues
  | .value l v | .queued l v => .dispatch (l.push v)
  | .limit l | .refused l => .dispatch l

namespace Handler

variable (rt : Runtime) (ctx : Ctx)

/-- The call of a hook or an overload. The operands hold the callee below the arguments. -/
def callAndReturn (l : Local) (callee : Value) (argCount : Nat) : Proc Exit := do
  let called ← dispatchCall rt ctx callee l argCount none
  return called.dispatchOrReturn

/-- The call of a `CALL`-like instruction. -/
def callAndRefresh (l : Local) (callee : Value) (argCount : Nat) : Proc Exit := do
  let called ← dispatchCall rt ctx callee l argCount (some l.frame.ip)
  return called.dispatchOrRefresh

/-! ### Reading -/

/-- The shape cache is filled for a property the instance has. -/
def cacheShape (l : Local) (r : Nat) (propName : CString) (icIdx : Nat) : Local :=
  let shape := (l.shared.instances r).shape
  match shape.getOffset propName with
  | some offset => l.setIC icIdx { l.icEntry icIdx with shape := some shape, offset }
  | none => l

/-- The class cache is filled for a declared method. -/
def cacheMethod (l : Local) (r : Nat) (method : Value) (icIdx : Nat) : Local :=
  l.setIC icIdx
    { l.icEntry icIdx with klass := some (l.shared.instances r).klass, methodValue := method }

def noProperty (l : Local) (r : Nat) (propName : CString) : Local :=
  l.throwException (lit "AttributeError")
    (lit "'" ++ (l.shared.classes (l.shared.instances r).klass).name ++
      lit "' has no property or method '" ++ propName ++ lit "'" ++
      rt.didYouMean propName (l.shared.instanceNames r))

def loadInstanceProperty (l : Local) (r : Nat) (propName : CString) (icIdx : Nat) : Proc Exit :=
  let inst := l.shared.instances r
  let ic := l.icEntry icIdx
  if ic.shape = some inst.shape then
    return .dispatch (l.push ((inst.propertyValues[ic.offset]?).getD .nil))
  else if ic.klass = some inst.klass then
    return .dispatch (l.push (.boundMethod (.inst r) ic.methodValue))
  else if l.hidden inst.klass propName then
    return .leave (l.hiddenError inst.klass propName)
  else
    let isField := l.shared.hasProperty r propName
    let val := l.shared.getProperty r propName
    if val.isNil ∧ ¬isField then
      let hook := l.shared.findGetattrHook (.inst r) propName
      if hook.isCallable then
        let bound := Value.boundMethod (.inst r) hook
        callAndReturn rt ctx ((l.push bound).push (.string propName)) bound 1
      else return .raiseFault (noProperty rt l r propName)
    else if isField then return .dispatch ((cacheShape l r propName icIdx).push val)
    else if val.isMethodKind then
      return .dispatch ((cacheMethod l r val icIdx).push (.boundMethod (.inst r) val))
    else return .dispatch (l.push val)

/-- `ezDictNames`. -/
def dictNames (l : Local) (r : Nat) : List CString := ((l.shared.dicts r).map Prod.fst).take 256

def loadKey (l : Local) (r : Nat) (propName : CString) : Exit :=
  match lookup (l.shared.dicts r) propName with
  | some found => .dispatch (l.push found)
  | none =>
      .raiseFault (l.throwException (lit "KeyError")
        (lit "no key '" ++ propName ++ lit "' in this dictionary" ++
          rt.didYouMean propName (dictNames l r) ++
          lit "\n  Hint: has_key(d, \"" ++ propName ++
          lit "\") tests for a key without raising."))

def loadClassProperty (l : Local) (k : Nat) (propName : CString) : Proc Exit :=
  let klass := l.shared.classes k
  if l.hidden k propName then return .leave (l.hiddenError k propName)
  else if propName = lit "load" ∧ klass.persists then
    return .dispatch (l.push (.nativeFunction (rt.loadFunction k)))
  else
    match lookup klass.staticMembers propName, lookup klass.methods propName with
    | some val, _ => return .dispatch (l.push val)
    | none, some val => return .dispatch (l.push val)
    | none, none =>
        if propName = lit "name" then return .dispatch (l.push (.string klass.name))
        else
          let hook := l.shared.findGetattrHook (.klass k) propName
          if hook.isCallable then
            callAndReturn rt ctx (((l.push hook).push (.klass k)).push (.string propName)) hook 2
          else
            return .raiseFault (l.runtimeError (lit "Static property or method '" ++ propName ++
              lit "' does not exist on class '" ++ klass.name ++ lit "'"))

def loadSuperProperty (l : Local) (instRef parentKlass : Nat) (propName : CString) : Exit :=
  let method := l.shared.chainMethod parentKlass propName
  if method.isNil then
    .raiseFault (l.throwException (lit "AttributeError")
      (lit "no method '" ++ propName ++ lit "' anywhere in the parent chain"))
  else if method.isMethodKind then .dispatch (l.push (.boundMethod (.inst instRef) method))
  else .dispatch (l.push method)

/-- The name of a function value, which is the one property it has. -/
def functionName (l : Local) : Value → Option CString
  | .closure r => some (l.shared.functions (l.shared.closures r).function).name
  | .function r => some (rt.functionName r)
  | .nativeFunction id => some (rt.nativeName id)
  | _ => none

def loadOtherProperty (l : Local) (obj : Value) (propName : CString) : Exit :=
  match if propName = lit "name" then functionName rt l obj else none with
  | some name => .dispatch (l.push (.string name))
  | none =>
      .raiseFault (l.throwException (lit "TypeError")
        (lit "cannot read property '" ++ propName ++ lit "' of " ++
          (if obj.isNil then lit "nil" else lit "a " ++ obj.typeName ++ lit " value") ++
          if obj.isNil then
            lit "\n  Hint: the value is nil -- check what produced it, not this line."
          else []))

def LOAD_PROPERTY (propName : CString) (icIdx : Nat) (l : Local) : Proc Exit :=
  match l.ops with
  | [] => return .malformed
  | obj :: rest =>
      let l := l.withOps rest
      match obj with
      | .inst r => loadInstanceProperty rt ctx l r propName icIdx
      | .dictionary r => return loadKey rt l r propName
      | .klass k => loadClassProperty rt ctx l k propName
      | .super instRef parentKlass => return loadSuperProperty l instRef parentKlass propName
      | obj => return loadOtherProperty rt l obj propName

/-! ### Writing -/

def storeStatic (l : Local) (k : Nat) (propName : CString) (value : Value) : Local :=
  let klass := l.shared.classes k
  l.withShared
    { l.shared with
      classes := Function.update l.shared.classes k
        { klass with staticMembers := assign klass.staticMembers propName value } }

def storeKey (l : Local) (r : Nat) (propName : CString) (value : Value) : Local :=
  l.withShared
    { l.shared with
      dicts := Function.update l.shared.dicts r (assign (l.shared.dicts r) propName value) }

/-- The write past the inline cache, which then caches the offset. -/
def storeField (l : Local) (r : Nat) (propName : CString) (icIdx : Nat) (value : Value) : Local :=
  cacheShape (l.withShared (l.shared.setProperty r propName value)) r propName icIdx

/-- The write at the cached offset. -/
def storeCached (l : Local) (r : Nat) (icIdx : Nat) (value : Value) : Local :=
  let inst := l.shared.instances r
  l.withShared (l.shared.updateInstance r
    { inst with propertyValues := inst.propertyValues.set (l.icEntry icIdx).offset value })

/-- The `__setattr__` hook is called in place of the write. -/
def callSetattr (l : Local) (r : Nat) (hook : Value) (propName : CString) (value : Value) :
    Proc Exit :=
  let bound := Value.boundMethod (.inst r) hook
  callAndReturn rt ctx (((l.push bound).push (.string propName)).push value) bound 2

/-- The first validator of the class that the value fails, if the class validates at all. -/
def failedValidation (klass : Klass) (propName : CString) (value : Value) : Option CString :=
  if klass.behaviors.validated then rt.validate klass propName value else none

/-- The key is one under which the method caches its results. -/
def ownCacheKey (methodName cacheKey : CString) : Bool :=
  cacheKey == methodName || (methodName ++ [0x1f]).isPrefixOf cacheKey

/-- A write makes the cached results of the instance dirty, but for those of the cached method that is
running on it. -/
def dirtyCache (l : Local) (r : Nat) (cacheStore : List (CString × CachedResult)) :
    List (CString × CachedResult) :=
  let writeIsFromOwnCachedMethod :=
    l.function.isMethod && l.function.hasCached && l.getLocal 0 == .inst r
  cacheStore.map fun entry =>
    if writeIsFromOwnCachedMethod && ownCacheKey l.function.name entry.1 then entry
    else (entry.1, { entry.2 with dirty := true })

/-- What the decorator behaviours record of a write. The persisted file is not part of the state. -/
def recordWrite (l : Local) (r : Nat) (propName : CString) (oldValue newValue : Value) : Local :=
  let inst := l.shared.instances r
  let behaviors := (l.shared.classes inst.klass).behaviors
  let entry := { field := propName, oldValue, newValue, via := l.function.name }
  l.withShared (l.shared.updateInstance r
    { inst with
      auditLog := if behaviors.audited then inst.auditLog ++ [entry] else inst.auditLog
      cacheStore :=
        if behaviors.hasCached then dirtyCache l r inst.cacheStore else inst.cacheStore })

/-- A write to anything but an instance. -/
def storeOther (l : Local) (obj : Value) (propName : CString) (value : Value) : Exit :=
  match obj with
  | .klass k =>
      if l.hidden k propName then .leave (l.hiddenError k propName)
      else .dispatch ((storeStatic l k propName value).push value)
  | .dictionary r => .dispatch ((storeKey l r propName value).push value)
  | obj =>
      .raiseFault (l.runtimeError
        (lit "Cannot set property '" ++ propName ++ lit "' on " ++ obj.typeName))

def STORE_PROPERTY (propName : CString) (icIdx : Nat) (l : Local) : Proc Exit :=
  match l.ops with
  | value :: .inst r :: rest =>
      let l := l.withOps rest
      let inst := l.shared.instances r
      let hook := l.shared.findSetattrHook r propName
      if hook.isCallable then callSetattr rt ctx l r hook propName value
      else if (l.icEntry icIdx).shape = some inst.shape then
        return .dispatch ((storeCached l r icIdx value).push value)
      else if l.hidden inst.klass propName then return .leave (l.hiddenError inst.klass propName)
      else return .dispatch ((storeField l r propName icIdx value).push value)
  | value :: obj :: rest => return storeOther (l.withOps rest) obj propName value
  | _ => return .malformed

def INTERCEPTED_STORE_PROPERTY (propName : CString) (icIdx : Nat) (l : Local) : Proc Exit :=
  match l.ops with
  | value :: .inst r :: rest =>
      let l := l.withOps rest
      let inst := l.shared.instances r
      let klass := l.shared.classes inst.klass
      let hook := l.shared.findSetattrHook r propName
      if hook.isCallable then callSetattr rt ctx l r hook propName value
      else if ¬klass.behaviors.any then
        if l.hidden inst.klass propName then return .leave (l.hiddenError inst.klass propName)
        else if (l.icEntry icIdx).shape = some inst.shape then
          return .dispatch ((storeCached l r icIdx value).push value)
        else return .dispatch ((storeField l r propName icIdx value).push value)
      else
        match failedValidation rt klass propName value with
        | some message =>
            return .raiseFault (l.runtimeError
              (lit "ValidationError: " ++ message ++ lit " (field '" ++ propName ++ lit "')"))
        | none =>
            if l.hidden inst.klass propName then return .leave (l.hiddenError inst.klass propName)
            else
              let oldValue := l.shared.getProperty r propName
              let stored := l.withShared (l.shared.setProperty r propName value)
              return .dispatch ((recordWrite stored r propName oldValue value).push value)
  | value :: obj :: rest => return storeOther (l.withOps rest) obj propName value
  | _ => return .malformed

/-! ### Cached methods -/

/-- The text of the parameters a call of the running method has, from the first one past `self`. -/
def parameterTexts (l : Local) : List CString :=
  ((List.range l.function.paramNames.length).drop (if l.function.isMethod then 1 else 0)).map
    fun i => rt.toString l.heap (l.getLocal i)

def cacheKey (l : Local) (methodName : CString) : CString :=
  methodName ++ (parameterTexts rt l).flatMap fun text => 0x1f :: text

/-- A miss is nil. -/
def GET_CACHED_RESULT (methodName : CString) (l : Local) : Exit :=
  match l.getLocal 0 with
  | .inst r =>
      match lookup (l.shared.instances r).cacheStore (cacheKey rt l methodName) with
      | some cached => .dispatch (l.push (if cached.dirty then .nil else cached.result))
      | none => .dispatch (l.push .nil)
  | _ => .dispatch (l.push .nil)

def STORE_CACHED_RESULT (methodName : CString) (l : Local) : Exit :=
  match l.ops, l.getLocal 0 with
  | [], _ => .malformed
  | result :: _, .inst r =>
      let inst := l.shared.instances r
      let cached := { result, dirty := false }
      .dispatch (l.withShared (l.shared.updateInstance r
        { inst with cacheStore := assign inst.cacheStore (cacheKey rt l methodName) cached }))
  | _ :: _, _ => .dispatch l

/-! ### Methods -/

def GET_METHOD (method : CString) (l : Local) : Exit :=
  match l.ops with
  | [] => .malformed
  | .inst r :: rest =>
      let klass := (l.shared.instances r).klass
      if l.hidden klass method then .leave (l.hiddenError klass method)
      else
        let m := (lookup (l.shared.classes klass).methods method).getD .nil
        let l := l.withOps rest
        if m.isMethodKind then .dispatch (l.push (.boundMethod (.inst r) m))
        else .dispatch (l.push m)
  | _ :: _ => .leave (l.runtimeError (lit "Cannot get method from non-instance"))

/-- What `INVOKE_METHOD` finds under a name of an instance. -/
inductive Invoked where
  | method (l : Local) (m : Value)
  | value (l : Local) (v : Value)
  | missing
  | hidden

def invokedOn (l : Local) (r : Nat) (propName : CString) (icIdx : Nat) : Invoked :=
  let inst := l.shared.instances r
  let ic := l.icEntry icIdx
  if ic.klass = some inst.klass then .method l ic.methodValue
  else if l.hidden inst.klass propName then .hidden
  else
    let isField := l.shared.hasProperty r propName
    let val := l.shared.getProperty r propName
    if ¬isField ∧ val.isMethodKind then .method (cacheMethod l r val icIdx) val
    else if ¬val.isNil then .value l val
    else
      let hook := l.shared.findGetattrHook (.inst r) propName
      if hook.isCallable then .value l (.boundMethod (.inst r) hook) else .missing

/-- The error for a receiver whose kind has no methods. -/
def noMethods (l : Local) (receiver : Value) (propName : CString) (argCount : Nat) : CString :=
  if (lookup l.shared.globalVariables propName).isSome then
    lit "'" ++ receiver.typeName ++ lit "' has no method '" ++ propName ++
      lit "' -- EZ doesn't have methods on " ++ receiver.typeName ++
      lit "s. Did you mean the function " ++ propName ++ lit "(...) instead, e.g. " ++ propName ++
      lit "(x" ++ lit (if argCount > 0 then ", ...)" else ")") ++ lit "?"
  else
    lit "Cannot call method '" ++ propName ++ lit "' on " ++ receiver.typeName ++
      lit " -- EZ doesn't have methods on " ++ receiver.typeName ++ lit "s, only global functions"

def INVOKE_METHOD (propName : CString) (icIdx argCount : Nat) (l : Local) : Proc Exit :=
  let args := l.ops.take argCount
  match l.ops.drop argCount with
  | [] => return .malformed
  | receiver :: rest =>
      match receiver with
      | .inst r =>
          match invokedOn l r propName icIdx with
          | .method l m =>
              callAndRefresh rt ctx (l.withOps (args ++ .inst r :: m :: rest)) m
                ((argCount + 1) % 256)
          | .value l v => callAndRefresh rt ctx (l.withOps (args ++ v :: rest)) v argCount
          | .missing => return .raiseFault (noProperty rt l r propName)
          | .hidden =>
              let klass := (l.shared.instances r).klass
              return .leave (l.hiddenError klass propName)
      | .klass k =>
          let klass := l.shared.classes k
          if l.hidden k propName then return .leave (l.hiddenError k propName)
          else
            let member := if propName = lit "load" ∧ klass.persists
              then .nativeFunction (rt.loadFunction k) else l.shared.getStaticMember k propName
            if member.isCallable then
              callAndRefresh rt ctx (l.withOps (args ++ member :: rest)) member argCount
            else
              return .raiseFault (l.throwException (lit "AttributeError")
                (lit "Class '" ++ klass.name ++ lit "' has no static method '" ++ propName ++
                  lit "'"))
      | .dictionary r =>
          let val := (lookup (l.shared.dicts r) propName).getD .nil
          if val.isCallable then
            callAndRefresh rt ctx (l.withOps (args ++ val :: rest)) val argCount
          else
            return .raiseFault (l.runtimeError
              (lit "'" ++ propName ++ lit "' is not callable on dictionary"))
      | receiver => return .raiseFault (l.runtimeError (noMethods l receiver propName argCount))

end Handler

end EZLanguage
