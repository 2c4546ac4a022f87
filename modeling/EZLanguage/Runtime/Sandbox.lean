import Mathlib.Algebra.GroupWithZero.Nat
import Mathlib.Algebra.Group.Int.Defs
import EZLanguage.Runtime.SecurityPolicy
import Mathlib.Data.List.Basic
import Mathlib.Logic.Function.Basic

/-!
# The builtins with effects

What a call of a builtin may do to files, processes, native code and raw memory. The builtins that read and
write files by name, `File`, `system` and `os_load_lib` ask the security policy first. The path level
operations of `File`, the calls by address, the memory and structure helpers, the store of `@persist` and
the modules `eval` reads do not ask.
-/

namespace EZLanguage

namespace Sandbox

open SecurityPolicy

/-- What a call may do outside the program. -/
inductive Effect where
  | readFile (path : CString)
  | queryFile (path : CString)
  | changeFile (path : CString)
  | startProcess (command : CString)
  | callNative (address : Nat)
  | loadLibrary (name : CString)
  | readMemory (address : Nat)
  | writeMemory (address : Nat)
  deriving DecidableEq

/-- An open file: the path and the mode it was opened with. -/
structure Stream where
  path : CString
  mode : CString

/-- The policy, the open files by the instances of `File` with the properties `_path` and `_mode`, and the
blocks `os_alloc` has handed out. -/
structure State where
  policy : Policy
  streams : Nat → Option Stream
  pathProperty : Nat → CString
  modeProperty : Nat → CString
  allocs : List (Nat × Nat)

abbrev Result := Except CString (List Effect) × State

variable (sys : System)

def fail (s : State) (message : CString) : Result := (.error message, s)

def done (s : State) (effects : List Effect) : Result := (.ok effects, s)

/-- A builtin that asks the policy, and what it does when the request is accepted. -/
def guarded (capability : Capability) (target : CString) (s : State) (next : State → Result) :
    Result :=
  match check sys s.policy { capability := capability, target := target, line := none } with
  | (.denied message, p) => fail { s with policy := p } message
  | (_, p) => next { s with policy := p }

/-! ### Files by name -/

/-- `readFile` and `readLines`. -/
def readFile (path : CString) (s : State) : Result :=
  guarded sys .read path s fun s => done s [.readFile path]

/-- `writeFile`, `appendFile`, `writeLine` and `appendLine`. -/
def writeFile (path : CString) (s : State) : Result :=
  guarded sys .write path s fun s => done s [.changeFile path]

/-! ### `File` -/

def isReadMode (mode : CString) : Bool := mode = lit "r" || mode = lit "rb"

def isWriteMode (mode : CString) : Bool :=
  mode = lit "w" || mode = lit "wb" || mode = lit "a" || mode = lit "ab"

def isMode (mode : CString) : Bool := isReadMode mode || isWriteMode mode || mode = lit "rw"

def closedFile (method : CString) : CString := method ++ lit "() called on a closed File"

def fileInit (r : Nat) (path mode : CString) (s : State) : Result :=
  guarded sys (if isReadMode mode then .read else .write) path s fun s =>
    if isMode mode then
      done
        { s with
          streams := Function.update s.streams r (some { path := path, mode := mode })
          pathProperty := Function.update s.pathProperty r path
          modeProperty := Function.update s.modeProperty r mode }
        [if isReadMode mode then .readFile path else .changeFile path]
    else
      fail s (lit "File() invalid mode '" ++ mode ++
        lit "'. Expected 'r','w','a','rb','wb','ab', or 'rw'")

/-- `readLine`, `read` and `readAll`. -/
def fileRead (method : CString) (r : Nat) (s : State) : Result :=
  match s.streams r with
  | none => fail s (closedFile method)
  | some stream =>
      if isWriteMode (s.modeProperty r) then
        fail s (method ++ lit "() called on a File opened in mode '" ++ s.modeProperty r ++
          lit "' (not open for reading)")
      else done s (if isWriteMode stream.mode then [] else [.readFile stream.path])

/-- `write` and `writeLine`. -/
def fileWrite (method : CString) (r : Nat) (s : State) : Result :=
  match s.streams r with
  | none => fail s (closedFile method)
  | some stream =>
      if isReadMode (s.modeProperty r) then
        fail s (method ++ lit "() called on a File opened in mode '" ++ s.modeProperty r ++
          lit "' (not open for writing)")
      else done s (if isReadMode stream.mode then [] else [.changeFile stream.path])

/-- What was written and not yet handed to the system. -/
def flushed (stream : Stream) : List Effect :=
  if isReadMode stream.mode then [] else [.changeFile stream.path]

def fileFlush (r : Nat) (s : State) : Result :=
  match s.streams r with
  | none => fail s (closedFile (lit "flush"))
  | some stream => done s (flushed stream)

/-- `size` of an open file, which measures the file that `_path` names. -/
def fileSizeOpen (r : Nat) (s : State) : Result :=
  match s.streams r with
  | none => fail s (closedFile (lit "size"))
  | some stream => done s (flushed stream ++ [.queryFile (s.pathProperty r)])

def fileClose (r : Nat) (s : State) : Result :=
  match s.streams r with
  | none => done s []
  | some stream => done { s with streams := Function.update s.streams r none } (flushed stream)

/-- `File.remove` and `File.delete`. -/
def fileRemove (path : CString) (s : State) : Result := done s [.changeFile path]

def fileRename (source target : CString) (s : State) : Result :=
  done s [.changeFile source, .changeFile target]

/-- `File.exists` and `File.size` of a path. -/
def fileQuery (path : CString) (s : State) : Result := done s [.queryFile path]

/-! ### Processes -/

def system (command : CString) (s : State) : Result :=
  guarded sys .process command s fun s => done s [.startProcess command]

/-- `clear`, which is a command of its own on Windows. -/
def clear (s : State) : Result :=
  done s (if sys.windows then [.startProcess (lit "cls")] else [])

/-! ### Native code and memory -/

def osLoadLib (name : CString) (s : State) : Result :=
  guarded sys .ffi name s fun s => done s [.loadLibrary name]

def osFreeLib (handle : Nat) (s : State) : Result := done s [.callNative handle]

/-- `os_get_func` looks a symbol up behind a handle. -/
def osGetFunc (handle : Nat) (s : State) : Result := done s [.readMemory handle]

/-- `os_call`, `os_call_sig` and `os_call_sig_arr`, with their messages for a null pointer. -/
def osCall (nullMessage : CString) (function : Nat) (s : State) : Result :=
  if function = 0 then fail s nullMessage else done s [.callNative function]

/-- `os_alloc`, with the address `calloc` returns, which is null when it fails. -/
def osAlloc (size : Int) (address : Nat) (s : State) : Result :=
  if size ≤ 0 then fail s (lit "os_alloc: size must be positive")
  else if address = 0 then done s []
  else done { s with allocs := (address, size.toNat) :: s.allocs } []

def osFree (address : Nat) (s : State) : Result :=
  if address = 0 then done s []
  else if s.allocs.any (fun block => block.1 == address) then
    done { s with allocs := s.allocs.filter fun block => block.1 != address } []
  else fail s (lit "os_free: address was not returned by os_alloc (or already freed)")

/-- `ffiBoundsCheck`: the error for an access that leaves the address space or the block it begins in. -/
def ffiBoundsCheck (s : State) (base offset size : Nat) : Option CString :=
  if 2 ^ 64 ≤ base + offset ∨ 2 ^ 64 ≤ base + offset + size then
    some (lit "FFI access address overflow")
  else
    match s.allocs.find? fun block =>
        block.1 ≤ base + offset && base + offset < block.1 + block.2 with
    | some block =>
        if block.1 + block.2 < base + offset + size then
          some (lit "FFI out-of-bounds access on managed allocation")
        else none
    | none => none

/-- The family of `os_read_int32`, by the size of the value. -/
def osRead (base offset size : Nat) (s : State) : Result :=
  match ffiBoundsCheck s base offset size with
  | some message => fail s message
  | none => done s [.readMemory (base + offset)]

/-- The family of `os_write_int32`, and `os_write_string`. -/
def osWrite (base offset size : Nat) (s : State) : Result :=
  match ffiBoundsCheck s base offset size with
  | some message => fail s message
  | none => done s [.writeMemory (base + offset)]

/-- `os_read_string_ptr`, `os_read_string_ptr_n`, and `os_struct_unpack` of an address. -/
def osReadPointer (address : Nat) (s : State) : Result :=
  done s (if address = 0 then [] else [.readMemory address])

def osBufferFromPtr (address : Nat) (size : Int) (s : State) : Result :=
  if size < 0 then fail s (lit "os_buffer_from_ptr() size cannot be negative")
  else if size = 0 then done s []
  else if address = 0 then
    fail s (lit "os_buffer_from_ptr() cannot read from null pointer with non-zero size")
  else done s [.readMemory address]

/-! ### `@persist` -/

/-- A new instance or a property write of a class with a store: the database is opened, made if it is not
there, and written. -/
def persist (path : CString) (s : State) : Result :=
  done s (if path = [] then [] else [.changeFile path])

/-- `eval` of a text that uses a module, which the compiler reads. -/
def evalUse (path : CString) (s : State) : Result := done s [.readFile path]

/-! ### Calls -/

/-- The calls of builtins and the property writes of a program. -/
inductive Call where
  | readFile (path : CString)
  | writeFile (path : CString)
  | fileInit (r : Nat) (path mode : CString)
  | fileRead (method : CString) (r : Nat)
  | fileWrite (method : CString) (r : Nat)
  | fileFlush (r : Nat)
  | fileSizeOpen (r : Nat)
  | fileClose (r : Nat)
  | setPath (r : Nat) (path : CString)
  | setMode (r : Nat) (mode : CString)
  | fileRemove (path : CString)
  | fileRename (source target : CString)
  | fileQuery (path : CString)
  | system (command : CString)
  | clear
  | osLoadLib (name : CString)
  | osFreeLib (handle : Nat)
  | osGetFunc (handle : Nat)
  | osCall (nullMessage : CString) (function : Nat)
  | osAlloc (size : Int) (address : Nat)
  | osFree (address : Nat)
  | osRead (base offset size : Nat)
  | osWrite (base offset size : Nat)
  | osReadPointer (address : Nat)
  | osBufferFromPtr (address : Nat) (size : Int)
  | persist (path : CString)
  | evalUse (path : CString)
  | other

def exec (s : State) : Call → Result
  | .readFile path => readFile sys path s
  | .writeFile path => writeFile sys path s
  | .fileInit r path mode => fileInit sys r path mode s
  | .fileRead method r => fileRead method r s
  | .fileWrite method r => fileWrite method r s
  | .fileFlush r => fileFlush r s
  | .fileSizeOpen r => fileSizeOpen r s
  | .fileClose r => fileClose r s
  | .setPath r path => done { s with pathProperty := Function.update s.pathProperty r path } []
  | .setMode r mode => done { s with modeProperty := Function.update s.modeProperty r mode } []
  | .fileRemove path => fileRemove path s
  | .fileRename source target => fileRename source target s
  | .fileQuery path => fileQuery path s
  | .system command => system sys command s
  | .clear => clear sys s
  | .osLoadLib name => osLoadLib sys name s
  | .osFreeLib handle => osFreeLib handle s
  | .osGetFunc handle => osGetFunc handle s
  | .osCall nullMessage function => osCall nullMessage function s
  | .osAlloc size address => osAlloc size address s
  | .osFree address => osFree address s
  | .osRead base offset size => osRead base offset size s
  | .osWrite base offset size => osWrite base offset size s
  | .osReadPointer address => osReadPointer address s
  | .osBufferFromPtr address size => osBufferFromPtr address size s
  | .persist path => persist path s
  | .evalUse path => evalUse path s
  | .other => done s []

/-! ### What the sandbox has to stop -/

/-- Nothing but files in the working directory is looked at. -/
def Harmless : Effect → Prop
  | .readFile path | .queryFile path => isSubpathOrEqual sys sys.currentPath path = true
  | _ => False

/-- All a call may do is harmless. -/
def Contained (s : State) (c : Call) : Prop :=
  ∀ effects, (exec sys s c).1 = .ok effects → ∀ e ∈ effects, Harmless sys e

/-- Safe mode with no permission granted and no prompt. -/
structure Sealed (p : Policy) : Prop where
  safeMode : p.safeMode = true
  allowAll : p.allowAll = false
  allowFFI : p.allowFFI = false
  allowProcess : p.allowProcess = false
  allowRead : p.allowRead = false
  allowWrite : p.allowWrite = false
  readPaths : p.allowedReadPaths = []
  writePaths : p.allowedWritePaths = []
  prompt : p.noPrompt = true ∨ sys.interactive = false

/-- A program starts with no file open. -/
structure Start (s : State) : Prop where
  policy : Sealed sys s.policy
  streams : ∀ r, s.streams r = none

/-- A call whose builtin asks the policy, or that comes to nothing. -/
def Restrained (s : State) : Call → Prop
  | .fileRemove _ | .fileRename _ _ | .osFreeLib _ | .osGetFunc _ => False
  | .fileQuery path | .evalUse path => isSubpathOrEqual sys sys.currentPath path = true
  | .fileSizeOpen r =>
      s.streams r = none ∨ isSubpathOrEqual sys sys.currentPath (s.pathProperty r) = true
  | .clear => sys.windows = false
  | .osCall _ function => function = 0
  | .osRead base offset size | .osWrite base offset size => ffiBoundsCheck s base offset size ≠ none
  | .osReadPointer address => address = 0
  | .osBufferFromPtr address size => size ≤ 0 ∨ address = 0
  | .persist path => path = []
  | _ => True

end Sandbox

end EZLanguage
