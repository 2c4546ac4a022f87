import EZLanguage.Bytecode.Chunk
import EZLanguage.Support.DecimalRounding
import Mathlib.Logic.Relation

/-!
# JSON texts

`to_json` makes a tree of a value and writes it, `parse_json` reads a tree and makes a value of it. In the
tree that is read every scalar is a text, whether it was quoted or not, and the conversion guesses its kind
from the text. Numbers are converted to double on the way out, and one that is not in the range of `int` is
written with six digits.
-/

namespace EZLanguage

namespace Json

/-! ### Numbers -/

/-- A double, by its value when that is an integer and by its bits when it is not. -/
inductive Double where
  | integral (n : Int)
  | other (bits : UInt64)
  deriving DecidableEq

/-- What the C++ library has for doubles: `operator<<` of one that is no integer, and `std::stod`, with a
result when it takes the whole text. -/
structure Library where
  general : UInt64 → CString
  stod : CString → Option Double

/-- `(double)` of an integer. -/
def toDouble (i : Int64) : Double := .integral (i.toInt.sign * nearestDouble i.toInt.natAbs)

/-- `d == (int)d` for a double that is an integer. -/
def fitsInt (n : Int) : Bool := decide (-2147483648 ≤ n ∧ n < 2147483648)

def digitText (d : Nat) : UInt8 := UInt8.ofNat (48 + d)

/-- The decimal digits of a number, the first one first. -/
def digitsOf (n : Nat) : List Nat := if n = 0 then [0] else (Nat.digits 10 n).reverse

def signText (n : Int) : CString := if n < 0 then lit "-" else []

/-- `std::to_string` of an `int`. -/
def decimalText (n : Int) : CString := signText n ++ (digitsOf n.natAbs).map digitText

/-- `operator<<` of a double that is an integer of seven digits or more. -/
def scientificText (n : Int) : CString :=
  let rounded := digitsOf (sixDigits n.natAbs)
  let mantissa := ((rounded.take 6).reverse.dropWhile (· == 0)).reverse.map digitText
  let exponent := rounded.length - 1
  signText n ++
    (match mantissa with
      | [] => lit "0"
      | [d] => [d]
      | d :: rest => d :: lit "." ++ rest) ++
    lit "e+" ++ (if exponent < 10 then lit "0" else []) ++ (digitsOf exponent).map digitText

variable (library : Library)

/-- The text of a number in `to_json`. -/
def numberText : Double → CString
  | .integral n => if fitsInt n then decimalText n else scientificText n
  | .other bits => library.general bits

/-! ### Trees -/

/-- `MiniJson::Value`. The properties of an object are in the order of their names. -/
inductive Tree where
  | null
  | object (properties : List (CString × Tree))
  | array (items : List Tree)
  | string (s : CString)
  | number (s : CString)
  | boolean (s : CString)

def hexDigit (n : UInt8) : UInt8 := (lit "0123456789abcdef").getD n.toNat 48

/-- One character of a string in `stringify`. -/
def escapeByte (c : UInt8) : CString :=
  if c = 34 then lit "\\\""
  else if c = 92 then lit "\\\\"
  else if c = 10 then lit "\\n"
  else if c = 13 then lit "\\r"
  else if c = 9 then lit "\\t"
  else if c = 8 then lit "\\b"
  else if c = 12 then lit "\\f"
  else if c < 32 then lit "\\u00" ++ [hexDigit (c >>> 4 &&& 15), hexDigit (c &&& 15)]
  else [c]

def pad (indent : Nat) : CString := List.replicate indent 32

/-- The lines of the items of a container, with a comma after all but the last. -/
def itemLines (indent : Nat) : List CString → CString
  | [] => []
  | [item] => pad indent ++ lit "  " ++ item ++ lit "\n"
  | item :: rest => pad indent ++ lit "  " ++ item ++ lit ",\n" ++ itemLines indent rest

mutual

/-- `stringify`. The names of an object are written as they are. -/
def Tree.stringify (indent : Nat) : Tree → CString
  | .string s => lit "\"" ++ s.flatMap escapeByte ++ lit "\""
  | .object properties =>
      lit "\x7b\n" ++ itemLines indent (stringifyProperties (indent + 2) properties) ++
        pad indent ++ lit "\x7d"
  | .array items =>
      lit "[\n" ++ itemLines indent (stringifyItems (indent + 2) items) ++ pad indent ++ lit "]"
  | .number s => s
  | .boolean s => s
  | .null => lit "null"

def stringifyItems (indent : Nat) : List Tree → List CString
  | [] => []
  | t :: rest => t.stringify indent :: stringifyItems indent rest

def stringifyProperties (indent : Nat) : List (CString × Tree) → List CString
  | [] => []
  | (key, t) :: rest =>
      (lit "\"" ++ key ++ lit "\": " ++ t.stringify indent) :: stringifyProperties indent rest

end

/-- `StreamWriter::write`. -/
def write (root : Tree) : CString := root.stringify 0

mutual

/-- What a reader that reads JSON correctly makes of a tree that was written: the same tree, where every
scalar is the text it has. -/
def Tree.readBack : Tree → Tree
  | .null => .string (lit "null")
  | .object properties => .object (readBackProperties properties)
  | .array items => .array (readBackItems items)
  | .string s => .string s
  | .number s => .string s
  | .boolean s => .string s

def readBackItems : List Tree → List Tree
  | [] => []
  | t :: rest => t.readBack :: readBackItems rest

def readBackProperties : List (CString × Tree) → List (CString × Tree)
  | [] => []
  | (key, t) :: rest => (key, t.readBack) :: readBackProperties rest

end

/-! ### Values -/

/-- The kinds of values `to_json` distinguishes. -/
inductive Value where
  | nil
  | bool (b : Bool)
  | int (i : Int64)
  | float (d : Double)
  | string (s : CString)
  | array (r : Nat)
  | dictionary (r : Nat)
  | other
  deriving DecidableEq

/-- The arrays and dictionaries. A dictionary is listed in the order its entries are visited in. -/
structure Heap where
  array : Nat → List Value
  dictionary : Nat → List (CString × Value)
  distinct : ∀ r, ((dictionary r).map Prod.fst).Nodup

/-- A value `parse_json` makes. Its containers are all its own. -/
inductive Parsed where
  | nil
  | bool (b : Bool)
  | number (d : Double)
  | string (s : CString)
  | array (items : List Parsed)
  | dictionary (entries : List (CString × Parsed))

/-! ### From a value to a text -/

def jsonMaxDepth : Nat := 512

def selfReference : CString :=
  lit "to_json(): value contains a reference to itself, which JSON cannot represent"

def tooDeep : CString := lit "to_json(): value nested deeper than 512 levels"

def Value.isContainer : Value → Bool
  | .array _ | .dictionary _ => true
  | _ => false

/-- The tree of a value that is no container. -/
def scalarTree : Value → Tree
  | .string s => .string s
  | .int i => .number (numberText library (toDouble i))
  | .float d => .number (numberText library d)
  | .bool b => .boolean (if b then lit "true" else lit "false")
  | _ => .null

/-- The order of the names in a `std::map`. -/
def sorted (properties : List (CString × Tree)) : List (CString × Tree) :=
  properties.mergeSort fun a b => decide (a.1 ≤ b.1)

/-- `convert` of `to_json`. The first argument is what the path leaves of `JSON_MAX_DEPTH`. -/
def convert (heap : Heap) : Nat → List Value → Value → Except CString Tree
  | 0, path, v =>
      if v.isContainer then .error (if v ∈ path then selfReference else tooDeep)
      else .ok (scalarTree library v)
  | room + 1, path, v =>
      if v ∈ path then .error selfReference
      else
        match v with
        | .array r => do
            let items ← (heap.array r).mapM (convert heap room (v :: path))
            return .array items
        | .dictionary r => do
            let properties ← (heap.dictionary r).mapM fun entry => do
              let t ← convert heap room (v :: path) entry.2
              return (entry.1, t)
            return .object (sorted properties)
        | v => .ok (scalarTree library v)

example (heap : Heap) : convert library heap 0 [] .nil = .ok (scalarTree library .nil) := by
  unfold convert
  rfl

def toJson (heap : Heap) (v : Value) : Except CString CString :=
  (convert library heap jsonMaxDepth [] v).map write

/-! ### From a text to a value -/

/-- The first character may begin a number. -/
def startsNumber : CString → Bool
  | [] => false
  | c :: _ => decide (48 ≤ c ∧ c ≤ 57) || c == 45 || c == 46

/-- The value of a text, guessed. -/
def guess (s : CString) : Parsed :=
  if s = lit "true" then .bool true
  else if s = lit "false" then .bool false
  else if s = lit "null" then .nil
  else if startsNumber s then
    match library.stod s with
    | some d => .number d
    | none => .string s
  else .string s

mutual

/-- `convert` of `parse_json`. -/
def Tree.parsed : Tree → Parsed
  | .object properties => .dictionary (parsedProperties properties)
  | .array items => .array (parsedItems items)
  | .string s => guess library s
  | .number s => guess library s
  | .boolean s => guess library s
  | .null => guess library []

def parsedItems : List Tree → List Parsed
  | [] => []
  | t :: rest => t.parsed :: parsedItems rest

def parsedProperties : List (CString × Tree) → List (CString × Parsed)
  | [] => []
  | (key, t) :: rest => (key, t.parsed) :: parsedProperties rest

end

def parseFailure : CString := lit "Failed to parse JSON"

/-- `parse_json` with a reader of texts. -/
def parseJson (reader : CString → Option Tree) (s : CString) : Except CString Parsed :=
  match reader s with
  | some root => .ok (root.parsed library)
  | none => .error parseFailure

/-! ### What a round trip has to keep -/

/-- A value is an element or an entry of another. -/
inductive Child (heap : Heap) : Value → Value → Prop
  | item {r : Nat} {v : Value} (hitem : v ∈ heap.array r) : Child heap (.array r) v
  | entry {r : Nat} {key : CString} {v : Value} (hentry : (key, v) ∈ heap.dictionary r) :
      Child heap (.dictionary r) v

def Inside (heap : Heap) : Value → Value → Prop := Relation.ReflTransGen (Child heap)

/-- A container in the value contains itself. -/
def Cyclic (heap : Heap) (v : Value) : Prop :=
  ∃ w, Inside heap v w ∧ Relation.TransGen (Child heap) w w

/-- No path into the value has more containers than `n`. -/
def Within (heap : Heap) : Nat → Value → Prop
  | 0, v => v.isContainer = false
  | n + 1, v => ∀ w, Child heap v w → Within heap n w

/-- A value that was parsed equals a value, with the same kinds and exactly the same numbers. -/
inductive Same (heap : Heap) : Value → Parsed → Prop
  | nil : Same heap .nil .nil
  | bool (b : Bool) : Same heap (.bool b) (.bool b)
  | int (i : Int64) : Same heap (.int i) (.number (.integral i.toInt))
  | float (d : Double) : Same heap (.float d) (.number d)
  | string (s : CString) : Same heap (.string s) (.string s)
  | array {r : Nat} {items : List Parsed} (hlength : (heap.array r).length = items.length)
      (hitems : ∀ (i : Nat) v w, (heap.array r)[i]? = some v → items[i]? = some w → Same heap v w) :
      Same heap (.array r) (.array items)
  | dictionary {r : Nat} {entries : List (CString × Parsed)}
      (hlength : (heap.dictionary r).length = entries.length)
      (hdistinct : (entries.map Prod.fst).Nodup) (found : CString → Parsed)
      (hfound : ∀ key v, (key, v) ∈ heap.dictionary r → (key, found key) ∈ entries)
      (hentries : ∀ key v, (key, v) ∈ heap.dictionary r → Same heap v (found key)) :
      Same heap (.dictionary r) (.dictionary entries)

/-- The value comes back, and a value that JSON has no text for is refused. -/
structure RoundTrip (reader : CString → Option Tree) (heap : Heap) (v : Value) : Prop where
  back : ¬ Cyclic heap v → Within heap jsonMaxDepth v →
    ∃ text w, toJson library heap v = .ok text ∧ parseJson library reader text = .ok w ∧
      Same heap v w
  refused : Cyclic heap v ∨ ¬ Within heap jsonMaxDepth v →
    ∃ failure, toJson library heap v = .error failure

/-- A value of the kinds JSON has, without doubles. -/
def JsonKinds (heap : Heap) (v : Value) : Prop :=
  ∀ w, Inside heap v w → w ≠ .other ∧ ∀ d, w ≠ .float d

/-- A name that is written as JSON writes it. -/
def PlainName (key : CString) : Prop := key.flatMap escapeByte = key

def PlainNames (heap : Heap) (v : Value) : Prop :=
  ∀ r, Inside heap v (.dictionary r) → ∀ key w, (key, w) ∈ heap.dictionary r → PlainName key

/-- The value a number text stands for. -/
def printed (n : Int) : Int := if fitsInt n then n else n.sign * sixDigits n.natAbs

/-- The library reads the number texts that are written for the integers in a value. -/
def ReadsNumbers (heap : Heap) (v : Value) : Prop :=
  ∀ i, Inside heap v (.int i) → ∀ n, toDouble i = .integral n →
    library.stod (numberText library (.integral n)) =
      some (.integral ((printed n).sign * nearestDouble (printed n).natAbs))

/-- The reader reads the text that is written for a value whose names are plain. -/
def ReadsText (reader : CString → Option Tree) (heap : Heap) (v : Value) : Prop :=
  PlainNames heap v → ∀ t, convert library heap jsonMaxDepth [] v = .ok t →
    reader (write t) = some t.readBack

/-- A string that is not taken for something else. -/
def Unmistakable (s : CString) : Prop :=
  s ≠ lit "true" ∧ s ≠ lit "false" ∧ s ≠ lit "null" ∧
    (startsNumber s = true → library.stod s = none)

/-- The strings in a value look like nothing else, and its integers are those of `int` or of six digits. -/
def Faithful (heap : Heap) (v : Value) : Prop :=
  (∀ s, Inside heap v (.string s) → Unmistakable library s) ∧
    ∀ i, Inside heap v (.int i) → fitsInt i.toInt = true ∨ FewDigits i.toInt.natAbs

end Json

end EZLanguage
