import EZLanguage.Bytecode.Chunk
import EZLanguage.Support.LittleEndian
import Mathlib.Order.Bounds.Defs
import Mathlib.Data.Nat.Bitwise
import Mathlib.Algebra.Order.Ring.Int
import Mathlib.Tactic.NormNum

/-!
# Struct layout and packing

`computeStructLayout` places the fields of a C struct, `os_struct_pack` writes values into the bytes of
one and `os_struct_unpack` reads them. Every number goes through a double on its way into a field, and
from there through a conversion that C++ defines only for numbers the field can hold.
-/

namespace EZLanguage

namespace Struct

open Support

/-! ### Layout -/

inductive FieldType
  | i8 | u8 | i16 | u16 | i32 | u32 | f32 | i64 | u64 | f64 | ptr
  deriving DecidableEq

def FieldType.name : FieldType → CString
  | i8 => lit "i8"
  | u8 => lit "u8"
  | i16 => lit "i16"
  | u16 => lit "u16"
  | i32 => lit "i32"
  | u32 => lit "u32"
  | f32 => lit "f32"
  | i64 => lit "i64"
  | u64 => lit "u64"
  | f64 => lit "f64"
  | ptr => lit "ptr"

def FieldType.all : List FieldType := [i8, u8, i16, u16, i32, u32, f32, i64, u64, f64, ptr]

/-- The type that a string names, if it names one. -/
def fieldType (name : CString) : Option FieldType := FieldType.all.find? fun t => t.name = name

/-- `parseStructType`, whose sizes are the alignments too. -/
def parseStructType : FieldType → Nat
  | .i8 | .u8 => 1
  | .i16 | .u16 => 2
  | .i32 | .u32 | .f32 => 4
  | .i64 | .u64 | .f64 | .ptr => 8

structure StructField where
  size : Nat
  align : Nat
  offset : Nat
  type : Option FieldType

structure StructLayout where
  fields : List StructField
  totalSize : Nat
  maxAlign : Nat

/-- `(n + align - 1) & ~(align - 1)`. -/
def roundUp (n align : Nat) : Nat := Nat.ldiff (n + align - 1) (align - 1)

/-- The size and the alignment of a type, 1 for a string that names none. -/
def sizeOf (type : Option FieldType) : Nat := (type.map parseStructType).getD 1

/-- The loop body of `computeStructLayout` for a string. -/
def addField (layout : StructLayout) (type : Option FieldType) : StructLayout :=
  let size := sizeOf type
  let offset := roundUp layout.totalSize size
  { fields := layout.fields ++ [⟨size, size, offset, type⟩]
    totalSize := offset + size
    maxAlign := if layout.maxAlign < size then size else layout.maxAlign }

/-- `computeStructLayout`. Entries that are no strings are passed over. -/
def computeStructLayout (layoutArray : List (Option CString)) : StructLayout :=
  let layout := (layoutArray.filterMap fun entry => entry.map fieldType).foldl addField ⟨[], 0, 1⟩
  { layout with totalSize := roundUp layout.totalSize layout.maxAlign }

/-! ### The fields lie where C puts them -/

/-- Each field has the least aligned offset behind the previous one. -/
def Placed : Nat → List StructField → Prop
  | _, [] => True
  | stop, field :: fields =>
      IsLeast {n | field.align ∣ n ∧ stop ≤ n} field.offset ∧
        Placed (field.offset + field.size) fields

/-- Where the last field ends. -/
def lastEnd : Nat → List StructField → Nat
  | stop, [] => stop
  | _, field :: fields => lastEnd (field.offset + field.size) fields

/-- The layout of C for some types. -/
structure CLayout (types : List (Option FieldType)) (layout : StructLayout) : Prop where
  types : layout.fields.map StructField.type = types
  sizes : ∀ field ∈ layout.fields, field.size = sizeOf field.type ∧ field.align = sizeOf field.type
  placed : Placed 0 layout.fields
  maxAlign : IsLeast {n | 1 ≤ n ∧ ∀ field ∈ layout.fields, field.align ≤ n} layout.maxAlign
  total : IsLeast {n | layout.maxAlign ∣ n ∧ lastEnd 0 layout.fields ≤ n} layout.totalSize

theorem ldiff_two_pow (x k : Nat) : Nat.ldiff x (2 ^ k - 1) = 2 ^ k * (x / 2 ^ k) := by
  apply Nat.eq_of_testBit_eq
  intro i
  rw [Nat.testBit_ldiff, Nat.testBit_two_pow_sub_one, Nat.testBit_two_pow_mul, Nat.testBit_div_two_pow]
  by_cases hi : i < k
  · simp [hi]
  · have hsum : i - k + k = i := by omega
    simp [hi, Nat.not_lt.mp hi, hsum]

theorem sizeOf_two_pow (type : Option FieldType) : ∃ k, sizeOf type = 2 ^ k := by
  cases type with
  | none => exact ⟨0, rfl⟩
  | some type =>
      cases type with
      | i8 => exact ⟨0, rfl⟩
      | u8 => exact ⟨0, rfl⟩
      | i16 => exact ⟨1, rfl⟩
      | u16 => exact ⟨1, rfl⟩
      | i32 => exact ⟨2, rfl⟩
      | u32 => exact ⟨2, rfl⟩
      | f32 => exact ⟨2, rfl⟩
      | i64 => exact ⟨3, rfl⟩
      | u64 => exact ⟨3, rfl⟩
      | f64 => exact ⟨3, rfl⟩
      | ptr => exact ⟨3, rfl⟩

/-- Rounding up gives the least multiple that is not below. -/
theorem roundUp_isLeast (n : Nat) {align : Nat} (halign : ∃ k, align = 2 ^ k) :
    IsLeast {m | align ∣ m ∧ n ≤ m} (roundUp n align) := by
  obtain ⟨k, hk⟩ := halign
  have hpos : 0 < align := by
    rw [hk]
    exact Nat.two_pow_pos k
  have hround : roundUp n align = align * ((n + align - 1) / align) := by
    rw [roundUp, hk, ldiff_two_pow]
  have hdiv := Nat.div_add_mod (n + align - 1) align
  have hmod := Nat.mod_lt (n + align - 1) hpos
  constructor
  · rw [hround]
    exact ⟨Nat.dvd_mul_right _ _, by omega⟩
  · intro m hm
    obtain ⟨⟨q, rfl⟩, hle⟩ := hm
    rw [hround]
    apply Nat.mul_le_mul_left
    apply Nat.le_of_lt_succ
    apply (Nat.div_lt_iff_lt_mul hpos).mpr
    rw [Nat.succ_mul, Nat.mul_comm q align]
    omega

/-- The fields of the types from an offset on. -/
def placeFields : Nat → List (Option FieldType) → List StructField
  | _, [] => []
  | stop, type :: types =>
      let offset := roundUp stop (sizeOf type)
      ⟨sizeOf type, sizeOf type, offset, type⟩ :: placeFields (offset + sizeOf type) types

theorem foldl_addField (types : List (Option FieldType)) (layout : StructLayout) :
    (types.foldl addField layout).fields = layout.fields ++ placeFields layout.totalSize types ∧
    (types.foldl addField layout).totalSize =
      lastEnd layout.totalSize (placeFields layout.totalSize types) := by
  induction types generalizing layout with
  | nil => exact ⟨(List.append_nil _).symm, rfl⟩
  | cons type types ih =>
      have hrest := ih (addField layout type)
      rw [List.foldl_cons, hrest.1, hrest.2]
      exact ⟨List.append_assoc _ _ _, rfl⟩

theorem placed_placeFields (stop : Nat) (types : List (Option FieldType)) :
    Placed stop (placeFields stop types) ∧
    (placeFields stop types).map StructField.type = types ∧
    ∀ field ∈ placeFields stop types,
      field.size = sizeOf field.type ∧ field.align = sizeOf field.type := by
  induction types generalizing stop with
  | nil => exact ⟨trivial, rfl, by simp [placeFields]⟩
  | cons type types ih =>
      have hrest := ih (roundUp stop (sizeOf type) + sizeOf type)
      refine ⟨⟨roundUp_isLeast stop (sizeOf_two_pow type), hrest.1⟩, ?_, ?_⟩
      · rw [placeFields, List.map_cons, hrest.2.1]
      · intro field hmem
        rcases List.mem_cons.mp hmem with heq | hlater
        · rw [heq]
          exact ⟨rfl, rfl⟩
        · exact hrest.2.2 field hlater

/-- The greatest alignment is a power of two, and the least that is not below any. -/
theorem maxAlign_foldl (types : List (Option FieldType)) :
    (∃ k, (types.foldl addField ⟨[], 0, 1⟩).maxAlign = 2 ^ k) ∧
    IsLeast {n | 1 ≤ n ∧ ∀ field ∈ (types.foldl addField ⟨[], 0, 1⟩).fields, field.align ≤ n}
      (types.foldl addField ⟨[], 0, 1⟩).maxAlign := by
  have hstep : ∀ (layout : StructLayout) (type : Option FieldType),
      (∃ k, layout.maxAlign = 2 ^ k) ∧
        IsLeast {n | 1 ≤ n ∧ ∀ field ∈ layout.fields, field.align ≤ n} layout.maxAlign →
      (∃ k, (addField layout type).maxAlign = 2 ^ k) ∧
        IsLeast {n | 1 ≤ n ∧ ∀ field ∈ (addField layout type).fields, field.align ≤ n}
          (addField layout type).maxAlign := by
    intro layout type h
    obtain ⟨hpower, ⟨hone, hbound⟩, hleast⟩ := h
    have hmax : (addField layout type).maxAlign = max layout.maxAlign (sizeOf type) := by
      unfold addField
      dsimp only
      split_ifs <;> omega
    rw [hmax]
    refine ⟨?_, ⟨by omega, ?_⟩, ?_⟩
    · rcases Nat.le_total layout.maxAlign (sizeOf type) with hle | hle
      · rw [Nat.max_eq_right hle]
        exact sizeOf_two_pow type
      · rw [Nat.max_eq_left hle]
        exact hpower
    · intro field hmem
      rcases List.mem_append.mp hmem with hold | hnew
      · have hle := hbound field hold
        omega
      · rw [List.mem_singleton.mp hnew]
        exact Nat.le_max_right _ _
    · intro n hn
      apply Nat.max_le.mpr
      constructor
      · apply hleast
        exact ⟨hn.1, fun field hmem => hn.2 field (List.mem_append_left _ hmem)⟩
      · exact hn.2 ⟨sizeOf type, sizeOf type, roundUp layout.totalSize (sizeOf type), type⟩
          (List.mem_append_right _ (List.mem_singleton.mpr rfl))
  have hrun : ∀ (types : List (Option FieldType)) (layout : StructLayout),
      (∃ k, layout.maxAlign = 2 ^ k) ∧
        IsLeast {n | 1 ≤ n ∧ ∀ field ∈ layout.fields, field.align ≤ n} layout.maxAlign →
      (∃ k, (types.foldl addField layout).maxAlign = 2 ^ k) ∧
        IsLeast {n | 1 ≤ n ∧ ∀ field ∈ (types.foldl addField layout).fields, field.align ≤ n}
          (types.foldl addField layout).maxAlign := by
    intro types
    induction types with
    | nil =>
        intro layout h
        exact h
    | cons type types ih =>
        intro layout h
        exact ih _ (hstep layout type h)
  apply hrun
  refine ⟨⟨0, rfl⟩, ⟨Nat.le_refl 1, by simp⟩, ?_⟩
  intro n hn
  exact hn.1

/-- `computeStructLayout` gives the layout of C for the strings of its array. -/
theorem computeStructLayout_spec (layoutArray : List (Option CString)) :
    CLayout (layoutArray.filterMap fun entry => entry.map fieldType)
      (computeStructLayout layoutArray) := by
  unfold computeStructLayout
  generalize (layoutArray.filterMap fun entry => entry.map fieldType) = types
  have hfields := foldl_addField types ⟨[], 0, 1⟩
  have hplaced := placed_placeFields 0 types
  have hmax := maxAlign_foldl types
  dsimp only at hfields
  rw [List.nil_append] at hfields
  refine ⟨?_, ?_, ?_, hmax.2, ?_⟩
  · dsimp only
    rw [hfields.1]
    exact hplaced.2.1
  · dsimp only
    rw [hfields.1]
    exact hplaced.2.2
  · dsimp only
    rw [hfields.1]
    exact hplaced.1
  · dsimp only
    rw [hfields.1, ← hfields.2]
    exact roundUp_isLeast _ hmax.1

/-! ### Packing -/

/-- A value that is packed or unpacked; `nil` is every value that is no number. -/
inductive StructValue
  | int (i : Int)
  | float (bits : UInt64)
  | nil
  deriving DecidableEq

/-- The double that is nearest to an integer, the even one of two. -/
def asNumber (i : Int) : Int :=
  let unit := 2 ^ (i.natAbs.log2 - 52)
  let quotient := i.natAbs / unit
  let rest := i.natAbs % unit
  let rounded :=
    if 2 * rest < unit ∨ 2 * rest = unit ∧ quotient % 2 = 0 then quotient else quotient + 1
  i.sign * (rounded * unit : Nat)

/-- The conversions of a machine. That of a number to an unsigned type of some bits is defined by the
standard only where the type can hold the number. -/
structure Machine where
  cast : Nat → Int → Nat
  castFloat : Nat → UInt64 → Nat
  float32 : StructValue → Nat
  float64 : StructValue → Nat
  widen : Nat → UInt64
  cast_exact : ∀ width (x : Nat), x < 2 ^ width → cast width x = x

variable (machine : Machine)

def Machine.number (width : Nat) : StructValue → Nat
  | .int i => machine.cast width (asNumber i)
  | .float bits => machine.castFloat width bits
  | .nil => machine.cast width 0

/-- The bytes that are written for a value. A field of no type is left as it is. -/
def packField (type : Option FieldType) (val : StructValue) : List UInt8 :=
  match type with
  | none => []
  | some .f32 => leBytes 4 (machine.float32 val)
  | some .f64 => leBytes 8 (machine.float64 val)
  | some type => leBytes (parseStructType type) (machine.number (8 * parseStructType type) val)

def write (bytes : List UInt8) (offset : Nat) (part : List UInt8) : List UInt8 :=
  bytes.take offset ++ part ++ bytes.drop (offset + part.length)

def read (bytes : List UInt8) (offset size : Nat) : List UInt8 := (bytes.drop offset).take size

/-- The loop of `os_struct_pack`. -/
def packFields (bytes : List UInt8) : List (StructField × StructValue) → List UInt8
  | [] => bytes
  | (field, val) :: rest =>
      packFields (write bytes field.offset (packField machine field.type val)) rest

def os_struct_pack (layoutArray : List (Option CString)) (valuesArray : List StructValue)
    (buffer : Option (List UInt8)) : Except String (List UInt8) :=
  let layout := computeStructLayout layoutArray
  match buffer with
  | none => .ok (packFields machine (List.replicate layout.totalSize 0)
      (layout.fields.zip valuesArray))
  | some bytes =>
      if bytes.length < layout.totalSize then .error "os_struct_pack: buffer too small"
      else .ok (packFields machine bytes (layout.fields.zip valuesArray))

def unpackField (type : Option FieldType) (bytes : List UInt8) : StructValue :=
  match type with
  | none => .nil
  | some .i8 => .int (Int.bmod (ofLE bytes) (2 ^ 8))
  | some .i16 => .int (Int.bmod (ofLE bytes) (2 ^ 16))
  | some .i32 => .int (Int.bmod (ofLE bytes) (2 ^ 32))
  | some .u8 | some .u16 | some .u32 => .int (ofLE bytes)
  | some .i64 | some .u64 | some .ptr => .int (Int.bmod (ofLE bytes) (2 ^ 64))
  | some .f32 => .float (machine.widen (ofLE bytes))
  | some .f64 => .float (UInt64.ofNat (ofLE bytes))

/-- `os_struct_unpack` on a buffer. -/
def os_struct_unpack (layoutArray : List (Option CString)) (bytes : List UInt8) :
    Except String (List StructValue) :=
  let layout := computeStructLayout layoutArray
  if bytes.length < layout.totalSize then .error "os_struct_unpack: buffer too small"
  else .ok (layout.fields.map fun field =>
    unpackField machine field.type (read bytes field.offset field.size))

/-! ### Reading what was written -/

theorem length_write {bytes part : List UInt8} {offset : Nat}
    (hroom : offset + part.length ≤ bytes.length) :
    (write bytes offset part).length = bytes.length := by
  rw [write, List.length_append, List.length_append, List.length_take, List.length_drop]
  omega

theorem read_write_same {bytes part : List UInt8} {offset : Nat}
    (hroom : offset + part.length ≤ bytes.length) :
    read (write bytes offset part) offset part.length = part := by
  have htake : (bytes.take offset).length = offset := List.length_take_of_le (by omega)
  rw [read, write, List.append_assoc, List.drop_left' htake, List.take_left]

/-- What is read before a write is what stood there. -/
theorem read_write_before {bytes part : List UInt8} {offset place size : Nat}
    (hroom : offset ≤ bytes.length) (hbefore : place + size ≤ offset) :
    read (write bytes offset part) place size = read bytes place size := by
  have htake : (bytes.take offset).length = offset := List.length_take_of_le hroom
  rw [read, read, write, List.append_assoc, List.drop_append_of_le_length (by omega),
    List.take_append_of_le_length (by rw [List.length_drop]; omega), List.drop_take, List.take_take,
    Nat.min_eq_left (by omega)]

theorem length_packField (type : FieldType) (val : StructValue) :
    (packField machine (some type) val).length = parseStructType type := by
  cases type with
  | _ => exact length_leBytes _ _

theorem length_packField_le (type : Option FieldType) (val : StructValue) :
    (packField machine type val).length ≤ sizeOf type := by
  cases type with
  | none => exact Nat.zero_le _
  | some type => exact Nat.le_of_eq (length_packField machine type val)

/-- The fields of the types end where the last one does. -/
theorem le_lastEnd (types : List (Option FieldType)) (stop : Nat) :
    stop ≤ lastEnd stop (placeFields stop types) := by
  induction types generalizing stop with
  | nil => exact Nat.le_refl stop
  | cons type types ih =>
      have hround := (roundUp_isLeast stop (sizeOf_two_pow type)).1.2
      have hrest := ih (roundUp stop (sizeOf type) + sizeOf type)
      rw [placeFields, lastEnd]
      dsimp only at hrest ⊢
      omega

theorem packFields_spec (types : List (Option FieldType)) (vals : List StructValue) (stop : Nat)
    (bytes : List UInt8) (hlength : types.length = vals.length)
    (hroom : lastEnd stop (placeFields stop types) ≤ bytes.length) :
    (packFields machine bytes ((placeFields stop types).zip vals)).length = bytes.length ∧
    (∀ place size, place + size ≤ stop →
      read (packFields machine bytes ((placeFields stop types).zip vals)) place size =
        read bytes place size) ∧
    ((placeFields stop types).map fun field => unpackField machine field.type
        (read (packFields machine bytes ((placeFields stop types).zip vals)) field.offset
          field.size)) =
      (types.zip vals).map fun entry =>
        unpackField machine entry.1 (packField machine entry.1 entry.2) := by
  induction types generalizing vals stop bytes with
  | nil => exact ⟨rfl, fun _ _ _ => rfl, rfl⟩
  | cons type types ih =>
      cases vals with
      | nil => simp at hlength
      | cons val vals =>
          have hround := (roundUp_isLeast stop (sizeOf_two_pow type)).1.2
          have hend := le_lastEnd types (roundUp stop (sizeOf type) + sizeOf type)
          have hsize := length_packField_le machine type val
          rw [placeFields, lastEnd] at hroom
          dsimp only at hroom
          have hwrite : (write bytes (roundUp stop (sizeOf type)) (packField machine type val)).length =
              bytes.length := length_write (by omega)
          obtain ⟨hkept, hbefore, hrest⟩ := ih vals (roundUp stop (sizeOf type) + sizeOf type)
            (write bytes (roundUp stop (sizeOf type)) (packField machine type val))
            (by simpa using hlength) (by omega)
          rw [placeFields, List.zip_cons_cons, packFields, List.zip_cons_cons]
          dsimp only
          refine ⟨hkept.trans hwrite, ?_, ?_⟩
          · intro place size hplace
            rw [hbefore place size (by omega), read_write_before (by omega) (by omega)]
          · rw [List.map_cons, List.map_cons, hrest]
            apply congrArg (· :: _)
            dsimp only
            rw [hbefore _ _ (Nat.le_refl _)]
            cases type with
            | none => rw [unpackField, unpackField]
            | some type =>
                have hpart := length_packField machine type val
                have hsame : read (write bytes (roundUp stop (sizeOf (some type)))
                    (packField machine (some type) val)) (roundUp stop (sizeOf (some type)))
                    (packField machine (some type) val).length = packField machine (some type) val :=
                  read_write_same (by omega)
                have hwidth : sizeOf (some type) = (packField machine (some type) val).length :=
                  hpart.symm
                rw [← hwidth] at hsame
                rw [hsame]

/-! ### Integers -/

/-- The values of the integer types. The integers of the language are signed, so the ones of 64 bits are
taken modulo 2^64. -/
def InRange : FieldType → Int → Prop
  | .i8, i => -(2 ^ 7) ≤ i ∧ i < 2 ^ 7
  | .u8, i => 0 ≤ i ∧ i < 2 ^ 8
  | .i16, i => -(2 ^ 15) ≤ i ∧ i < 2 ^ 15
  | .u16, i => 0 ≤ i ∧ i < 2 ^ 16
  | .i32, i => -(2 ^ 31) ≤ i ∧ i < 2 ^ 31
  | .u32, i => 0 ≤ i ∧ i < 2 ^ 32
  | .i64, i | .u64, i | .ptr, i => -(2 ^ 63) ≤ i ∧ i < 2 ^ 63
  | .f32, _ | .f64, _ => False

theorem log2_small {m : Nat} (hm : m < 2 ^ 53) : m.log2 - 52 = 0 := by
  by_cases hzero : m = 0
  · rw [hzero]
    rfl
  · have hlog := (Nat.log2_lt hzero).mpr hm
    omega

theorem asNumber_small {i : Int} (hi : i.natAbs < 2 ^ 53) : asNumber i = i := by
  unfold asNumber
  rw [log2_small hi, Nat.pow_zero]
  dsimp only
  rw [Nat.div_one, Nat.mod_one, if_pos (Or.inl (by decide)), Nat.mul_one]
  exact Int.sign_mul_natAbs i

/-- The double of a positive integer is positive and at most twice as large. -/
theorem asNumber_bounds {n : Nat} (hn : 0 < n) :
    ∃ m : Nat, 0 < m ∧ m ≤ 2 * n ∧ asNumber n = m ∧ asNumber (-n) = -m := by
  have hunit : 2 ^ (n.log2 - 52) ≤ n := by
    apply Nat.le_trans (Nat.pow_le_pow_right (by decide) (Nat.sub_le _ 52))
    exact Nat.log2_self_le (by omega)
  have hpos : 0 < 2 ^ (n.log2 - 52) := Nat.two_pow_pos _
  have habs : (n : Int).natAbs = n := Int.natAbs_natCast n
  have hneg : (-(n : Int)).natAbs = n := by omega
  have hsign : (n : Int).sign = 1 := Int.sign_eq_one_of_pos (by omega)
  have hsign' : (-(n : Int)).sign = -1 := Int.sign_eq_neg_one_of_neg (by omega)
  unfold asNumber
  rw [habs, hneg, hsign, hsign']
  dsimp only
  generalize 2 ^ (n.log2 - 52) = unit at hunit hpos
  have hquotient : 0 < n / unit := Nat.div_pos hunit hpos
  have hle : n / unit * unit ≤ n := Nat.div_mul_le_self n unit
  have hmul : (n / unit + 1) * unit = n / unit * unit + unit := Nat.succ_mul _ _
  have hfirst : 0 < n / unit * unit := Nat.mul_pos hquotient hpos
  split_ifs with h
  · exact ⟨n / unit * unit, hfirst, by omega, Int.one_mul _, Int.neg_one_mul _⟩
  · exact ⟨(n / unit + 1) * unit, by omega, by omega, Int.one_mul _, Int.neg_one_mul _⟩

/-! ### The round trip -/

def names (types : List FieldType) : List (Option CString) := types.map fun type => some type.name

/-- What is packed into a new buffer is unpacked from it. -/
def RoundTrip (types : List FieldType) (values : List Int) : Prop :=
  (os_struct_pack machine (names types) (values.map .int) none).bind
    (os_struct_unpack machine (names types)) = .ok (values.map .int)

theorem fieldType_name (type : FieldType) : fieldType type.name = some type := by
  cases type with
  | _ => decide

theorem filterMap_names (types : List FieldType) :
    ((names types).filterMap fun entry => entry.map fieldType) = types.map some := by
  rw [names, List.filterMap_map, ← List.filterMap_eq_map]
  apply List.filterMap_congr
  intro type _
  show some (fieldType type.name) = some (some type)
  rw [fieldType_name]

/-- A field gives back a value exactly when the bits of its conversion are those of the value. -/
theorem unpackField_packField_iff {type : FieldType} {v : Int} (hv : InRange type v) :
    unpackField machine (some type) (packField machine (some type) (.int v)) = .int v ↔
      (machine.cast (8 * parseStructType type) (asNumber v) : Int) %
          2 ^ (8 * parseStructType type) = v % 2 ^ (8 * parseStructType type) := by
  cases type with
  | f32 => exact absurd hv id
  | f64 => exact absurd hv id
  | _ =>
      simp only [packField, unpackField, ofLE_leBytes, parseStructType, Machine.number,
        StructValue.int.injEq, Int.bmod_def, InRange] at hv ⊢
      norm_num at hv ⊢
      omega

theorem unpacked_iff {types : List FieldType} {values : List Int}
    (hlength : types.length = values.length) :
    RoundTrip machine types values ↔ ∀ entry ∈ types.zip values,
      unpackField machine (some entry.1) (packField machine (some entry.1) (.int entry.2)) =
        .int entry.2 := by
  have hlayout := computeStructLayout_spec (names types)
  have hfields : (computeStructLayout (names types)).fields = placeFields 0 (types.map some) := by
    rw [← filterMap_names]
    exact (foldl_addField _ ⟨[], 0, 1⟩).1
  have htotal := hlayout.total.1.2
  rw [hfields] at htotal
  have hspec := packFields_spec machine (types.map some) (values.map .int) 0
    (List.replicate (computeStructLayout (names types)).totalSize 0)
    (by rw [List.length_map, List.length_map, hlength]) (by rw [List.length_replicate]; exact htotal)
  have hzip : (types.map some).zip (values.map StructValue.int) =
      (types.zip values).map fun entry => (some entry.1, .int entry.2) := by
    rw [List.zip_map]
    rfl
  have hvalues : values.map StructValue.int = (types.zip values).map fun entry => .int entry.2 := by
    conv_lhs => rw [← List.map_snd_zip (Nat.le_of_eq hlength.symm)]
    rw [List.map_map]
    rfl
  have hpack : os_struct_pack machine (names types) (values.map .int) none =
      .ok (packFields machine (List.replicate (computeStructLayout (names types)).totalSize 0)
        ((placeFields 0 (types.map some)).zip (values.map .int))) := by
    rw [os_struct_pack, hfields]
  have hunpack : RoundTrip machine types values ↔
      (types.zip values).map (fun entry =>
        unpackField machine (some entry.1) (packField machine (some entry.1) (.int entry.2))) =
      (types.zip values).map fun entry => .int entry.2 := by
    rw [RoundTrip, hpack]
    show os_struct_unpack machine (names types) _ = _ ↔ _
    rw [os_struct_unpack, if_neg (by rw [hspec.1, List.length_replicate]; exact Nat.lt_irrefl _),
      hfields, hspec.2.2, hzip, List.map_map, hvalues]
    exact ⟨Except.ok.inj, congrArg _⟩
  rw [hunpack, List.map_inj_left]

/-- A machine whose conversion gives 0 for what a type cannot hold. -/
def saturating : Machine where
  cast width x := if 0 ≤ x ∧ x < 2 ^ width then x.toNat else 0
  castFloat _ _ := 0
  float32 _ := 0
  float64 _ := 0
  widen _ := 0
  cast_exact := by
    intro width x hx
    have hlt : (x : Int) < 2 ^ width := by exact_mod_cast hx
    rw [if_pos ⟨Int.natCast_nonneg x, hlt⟩, Int.toNat_natCast]

/-- Where the values of a type lie: in its bits, or below zero, and below 2^53 in a short type. -/
theorem InRange.window {type : FieldType} {v : Int} (hv : InRange type v) :
    (0 ≤ v → v < 2 ^ (8 * parseStructType type)) ∧
    (v < 0 → v % 2 ^ (8 * parseStructType type) ≠ 0) ∧
    (parseStructType type = 8 ∧ v < 2 ^ 63 ∨ v.natAbs < 2 ^ 53) := by
  cases type with
  | f32 => exact absurd hv id
  | f64 => exact absurd hv id
  | _ =>
      simp only [InRange, parseStructType] at hv ⊢
      norm_num at hv ⊢
      omega

/-- A value that is not negative and exactly a double comes back on every machine. -/
theorem field_of_exact {type : FieldType} {v : Int} (hv : InRange type v) (hnonneg : 0 ≤ v)
    (hexact : asNumber v = v) :
    unpackField machine (some type) (packField machine (some type) (.int v)) = .int v := by
  apply (unpackField_packField_iff machine hv).mpr
  obtain ⟨n, rfl⟩ := Int.eq_ofNat_of_zero_le hnonneg
  have hlt : n < 2 ^ (8 * parseStructType type) := by
    exact_mod_cast hv.window.1 hnonneg
  rw [hexact, machine.cast_exact _ n hlt]

/-- What comes back where the conversion gives 0 for negative numbers is not negative, and exactly a
double. -/
theorem exact_of_field {type : FieldType} {v : Int} (hv : InRange type v)
    (hfield : unpackField saturating (some type) (packField saturating (some type) (.int v)) =
      .int v) : 0 ≤ v ∧ asNumber v = v := by
  have hbits := (unpackField_packField_iff saturating hv).mp hfield
  obtain hneg | hzero | hpos := Int.lt_trichotomy v 0
  · obtain ⟨n, hn⟩ := Int.eq_ofNat_of_zero_le (a := -v) (by omega)
    obtain ⟨m, hm, _, _, hnumber⟩ := asNumber_bounds (n := n) (by omega)
    have hv' : v = -n := by omega
    have hcast : saturating.cast (8 * parseStructType type) (asNumber v) = 0 := by
      rw [hv', hnumber]
      exact if_neg (by omega)
    rw [hcast] at hbits
    exact absurd hbits.symm (hv.window.2.1 hneg)
  · rw [hzero]
    exact ⟨Int.le_refl 0, asNumber_small (by decide)⟩
  · refine ⟨Int.le_of_lt hpos, ?_⟩
    rcases hv.window.2.2 with ⟨hwidth, hn⟩ | hsmall
    · obtain ⟨n, rfl⟩ := Int.eq_ofNat_of_zero_le (Int.le_of_lt hpos)
      obtain ⟨m, _, hm, hnumber, _⟩ := asNumber_bounds (n := n) (by omega)
      have hcast := saturating.cast_exact 64 m (by omega)
      rw [hwidth, hnumber, hcast] at hbits
      rw [hnumber]
      omega
    · exact asNumber_small hsmall

/-- The layout is that of C, and integers in the range of their fields come back on every machine exactly
when none is negative and each is exactly a double. -/
theorem struct_packing (layoutArray : List (Option CString)) (types : List FieldType)
    (values : List Int) :
    CLayout (layoutArray.filterMap fun entry => entry.map fieldType)
      (computeStructLayout layoutArray) ∧
    (types.length = values.length → (∀ entry ∈ types.zip values, InRange entry.1 entry.2) →
      ((∀ machine, RoundTrip machine types values) ↔ ∀ v ∈ values, 0 ≤ v ∧ asNumber v = v)) := by
  refine ⟨computeStructLayout_spec layoutArray, ?_⟩
  intro hlength hrange
  have hsnd := List.map_snd_zip (Nat.le_of_eq hlength.symm)
  constructor
  · intro h v hv
    rw [← hsnd] at hv
    obtain ⟨entry, hentry, rfl⟩ := List.mem_map.mp hv
    exact exact_of_field (hrange entry hentry) ((unpacked_iff saturating hlength).mp
      (h saturating) entry hentry)
  · intro h machine
    apply (unpacked_iff machine hlength).mpr
    intro entry hentry
    have hvalue := h entry.2 (by
      rw [← hsnd]
      exact List.mem_map_of_mem hentry)
    exact field_of_exact machine (hrange entry hentry) hvalue.1 hvalue.2

/-- No double is 2^53 + 1, so it comes back on no machine. -/
theorem struct_packing_loses :
    ¬ ∃ machine, RoundTrip machine [.i64] [9007199254740993] := by
  intro h
  obtain ⟨machine, h⟩ := h
  have hrange : InRange .i64 9007199254740993 := ⟨by decide, by decide⟩
  have hfield := (unpacked_iff machine rfl).mp h (.i64, 9007199254740993) (by decide)
  have hbits := (unpackField_packField_iff machine hrange).mp hfield
  have hnumber : asNumber 9007199254740993 = (9007199254740992 : Nat) := by decide
  rw [hnumber, machine.cast_exact _ _ (by decide)] at hbits
  exact absurd hbits (by decide)

end Struct

end EZLanguage
