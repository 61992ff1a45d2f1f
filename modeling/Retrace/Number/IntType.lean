import Retrace.Fault
import Retrace.Number.Bits

/-!
# Integer types

A slot holds integers of a fixed width, signed or unsigned. A value outside the range of its type
is never wrapped: storing it is an error.
-/

namespace Retrace

/-- A width and a signedness. -/
structure IntType where
  bits : Nat
  signed : Bool
  bits_pos : 0 < bits := by decide
deriving DecidableEq, Repr

namespace IntType

/-- Signed, 64 bits: the type that is used where none is asked for. -/
def word : IntType := ⟨64, true, by decide⟩

instance : Inhabited IntType := ⟨word⟩

/-- The integer type with the given width. -/
def ofBits (bits : Int) (signed : Bool) : Except Fault IntType :=
  if h : 0 < bits.toNat then .ok ⟨bits.toNat, signed, h⟩ else .error (.badWidth bits)

/-- The names of the common integer types, signed ones first, each group in alphabetical order. -/
def named : List (String × IntType) :=
  [("i16", ⟨16, true, by decide⟩), ("i32", ⟨32, true, by decide⟩), ("i64", ⟨64, true, by decide⟩),
    ("i8", ⟨8, true, by decide⟩), ("int16", ⟨16, true, by decide⟩),
    ("int32", ⟨32, true, by decide⟩), ("int64", ⟨64, true, by decide⟩),
    ("int8", ⟨8, true, by decide⟩), ("isize", ⟨64, true, by decide⟩),
    ("u16", ⟨16, false, by decide⟩), ("u32", ⟨32, false, by decide⟩),
    ("u64", ⟨64, false, by decide⟩), ("u8", ⟨8, false, by decide⟩),
    ("uint16", ⟨16, false, by decide⟩), ("uint32", ⟨32, false, by decide⟩),
    ("uint64", ⟨64, false, by decide⟩), ("uint8", ⟨8, false, by decide⟩),
    ("usize", ⟨64, false, by decide⟩)]

/-- The integer type of a given name. -/
def ofName (name : String) : Except Fault IntType :=
  match named.find? fun entry => entry.1 = name with
  | some entry => .ok entry.2
  | none => .error (.unknownIntType name (named.map Prod.fst))

/-- The short name of an integer type: `i8`, `u32`. -/
def name (t : IntType) : String := (if t.signed then "i" else "u") ++ toString t.bits

/-- The least value. -/
def minValue (t : IntType) : Int := if t.signed then -Bits.weight (t.bits - 1) else 0

/-- The greatest value. -/
def maxValue (t : IntType) : Int :=
  if t.signed then Bits.weight (t.bits - 1) - 1 else Bits.weight t.bits - 1

/-- Whether a value can be stored in a slot of the type. -/
def contains (t : IntType) (value : Int) : Bool := t.minValue ≤ value && value ≤ t.maxValue

theorem contains_iff (t : IntType) (value : Int) :
    t.contains value = true ↔ t.minValue ≤ value ∧ value ≤ t.maxValue := by
  simp [contains]

end IntType

end Retrace
