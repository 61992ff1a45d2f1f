import Retrace.Number.IntType

/-!
# Symbolic terms

Terms over unknown integers and unknown arrays of integers, and the formulas about them, as a
solver for integer arithmetic takes them. Terms are kept as they are built: nothing is simplified.
-/

namespace Retrace

/-- A way to combine two words bit by bit. -/
inductive BitOp where
  | and
  | or
  | xor
deriving DecidableEq, Repr, Inhabited

mutual

/-- A term that denotes an integer. -/
inductive IntTerm where
  | const (value : Int)
  | var (name : String)
  | add (l r : IntTerm)
  | sub (l r : IntTerm)
  | mul (l r : IntTerm)
  | neg (t : IntTerm)
  /-- the quotient of integer division with a remainder that is not negative -/
  | div (l r : IntTerm)
  | ite (c : BoolTerm) (l r : IntTerm)
  | select (a : ArrayTerm) (i : IntTerm)
  /-- both operands taken as words of the type, combined, and taken as an integer again -/
  | bits (op : BitOp) (type : IntType) (l r : IntTerm)

/-- A formula. -/
inductive BoolTerm where
  | const (value : Bool)
  | lt (l r : IntTerm)
  | le (l r : IntTerm)
  | eq (l r : IntTerm)
  | ne (l r : IntTerm)
  | same (l r : BoolTerm)
  | differ (l r : BoolTerm)
  | sameArray (l r : ArrayTerm)
  | differArray (l r : ArrayTerm)
  | not (t : BoolTerm)
  | all (ts : List BoolTerm)
  | any (ts : List BoolTerm)

/-- A term that denotes an array of integers without bounds. -/
inductive ArrayTerm where
  | var (name : String)
  | store (a : ArrayTerm) (i v : IntTerm)
  | ite (c : BoolTerm) (l r : ArrayTerm)

end

instance : Inhabited IntTerm := ⟨.const 0⟩

instance : Inhabited BoolTerm := ⟨.const true⟩

namespace IntTerm

/-- The integer of a term that is written as one. -/
def literal? : IntTerm → Option Int
  | .const n => some n
  | _ => none

theorem eq_const_of_literal? {t : IntTerm} {n : Int} (h : t.literal? = some n) : t = .const n := by
  cases t with
  | const m => rw [Option.some.inj h]
  | _ => cases h

/-- That a term lies in the range of an integer type. -/
def inRange (t : IntTerm) (type : IntType) : BoolTerm :=
  .all [.le (.const type.minValue) t, .le t (.const type.maxValue)]

/-- The absolute value of a term. -/
def abs (t : IntTerm) : IntTerm := .ite (.le (.const 0) t) t (.neg t)

/-- The quotient of two terms, rounded toward zero. -/
def quotient (l r : IntTerm) : IntTerm :=
  let q := IntTerm.div l.abs r.abs
  .ite (.same (.le (.const 0) l) (.le (.const 0) r)) q (.neg q)

end IntTerm

/-- What an expression or a variable stands for symbolically. -/
inductive SymValue where
  | int (t : IntTerm)
  | bool (t : BoolTerm)
  | array (t : ArrayTerm)
deriving Inhabited

/-- A value with truth values taken as numbers. -/
def SymValue.asNumber : SymValue → SymValue
  | .bool t => .int (.ite t (.const 1) (.const 0))
  | v => v

end Retrace
