import Retrace.Fault
import Retrace.Number.Bits

/-!
# Update operators

The three operators that may change a variable. Each has an inverse among the three, and that is
what makes every assignment reversible: `undo_apply`.
-/

namespace Retrace

/-- An operator that updates a variable. -/
inductive Update where
  | add
  | sub
  | xor
deriving DecidableEq, Repr, Inhabited

namespace Update

/-- How the operator is written. -/
def symbol : Update → String
  | .add => "+="
  | .sub => "-="
  | .xor => "^="

/-- The name of the operator. -/
def name : Update → String
  | .add => "ADD"
  | .sub => "SUB"
  | .xor => "XOR"

/-- The operator that takes an update back. -/
def inverse : Update → Update
  | .add => .sub
  | .sub => .add
  | .xor => .xor

/-- The updated value. -/
def apply : Update → Int → Int → Int
  | .add, current, operand => current + operand
  | .sub, current, operand => current - operand
  | .xor, current, operand => Bits.xor current operand

/-- The operator that a symbol denotes. -/
def ofSymbol? (text : String) : Option Update :=
  [Update.add, .sub, .xor].find? fun u => u.symbol = text

/-- The operator that a symbol denotes; any other symbol is not reversible. -/
def ofSymbol (text : String) : Except Fault Update :=
  match ofSymbol? text with
  | some u => .ok u
  | none => .error (.notReversible text)

@[simp] theorem inverse_inverse (u : Update) : u.inverse.inverse = u := by
  cases u <;> rfl

/-- The inverse operator with the same operand restores the value. -/
theorem undo_apply (u : Update) (current operand : Int) :
    u.inverse.apply (u.apply current operand) operand = current := by
  cases u with
  | add => exact Int.add_sub_cancel current operand
  | sub => exact Int.sub_add_cancel current operand
  | xor => exact Bits.xor_xor_cancel_right current operand

end Update

end Retrace
