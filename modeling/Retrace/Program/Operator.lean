/-!
# Operators of expressions

The operators that expressions may use. A tree stores an operator as it is written, since a tree
may also hold a symbol that denotes none.
-/

namespace Retrace

/-- An operator between two operands. -/
inductive BinaryOp where
  | add
  | sub
  | mul
  | div
  | rem
  | bitAnd
  | bitOr
  | bitXor
  | shiftLeft
  | shiftRight
  | eq
  | ne
  | lt
  | le
  | gt
  | ge
  | both
  | either
deriving DecidableEq, Repr, Inhabited

namespace BinaryOp

/-- How the operator is written. -/
def symbol : BinaryOp → String
  | .add => "+"
  | .sub => "-"
  | .mul => "*"
  | .div => "/"
  | .rem => "%"
  | .bitAnd => "&"
  | .bitOr => "|"
  | .bitXor => "^"
  | .shiftLeft => "<<"
  | .shiftRight => ">>"
  | .eq => "=="
  | .ne => "!="
  | .lt => "<"
  | .le => "<="
  | .gt => ">"
  | .ge => ">="
  | .both => "&&"
  | .either => "||"

/-- All operators between two operands. -/
def all : List BinaryOp :=
  [.add, .sub, .mul, .div, .rem, .bitAnd, .bitOr, .bitXor, .shiftLeft, .shiftRight, .eq, .ne,
    .lt, .le, .gt, .ge, .both, .either]

/-- The operator that a symbol denotes. -/
def ofSymbol? (text : String) : Option BinaryOp := all.find? fun op => op.symbol = text

theorem symbol_of_ofSymbol? {text : String} {op : BinaryOp} (h : ofSymbol? text = some op) :
    op.symbol = text := by
  simpa using List.find?_some h

end BinaryOp

/-- An operator in front of its operand. -/
inductive UnaryOp where
  | neg
  | not
  | complement
deriving DecidableEq, Repr, Inhabited

namespace UnaryOp

/-- How the operator is written. -/
def symbol : UnaryOp → String
  | .neg => "-"
  | .not => "!"
  | .complement => "~"

/-- All operators in front of their operand. -/
def all : List UnaryOp := [.neg, .not, .complement]

/-- The operator that a symbol denotes. -/
def ofSymbol? (text : String) : Option UnaryOp := all.find? fun op => op.symbol = text

theorem symbol_of_ofSymbol? {text : String} {op : UnaryOp} (h : ofSymbol? text = some op) :
    op.symbol = text := by
  simpa using List.find?_some h

end UnaryOp

end Retrace
