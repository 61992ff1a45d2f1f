import Retrace.Eval.Value
import Retrace.Memory.Frame
import Retrace.Number.Bits
import Retrace.Program.Expr
import Retrace.Program.Operator

/-!
# Evaluating expressions

Evaluation never writes. It records every slot that it reads, in order, also when it fails in the
end: the rules on overlapping storage compare those slots with the ones that a step modifies. The
operators `&&` and `||` evaluate, and so read, their right side only where it matters. Division
goes toward zero, and the remainder has the sign of the dividend.
-/

namespace Retrace

/-- The value of an operator in front of a value. -/
def UnaryOp.apply (op : UnaryOp) (v : Value) : Value :=
  match op with
  | .neg => .int (-v.toInt)
  | .not => .bool !v.holds
  | .complement => .int (Bits.complement v.toInt)

/-- The value of an operator between two numbers. The frame says where it is applied: it names the
procedure, and its integer type bounds the count of a shift. -/
def BinaryOp.apply (op : BinaryOp) (frame : Frame) (l r : Int) : Except Fault Value :=
  let quotient (f : Int → Int → Int) : Except Fault Value :=
    if r = 0 then .error (frame.fault (.divisionByZero op.symbol)) else .ok (.int (f l r))
  let shift (f : Int → Nat → Int) : Except Fault Value :=
    if 0 ≤ r ∧ r < frame.intType.bits then .ok (.int (f l r.toNat))
    else .error (frame.fault (.badShift op.symbol r frame.intType.bits))
  match op with
  | .add => .ok (.int (l + r))
  | .sub => .ok (.int (l - r))
  | .mul => .ok (.int (l * r))
  | .div => quotient Int.tdiv
  | .rem => quotient Int.tmod
  | .bitAnd => .ok (.int (Bits.and l r))
  | .bitOr => .ok (.int (Bits.or l r))
  | .bitXor => .ok (.int (Bits.xor l r))
  | .shiftLeft => shift Bits.shiftLeft
  | .shiftRight => shift Bits.shiftRight
  | .eq => .ok (.bool (l = r))
  | .ne => .ok (.bool (l ≠ r))
  | .lt => .ok (.bool (l < r))
  | .le => .ok (.bool (l ≤ r))
  | .gt => .ok (.bool (l > r))
  | .ge => .ok (.bool (l ≥ r))
  | .both => .ok (.bool (l ≠ 0 && r ≠ 0))
  | .either => .ok (.bool (l ≠ 0 || r ≠ 0))

/-- Evaluation, with the slots that were read so far. -/
abbrev Reading := EStateM Fault (List Slot)

/-- Where names and functions are looked up during evaluation. -/
structure Scope where
  functions : List (String × HostFunction)
  frame : Frame
  heap : Heap

namespace Scope

/-- Reads a slot, and records it. -/
def readSlot (s : Scope) (slot : Slot) : Reading Int := do
  modify (· ++ [slot])
  MonadExcept.ofExcept (s.heap.read slot)

mutual

/-- The value of an expression. -/
def eval (s : Scope) : Expr → Reading Value
  | .int _ n => pure (.int n)
  | .bool _ b => pure (.bool b)
  | .var _ name => do
    let slot ← MonadExcept.ofExcept (s.frame.slot name)
    return .int (← s.readSlot slot)
  | .elem _ name index => do
    let i ← eval s index
    let slot ← MonadExcept.ofExcept (s.frame.element name i.toInt)
    return .int (← s.readSlot slot)
  | .binary _ op left right => do
    let l ← eval s left
    match BinaryOp.ofSymbol? op, l.holds with
    | some .both, false => return .bool false
    | some .either, true => return .bool true
    | some op, _ =>
      let r ← eval s right
      MonadExcept.ofExcept (op.apply s.frame l.toInt r.toInt)
    | none, _ =>
      let _ ← eval s right
      throw (.unknownBinary op)
  | .unary _ op operand => do
    let v ← eval s operand
    match UnaryOp.ofSymbol? op with
    | some op => return op.apply v
    | none => throw (.unknownUnary op)
  | .call _ name args => do
    match Datum.field? name s.functions with
    | none => throw (.notPure name)
    | some f =>
      let values ← evalAll s args
      return .int (← MonadExcept.ofExcept (f values))
  | .update .. => throw .mutationInExpression
  | e@(.hole _) => throw (.notEvaluable e.kindName)

/-- The numbers that some expressions come to, from left to right. -/
def evalAll (s : Scope) : List Expr → Reading (List Int)
  | [] => pure []
  | e :: rest => do
    let v ← eval s e
    let values ← evalAll s rest
    pure (v.toInt :: values)

end

/-- The value of an expression, without the slots that were read. -/
def value (s : Scope) (e : Expr) : Except Fault Value :=
  match s.eval e [] with
  | .ok v _ => .ok v
  | .error f _ => .error f

/-- Whether a condition holds. -/
def test (s : Scope) (e : Expr) : Except Fault Bool := do pure (← s.value e).holds

/-- The slot that a reference names. The slots that are read to compute an index are recorded. -/
def locate (s : Scope) : Expr → Reading Slot
  | .elem _ name index => do
    let i ← s.eval index
    MonadExcept.ofExcept (s.frame.element name i.toInt)
  | .var _ name => MonadExcept.ofExcept (s.frame.slot name)
  | e => throw (.namesNoSlot e.kindName)

/-- What an argument of a call stands for: a whole array where a name stands for one. -/
def argument (s : Scope) : Expr → Reading Binding
  | .var _ name => MonadExcept.ofExcept (s.frame.lookup name)
  | e => do return .scalar (← s.locate e)

end Scope

end Retrace
