import Retrace.Memory.Heap

/-!
# Overlapping storage

A reversible step must not depend on what it modifies. Names do not show this, since an array
element or a parameter may denote any slot; so these rules compare slots before a step modifies
them. Each gives the violation that it finds.
-/

namespace Retrace.Overlap

/-- The slots of some bindings, each with the label of its binding. -/
def labelled (bindings : List (String × Binding)) : List (String × Slot) :=
  bindings.flatMap fun (label, b) => b.slots.map fun slot => (label, slot)

/-- The label under which a slot stands first. -/
def label? (slot : Slot) (operands : List (String × Slot)) : Option String :=
  (operands.find? fun entry => entry.2 = slot).map Prod.fst

/-- The slot that an update modifies must not be read to compute the update. -/
def ofUpdate (target : Slot) (reads : List Slot) (name : String) : Option Violation :=
  if target ∈ reads then some (.readsTarget name) else none

/-- The first slot that stands under two labels or twice under one, given those seen before. -/
def firstRepeat (seen : List (String × Slot)) : List (String × Slot) → Option Violation
  | [] => none
  | (label, slot) :: rest =>
    match label? slot seen with
    | some other => some (.sharedStorage other label)
    | none => firstRepeat ((label, slot) :: seen) rest

/-- The arguments of a call, or the operands of a swap, must not overlap. -/
def ofOperands (bindings : List (String × Binding)) : Option Violation :=
  firstRepeat [] (labelled bindings)

/-- A slot that is read to locate an operand must not itself be an operand. -/
def ofIndices (bindings : List (String × Binding)) (reads : List (String × List Slot)) :
    Option Violation :=
  let operands := labelled bindings
  reads.findSome? fun (located, slots) =>
    slots.findSome? fun slot =>
      (label? slot operands).map fun operand => .locatesOperand operand located

end Retrace.Overlap
