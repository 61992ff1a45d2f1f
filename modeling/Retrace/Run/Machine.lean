import Retrace.Library
import Retrace.Log
import Retrace.Memory.Frame

/-!
# The state of a run

A run works on a *memory*, the heap and the log, and inside a procedure also on the frame of its
names: a *machine*. Runs are actions on these that can stop early; whatever they did before they
stopped stays done. A run stops at a fault, or when the number of steps that it may take is
exhausted.
-/

namespace Retrace

/-- Why a run stopped early. -/
inductive Stop where
  | fault (f : Fault)
  | exhausted
deriving Inhabited

/-- What outlives a run: the stores, and the events so far, the last one first. -/
structure Memory where
  heap : Heap := {}
  log : List Event := []
deriving Inhabited

/-- What the statements of a procedure work on. -/
structure Machine extends Memory where
  frame : Frame
deriving Inhabited

/-- Work on the memory alone. -/
abbrev MemoryAction := EStateM Stop Memory

/-- Work inside a procedure. -/
abbrev Execution := EStateM Stop Machine

namespace Memory

/-- Adds an event to the log. -/
def record (event : Event) (m : Memory) : Memory := { m with log := event :: m.log }

end Memory

namespace Execution

/-- Work that needs the heap alone. -/
def onHeap {α : Type} (action : EStateM Fault Heap α) : Execution α := fun m =>
  match action m.heap with
  | .ok a heap => .ok a { m with heap }
  | .error f heap => .error (.fault f) { m with heap }

/-- Work that needs the memory alone. -/
def onMemory {α : Type} (action : MemoryAction α) : Execution α := fun m =>
  match action m.toMemory with
  | .ok a memory => .ok a ⟨memory, m.frame⟩
  | .error stop memory => .error stop ⟨memory, m.frame⟩

/-- A result that may be a fault. -/
def ofExcept {α : Type} (result : Except Fault α) : Execution α :=
  match result with
  | .ok a => pure a
  | .error f => throw (.fault f)

/-- Stops at a violation in the procedure that is running. -/
def violate {α : Type} (v : Violation) : Execution α := do throw (.fault ((← get).frame.fault v))

/-- Stops at a violation, if there is one. -/
def refuse (v : Option Violation) : Execution Unit :=
  match v with
  | some v => violate v
  | none => pure ()

/-- Adds an event to the log. -/
def record (event : Event) : Execution Unit := modify fun m => ⟨m.toMemory.record event, m.frame⟩

/-- Introduces a local in a fresh slot. -/
def bind (name : String) (value : Int) : Execution Slot := do
  let frame := (← get).frame
  if frame.has name then throw (.fault (.alreadyBound name frame.procedure))
  let index ← onHeap (Heap.within frame.locals (Store.alloc value))
  let slot : Slot := ⟨frame.locals, index⟩
  modify fun m => { m with frame := m.frame.push name (.scalar slot) }
  return slot

/-- Removes a local and returns its last value. -/
def unbind (name : String) : Execution Int := do
  let frame := (← get).frame
  let slot ← ofExcept (frame.slot name)
  if slot.store ≠ frame.locals then throw (.fault (.notLocal name frame.procedure))
  modify fun m => { m with frame := m.frame.erase name }
  onHeap (Heap.within slot.store (Store.free slot.index))

/-- Removes names one after the other, and releases the locals among them. -/
def releaseAll : List (String × Binding) → Execution Unit
  | [] => pure ()
  | (name, b) :: rest => do
    modify fun m => { m with frame := m.frame.erase name }
    match b with
    | .scalar slot =>
      if slot.store = (← get).frame.locals then
        let _ ← onHeap (Heap.within slot.store (Store.free slot.index))
    | .array _ => pure ()
    releaseAll rest

/-- Removes every name, and releases the locals that are still alive. -/
def release : Execution Unit := do releaseAll (← get).frame.bindings

end Execution

/-- Performs the work of a procedure in a frame of its own, whose locals live in a store that is
there as long as the work lasts. -/
def MemoryAction.inFrame (procedure : String) (intType : IntType) (depth : Int)
    (work : Execution Unit) : MemoryAction Unit := fun m =>
  let frame : Frame := { procedure, intType, depth, locals := m.heap.size }
  let leave (m : Machine) : Memory := { m.toMemory with heap := m.heap.pop }
  match work ⟨{ m with heap := m.heap.push { intType } }, frame⟩ with
  | .ok _ m => .ok () (leave m)
  | .error stop m => .error stop (leave m)

end Retrace
