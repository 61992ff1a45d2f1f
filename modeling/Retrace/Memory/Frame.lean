import Retrace.Memory.Heap
import Retrace.Text.Quoted

/-!
# Frames

A frame holds what the names of one invocation of a procedure stand for. Parameters point into
stores of the caller; locals live in a store that belongs to the frame. Names keep the order in
which they were bound. In a frame no two names share a slot: `attach` refuses it.
-/

namespace Retrace

/-- The names of one invocation. -/
structure Frame where
  procedure : String := "<anonymous>"
  intType : IntType := .word
  depth : Int := 0
  /-- the store that holds the locals -/
  locals : Nat := 0
  bindings : List (String × Binding) := []
deriving DecidableEq, Repr, Inhabited

namespace Frame

/-- The names, in the order in which they were bound. -/
def names (f : Frame) : List String := f.bindings.map Prod.fst

/-- Whether a name is bound. -/
def has (f : Frame) (name : String) : Bool := f.bindings.any fun entry => entry.1 == name

/-- What a name stands for, if it is bound. -/
def lookup? (f : Frame) (name : String) : Option Binding := Datum.field? name f.bindings

/-- A violation in the procedure of the frame. -/
def fault (f : Frame) (v : Violation) : Fault := v.fault (some f.procedure)

/-- What a name stands for. -/
def lookup (f : Frame) (name : String) : Except Fault Binding :=
  match f.lookup? name with
  | some b => .ok b
  | none => .error (f.fault (.unbound name))

/-- The slot that a name stands for. -/
def slot (f : Frame) (name : String) : Except Fault Slot := do
  match ← f.lookup name with
  | .scalar slot => .ok slot
  | .array _ => .error (f.fault (.needsIndex name))

/-- The array that a name stands for. -/
def array (f : Frame) (name : String) : Except Fault (List Slot) := do
  match ← f.lookup name with
  | .array slots => .ok slots
  | .scalar _ => .error (f.fault (.notArray name))

/-- An element of the array that a name stands for. -/
def element (f : Frame) (name : String) (index : Int) : Except Fault Slot := do
  let slots ← f.array name
  let refused := f.fault (.outOfRange name index slots.length)
  if 0 ≤ index then
    match slots[index.toNat]? with
    | some slot => .ok slot
    | none => .error refused
  else .error refused

/-- Adds a name at the end. -/
def push (f : Frame) (name : String) (b : Binding) : Frame :=
  { f with bindings := f.bindings ++ [(name, b)] }

/-- Removes a name. -/
def erase (f : Frame) (name : String) : Frame :=
  { f with bindings := f.bindings.filter fun entry => entry.1 != name }

/-- The first name bound to storage that overlaps with `b`. -/
def overlapping? (f : Frame) (b : Binding) : Option String :=
  (f.bindings.find? fun entry => b.slots.any fun slot => entry.2.slots.contains slot).map Prod.fst

/-- Binds a parameter to storage of the caller. -/
def attach (f : Frame) (name : String) (b : Binding) : Except Fault Frame :=
  if f.has name then .error (.alreadyBound name f.procedure)
  else match f.overlapping? b with
    | some other => .error (f.fault (.sharedParameters other name))
    | none => .ok (f.push name b)

/-- Binds parameters one after the other. -/
def attachAll (f : Frame) : List (String × Binding) → Except Fault Frame
  | [] => .ok f
  | (name, b) :: rest => do (← f.attach name b).attachAll rest

/-- The stores that the names point into, that of the locals first. -/
def stores (f : Frame) : List Nat :=
  (f.locals :: (f.bindings.flatMap fun entry => entry.2.slots).map Slot.store).eraseDups

/-- What every name holds. -/
def values (f : Frame) (h : Heap) : Except Fault (List (String × Datum)) :=
  f.bindings.mapM fun (name, b) => do pure (name, ← b.read h)

/-- A short description of a frame. -/
def shown (f : Frame) : String :=
  "<Environment " ++ f.procedure ++ ": " ++ Text.quotedList f.names ++ ">"

end Frame

end Retrace
