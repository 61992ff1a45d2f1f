import Retrace.Memory.Store

/-!
# The heap

All stores that slots can point into, by number. Whoever calls a procedure owns some of them; the
locals of a procedure that runs live in a store of its own, which is the last one while it runs.
-/

namespace Retrace

/-- All stores, by number. -/
structure Heap where
  stores : Array Store := #[]
deriving DecidableEq, Repr, Inhabited

namespace Heap

/-- The number that the next store gets. -/
def size (h : Heap) : Nat := h.stores.size

/-- The store of a number. -/
def store (h : Heap) (id : Nat) : Store := h.stores.getD id {}

/-- Adds a store. -/
def push (h : Heap) (s : Store) : Heap := ⟨h.stores.push s⟩

/-- Drops the last store. -/
def pop (h : Heap) : Heap := ⟨h.stores.pop⟩

/-- Replaces a store. -/
def setStore (h : Heap) (id : Nat) (s : Store) : Heap := ⟨h.stores.setIfInBounds id s⟩

/-- Replacing one store changes what is seen under its number only. -/
theorem store_setStore (h : Heap) (id other : Nat) (s : Store) :
    (h.setStore id s).store other = if other = id ∧ id < h.size then s else h.store other := by
  unfold store setStore size
  by_cases ho : other = id
  · subst ho
    by_cases hb : other < h.stores.size <;> simp [hb, Array.getD_eq_getD_getElem?]
  · simp [ho, Ne.symm ho, Array.getD_eq_getD_getElem?]

@[simp] theorem size_setStore (h : Heap) (id : Nat) (s : Store) :
    (h.setStore id s).size = h.size := by
  simp [setStore, size]

/-- A store that was added can be dropped again without a trace. -/
@[simp] theorem pop_push (h : Heap) (s : Store) : (h.push s).pop = h := by
  simp [push, pop]

/-- What a slot holds, if it is live. -/
def cell? (h : Heap) (slot : Slot) : Option Int := (h.store slot.store).cell? slot.index

/-- Performs an action of one store. -/
def within {α : Type} (id : Nat) (action : Store.Action α) : EStateM Fault Heap α := fun h =>
  match action (h.store id) with
  | .ok a s => .ok a (h.setStore id s)
  | .error f s => .error f (h.setStore id s)

/-- What a slot holds. -/
def read (h : Heap) (slot : Slot) : Except Fault Int :=
  match h.cell? slot with
  | some value => .ok value
  | none => .error ((Violation.released slot.index).fault none)

/-- Puts a value into a live slot. -/
def write (slot : Slot) (value : Int) : EStateM Fault Heap Unit :=
  within slot.store (Store.write slot.index value)

/-- The slot itself if it belongs to the given store. -/
def own (id : Nat) (slot : Slot) : Except Fault Slot :=
  if slot.store = id then .ok slot else .error (Violation.foreignSlot.fault none)

/-- Marks stores as left inconsistent. -/
def poison (h : Heap) (ids : List Nat) : Heap :=
  ids.foldl (fun h id => h.setStore id { h.store id with poisoned := true }) h

end Heap

/-- What a name stands for: one slot, or an array of them. -/
inductive Binding where
  | scalar (slot : Slot)
  | array (slots : List Slot)
deriving DecidableEq, Repr, Inhabited

namespace Binding

/-- The slots that a binding covers. -/
def slots : Binding → List Slot
  | .scalar slot => [slot]
  | .array slots => slots

/-- The stores that the slots of some bindings belong to, each once, in order. -/
def storesOf (bindings : List Binding) : List Nat :=
  ((bindings.flatMap slots).map Slot.store).eraseDups

/-- What the slots of a binding hold. -/
def read (h : Heap) : Binding → Except Fault Datum
  | .scalar slot => do pure (.int (← h.read slot))
  | .array slots => do pure (.list ((← slots.mapM h.read).map .int))

end Binding

end Retrace
