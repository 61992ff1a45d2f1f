import Retrace.Failure.Violation

/-!
# Stores

A store is an arena of slots for integers of one type. A slot that was released is never given out
again, so a stale slot never denotes newer storage. A store left behind by a failed run is
*poisoned* until it is restored from a snapshot or cleared by hand.

The operations of a store are actions that may fail. What an action did before it failed stays
done: `allocMany` keeps the slots that it allocated before the first value it refuses.
-/

namespace Retrace

/-- The identity of one slot: the store that it belongs to and its place there. -/
structure Slot where
  store : Nat
  index : Int
deriving DecidableEq, Repr, Inhabited

/-- An arena of slots. A released slot is `none`. -/
structure Store where
  intType : IntType := .word
  cells : Array (Option Int) := #[]
  poisoned : Bool := false
deriving DecidableEq, Repr, Inhabited

/-- The integer that a value of a data format stands for, if it may be put into a slot. -/
def Datum.toSlotValue : Datum → Except Fault Int
  | .int n => .ok n
  | d => .error (.notInteger d.kindName)

namespace Store

/-- What the slot at a place holds, if it is live. -/
def cell? (s : Store) (index : Int) : Option Int :=
  if 0 ≤ index then s.cells.getD index.toNat none else none

/-- Replaces what the slot at a place holds. -/
def setCell (s : Store) (index : Int) (cell : Option Int) : Store :=
  { s with cells := s.cells.setIfInBounds index.toNat cell }

/-- Replacing what one slot holds changes what is seen at that place only. -/
theorem cell?_setCell (s : Store) {i : Int} (hi : 0 ≤ i) (j : Int) (cell : Option Int) :
    (s.setCell i cell).cell? j =
      if j = i ∧ i.toNat < s.cells.size then cell else s.cell? j := by
  unfold cell? setCell
  by_cases hj : 0 ≤ j
  · by_cases hij : j = i
    · subst hij
      by_cases hb : j.toNat < s.cells.size <;> simp [hj, hb, Array.getD_eq_getD_getElem?]
    · have hne : i.toNat ≠ j.toNat := by omega
      simp [hj, hij, hne, Array.getD_eq_getD_getElem?]
  · have hij : j ≠ i := by omega
    simp [hj, hij]

/-- The number of live slots. -/
def live (s : Store) : Nat := s.cells.countP Option.isSome

/-- A short description of a store. -/
def shown (s : Store) : String :=
  "<Store: " ++ toString s.live ++ " live " ++ s.intType.name ++ " slots" ++
    (if s.poisoned then " poisoned>" else ">")

/-- The operations of one store. -/
abbrev Action := EStateM Fault Store

/-- What the slot at a place holds. -/
def read (index : Int) : Action Int := do
  match (← get).cell? index with
  | some value => pure value
  | none => throw ((Violation.released index).fault none)

/-- Puts a value into a live slot. -/
def write (index value : Int) : Action Unit := do
  let _ ← read index
  let value ← MonadExcept.ofExcept ((← get).intType.check value)
  modify fun s => s.setCell index (some value)

/-- Puts a value of a data format into a live slot. -/
def writeDatum (index : Int) (value : Datum) : Action Unit := do
  let _ ← read index
  write index (← MonadExcept.ofExcept value.toSlotValue)

/-- Allocates a slot with a first value and returns its place. -/
def alloc (value : Int) : Action Int := do
  let value ← MonadExcept.ofExcept ((← get).intType.check value)
  let place : Int := (← get).cells.size
  modify fun s => { s with cells := s.cells.push (some value) }
  pure place

/-- Allocates a slot for a value of a data format. -/
def allocDatum (value : Datum) : Action Int := do
  alloc (← MonadExcept.ofExcept value.toSlotValue)

/-- Allocates slots one after the other. -/
def allocMany : List Datum → Action (List Int)
  | [] => pure []
  | value :: rest => do
    let place ← allocDatum value
    let places ← allocMany rest
    pure (place :: places)

/-- Releases a live slot and returns its last value. -/
def free (index : Int) : Action Int := do
  let value ← read index
  modify fun s => s.setCell index none
  pure value

/-- What every slot holds at this moment. -/
def snapshot (s : Store) : Array (Option Int) := s.cells

/-- Puts every slot back to what it held when the snapshot was taken, releases those that were
allocated since and lifts the poison. -/
def restore (saved : Array (Option Int)) : Action Unit := do
  let s ← get
  if s.cells.size < saved.size then throw .foreignSnapshot
  set { s with
    cells := saved ++ Array.replicate (s.cells.size - saved.size) none
    poisoned := false }

/-- Lifts the poison and leaves the slots as they are. -/
def clearPoison (s : Store) : Store := { s with poisoned := false }

end Store

end Retrace
