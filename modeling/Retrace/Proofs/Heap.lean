import Retrace.Memory.Heap
import Retrace.Proofs.Actions

/-!
# What the operations of a heap change

Every operation of a run changes a heap in one of four ways: it puts something into a live slot
(`Heap.put`, also to release it), lets a store grow by one slot (`Heap.grow`), or adds or drops the
last store. This module says what each of them does to the cells, and writes the actions of a heap
(`Heap.write`, `Store.alloc`, `Store.free`) as conditions and one such change: the actions either
fail and change nothing, or do exactly this.
-/

namespace Retrace

namespace Store

/-- A live slot lies inside its store. -/
theorem lt_size_of_cell? {s : Store} {i v : Int} (h : s.cell? i = some v) :
    0 ≤ i ∧ i.toNat < s.cells.size := by
  unfold cell? at h
  split at h
  · rename_i hi
    refine ⟨hi, ?_⟩
    by_contra hb
    rw [Array.getD_eq_getD_getElem?, Array.getElem?_eq_none (by omega)] at h
    simp at h
  · simp at h

/-- A store is determined by its type, its flag, its length and its cells. -/
theorem ext_cell? {s t : Store} (htype : s.intType = t.intType) (hflag : s.poisoned = t.poisoned)
    (hsize : s.cells.size = t.cells.size) (hcell : ∀ i, s.cell? i = t.cell? i) : s = t := by
  obtain ⟨type, cells, flag⟩ := s
  obtain ⟨type', cells', flag'⟩ := t
  simp only at htype hflag hsize
  subst htype hflag
  congr 1
  apply Array.ext hsize
  intro i hi hi'
  have h := hcell i
  simp only [cell?, Int.natCast_nonneg, if_true, Int.toNat_natCast] at h
  simpa [Array.getD_eq_getD_getElem?, hi, hi'] using h

@[simp] theorem intType_setCell (s : Store) (i : Int) (c : Option Int) :
    (s.setCell i c).intType = s.intType := rfl

@[simp] theorem poisoned_setCell (s : Store) (i : Int) (c : Option Int) :
    (s.setCell i c).poisoned = s.poisoned := rfl

@[simp] theorem size_setCell (s : Store) (i : Int) (c : Option Int) :
    (s.setCell i c).cells.size = s.cells.size := by
  simp [setCell]

end Store

namespace Heap

/-! ## Stores -/

/-- There is nothing to see under a number that no store has. -/
theorem store_of_size_le {h : Heap} {id : Nat} (hid : h.size ≤ id) : h.store id = {} := by
  unfold store size at *
  rw [Array.getD_eq_getD_getElem?, Array.getElem?_eq_none hid]
  rfl

theorem setStore_store (h : Heap) (id : Nat) : h.setStore id (h.store id) = h := by
  obtain ⟨stores⟩ := h
  simp only [setStore, store, Heap.mk.injEq]
  apply Array.ext
  · simp
  · intro i hi hi'
    by_cases hid : id = i
    · subst hid
      simp [Array.getD_eq_getD_getElem?, hi']
    · rw [Array.getElem_setIfInBounds_ne hi' hid]

@[simp] theorem size_push (h : Heap) (s : Store) : (h.push s).size = h.size + 1 := by
  simp [push, size]

@[simp] theorem size_pop (h : Heap) : h.pop.size = h.size - 1 := by
  simp [pop, size]

theorem store_push (h : Heap) (s : Store) (id : Nat) :
    (h.push s).store id = if id = h.size then s else h.store id := by
  unfold store push size
  rw [Array.getD_eq_getD_getElem?, Array.getD_eq_getD_getElem?, Array.getElem?_push]
  split <;> rfl

theorem store_pop (h : Heap) (id : Nat) :
    h.pop.store id = if id + 1 = h.size then {} else h.store id := by
  by_cases hid : id + 1 = h.size
  · rw [if_pos hid, store_of_size_le (by rw [size_pop]; omega)]
  · rw [if_neg hid]
    by_cases hlt : id < h.size
    · unfold size at hid hlt
      unfold store pop
      rw [Array.getD_eq_getD_getElem?, Array.getD_eq_getD_getElem?, Array.getElem?_pop,
        if_pos (by omega)]
    · rw [store_of_size_le (by rw [size_pop]; omega), store_of_size_le (by omega)]

theorem ext_store {h k : Heap} (hsize : h.size = k.size)
    (hstore : ∀ id < h.size, h.store id = k.store id) : h = k := by
  obtain ⟨stores⟩ := h
  obtain ⟨stores'⟩ := k
  congr 1
  apply Array.ext hsize
  intro i hi hi'
  simpa [store, Array.getD_eq_getD_getElem?, hi, hi'] using hstore i hi

/-! ## Cells -/

theorem lt_size_of_cell? {h : Heap} {s : Slot} {v : Int} (hs : h.cell? s = some v) :
    s.store < h.size := by
  by_contra hlt
  rw [cell?, store_of_size_le (by omega)] at hs
  exact absurd (Store.lt_size_of_cell? hs).2 (by simp)

/-- A heap is determined by the types, the flags and the lengths of its stores and by its cells. -/
theorem ext_cell? {h k : Heap} (hsize : h.size = k.size)
    (htype : ∀ id, (h.store id).intType = (k.store id).intType)
    (hflag : ∀ id, (h.store id).poisoned = (k.store id).poisoned)
    (hlen : ∀ id, (h.store id).cells.size = (k.store id).cells.size)
    (hcell : ∀ s, h.cell? s = k.cell? s) : h = k :=
  ext_store hsize fun id _ =>
    Store.ext_cell? (htype id) (hflag id) (hlen id) fun i => hcell ⟨id, i⟩

theorem cell?_push (h : Heap) {t : Store} (ht : t.cells = #[]) (s : Slot) :
    (h.push t).cell? s = h.cell? s := by
  unfold cell?
  rw [store_push]
  split
  · rename_i hs
    rw [hs, store_of_size_le (Nat.le_refl _)]
    simp [Store.cell?, ht]
  · rfl

theorem cell?_pop (h : Heap) (s : Slot) :
    h.pop.cell? s = if s.store + 1 = h.size then none else h.cell? s := by
  unfold cell?
  rw [store_pop]
  split
  · simp [Store.cell?]
  · rfl

/-- Replaces what a slot holds. -/
def put (h : Heap) (s : Slot) (cell : Option Int) : Heap :=
  h.setStore s.store ((h.store s.store).setCell s.index cell)

theorem store_put (h : Heap) (s : Slot) (cell : Option Int) (id : Nat) :
    (h.put s cell).store id =
      if id = s.store ∧ s.store < h.size then (h.store s.store).setCell s.index cell
      else h.store id :=
  store_setStore ..

@[simp] theorem size_put (h : Heap) (s : Slot) (cell : Option Int) : (h.put s cell).size = h.size :=
  size_setStore ..

@[simp] theorem intType_put (h : Heap) (s : Slot) (cell : Option Int) (id : Nat) :
    ((h.put s cell).store id).intType = (h.store id).intType := by
  rw [store_put]
  split
  · rename_i hid
    rw [hid.1, Store.intType_setCell]
  · rfl

@[simp] theorem poisoned_put (h : Heap) (s : Slot) (cell : Option Int) (id : Nat) :
    ((h.put s cell).store id).poisoned = (h.store id).poisoned := by
  rw [store_put]
  split
  · rename_i hid
    rw [hid.1, Store.poisoned_setCell]
  · rfl

@[simp] theorem length_put (h : Heap) (s : Slot) (cell : Option Int) (id : Nat) :
    ((h.put s cell).store id).cells.size = (h.store id).cells.size := by
  rw [store_put]
  split
  · rename_i hid
    rw [hid.1, Store.size_setCell]
  · rfl

/-- Replacing what a live slot holds changes this slot only. -/
theorem cell?_put {h : Heap} {s : Slot} {v : Int} (hs : h.cell? s = some v) (cell : Option Int)
    (t : Slot) : (h.put s cell).cell? t = if t = s then cell else h.cell? t := by
  have hlt := lt_size_of_cell? hs
  obtain ⟨hnonneg, hsize⟩ := Store.lt_size_of_cell? hs
  unfold cell?
  rw [store_put]
  by_cases hst : t.store = s.store
  · rw [if_pos ⟨hst, hlt⟩, Store.cell?_setCell _ hnonneg]
    by_cases hi : t.index = s.index
    · rw [if_pos ⟨hi, hsize⟩, if_pos]
      cases s; cases t
      simp_all
    · rw [if_neg (fun hc => hi hc.1), if_neg (fun hc => hi (by rw [hc])), hst]
  · rw [if_neg (fun hc => hst hc.1), if_neg (fun hc => hst (by rw [hc]))]

/-- Putting the old number back leaves no trace. -/
theorem put_put {h : Heap} {s : Slot} {c : Int} (hs : h.cell? s = some c) (n : Int) :
    (h.put s (some n)).put s (some c) = h := by
  have hput : (h.put s (some n)).cell? s = some n := by rw [cell?_put hs, if_pos rfl]
  refine ext_cell? ?_ (fun id => ?_) (fun id => ?_) (fun id => ?_) fun t => ?_
  · rw [size_put, size_put]
  · rw [intType_put, intType_put]
  · rw [poisoned_put, poisoned_put]
  · rw [length_put, length_put]
  · rw [cell?_put hput, cell?_put hs]
    by_cases ht : t = s
    · rw [if_pos ht, ht, hs]
    · rw [if_neg ht, if_neg ht]

/-- The slot that a store gives out next. -/
def fresh (h : Heap) (id : Nat) : Slot := ⟨id, (h.store id).cells.size⟩

/-- Adds a slot to a store. -/
def grow (h : Heap) (id : Nat) (value : Int) : Heap :=
  h.setStore id { h.store id with cells := (h.store id).cells.push (some value) }

@[simp] theorem size_grow (h : Heap) (id : Nat) (value : Int) : (h.grow id value).size = h.size :=
  size_setStore ..

theorem store_grow_of_ne (h : Heap) {id other : Nat} (hne : other ≠ id) (value : Int) :
    (h.grow id value).store other = h.store other := by
  rw [grow, store_setStore, if_neg (fun hc => hne hc.1)]

@[simp] theorem intType_grow (h : Heap) (id other : Nat) (value : Int) :
    ((h.grow id value).store other).intType = (h.store other).intType := by
  rw [grow, store_setStore]
  split
  · rename_i hid
    rw [hid.1]
  · rfl

@[simp] theorem poisoned_grow (h : Heap) (id other : Nat) (value : Int) :
    ((h.grow id value).store other).poisoned = (h.store other).poisoned := by
  rw [grow, store_setStore]
  split
  · rename_i hid
    rw [hid.1]
  · rfl

/-- The next slot is not in use. -/
theorem cell?_fresh (h : Heap) (id : Nat) : h.cell? (h.fresh id) = none := by
  cases hc : h.cell? (h.fresh id) with
  | none => rfl
  | some v =>
    have := (Store.lt_size_of_cell? hc).2
    simp [fresh] at this

/-- Adding a slot changes this slot only. -/
theorem cell?_grow {h : Heap} {id : Nat} (hid : id < h.size) (value : Int) (t : Slot) :
    (h.grow id value).cell? t = if t = h.fresh id then some value else h.cell? t := by
  unfold cell? grow
  rw [store_setStore]
  by_cases hst : t.store = id
  · rw [if_pos ⟨hst, hid⟩, hst]
    by_cases hi : t.index = (h.store id).cells.size
    · rw [if_pos (by cases t; simp_all [fresh]), hi]
      simp [Store.cell?, Array.getD_eq_getD_getElem?]
    · rw [if_neg (fun hc => hi (by rw [hc, fresh]))]
      unfold Store.cell?
      split
      · rw [Array.getD_eq_getD_getElem?, Array.getElem?_push, if_neg (by omega),
          Array.getD_eq_getD_getElem?]
      · rfl
  · rw [if_neg (fun hc => hst hc.1), if_neg (fun hc => hst (by rw [hc, fresh]))]

/-! ## Poison -/

@[simp] theorem size_poison (h : Heap) (ids : List Nat) : (h.poison ids).size = h.size := by
  induction ids generalizing h with
  | nil => rfl
  | cons id rest ih => exact (ih _).trans (size_setStore ..)

/-- Poison does not touch what slots hold. -/
@[simp] theorem cells_poison (h : Heap) (ids : List Nat) (id : Nat) :
    ((h.poison ids).store id).cells = (h.store id).cells := by
  induction ids generalizing h with
  | nil => rfl
  | cons other rest ih =>
    refine (ih _).trans ?_
    rw [store_setStore]
    split
    · rename_i hid
      rw [hid.1]
    · rfl

@[simp] theorem cell?_poison (h : Heap) (ids : List Nat) (s : Slot) :
    (h.poison ids).cell? s = h.cell? s := by
  rw [cell?, cell?, Store.cell?, Store.cell?, cells_poison]

/-! ## Actions -/

open Actions

/-- Writing needs a live slot and a value of its type, and then puts the value there. -/
theorem write_eq (h : Heap) (s : Slot) (value : Int) :
    write s value h = match h.cell? s with
      | none => .error ((Violation.released s.index).fault none) h
      | some _ =>
        if (h.store s.store).intType.contains value then .ok () (h.put s (some value))
        else .error ((Violation.overflow value (h.store s.store).intType).fault none) h := by
  unfold write within cell?
  cases hc : (h.store s.store).cell? s.index with
  | none => simp [Store.write, Store.read, bind_apply, hc, setStore_store]
  | some c =>
    by_cases ht : (h.store s.store).intType.contains value = true
    · simp [Store.write, Store.read, bind_apply, hc, IntType.check, ht, put]
    · simp [Store.write, Store.read, bind_apply, hc, IntType.check, ht, setStore_store]

/-- Allocating needs a value of the type of the store, and then gives out the next slot. -/
theorem within_alloc_eq (h : Heap) (id : Nat) (value : Int) :
    within id (Store.alloc value) h =
      if (h.store id).intType.contains value then .ok (h.fresh id).index (h.grow id value)
      else .error ((Violation.overflow value (h.store id).intType).fault none) h := by
  unfold within
  by_cases ht : (h.store id).intType.contains value = true
  · simp [Store.alloc, bind_apply, map_apply, IntType.check, ht, grow, fresh]
  · simp [Store.alloc, bind_apply, IntType.check, ht, setStore_store]

/-- Releasing needs a live slot, and then leaves nothing there. -/
theorem within_free_eq (h : Heap) (s : Slot) :
    within s.store (Store.free s.index) h = match h.cell? s with
      | none => .error ((Violation.released s.index).fault none) h
      | some value => .ok value (h.put s none) := by
  unfold within cell?
  cases hc : (h.store s.store).cell? s.index with
  | none => simp [Store.free, Store.read, bind_apply, hc, setStore_store]
  | some value => simp [Store.free, Store.read, bind_apply, map_apply, hc, put]

end Heap

end Retrace
