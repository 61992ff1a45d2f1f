import Retrace.Proofs.Relaxation

/-!
# Histories of a store

The owner of a store allocates, writes and releases slots, takes snapshots and puts them back, in
any order, and some of these operations fail. This module says what holds of a store at the end of
every such history (`Store.history_sound`): live slots hold values of the type of the store, no
handle is given out twice, a slot that was released or dropped is refused until a snapshot in which
it was live is put back, and a snapshot puts back what was there when it was taken.

All of it follows from what one operation can do (`Operation.outcome`): it leaves the cells as they
are, adds new ones at the end, replaces what a live one holds, or puts a snapshot back. In no case
does the row of cells get shorter, and only the last one can make a released slot live again.

An operation that fails leaves no trace, with one exception: allocating several slots keeps those
that it allocated before the first value that it refuses (`Operation.trace_of_failed`).
-/

namespace Retrace

open Actions

/-! ## Operations -/

/-- What the owner of a store can do with it. A handle may belong to another store. -/
inductive Operation where
  | alloc (value : Datum)
  | allocMany (values : List Datum)
  | read (handle : Slot)
  | write (handle : Slot) (value : Datum)
  | free (handle : Slot)
  | snapshot
  | restore (saved : Array (Option Int))
  /-- the mark that a failed run leaves -/
  | poison

/-- What an operation gives back. -/
inductive Answer where
  | done
  | handles (slots : List Slot)
  | value (n : Int)
  | saved (cells : Array (Option Int))

/-- Performs an operation on the store of the given number. -/
def Operation.perform (id : Nat) : Operation → Store.Action Answer
  | .alloc value => do return .handles [⟨id, ← Store.allocDatum value⟩]
  | .allocMany values => do return .handles ((← Store.allocMany values).map fun i => ⟨id, i⟩)
  | .read handle => do
    return .value (← Store.read (← MonadExcept.ofExcept (Heap.own id handle)).index)
  | .write handle value => do
    Store.writeDatum (← MonadExcept.ofExcept (Heap.own id handle)).index value
    return .done
  | .free handle => do
    return .value (← Store.free (← MonadExcept.ofExcept (Heap.own id handle)).index)
  | .snapshot => do return .saved (← get).snapshot
  | .restore saved => do
    Store.restore saved
    return .done
  | .poison => do
    modify fun s => { s with poisoned := true }
    return .done

/-! ## Values that can be stored -/

namespace Datum

/-- The number that a value puts into a slot of the type. -/
def storable (t : IntType) (d : Datum) : Except Fault Int := d.toSlotValue >>= t.check

/-- The numbers of the values before the first one that cannot be stored, and why that one
cannot. -/
def accept (t : IntType) : List Datum → List Int × Option Fault
  | [] => ([], none)
  | d :: rest =>
    match d.storable t with
    | .ok n => (n :: (accept t rest).1, (accept t rest).2)
    | .error f => ([], some f)

/-- A number that can be stored is one of the type. -/
theorem contains_of_storable {t : IntType} {d : Datum} {n : Int} (h : d.storable t = .ok n) :
    t.contains n = true := by
  obtain ⟨k, -, hn⟩ := except_bind_eq_ok.mp h
  unfold IntType.check at hn
  split at hn
  · cases hn
    assumption
  · cases hn

theorem contains_of_mem_accept {t : IntType} {values : List Datum} {n : Int}
    (hn : n ∈ (accept t values).1) : t.contains n = true := by
  induction values with
  | nil => simp [accept] at hn
  | cons d rest ih =>
    unfold accept at hn
    split at hn
    · rename_i k hk
      rcases List.mem_cons.mp hn with rfl | hn
      · exact contains_of_storable hk
      · exact ih hn
    · simp at hn

end Datum

/-! ## Single operations -/

namespace Store

variable {s : Store}

/-- The store with new slots at its end. -/
def extend (s : Store) (values : List Int) : Store :=
  { s with cells := s.cells ++ (values.map some).toArray }

/-- The handles of the next slots. -/
def nextSlots (s : Store) (id count : Nat) : List Slot :=
  (List.range' s.cells.size count).map fun i : Nat => ⟨id, i⟩

/-- The store with a snapshot put back. -/
def restored (s : Store) (saved : Array (Option Int)) : Store :=
  { s with
    cells := saved ++ Array.replicate (s.cells.size - saved.size) none
    poisoned := false }

@[simp] theorem extend_nil (s : Store) : s.extend [] = s := by simp [extend]

@[simp] theorem extend_extend (s : Store) (values more : List Int) :
    (s.extend values).extend more = s.extend (values ++ more) := by
  simp [extend, Array.append_assoc]

@[simp] theorem size_extend (s : Store) (values : List Int) :
    (s.extend values).cells.size = s.cells.size + values.length := by
  simp [extend]

theorem size_restored {saved : Array (Option Int)} (h : saved.size ≤ s.cells.size) :
    (s.restored saved).cells.size = s.cells.size := by
  simp only [restored, Array.size_append, Array.size_replicate]
  omega

theorem live_extend (s : Store) (values : List Int) :
    (s.extend values).live = s.live + values.length := by
  simp [extend, live, List.countP_map]

/-- New slots are seen behind the old ones. -/
theorem cell?_extend (s : Store) (values : List Int) (i : Int) :
    (s.extend values).cell? i =
      if i.toNat < s.cells.size then s.cell? i
      else if 0 ≤ i then values[i.toNat - s.cells.size]? else none := by
  unfold cell? extend
  by_cases hi : 0 ≤ i
  · by_cases hb : i.toNat < s.cells.size
    · simp [hi, hb, Array.getD_eq_getD_getElem?, Array.getElem?_append]
    · cases hv : values[i.toNat - s.cells.size]? <;>
        simp [hi, hb, hv, Array.getD_eq_getD_getElem?, Array.getElem?_append]
  · simp [hi]

/-- What is seen after a snapshot was put back is what the snapshot holds. -/
theorem cell?_restored (s : Store) (saved : Array (Option Int)) (i : Int) :
    (s.restored saved).cell? i = ({ cells := saved } : Store).cell? i := by
  unfold cell? restored
  by_cases hi : 0 ≤ i
  · by_cases hb : i.toNat < saved.size
    · simp [hi, hb, Array.getD_eq_getD_getElem?, Array.getElem?_append]
    · by_cases hr : i.toNat - saved.size < s.cells.size - saved.size <;>
        simp [hi, hb, hr, Array.getD_eq_getD_getElem?, Array.getElem?_append]
  · simp [hi]

theorem read_apply (i : Int) (s : Store) :
    read i s = match s.cell? i with
      | some n => .ok n s
      | none => .error ((Violation.released i).fault none) s := by
  unfold read
  simp only [bind_apply, get_apply]
  cases s.cell? i <;> rfl

theorem writeDatum_apply (i : Int) (d : Datum) (s : Store) :
    writeDatum i d s = match s.cell? i with
      | none => .error ((Violation.released i).fault none) s
      | some _ => match d.storable s.intType with
        | .ok n => .ok () (s.setCell i (some n))
        | .error f => .error f s := by
  unfold writeDatum write
  simp only [bind_apply, read_apply]
  cases hc : s.cell? i with
  | none => rfl
  | some c =>
    cases hd : d.toSlotValue with
    | error f => simp [Datum.storable, hd, bind, Except.bind]
    | ok n =>
      simp only [ofExcept_ok_apply, hc, get_apply, Datum.storable, hd, bind, Except.bind]
      cases s.intType.check n <;> simp

theorem allocDatum_apply (d : Datum) (s : Store) :
    allocDatum d s = match d.storable s.intType with
      | .ok n => .ok (s.cells.size : Int) (s.extend [n])
      | .error f => .error f s := by
  unfold allocDatum alloc
  simp only [bind_apply]
  cases hd : d.toSlotValue with
  | error f => simp [Datum.storable, hd, bind, Except.bind]
  | ok n =>
    simp only [ofExcept_ok_apply, get_apply, Datum.storable, hd, bind, Except.bind]
    cases s.intType.check n <;> simp [extend]

/-- Allocating several slots keeps those of the values that were accepted, also if it fails. -/
theorem allocMany_apply (values : List Datum) (s : Store) :
    allocMany values s =
      match (Datum.accept s.intType values).2 with
      | none => .ok ((List.range' s.cells.size (Datum.accept s.intType values).1.length).map
          fun i : Nat => (i : Int)) (s.extend (Datum.accept s.intType values).1)
      | some f => .error f (s.extend (Datum.accept s.intType values).1) := by
  induction values generalizing s with
  | nil => simp [allocMany, Datum.accept]
  | cons d rest ih =>
    simp only [allocMany, bind_apply, allocDatum_apply, Datum.accept]
    cases hd : d.storable s.intType with
    | error f => simp
    | ok n =>
      have htype : (s.extend [n]).intType = s.intType := rfl
      simp only [ih, htype]
      cases (Datum.accept s.intType rest).2 <;> simp [List.range'_succ]

theorem free_apply (i : Int) (s : Store) :
    free i s = match s.cell? i with
      | some n => .ok n (s.setCell i none)
      | none => .error ((Violation.released i).fault none) s := by
  unfold free
  simp only [bind_apply, read_apply]
  cases s.cell? i <;> rfl

theorem restore_apply (saved : Array (Option Int)) (s : Store) :
    restore saved s =
      if s.cells.size < saved.size then .error .foreignSnapshot s
      else .ok () (s.restored saved) := by
  unfold restore
  simp only [bind_apply, get_apply]
  split <;> rfl

end Store

namespace Operation

/-- The numbers that an operation leaves in new slots if it fails. -/
def leaves (t : IntType) : Operation → List Int
  | .allocMany values => (Datum.accept t values).1
  | _ => []

theorem contains_of_mem_leaves {t : IntType} {op : Operation} {n : Int} (hn : n ∈ op.leaves t) :
    t.contains n = true := by
  cases op with
  | allocMany values => exact Datum.contains_of_mem_accept hn
  | _ => cases hn

/-- What an operation can do to a store. -/
inductive Outcome (id : Nat) (s : Store) : Operation → EStateM.Result Fault Store Answer → Prop where
  | refused (op : Operation) (f : Fault) :
    Outcome id s op (.error f (s.extend (op.leaves s.intType)))
  | allocated (op : Operation) {values : List Int}
      (hvalues : ∀ n ∈ values, s.intType.contains n = true) :
    Outcome id s op (.ok (.handles (s.nextSlots id values.length)) (s.extend values))
  | read (h : Slot) (n : Int) : Outcome id s (.read h) (.ok (.value n) s)
  | written {h : Slot} (d : Datum) {old new : Int} (hold : s.cell? h.index = some old)
      (hnew : s.intType.contains new = true) :
    Outcome id s (.write h d) (.ok .done (s.setCell h.index (some new)))
  | freed {h : Slot} {old : Int} (hold : s.cell? h.index = some old) :
    Outcome id s (.free h) (.ok (.value old) (s.setCell h.index none))
  | saved : Outcome id s .snapshot (.ok (.saved s.snapshot) s)
  | restored {saved : Array (Option Int)} (hsize : saved.size ≤ s.cells.size) :
    Outcome id s (.restore saved) (.ok .done (s.restored saved))
  | poisoned : Outcome id s .poison (.ok .done { s with poisoned := true })

/-- An operation that leaves nothing behind is refused without a change. -/
theorem Outcome.refused_same {id : Nat} {s : Store} {op : Operation} (f : Fault)
    (h : op.leaves s.intType = []) : Outcome id s op (.error f s) := by
  simpa [h] using @Outcome.refused id s op f

/-- The operations on a handle check first that it belongs to the store. -/
theorem own_cases (id : Nat) (h : Slot) :
    (h.store = id ∧ Heap.own id h = .ok h) ∨
      Heap.own id h = .error (Violation.foreignSlot.fault none) := by
  unfold Heap.own
  split
  · exact .inl ⟨‹_›, rfl⟩
  · exact .inr rfl

/-- **One operation.** Nothing else can happen. -/
theorem outcome (id : Nat) (op : Operation) (s : Store) : Outcome id s op (op.perform id s) := by
  cases op with
  | alloc d =>
    simp only [perform, bind_apply, Store.allocDatum_apply]
    cases hd : d.storable s.intType with
    | error f => exact .refused_same f rfl
    | ok n =>
      refine @Outcome.allocated id s _ [n] fun k hk => ?_
      rw [List.mem_singleton.mp hk]
      exact Datum.contains_of_storable hd
  | allocMany values =>
    simp only [perform, bind_apply, Store.allocMany_apply]
    cases (Datum.accept s.intType values).2 with
    | some f => exact .refused _ f
    | none =>
      simp only [List.map_map, pure_apply]
      exact .allocated _ fun k hk => Datum.contains_of_mem_accept hk
  | read h =>
    obtain ⟨-, hown⟩ | hown := own_cases id h
    · simp only [perform, bind_apply, hown, ofExcept_ok_apply, Store.read_apply]
      cases s.cell? h.index with
      | none => exact .refused_same _ rfl
      | some n => exact .read h n
    · simp only [perform, bind_apply, hown, ofExcept_error_apply]
      exact .refused_same _ rfl
  | write h d =>
    obtain ⟨-, hown⟩ | hown := own_cases id h
    · simp only [perform, bind_apply, hown, ofExcept_ok_apply, Store.writeDatum_apply]
      cases hold : s.cell? h.index with
      | none => exact .refused_same _ rfl
      | some old =>
        cases hd : d.storable s.intType with
        | error f => exact .refused_same _ rfl
        | ok n => exact .written d hold (Datum.contains_of_storable hd)
    · simp only [perform, bind_apply, hown, ofExcept_error_apply]
      exact .refused_same _ rfl
  | free h =>
    obtain ⟨-, hown⟩ | hown := own_cases id h
    · simp only [perform, bind_apply, hown, ofExcept_ok_apply, Store.free_apply]
      cases hold : s.cell? h.index with
      | none => exact .refused_same _ rfl
      | some old => exact .freed hold
    · simp only [perform, bind_apply, hown, ofExcept_error_apply]
      exact .refused_same _ rfl
  | snapshot => exact .saved
  | restore saved =>
    simp only [perform, bind_apply, Store.restore_apply]
    by_cases hsize : s.cells.size < saved.size
    · simp only [hsize, if_true]
      exact .refused_same _ rfl
    · simp only [hsize, if_false, pure_apply]
      exact .restored (by omega)
  | poison => exact .poisoned

/-- A failed operation leaves the store as it was, but for the slots of the values that an
allocation of several slots accepted before the one that it refused; so there is no trace of it
exactly if there are no such values. -/
theorem trace_of_failed {id : Nat} {op : Operation} {s t : Store} {f : Fault}
    (h : op.perform id s = .error f t) :
    t = s.extend (op.leaves s.intType) ∧ t.live = s.live + (op.leaves s.intType).length ∧
      (t = s ↔ op.leaves s.intType = []) := by
  have hout := outcome id op s
  rw [h] at hout
  obtain ⟨_, _⟩ := hout
  refine ⟨rfl, Store.live_extend _ _, fun heq => ?_, fun hnil => by rw [hnil, Store.extend_nil]⟩
  have hsize := congrArg (fun u : Store => u.cells.size) heq
  simp only [Store.size_extend] at hsize
  exact List.length_eq_zero_iff.mp (by omega)

/-- One live slot more, although the second of the two values does not fit. -/
theorem trace_of_failed_pair :
    ∃ f t, (allocMany [.int 1, .int 200]).perform 0 { intType := Sample.byte } = .error f t ∧
      t.live = 1 ∧ t ≠ { intType := Sample.byte } := by
  have hfail : ∃ f t, (allocMany [.int 1, .int 200]).perform 0 { intType := Sample.byte } =
      .error f t := ⟨_, _, rfl⟩
  obtain ⟨f, t, h⟩ := hfail
  obtain ⟨-, hlive, hsame⟩ := trace_of_failed h
  exact ⟨f, t, h, hlive, fun heq => absurd (hsame.mp heq) (by decide)⟩

/-- A failed operation can leave a store that differs from the one before. -/
theorem not_unchanged_of_failed :
    ¬∀ (op : Operation) (s t : Store) (f : Fault), op.perform 0 s = .error f t → t = s := by
  intro hsame
  have h := hsame (allocMany [.int 1, .int 200]) { intType := Sample.byte } _ _ rfl
  exact absurd (congrArg (fun s : Store => s.cells.size) h) (by decide)

/-! ## Histories -/

/-- The store after an operation, also if the operation failed. -/
def next (id : Nat) (op : Operation) (s : Store) : Store := after (op.perform id) s

/-- The handles that an operation gives out. -/
def gives (id : Nat) (op : Operation) (s : Store) : List Slot :=
  match op.perform id s with
  | .ok (.handles slots) _ => slots
  | _ => []

/-- The snapshots that an operation gives out. -/
def saves (id : Nat) (op : Operation) (s : Store) : List (Array (Option Int)) :=
  match op.perform id s with
  | .ok (.saved cells) _ => [cells]
  | _ => []

/-- What an operation answers. -/
def answer (id : Nat) (op : Operation) (s : Store) : Except Fault Answer :=
  match op.perform id s with
  | .ok a _ => .ok a
  | .error f _ => .error f

/-- The operations that need a handle. -/
inductive Uses (h : Slot) : Operation → Prop where
  | read : Uses h (.read h)
  | write (d : Datum) : Uses h (.write h d)
  | free : Uses h (.free h)

/-- An operation ends the life of a slot: it releases the slot, or it puts back a snapshot in which
the slot is not live. -/
inductive Drops (id : Nat) (s : Store) (h : Slot) : Operation → Prop where
  | freed {n : Int} {t : Store} (hfree : (free h).perform id s = .ok (.value n) t) :
    Drops id s h (.free h)
  | restored {saved : Array (Option Int)} {t : Store}
      (hrestore : (restore saved).perform id s = .ok .done t)
      (hdead : ({ cells := saved } : Store).cell? h.index = none) : Drops id s h (.restore saved)

end Operation

namespace Store

/-- The store at the end of a history. -/
def played (id : Nat) (s : Store) (ops : List Operation) : Store :=
  ops.foldl (fun s op => op.next id s) s

/-- The handles that a history gives out. -/
def handed (id : Nat) (s : Store) : List Operation → List Slot
  | [] => []
  | op :: rest => op.gives id s ++ handed id (op.next id s) rest

/-- A history puts back only snapshots that it took before, apart from those known at its start. -/
def OwnSnapshots (id : Nat) (known : List (Array (Option Int))) (s : Store) :
    List Operation → Prop
  | [] => True
  | op :: rest => (∀ saved, op = .restore saved → saved ∈ known) ∧
      OwnSnapshots id (op.saves id s ++ known) (op.next id s) rest

/-- Every operation with the handle is an invalid reference and changes nothing. -/
def Refuses (id : Nat) (s : Store) (h : Slot) : Prop :=
  ∀ op : Operation, op.Uses h →
    ∃ f, op.perform id s = .error f s ∧ f.Breaks .invalidReference

/-- What holds of a store and of the handles that were given out at the end of a history. -/
structure Sound (id : Nat) (s : Store) (ops : List Operation) : Prop where
  /-- live slots hold values of the type -/
  typed : ∀ i n, (s.played id ops).cell? i = some n → s.intType.contains n = true
  /-- no handle is given out twice -/
  fresh : (s.handed id ops).Nodup
  /-- a dropped slot is refused until a snapshot in which it was live is put back -/
  stale : ∀ past op rest h, ops = past ++ op :: rest → h ∈ s.handed id past →
    op.Drops id (s.played id past) h →
      (∀ saved, .restore saved ∈ rest → ({ cells := saved } : Store).cell? h.index = none) →
        (s.played id ops).Refuses id h
  /-- every snapshot can be put back: all slots then read as when it was taken, those allocated
  since are refused, and there is no poison -/
  undone : ∀ past rest, ops = past ++ .snapshot :: rest →
    ∃ u, (Operation.restore (s.played id past).snapshot).perform id (s.played id ops) = .ok .done u ∧
      (∀ h, (Operation.read h).answer id u = (Operation.read h).answer id (s.played id past)) ∧
      (∀ h ∈ (s.played id past).handed id (.snapshot :: rest), u.Refuses id h) ∧
      u.poisoned = false

variable {id : Nat} {s : Store} {op : Operation} {h : Slot}

/-- A dead slot is refused. -/
theorem refuses_of_cell? (hdead : s.cell? h.index = none) : s.Refuses id h := by
  rintro _ hop
  obtain ⟨-, hown⟩ | hown := Operation.own_cases id h
  · refine ⟨(Violation.released h.index).fault none, ?_, Violation.breaks_iff.mpr rfl⟩
    cases hop <;>
      simp only [Operation.perform, bind_apply, hown, ofExcept_ok_apply, read_apply,
        writeDatum_apply, free_apply, hdead]
  · refine ⟨Violation.foreignSlot.fault none, ?_, Violation.breaks_iff.mpr rfl⟩
    cases hop <;> simp only [Operation.perform, bind_apply, hown, ofExcept_error_apply]

/-- What a read answers depends on the cell of the slot only. -/
theorem answer_read_congr {t : Store} (hcell : s.cell? h.index = t.cell? h.index) :
    (Operation.read h).answer id s = (Operation.read h).answer id t := by
  unfold Operation.answer
  obtain ⟨-, hown⟩ | hown := Operation.own_cases id h
  · simp only [Operation.perform, bind_apply, hown, ofExcept_ok_apply, read_apply, hcell]
    cases t.cell? h.index <;> rfl
  · simp only [Operation.perform, bind_apply, hown, ofExcept_error_apply]

/-! ### One operation -/

@[simp] theorem intType_next (id : Nat) (op : Operation) (s : Store) :
    (op.next id s).intType = s.intType := by
  have hout := Operation.outcome id op s
  unfold Operation.next after
  generalize op.perform id s = r at hout ⊢
  cases hout <;> rfl

/-- The row of cells never gets shorter. -/
theorem size_le_next (id : Nat) (op : Operation) (s : Store) :
    s.cells.size ≤ (op.next id s).cells.size := by
  have hout := Operation.outcome id op s
  unfold Operation.next after
  generalize op.perform id s = r at hout ⊢
  cases hout with
  | restored hsize => exact Nat.le_of_eq (size_restored hsize).symm
  | _ => simp

/-- The handles that an operation gives out are those of the slots that it adds. -/
theorem gives_eq (id : Nat) (op : Operation) (s : Store) :
    op.gives id s = [] ∨
      op.gives id s = s.nextSlots id ((op.next id s).cells.size - s.cells.size) := by
  have hout := Operation.outcome id op s
  unfold Operation.gives Operation.next after
  generalize op.perform id s = r at hout ⊢
  cases hout with
  | allocated _ values => exact .inr (by simp)
  | _ => exact .inl rfl

/-- A snapshot that an operation gives out holds the cells of that moment. -/
theorem eq_of_mem_saves {saved : Array (Option Int)} (hsaved : saved ∈ op.saves id s) :
    saved = s.cells ∧ op.next id s = s := by
  have hout := Operation.outcome id op s
  unfold Operation.saves at hsaved
  unfold Operation.next after
  generalize op.perform id s = r at hout hsaved ⊢
  cases hout with
  | saved => exact ⟨List.mem_singleton.mp hsaved, rfl⟩
  | _ => cases hsaved

/-- Where the value of a live slot comes from: it was there before, or it fits the type and went
into a slot that is new or was live, or it comes from a snapshot. -/
theorem cell?_next {i n : Int} (hcell : (op.next id s).cell? i = some n) :
    s.cell? i = some n ∨
    (s.intType.contains n = true ∧ (s.cells.size ≤ i.toNat ∨ ∃ old, s.cell? i = some old)) ∨
    ∃ saved, op = .restore saved ∧ ({ cells := saved } : Store).cell? i = some n := by
  -- A failed allocation of several slots extends the store just like one that succeeds.
  have hextend (values : List Int) (hvalues : ∀ k ∈ values, s.intType.contains k = true)
      (hcell : (s.extend values).cell? i = some n) :
      s.cell? i = some n ∨ (s.intType.contains n = true ∧ s.cells.size ≤ i.toNat) := by
    rw [cell?_extend] at hcell
    split at hcell
    · exact .inl hcell
    · split at hcell
      · exact .inr ⟨hvalues n (List.mem_of_getElem? hcell), by omega⟩
      · cases hcell
  have hout := Operation.outcome id op s
  unfold Operation.next after at hcell
  generalize op.perform id s = r at hout hcell
  cases hout with
  | refused f =>
    obtain hold | ⟨htype, hnew⟩ := hextend _ (fun k hk => Operation.contains_of_mem_leaves hk) hcell
    · exact .inl hold
    · exact .inr (.inl ⟨htype, .inl hnew⟩)
  | allocated _ hvalues =>
    obtain hold | ⟨htype, hnew⟩ := hextend _ hvalues hcell
    · exact .inl hold
    · exact .inr (.inl ⟨htype, .inl hnew⟩)
  | @written h d old new hold hnew =>
    obtain ⟨hpos, hlt⟩ := lt_size_of_cell? hold
    simp only [cell?_setCell s hpos] at hcell
    split at hcell
    · rename_i hi
      cases hcell
      exact .inr (.inl ⟨hnew, .inr ⟨old, hi.1 ▸ hold⟩⟩)
    · exact .inl hcell
  | @freed h old hold =>
    obtain ⟨hpos, hlt⟩ := lt_size_of_cell? hold
    simp only [cell?_setCell s hpos] at hcell
    split at hcell
    · cases hcell
    · exact .inl hcell
  | @restored saved hsize => exact .inr (.inr ⟨saved, rfl, cell?_restored s saved i ▸ hcell⟩)
  | _ => exact .inl hcell

/-- All live slots among the cells hold values of the type. -/
def Typed (t : IntType) (cells : Array (Option Int)) : Prop :=
  ∀ i n, ({ cells } : Store).cell? i = some n → t.contains n = true

theorem typed_next (htyped : Typed s.intType s.cells)
    (hsaved : ∀ saved, op = .restore saved → Typed s.intType saved) :
    Typed s.intType (op.next id s).cells := by
  intro i n hcell
  obtain hold | ⟨htype, -⟩ | ⟨saved, hop, hcell⟩ := cell?_next hcell
  · exact htyped i n hold
  · exact htype
  · exact hsaved saved hop i n hcell

/-- An operation wakes no dead slot unless it puts back a snapshot in which the slot is live. -/
theorem cell?_next_of_dead {i : Int} (hi : i.toNat < s.cells.size) (hdead : s.cell? i = none)
    (hkeep : ∀ saved, op = .restore saved → ({ cells := saved } : Store).cell? i = none) :
    (op.next id s).cell? i = none := by
  refine Option.eq_none_iff_forall_ne_some.mpr fun n hcell => ?_
  obtain hold | ⟨-, hnew | ⟨old, hold⟩⟩ | ⟨saved, hop, hcell⟩ := cell?_next hcell
  · simp [hdead] at hold
  · omega
  · simp [hdead] at hold
  · simp [hkeep saved hop] at hcell

/-- A slot that an operation dropped is dead. -/
theorem cell?_next_of_drops (hdrops : op.Drops id s h) : (op.next id s).cell? h.index = none := by
  have hout := Operation.outcome id op s
  cases hdrops with
  | freed hfree =>
    rw [hfree] at hout
    rw [Operation.next, after_of_ok hfree]
    cases hout with
    | freed hold =>
      obtain ⟨hpos, hlt⟩ := lt_size_of_cell? hold
      simp [cell?_setCell s hpos, hlt]
  | restored hrestore hdead =>
    rw [hrestore] at hout
    rw [Operation.next, after_of_ok hrestore]
    cases hout with
    | restored hsize => rwa [cell?_restored]

/-! ### Whole histories -/

@[simp] theorem played_nil : s.played id [] = s := rfl

@[simp] theorem played_cons (rest : List Operation) :
    s.played id (op :: rest) = (op.next id s).played id rest := rfl

theorem played_append (past rest : List Operation) :
    s.played id (past ++ rest) = (s.played id past).played id rest :=
  List.foldl_append

theorem size_le_played (id : Nat) (s : Store) (ops : List Operation) :
    s.cells.size ≤ (s.played id ops).cells.size := by
  induction ops generalizing s with
  | nil => exact Nat.le_refl _
  | cons op rest ih => exact Nat.le_trans (size_le_next id op s) (ih _)

/-- A handle that a history gives out denotes a slot that the history adds. -/
theorem bounds_of_mem_handed {ops : List Operation} (hh : h ∈ s.handed id ops) :
    s.cells.size ≤ h.index.toNat ∧ h.index.toNat < (s.played id ops).cells.size := by
  induction ops generalizing s with
  | nil => cases hh
  | cons op rest ih =>
    have hstep := size_le_next id op s
    have hrest := size_le_played id (op.next id s) rest
    rw [played_cons]
    rcases List.mem_append.mp hh with hh | hh
    · obtain hnil | hnext := gives_eq id op s
      · simp [hnil] at hh
      · simp only [hnext, nextSlots, List.mem_map, List.mem_range'_1] at hh
        obtain ⟨k, hk, rfl⟩ := hh
        simp only [Int.toNat_natCast]
        omega
    · have := ih hh
      omega

theorem nodup_gives (id : Nat) (op : Operation) (s : Store) : (op.gives id s).Nodup := by
  obtain hnil | hnext := gives_eq id op s
  · simp [hnil]
  · rw [hnext]
    refine List.Pairwise.map _ (fun i j hij => ?_) List.nodup_range'
    simp only [ne_eq, Slot.mk.injEq, true_and]
    omega

/-- No handle is given out twice. -/
theorem nodup_handed (ops : List Operation) : (s.handed id ops).Nodup := by
  induction ops generalizing s with
  | nil => exact List.nodup_nil
  | cons op rest ih =>
    refine List.nodup_append.mpr ⟨nodup_gives id op s, ih, ?_⟩
    rintro h hfirst _ hlater rfl
    have hone : h ∈ s.handed id [op] := List.mem_append_left _ hfirst
    have hbefore := (bounds_of_mem_handed hone).2
    have hafter := (bounds_of_mem_handed hlater).1
    simp only [played_cons, played_nil] at hbefore
    omega

/-- A dead slot stays dead unless a snapshot in which it is live is put back. -/
theorem cell?_played_of_dead {i : Int} {ops : List Operation} (hi : i.toNat < s.cells.size)
    (hdead : s.cell? i = none)
    (hkeep : ∀ saved, .restore saved ∈ ops → ({ cells := saved } : Store).cell? i = none) :
    (s.played id ops).cell? i = none := by
  induction ops generalizing s with
  | nil => exact hdead
  | cons op rest ih =>
    refine ih (Nat.lt_of_lt_of_le hi (size_le_next id op s)) (cell?_next_of_dead hi hdead ?_) ?_
    · rintro saved rfl
      exact hkeep saved List.mem_cons_self
    · exact fun saved hsaved => hkeep saved (List.mem_cons_of_mem op hsaved)

/-- If only known snapshots are put back, and those are typed, the store stays typed. -/
theorem typed_played {known : List (Array (Option Int))} {ops : List Operation}
    (hown : s.OwnSnapshots id known ops) (htyped : Typed s.intType s.cells)
    (hknown : ∀ saved ∈ known, Typed s.intType saved) :
    Typed s.intType (s.played id ops).cells := by
  induction ops generalizing s known with
  | nil => exact htyped
  | cons op rest ih =>
    obtain ⟨hrestore, hrest⟩ := hown
    rw [← intType_next id op s]
    refine ih hrest ?_ fun saved hsaved => ?_
    · rw [intType_next]
      exact typed_next htyped fun saved hop => hknown saved (hrestore saved hop)
    · rw [intType_next]
      rcases List.mem_append.mp hsaved with hsaved | hsaved
      · exact (eq_of_mem_saves hsaved).1 ▸ htyped
      · exact hknown saved hsaved

/-- A snapshot of the beginning can be put back at the end. -/
theorem perform_restore_snapshot (id : Nat) (s : Store) (ops : List Operation) :
    (Operation.restore s.snapshot).perform id (s.played id ops) =
      .ok .done ((s.played id ops).restored s.cells) := by
  have hsize : ¬(s.played id ops).cells.size < s.snapshot.size :=
    Nat.not_lt.mpr (size_le_played id s ops)
  simp only [Operation.perform, bind_apply, restore_apply, hsize, if_false]
  rfl

/-- Once it is put back, the slots that were allocated since are refused. -/
theorem refuses_restored {ops : List Operation} (hh : h ∈ s.handed id ops) :
    ((s.played id ops).restored s.cells).Refuses id h := by
  refine refuses_of_cell? ?_
  rw [cell?_restored]
  refine Option.eq_none_iff_forall_ne_some.mpr fun n hcell => ?_
  have hlt := (lt_size_of_cell? hcell).2
  have hle := (bounds_of_mem_handed hh).1
  exact absurd hlt (Nat.not_lt.mpr hle)

/-- Whatever a history does with a new store, as long as it puts back snapshots of its own only:
live slots hold values of the type, all handles are different, dropped slots are refused, and every
snapshot brings back what was there. -/
theorem history_sound (id : Nat) (t : IntType) (ops : List Operation)
    (hown : ({ intType := t } : Store).OwnSnapshots id [] ops) :
    ({ intType := t } : Store).Sound id ops where
  typed := typed_played hown (by simp [Typed, cell?]) (by simp)
  fresh := nodup_handed ops
  stale := by
    rintro past op rest h rfl hh hdrops hkeep
    have hbound := (bounds_of_mem_handed hh).2
    rw [played_append, played_cons]
    refine refuses_of_cell? (cell?_played_of_dead ?_ (cell?_next_of_drops hdrops) hkeep)
    exact Nat.lt_of_lt_of_le hbound (size_le_next id op _)
  undone := by
    rintro past rest rfl
    rw [played_append]
    refine ⟨_, perform_restore_snapshot id _ _, fun h => ?_, fun h hh => refuses_restored hh, rfl⟩
    exact answer_read_congr (cell?_restored _ _ _)

end Store

namespace Sample

/-- A history with a failed allocation, a release and a snapshot put back after both. -/
def history : List Operation :=
  [.alloc (.int 5), .snapshot, .allocMany [.int 1, .int 200], .alloc (.int 7), .free ⟨0, 0⟩,
    .poison, .restore #[some 5], .alloc (.int 9)]

end Sample

theorem Sample.history_of_bytes :
    ({ intType := byte } : Store).OwnSnapshots 0 [] history ∧
      ({ intType := byte } : Store).Sound 0 history ∧
      ({ intType := byte } : Store).handed 0 history = [⟨0, 0⟩, ⟨0, 2⟩, ⟨0, 3⟩] := by
  have hown : ({ intType := byte } : Store).OwnSnapshots 0 [] history := by
    simp only [Store.OwnSnapshots, history]
    refine ⟨?_, ?_, ?_, ?_, ?_, ?_, ?_, ?_, trivial⟩ <;> rintro saved ⟨⟩
    decide
  exact ⟨hown, Store.history_sound 0 byte history hown, by decide⟩

end Retrace
