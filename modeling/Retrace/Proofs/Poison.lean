import Retrace.Proofs.RoundTrip

/-!
# Poison

A host works with any number of stores and invocations, in any order. This module follows what it
does step by step, and states the protocol that keeps it from working with the remains of a run that
failed (`Host.poison_protocol`): an invocation executes its procedure once at most, a failure marks
the stores of its arguments, and a store that is marked refuses every run on it until the mark is
lifted.

`Host.Step` says what one command of a host does, in terms of the operations of stores and
invocations, and `Host.Session` strings commands together. A run that never ends is no step. The
protocol rests on two facts about a single step: an invocation that has left the state `ready` does
not return to it (`Host.Step.spent`), and only the two commands that lift a mark remove one
(`Host.Step.flag`).
-/

namespace Retrace

open Actions

/-! ## Marks -/

namespace Heap

/-- Whether a store is marked as left inconsistent. -/
def flag (h : Heap) (id : Nat) : Bool := (h.store id).poisoned

/-- Only a store that is there can be marked. -/
theorem lt_size_of_flag {h : Heap} {id : Nat} (hflag : h.flag id = true) : id < h.size := by
  by_contra hid
  rw [flag, store_of_size_le (Nat.le_of_not_lt hid)] at hflag
  cases hflag

theorem flag_push {h : Heap} {id : Nat} (hid : id < h.size) (s : Store) :
    (h.push s).flag id = h.flag id := by
  rw [flag, flag, store_push, if_neg (Nat.ne_of_lt hid)]

theorem flag_setStore_of_ne {h : Heap} {id other : Nat} (hne : other ≠ id) (s : Store) :
    (h.setStore id s).flag other = h.flag other := by
  rw [flag, flag, store_setStore, if_neg (fun h => hne h.1)]

theorem flag_setStore {h : Heap} {id : Nat} {s : Store} (hs : s.poisoned = h.flag id)
    (other : Nat) : (h.setStore id s).flag other = h.flag other := by
  rw [flag, store_setStore]
  split
  · rename_i hid
    rw [hs, hid.1]
  · rfl

theorem within_eq_ok {α : Type} {id : Nat} {x : Store.Action α} {h k : Heap} {a : α}
    (hx : within id x h = .ok a k) : ∃ s, x (h.store id) = .ok a s ∧ k = h.setStore id s := by
  unfold within at hx
  cases hs : x (h.store id) with
  | ok b s =>
    rw [hs] at hx
    obtain ⟨rfl, rfl⟩ := EStateM.Result.ok.inj hx
    exact ⟨s, rfl, rfl⟩
  | error f s =>
    rw [hs] at hx
    cases hx

theorem within_eq_error {α : Type} {id : Nat} {x : Store.Action α} {h k : Heap} {f : Fault}
    (hx : within id x h = .error f k) : ∃ s, x (h.store id) = .error f s ∧ k = h.setStore id s := by
  unfold within at hx
  cases hs : x (h.store id) with
  | ok b s =>
    rw [hs] at hx
    cases hx
  | error g s =>
    rw [hs] at hx
    obtain ⟨rfl, rfl⟩ := EStateM.Result.error.inj hx
    exact ⟨s, rfl, rfl⟩

/-- Poison marks the stores that it names, and no other. -/
theorem flag_poison {h : Heap} {ids : List Nat} {id : Nat} :
    (h.poison ids).flag id = true ↔ h.flag id = true ∨ (id ∈ ids ∧ id < h.size) := by
  induction ids generalizing h with
  | nil => simp [poison]
  | cons other rest ih =>
    have hfirst : (h.setStore other { h.store other with poisoned := true }).flag id = true ↔
        h.flag id = true ∨ (id = other ∧ id < h.size) := by
      rw [flag, store_setStore]
      by_cases hid : id = other ∧ other < h.size
      · simp [hid]
      · rw [if_neg hid, flag]
        have hnot : ¬(id = other ∧ id < h.size) := fun hc => hid ⟨hc.1, hc.1 ▸ hc.2⟩
        simp [hnot]
    have hrest := ih (h := h.setStore other { h.store other with poisoned := true })
    rw [size_setStore, hfirst] at hrest
    rw [poison, List.foldl_cons]
    rw [poison] at hrest
    rw [hrest, List.mem_cons, or_and_right, or_assoc]

end Heap

theorem Binding.mem_storesOf {args : List Binding} {id : Nat} :
    id ∈ storesOf args ↔ ∃ s, Among args s ∧ s.store = id := by
  simp only [storesOf, List.mem_eraseDups, List.mem_map, List.mem_flatMap, Among]

/-! ## The commands of a store -/

namespace Store

variable {α β : Type}

/-- An operation of a store leaves the mark as it is, also if it fails. -/
def KeepsFlag (x : Action α) : Prop := ∀ s, (after x s).poisoned = s.poisoned

theorem KeepsFlag.bind {x : Action α} {f : α → Action β} (hx : KeepsFlag x)
    (hf : ∀ a, KeepsFlag (f a)) : KeepsFlag (x >>= f) := by
  intro s
  refine after_bind (P := fun t : Store => t.poisoned = s.poisoned) (hx s) fun a t hxs => ?_
  rw [hf a t, ← hx s, after_of_ok hxs]

theorem keepsFlag_pure (a : α) : KeepsFlag (pure a) := fun _ => rfl

theorem keepsFlag_ofExcept (r : Except Fault α) : KeepsFlag (MonadExcept.ofExcept r) := by
  intro s
  cases r <;> rfl

theorem keepsFlag_read (index : Int) : KeepsFlag (read index) := by
  intro s
  unfold after read
  cases hc : s.cell? index <;> simp [bind_apply, hc]

theorem keepsFlag_write (index value : Int) : KeepsFlag (write index value) := by
  refine (keepsFlag_read index).bind fun _ s => ?_
  unfold after
  cases hc : s.intType.check value <;> simp [bind_apply, hc]

theorem keepsFlag_writeDatum (index : Int) (value : Datum) : KeepsFlag (writeDatum index value) :=
  (keepsFlag_read index).bind fun _ =>
    (keepsFlag_ofExcept value.toSlotValue).bind fun n => keepsFlag_write index n

theorem keepsFlag_alloc (value : Int) : KeepsFlag (alloc value) := by
  intro s
  unfold after alloc
  cases hc : s.intType.check value <;> simp [bind_apply, map_apply, hc]

theorem keepsFlag_allocDatum (value : Datum) : KeepsFlag (allocDatum value) :=
  (keepsFlag_ofExcept value.toSlotValue).bind keepsFlag_alloc

theorem keepsFlag_allocMany (values : List Datum) : KeepsFlag (allocMany values) := by
  induction values with
  | nil => exact keepsFlag_pure []
  | cons value rest ih =>
    exact (keepsFlag_allocDatum value).bind fun place => ih.bind fun places =>
      keepsFlag_pure (place :: places)

theorem keepsFlag_free (index : Int) : KeepsFlag (free index) :=
  (keepsFlag_read index).bind fun _ _ => rfl

/-- A snapshot that does not belong to a store leaves it as it is. -/
theorem restore_eq_error {saved : Array (Option Int)} {s t : Store} {f : Fault}
    (h : restore saved s = .error f t) : t = s := by
  unfold restore at h
  simp only [bind_apply, get_apply] at h
  split at h
  · exact (EStateM.Result.error.inj h).2.symm
  · cases h

end Store

/-- What a host can do with one store. -/
inductive StoreCommand where
  | alloc (value : Datum)
  | allocMany (values : List Datum)
  | write (index : Int) (value : Datum)
  | free (index : Int)
  | restore (saved : Array (Option Int))
  | clearPoison

namespace StoreCommand

/-- The operation of a store that a command performs. -/
def action : StoreCommand → Store.Action Unit
  | .alloc value => do let _ ← Store.allocDatum value
  | .allocMany values => do let _ ← Store.allocMany values
  | .write index value => Store.writeDatum index value
  | .free index => do let _ ← Store.free index
  | .restore saved => Store.restore saved
  | .clearPoison => modify Store.clearPoison

/-- The commands that lift a mark. -/
def lifts : StoreCommand → Bool
  | .restore _ | .clearPoison => true
  | _ => false

theorem keepsFlag_action {c : StoreCommand} (hc : c.lifts = false) : Store.KeepsFlag c.action := by
  cases c with
  | alloc value => exact (Store.keepsFlag_allocDatum value).bind fun _ => Store.keepsFlag_pure ()
  | allocMany values =>
    exact (Store.keepsFlag_allocMany values).bind fun _ => Store.keepsFlag_pure ()
  | write index value => exact Store.keepsFlag_writeDatum index value
  | free index => exact (Store.keepsFlag_free index).bind fun _ => Store.keepsFlag_pure ()
  | restore saved => cases hc
  | clearPoison => cases hc

/-- A command that fails leaves the mark as it is. -/
theorem poisoned_of_error {c : StoreCommand} {s t : Store} {f : Fault}
    (h : c.action s = .error f t) : t.poisoned = s.poisoned := by
  cases hc : c.lifts with
  | false => rw [← keepsFlag_action hc s, after_of_error h]
  | true =>
    cases c with
    | restore saved => rw [Store.restore_eq_error h]
    | clearPoison => cases h
    | _ => cases hc

end StoreCommand

/-! ## Running an invocation -/

namespace Invocation

variable {lib : Library} {fuel : Nat} {i i' : Invocation} {m m' : Memory}

/-- An invocation may run: it has not run yet, and no store of its arguments is marked. -/
def Admitted (i : Invocation) (h : Heap) : Prop :=
  i.progress = .ready ∧ ∀ id ∈ i.stores, h.flag id = false

/-- What executing the procedure of an invocation comes to: the run completes, or it fails and the
stores of the arguments are marked. -/
inductive Executed (lib : Library) (i : Invocation) (m : Memory) : Option Fault → Memory → Prop
  | completed {fuel : Nat} {m' : Memory} :
      lib.run fuel i.procedure i.args i.direction 0 m = .ok () m' → Executed lib i m none m'
  | failed {fuel : Nat} {f : Fault} {m' : Memory} {event : Event} :
      lib.run fuel i.procedure i.args i.direction 0 m = .error (.fault f) m' →
        Executed lib i m (some f) { heap := m'.heap.poison i.stores, log := event :: m'.log }

theorem Admitted.clean (hi : i.Admitted m.heap) :
    (i.stores.any fun id => (m.heap.store id).poisoned) = false := by
  simpa [Heap.flag] using hi.2

theorem run_of_ok (hi : i.Admitted m.heap)
    (h : lib.run fuel i.procedure i.args i.direction 0 m = .ok () m') :
    run lib fuel (i, m) = .ok () ({ i with progress := .completed }, m') := by
  simp only [run, hi.1, hi.clean, h, ne_eq, not_true_eq_false, if_false, Bool.false_eq_true]

theorem run_of_exhausted (hi : i.Admitted m.heap)
    (h : lib.run fuel i.procedure i.args i.direction 0 m = .error .exhausted m') :
    run lib fuel (i, m) = .error .exhausted (i, m') := by
  simp only [run, hi.1, hi.clean, h, ne_eq, not_true_eq_false, if_false, Bool.false_eq_true]

theorem run_of_fault {f : Fault} (hi : i.Admitted m.heap)
    (h : lib.run fuel i.procedure i.args i.direction 0 m = .error (.fault f) m') :
    run lib fuel (i, m) =
      .error (.fault f) ({ i with progress := .failed, error := failure? f },
        { heap := m'.heap.poison i.stores
          log := .failed i.direction i.procedure.name (reason f) :: m'.log }) := by
  simp only [run, hi.1, hi.clean, h, ne_eq, not_true_eq_false, if_false, Bool.false_eq_true]

/-- An invocation that may not run is refused, and nothing happens. -/
theorem run_of_not_admitted (lib : Library) (fuel : Nat) (hi : ¬i.Admitted m.heap) :
    ∃ (v : Violation) (progress : Progress), v.rule = .invocationState ∧ progress ≠ .ready ∧
      run lib fuel (i, m) =
        .error (.fault (v.fault (some i.procedure.name))) ({ i with progress := progress }, m) := by
  by_cases hready : i.progress = .ready
  · have hmarked : (i.stores.any fun id => (m.heap.store id).poisoned) = true := by
      by_contra hclean
      exact hi ⟨hready, by simpa [Heap.flag] using hclean⟩
    refine ⟨.poisoned, .failed, rfl, by simp, ?_⟩
    simp only [run, hready, hmarked, ne_eq, not_true_eq_false, if_false, if_true]
  · refine ⟨.notReady i.procedure.name i.progress.name, i.progress, rfl, hready, ?_⟩
    simp only [run, hready, ne_eq, not_false_eq_true, if_true]

/-- An invocation completes only by executing its procedure. -/
theorem run_eq_ok (h : run lib fuel (i, m) = .ok () (i', m')) :
    i.Admitted m.heap ∧ Executed lib i m none m' ∧ i'.progress ≠ .ready := by
  by_cases hi : i.Admitted m.heap
  · cases hrun : lib.run fuel i.procedure i.args i.direction 0 m with
    | ok a m₁ =>
      rw [run_of_ok hi hrun] at h
      obtain ⟨rfl, rfl⟩ := Prod.mk.inj (EStateM.Result.ok.inj h).2
      exact ⟨hi, .completed hrun, by simp⟩
    | error stop m₁ =>
      cases stop with
      | exhausted =>
        rw [run_of_exhausted hi hrun] at h
        cases h
      | fault f =>
        rw [run_of_fault hi hrun] at h
        cases h
  · obtain ⟨v, progress, -, -, hrun⟩ := run_of_not_admitted lib fuel hi
    rw [hrun] at h
    cases h

/-- An invocation fails by executing its procedure, or because it is refused. -/
theorem run_eq_fault {f : Fault} (h : run lib fuel (i, m) = .error (.fault f) (i', m')) :
    ((i.Admitted m.heap ∧ Executed lib i m (some f) m') ∨
      (¬i.Admitted m.heap ∧ f.Breaks .invocationState ∧ m' = m)) ∧ i'.progress ≠ .ready := by
  by_cases hi : i.Admitted m.heap
  · cases hrun : lib.run fuel i.procedure i.args i.direction 0 m with
    | ok a m₁ =>
      rw [run_of_ok hi hrun] at h
      cases h
    | error stop m₁ =>
      cases stop with
      | exhausted =>
        rw [run_of_exhausted hi hrun] at h
        cases h
      | fault g =>
        rw [run_of_fault hi hrun] at h
        obtain ⟨hg, hm⟩ := EStateM.Result.error.inj h
        obtain rfl := Stop.fault.inj hg
        obtain ⟨rfl, rfl⟩ := Prod.mk.inj hm
        exact ⟨Or.inl ⟨hi, .failed hrun⟩, by simp⟩
  · obtain ⟨v, progress, hv, hprogress, hrun⟩ := run_of_not_admitted lib fuel hi
    rw [hrun] at h
    obtain ⟨hf, hm⟩ := EStateM.Result.error.inj h
    obtain rfl := Stop.fault.inj hf
    obtain ⟨rfl, rfl⟩ := Prod.mk.inj hm
    exact ⟨Or.inr ⟨hi, Violation.breaks_iff.mpr hv, rfl⟩, hprogress⟩

/-- A procedure that completes changes no mark. -/
theorem Executed.flag_of_completed (h : Executed lib i m none m') (id : Nat) :
    m'.heap.flag id = m.heap.flag id := by
  cases h with
  | completed hrun =>
    have hkept : m.heap.KeptOutside (Binding.Among i.args) id m'.heap := after_of_ok hrun ▸
      Execution.kept_runProcedure (Execution.careful_exec lib _) i.procedure i.args i.direction 0
        m id
    exact hkept.flags id

/-- A procedure that fails marks the stores of its arguments, and no other. -/
theorem Executed.flag_of_failed {f : Fault} (h : Executed lib i m (some f) m') {id : Nat} :
    m'.heap.flag id = true ↔ m.heap.flag id = true ∨ (id ∈ i.stores ∧ id < m.heap.size) := by
  cases h with
  | @failed _ _ m₁ _ hrun =>
    have hkept : m.heap.KeptOutside (Binding.Among i.args) id m₁.heap := after_of_error hrun ▸
      Execution.kept_runProcedure (Execution.careful_exec lib _) i.procedure i.args i.direction 0
        m id
    rw [Heap.flag_poison, hkept.size, Heap.flag, hkept.flags, Heap.flag]

end Invocation

/-! ## Hosts -/

/-- What a host works with: the memory, and the invocations that it made, by number. -/
structure Host where
  memory : Memory := {}
  invocations : List Invocation := []

namespace Host

/-- What a host can do. A run may find a larger library than the one that the invocation was made
from. -/
inductive Command where
  | create (type : IntType)
  | store (id : Nat) (command : StoreCommand)
  | invoke (lib : Library) (name : String) (args : List Binding) (d : Direction)
  | run (lib : Library) (number : Nat)

/-- The host after a change of the heap. -/
def withHeap (h : Host) (heap : Heap) : Host := { h with memory := { h.memory with heap } }

/-- The host after a run of an invocation. -/
def settle (h : Host) (number : Nat) (i : Invocation) (m : Memory) : Host :=
  ⟨m, h.invocations.set number i⟩

/-- What a command does, and the fault that it ends with if it fails. -/
inductive Step (h : Host) : Command → Option Fault → Host → Prop
  | create (type : IntType) :
      Step h (.create type) none (h.withHeap (h.memory.heap.push { intType := type }))
  | stored {id : Nat} {command : StoreCommand} {heap : Heap} :
      Heap.within id command.action h.memory.heap = .ok () heap →
        Step h (.store id command) none (h.withHeap heap)
  | notStored {id : Nat} {command : StoreCommand} {f : Fault} {heap : Heap} :
      Heap.within id command.action h.memory.heap = .error f heap →
        Step h (.store id command) (some f) (h.withHeap heap)
  | invoked {lib : Library} {name : String} {args : List Binding} {d : Direction}
      {i : Invocation} : lib.invoke name args d = .ok i →
        Step h (.invoke lib name args d) none { h with invocations := h.invocations ++ [i] }
  | notInvoked {lib : Library} {name : String} {args : List Binding} {d : Direction} {f : Fault} :
      lib.invoke name args d = .error f → Step h (.invoke lib name args d) (some f) h
  | completed {lib : Library} {number fuel : Nat} {i i' : Invocation} {m : Memory} :
      h.invocations[number]? = some i → Invocation.run lib fuel (i, h.memory) = .ok () (i', m) →
        Step h (.run lib number) none (h.settle number i' m)
  | failed {lib : Library} {number fuel : Nat} {i i' : Invocation} {f : Fault} {m : Memory} :
      h.invocations[number]? = some i →
        Invocation.run lib fuel (i, h.memory) = .error (.fault f) (i', m) →
          Step h (.run lib number) (some f) (h.settle number i' m)

/-- An invocation that has left the state `ready`. -/
def Spent (h : Host) (number : Nat) : Prop :=
  ∃ i, h.invocations[number]? = some i ∧ i.progress ≠ .ready

theorem spent_settle {h : Host} {number other : Nat} {i i' : Invocation} {m : Memory}
    (hi : h.invocations[number]? = some i) (hi' : i'.progress ≠ .ready)
    (hspent : other = number ∨ h.Spent other) : (h.settle number i' m).Spent other := by
  have hlt : number < h.invocations.length := (List.getElem?_eq_some_iff.mp hi).1
  by_cases hother : other = number
  · subst hother
    exact ⟨i', by simp [settle, hlt], hi'⟩
  · obtain ⟨j, hj, hready⟩ := hspent.resolve_left hother
    exact ⟨j, by simp [settle, List.getElem?_set_ne (Ne.symm hother), hj], hready⟩

namespace Step

variable {h h' : Host} {c : Command} {fault : Option Fault}

/-- No command makes an invocation ready again. -/
theorem spent (hstep : h.Step c fault h') {number : Nat} (hspent : h.Spent number) :
    h'.Spent number := by
  cases hstep with
  | create | stored | notStored | notInvoked => exact hspent
  | @invoked _ _ _ _ i hinvoke =>
    obtain ⟨j, hj, hready⟩ := hspent
    have hlt : number < h.invocations.length := (List.getElem?_eq_some_iff.mp hj).1
    exact ⟨j, by simp [List.getElem?_append_left hlt, hj], hready⟩
  | completed hi hrun => exact spent_settle hi (Invocation.run_eq_ok hrun).2.2 (Or.inr hspent)
  | failed hi hrun => exact spent_settle hi (Invocation.run_eq_fault hrun).2 (Or.inr hspent)

/-- After a run the invocation is not ready, however the run ended. -/
theorem spent_of_run {lib : Library} {number : Nat} (hstep : h.Step (.run lib number) fault h') :
    h'.Spent number := by
  cases hstep with
  | completed hi hrun => exact spent_settle hi (Invocation.run_eq_ok hrun).2.2 (Or.inl rfl)
  | failed hi hrun => exact spent_settle hi (Invocation.run_eq_fault hrun).2 (Or.inl rfl)

/-- Only the commands that lift a mark remove one. -/
theorem flag (hstep : h.Step c fault h') {id : Nat} (hflag : h.memory.heap.flag id = true)
    (hkeep : ∀ command : StoreCommand, c = .store id command → command.lifts = true →
      fault ≠ none) : h'.memory.heap.flag id = true := by
  cases hstep with
  | create type => exact (Heap.flag_push (Heap.lt_size_of_flag hflag) _).trans hflag
  | @stored other command heap hdone =>
    obtain ⟨s, hs, rfl⟩ := Heap.within_eq_ok hdone
    by_cases hid : id = other
    · subst hid
      have hlifts : command.lifts = false := by
        by_contra hlifts
        exact hkeep command rfl (by simpa using hlifts) rfl
      have hs' := StoreCommand.keepsFlag_action hlifts (h.memory.heap.store id)
      rw [after_of_ok hs] at hs'
      exact (Heap.flag_setStore hs' id).trans hflag
    · exact (Heap.flag_setStore_of_ne hid s).trans hflag
  | @notStored other command f heap hdone =>
    obtain ⟨s, hs, rfl⟩ := Heap.within_eq_error hdone
    exact (Heap.flag_setStore (StoreCommand.poisoned_of_error hs) id).trans hflag
  | invoked hinvoke => exact hflag
  | notInvoked hinvoke => exact hflag
  | completed hi hrun =>
    exact ((Invocation.run_eq_ok hrun).2.1.flag_of_completed id).trans hflag
  | failed hi hrun =>
    rcases (Invocation.run_eq_fault hrun).1 with ⟨-, hexecuted⟩ | ⟨-, -, rfl⟩
    · exact hexecuted.flag_of_failed.mpr (Or.inl hflag)
    · exact hflag

end Step

end Host

/-! ## Sessions -/

/-- One thing that a host did: the command, and the host before and after it. -/
structure Deed where
  before : Host
  command : Host.Command
  fault : Option Fault
  after : Host

namespace Deed

/-- A deed runs an invocation, which is `i` at that time. -/
def Runs (x : Deed) (number : Nat) (i : Invocation) : Prop :=
  (∃ lib, x.command = .run lib number) ∧ x.before.invocations[number]? = some i

/-- A deed executes the procedure of an invocation: the memory afterwards is what the run of the
procedure leaves, with the stores of the arguments marked if it failed. -/
def Executes (x : Deed) (number : Nat) (i : Invocation) : Prop :=
  x.before.invocations[number]? = some i ∧ i.Admitted x.before.memory.heap ∧
    ∃ lib, x.command = .run lib number ∧
      Invocation.Executed lib i x.before.memory x.fault x.after.memory

/-- A deed fails with an error about the state of an invocation and has no effect on the memory. -/
def Refused (x : Deed) : Prop :=
  (∃ f, x.fault = some f ∧ f.Breaks .invocationState) ∧ x.after.memory = x.before.memory

/-- A deed lifts the mark of a store. -/
def Lifts (x : Deed) (id : Nat) : Prop :=
  x.fault = none ∧ ∃ command : StoreCommand, x.command = .store id command ∧ command.lifts = true

/-- A deed is what its command does. -/
def Made (x : Deed) : Prop := x.before.Step x.command x.fault x.after

variable {x : Deed} {number : Nat} {i : Invocation}

/-- **Every run** either executes the procedure or is refused. -/
theorem executes_or_refused (hmade : x.Made) (hruns : x.Runs number i) :
    x.Executes number i ∨ (¬i.Admitted x.before.memory.heap ∧ x.Refused) := by
  obtain ⟨before, command, fault, after⟩ := x
  obtain ⟨⟨lib, hcommand⟩, hi⟩ := hruns
  simp only [Made] at hmade hcommand hi
  subst hcommand
  cases hmade with
  | completed hj hrun =>
    obtain rfl := Option.some.inj (hi.symm.trans hj)
    obtain ⟨hadmitted, hexecuted, -⟩ := Invocation.run_eq_ok hrun
    exact Or.inl ⟨hi, hadmitted, lib, rfl, hexecuted⟩
  | failed hj hrun =>
    obtain rfl := Option.some.inj (hi.symm.trans hj)
    rcases (Invocation.run_eq_fault hrun).1 with ⟨hadmitted, hexecuted⟩ | ⟨hnot, hstate, rfl⟩
    · exact Or.inl ⟨hi, hadmitted, lib, rfl, hexecuted⟩
    · exact Or.inr ⟨hnot, ⟨_, rfl, hstate⟩, rfl⟩

/-- A run on a store that is marked is refused. -/
theorem refused_of_flag (hmade : x.Made) (hruns : x.Runs number i) {s : Slot}
    (hs : Binding.Among i.args s) (hflag : x.before.memory.heap.flag s.store = true) :
    x.Refused := by
  rcases executes_or_refused hmade hruns with hexecutes | hrefused
  · have hclean := hexecutes.2.1.2 s.store (Binding.mem_storesOf.mpr ⟨s, hs, rfl⟩)
    rw [hflag] at hclean
    cases hclean
  · exact hrefused.2

/-- An execution that completes changes no mark. -/
theorem flag_of_completed (h : x.Executes number i) (hfault : x.fault = none) (id : Nat) :
    x.after.memory.heap.flag id = x.before.memory.heap.flag id := by
  obtain ⟨-, -, lib, -, hexecuted⟩ := h
  rw [hfault] at hexecuted
  exact hexecuted.flag_of_completed id

/-- An execution that fails marks the stores of the arguments. -/
theorem flag_of_failed (h : x.Executes number i) {f : Fault} (hfault : x.fault = some f) {s : Slot}
    (hs : Binding.Among i.args s) (hplaced : s.store < x.before.memory.heap.size) :
    x.after.memory.heap.flag s.store = true := by
  obtain ⟨-, -, lib, -, hexecuted⟩ := h
  rw [hfault] at hexecuted
  exact hexecuted.flag_of_failed.mpr (Or.inr ⟨Binding.mem_storesOf.mpr ⟨s, hs, rfl⟩, hplaced⟩)

/-- An execution that fails leaves the marks of all other stores alone. -/
theorem flag_of_failed_of_ne (h : x.Executes number i) {f : Fault} (hfault : x.fault = some f)
    {id : Nat} (hid : ∀ s, Binding.Among i.args s → s.store ≠ id) :
    x.after.memory.heap.flag id = x.before.memory.heap.flag id := by
  obtain ⟨-, -, lib, -, hexecuted⟩ := h
  rw [hfault] at hexecuted
  have hnot : id ∉ i.stores := fun hmem => by
    obtain ⟨s, hs, hstore⟩ := Binding.mem_storesOf.mp hmem
    exact hid s hs hstore
  rw [Bool.eq_iff_iff, hexecuted.flag_of_failed]
  simp [hnot]

end Deed

namespace Host

/-- What a host does from one state to another, one command after the other. -/
inductive Session : Host → List Deed → Host → Prop
  | nil (h : Host) : Session h [] h
  | cons {h h' k : Host} {c : Command} {fault : Option Fault} {deeds : List Deed} :
      h.Step c fault h' → Session h' deeds k → Session h (⟨h, c, fault, h'⟩ :: deeds) k

namespace Session

variable {h k : Host} {deeds : List Deed}

/-- What every deed of a session keeps holds throughout. -/
theorem keeps {P : Host → Prop} (hsession : h.Session deeds k)
    (hstep : ∀ x ∈ deeds, x.Made → P x.before → P x.after) (hP : P h) :
    (∀ x ∈ deeds, P x.before) ∧ P k := by
  induction hsession with
  | nil h => exact ⟨by simp, hP⟩
  | cons hmade hrest ih =>
    rw [List.forall_mem_cons] at hstep ⊢
    obtain ⟨hlater, hend⟩ := ih hstep.2 (hstep.1 hmade hP)
    exact ⟨⟨hP, hlater⟩, hend⟩

theorem made (hsession : h.Session deeds k) : ∀ x ∈ deeds, x.Made := by
  induction hsession with
  | nil h => simp
  | cons hmade hrest ih => exact List.forall_mem_cons.mpr ⟨hmade, ih⟩

/-- A session goes up to each of its deeds, and on from there. -/
theorem split {past rest : List Deed} {x : Deed} (hsession : h.Session (past ++ x :: rest) k) :
    h.Session past x.before ∧ x.Made ∧ x.after.Session rest k := by
  induction past generalizing h with
  | nil =>
    cases hsession with
    | cons hmade hrest => exact ⟨.nil _, hmade, hrest⟩
  | cons y past ih =>
    cases hsession with
    | cons hmade hrest =>
      obtain ⟨hpast, hx⟩ := ih hrest
      exact ⟨.cons hmade hpast, hx⟩

/-- An invocation that has left the state `ready` never executes its procedure. -/
theorem not_executes_of_spent (hsession : h.Session deeds k) {number : Nat}
    (hspent : h.Spent number) : ∀ y ∈ deeds, ∀ j, ¬y.Executes number j := by
  rintro y hy j ⟨hj, ⟨hready, -⟩, -⟩
  obtain ⟨i, hi, hnot⟩ :=
    (hsession.keeps (P := fun h => h.Spent number) (fun x _ hmade => hmade.spent) hspent).1 y hy
  obtain rfl := Option.some.inj (hi.symm.trans hj)
  exact hnot hready

/-- No two deeds of a session execute the same invocation. -/
theorem executes_once (hsession : h.Session deeds k) (number : Nat) :
    deeds.Pairwise fun x y => ∀ i j, ¬(x.Executes number i ∧ y.Executes number j) := by
  induction hsession with
  | nil h => exact .nil
  | cons hmade hrest ih =>
    refine .cons ?_ ih
    rintro y hy i j ⟨⟨-, -, lib, hcommand, -⟩, hexecutes⟩
    simp only at hcommand
    subst hcommand
    exact hrest.not_executes_of_spent hmade.spent_of_run y hy j hexecutes

/-- A mark stays as long as no deed lifts it. -/
theorem flag_of_not_lifts (hsession : h.Session deeds k) {id : Nat}
    (hflag : h.memory.heap.flag id = true) (hlifts : ∀ z ∈ deeds, ¬z.Lifts id) :
    k.memory.heap.flag id = true := by
  refine (hsession.keeps (P := fun h => h.memory.heap.flag id = true) (fun x hx hmade hx' => ?_)
    hflag).2
  refine hmade.flag hx' fun command hcommand hc hfault => ?_
  exact hlifts x hx ⟨hfault, command, hcommand, hc⟩

end Session

/-- **The protocol of poison.** In every session, whatever the stores and invocations of the host
are at first:

* no invocation executes its procedure twice; a run that does not execute it is refused with an
  error about the state of the invocation, and leaves the memory as it is;
* an execution that completes changes no mark; one that fails marks every store that an argument
  has a slot in, and changes no other mark;
* after that, and until a command lifts the mark of the store, every run with an argument that has a
  slot there is refused in this way. -/
theorem poison_protocol {h k : Host} {deeds : List Deed} (hsession : h.Session deeds k) :
    (∀ number, deeds.Pairwise fun x y => ∀ i j, ¬(x.Executes number i ∧ y.Executes number j)) ∧
    (∀ x ∈ deeds, ∀ number i, x.Runs number i → x.Executes number i ∨ x.Refused) ∧
    (∀ x ∈ deeds, ∀ number i, x.Executes number i → x.fault = none →
      ∀ id, x.after.memory.heap.flag id = x.before.memory.heap.flag id) ∧
    (∀ x ∈ deeds, ∀ number i f, x.Executes number i → x.fault = some f →
      (∀ s, Binding.Among i.args s → s.store < x.before.memory.heap.size →
        x.after.memory.heap.flag s.store = true) ∧
      ∀ id, (∀ s, Binding.Among i.args s → s.store ≠ id) →
        x.after.memory.heap.flag id = x.before.memory.heap.flag id) ∧
    ∀ past x between y rest, deeds = past ++ x :: (between ++ y :: rest) →
      ∀ number i f s, x.Executes number i → x.fault = some f → Binding.Among i.args s →
        s.store < x.before.memory.heap.size → (∀ z ∈ between, ¬z.Lifts s.store) →
          ∀ number' j t, y.Runs number' j → Binding.Among j.args t → t.store = s.store →
            y.Refused := by
  refine ⟨hsession.executes_once, fun x hx number i hruns => ?_,
    fun x _ number i hx hfault => Deed.flag_of_completed hx hfault,
    fun x _ number i f hx hfault => ⟨fun s hs => Deed.flag_of_failed hx hfault hs,
      fun id hid => Deed.flag_of_failed_of_ne hx hfault hid⟩, ?_⟩
  · exact (Deed.executes_or_refused (hsession.made x hx) hruns).imp_right And.right
  · rintro past x between y rest rfl number i f s hx hfault hs hplaced hlifts number' j t hy ht hts
    obtain ⟨-, -, hlater⟩ := hsession.split
    obtain ⟨hbetween, hmade, -⟩ := hlater.split
    have hmarked := hbetween.flag_of_not_lifts (Deed.flag_of_failed hx hfault hs hplaced) hlifts
    exact Deed.refused_of_flag hmade hy ht (hts ▸ hmarked)

end Host

namespace Sample

/-- An invocation of `bump` or `unbump` on the only slot. -/
def onFive (p : Procedure) : Invocation :=
  { procedure := p, args := [.scalar ⟨0, 0⟩], direction := .forward }

/-- A store with a five in it, and two invocations on it. -/
def hosting : Host := { memory := five, invocations := [onFive bump, onFive unbump] }

end Sample

/-- `bump` fails on a five, and then `unbump` is refused. -/
theorem bump_poisons : ∃ x y k, Sample.hosting.Session [x, y] k ∧
    x.Executes 0 (Sample.onFive Sample.bump) ∧ y.Runs 1 (Sample.onFive Sample.unbump) ∧
      y.Refused := by
  have hfails : faults (Invocation.run Sample.bumps 10)
      (Sample.onFive Sample.bump, Sample.five) = true := by decide +kernel
  obtain ⟨f, ⟨i, m⟩, hrun⟩ := exists_of_faults hfails
  have hadmitted : (Sample.onFive Sample.bump).Admitted Sample.five.heap := ⟨rfl, by decide⟩
  have hexecuted : Invocation.Executed Sample.bumps (Sample.onFive Sample.bump) Sample.five
      (some f) m := by
    rcases (Invocation.run_eq_fault hrun).1 with h | h
    · exact h.2
    · exact absurd hadmitted h.1
  -- the host after the failure, and the refusal from there
  have hmarked : m.heap.flag 0 = true :=
    hexecuted.flag_of_failed.mpr (Or.inr ⟨by decide, by decide⟩)
  have hnot : ¬(Sample.onFive Sample.unbump).Admitted m.heap := fun h => by
    have hclean := h.2 0 (by decide)
    rw [hmarked] at hclean
    cases hclean
  obtain ⟨v, progress, -, -, hrefused⟩ := Invocation.run_of_not_admitted Sample.bumps 10 hnot
  have hfirst : Sample.hosting.Step (.run Sample.bumps 0) (some f) (Sample.hosting.settle 0 i m) :=
    .failed rfl hrun
  have hsecond : (Sample.hosting.settle 0 i m).Step (.run Sample.bumps 1)
      (some (v.fault (some "unbump")))
      ((Sample.hosting.settle 0 i m).settle 1
        { Sample.onFive Sample.unbump with progress := progress } m) := .failed rfl hrefused
  have hsession := Host.Session.cons hfirst (.cons hsecond (.nil _))
  have hslot : Binding.Among [.scalar ⟨0, 0⟩] ⟨0, 0⟩ :=
    ⟨.scalar ⟨0, 0⟩, by simp, by simp [Binding.slots]⟩
  refine ⟨_, _, _, hsession, ⟨rfl, hadmitted, _, rfl, hexecuted⟩, ⟨⟨_, rfl⟩, rfl⟩, ?_⟩
  exact (Host.poison_protocol hsession).2.2.2.2 [] _ [] _ [] rfl 0 _ f ⟨0, 0⟩
    ⟨rfl, hadmitted, _, rfl, hexecuted⟩ rfl hslot Nat.one_pos (by simp) 1 _ ⟨0, 0⟩ ⟨⟨_, rfl⟩, rfl⟩
    hslot rfl

end Retrace
