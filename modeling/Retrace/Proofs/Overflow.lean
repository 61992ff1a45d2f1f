import Retrace.Proofs.Blame
import Retrace.Proofs.Dependence
import Retrace.Proofs.Models

/-!
# When an update overflows

An update fails with an overflow if the new number does not fit the slot. For sums and differences
that depends on the old number and the operand. For exclusive or it depends on the operand alone: in
two's complement the numbers of a type are those whose bits from some place on are all alike, and
zero if the type has no sign. Exclusive or keeps to them and is its own inverse, so the new number
is of the type exactly if the operand is (`IntType.contains_xor_iff`).

`Scope.Operands` holds what an update has computed when it comes to write: the slot, the number in
it, the operand, and the slots that were read. From these the outcome follows
(`Operands.update_apply`), and an update that does not get so far does not overflow, unless a
function of the host does (`exists_operands_of_fails`). `Execution.XorLaw` says what this means for
a statement that updates by exclusive or, and `Library.xor_overflow_exact` that it holds everywhere.
-/

namespace Retrace

open Actions

/-! ## Exclusive or and the range of a type -/

theorem Bits.xor_comm (a b : Int) : xor a b = xor b a := by
  cases a <;> cases b <;> simp only [xor, Nat.xor_comm]

/-- Combined with a number of the type, exactly the numbers of the type give one. -/
theorem IntType.contains_xor_iff {type : IntType} {c : Int} (hc : type.contains c = true)
    (v : Int) : type.contains (Update.xor.apply c v) = true ↔ type.contains v = true := by
  constructor
  · intro h
    have hback : Bits.xor (Bits.xor c v) c = v := by
      rw [Bits.xor_comm c v, Bits.xor_xor_cancel_right]
    rw [← hback]
    exact contains_onInts .xor h hc
  · exact contains_onInts .xor hc

/-! ## What an update works with -/

/-- What an update computes before it writes. -/
structure Scope.Operands (s : Scope) (target value : Expr) where
  slot : Slot
  /-- what the slot holds -/
  current : Int
  /-- what the slot is updated by -/
  operand : Value
  /-- the slots that were read to locate the slot -/
  located : List Slot
  /-- these, and the slots that were read for the operand -/
  reads : List Slot
  locate_eq : s.locate target [] = .ok slot located
  eval_eq : s.eval value located = .ok operand reads
  cell_eq : s.heap.cell? slot = some current

namespace Scope.Operands

variable {s : Scope} {target value : Expr}

/-- The type of the slot. -/
def type (o : s.Operands target value) : IntType := (s.heap.store o.slot.store).intType

/-- The heap with another number in the slot. -/
def stored (o : s.Operands target value) (n : Int) : Heap := s.heap.put o.slot (some n)

theorem located_subset (o : s.Operands target value) : o.located ⊆ o.reads := by
  obtain ⟨new, hnew, -⟩ := Scope.reads_of_eval o.eval_eq
  rw [hnew]
  exact List.subset_append_left _ _

theorem cell?_stored (o : s.Operands target value) (n : Int) (u : Slot) :
    (o.stored n).cell? u = if u = o.slot then some n else s.heap.cell? u :=
  Heap.cell?_put o.cell_eq _ u

theorem extends_stored (o : s.Operands target value) (n : Int) (names : List String) :
    s.Extends id names (s.withHeap (o.stored n)) := by
  refine ⟨rfl, Nat.le_refl _, fun x _ b hb => ?_⟩
  rw [Binding.rename_id]
  exact hb

section Unread

variable {o : s.Operands target value} (hslot : o.slot ∉ o.reads) (n : Int)

include hslot

theorem cell?_of_mem_reads {u : Slot} (hu : u ∈ o.reads) :
    (o.stored n).cell? u = s.heap.cell? u := by
  rw [cell?_stored, if_neg]
  rintro rfl
  exact hslot hu

theorem locate_stored :
    (s.withHeap (o.stored n)).locate target [] = .ok o.slot o.located := by
  have h := Scope.locate_of_extends (o.extends_stored n _) o.locate_eq fun u hu _ =>
    cell?_of_mem_reads hslot n (o.located_subset hu)
  rw [List.map_id, List.map_id] at h
  exact h

theorem eval_stored :
    (s.withHeap (o.stored n)).eval value o.located = .ok o.operand o.reads := by
  have h := Scope.eval_of_extends (o.extends_stored n _) o.eval_eq fun u hu _ =>
    cell?_of_mem_reads hslot n hu
  rwa [List.map_id, List.map_id] at h

end Unread

/-- An update that does not read its slot finds the same operands again when the slot holds another
number. -/
def again (o : s.Operands target value) (hslot : o.slot ∉ o.reads) (n : Int) :
    (s.withHeap (o.stored n)).Operands target value where
  slot := o.slot
  current := n
  operand := o.operand
  located := o.located
  reads := o.reads
  locate_eq := locate_stored hslot n
  eval_eq := eval_stored hslot n
  cell_eq := (o.cell?_stored n o.slot).trans (if_pos rfl)

variable {lib : Library} {m : Machine}

/-- **The outcome of an update.** It is refused if it reads its slot, and fails with an overflow if
the new number does not fit. -/
theorem update_apply (o : s.Operands target value) (hm : m.scope lib = s) (u : Update) :
    Execution.update lib u target value m =
      if o.slot ∈ o.reads then
        .error (.fault (m.frame.fault (.readsTarget (target.refName?.getD "")))) m
      else if o.type.contains (u.apply o.current o.operand.toInt) then
        .ok () { m with heap := o.stored (u.apply o.current o.operand.toInt) }
      else
        .error (.fault ((Violation.overflow (u.apply o.current o.operand.toInt) o.type).fault none))
          m := by
  subst hm
  have hcell : m.heap.cell? o.slot = some o.current := o.cell_eq
  have hread : Execution.readSlot o.slot m = .ok o.current m :=
    Execution.readSlot_eq_ok.mpr ⟨hcell, rfl⟩
  unfold Execution.update
  simp only [bind_apply, Execution.reading_apply, o.locate_eq, o.eval_eq]
  by_cases hslot : o.slot ∈ o.reads
  · simp [Overlap.ofUpdate, hslot, Execution.refuse, Execution.violate, bind_apply]
  · simp only [Overlap.ofUpdate, hslot, if_false, Execution.refuse, pure_apply, hread,
      Execution.writeSlot_apply, hcell]
    rfl

/-- **An update can be taken back.** From every machine that looks the same as the one it left, the
inverse operator gives back the heap, if the slot held a number of its type. -/
theorem update_restores (o : s.Operands target value) (hm : m.scope lib = s)
    (hcurrent : o.type.contains o.current = true) {u : Update} {m' : Machine}
    (h : Execution.update lib u target value m = .ok () m') {n : Machine}
    (hn : n.scope lib = m'.scope lib) :
    Execution.update lib u.inverse target value n = .ok () { n with heap := s.heap } := by
  rw [o.update_apply hm] at h
  by_cases hslot : o.slot ∈ o.reads
  · simp [hslot] at h
  by_cases hfits : o.type.contains (u.apply o.current o.operand.toInt) = true
  · simp only [hslot, hfits, if_true, if_false] at h
    obtain ⟨-, rfl⟩ := EStateM.Result.ok.inj h
    subst hm
    rw [(o.again hslot (u.apply o.current o.operand.toInt)).update_apply hn u.inverse]
    have htype : (o.again hslot (u.apply o.current o.operand.toInt)).type = o.type :=
      Heap.intType_put ..
    simp only [htype]
    simp only [again, stored, hslot, if_false, Update.undo_apply, hcurrent, if_true, withHeap,
      Heap.put_put o.cell_eq]
  · simp [hslot, hfits] at h

end Scope.Operands

/-! ## Failures of a statement -/

namespace Execution

/-- The action stops with a failure of the class of the rule. -/
def Fails (x : Execution Unit) (m : Machine) (rule : RunRule) : Prop :=
  ∃ f m', x m = .error (.fault f) m' ∧ f.Breaks rule

variable {lib : Library} {m m' : Machine} {s : Stmt} {target value : Expr}

/-- A statement that passes a fault on does not change its class. -/
theorem breaks_blame_iff {f : Fault} {procedure : String} {rule : RunRule} :
    (f.blame procedure s).Breaks rule ↔ f.Breaks rule := by
  cases f with
  | failure g =>
    have hkind : (if g.isRun then g.annotate (some procedure) (some s.summary) s.loc else g).kind =
        g.kind := by
      split <;> rfl
    simp [Fault.Breaks, Fault.blame, hkind]
  | _ => exact Iff.rfl

theorem fails_annotated_iff {work : Execution Unit} {rule : RunRule} :
    Fails (annotated s work) m rule ↔ Fails work m rule := by
  cases hwork : work m with
  | ok a m' => simp [Fails, annotated, hwork]
  | error stop m' =>
    cases stop with
    | exhausted => simp [Fails, annotated, hwork]
    | fault f => simp [Fails, annotated_fault hwork, hwork, breaks_blame_iff]

theorem fails_exec_succ_iff {fuel : Nat} {d : Direction} {rule : RunRule} :
    Fails (exec lib (fuel + 1) d s) m rule ↔
      Fails (step lib (exec lib fuel) fuel d s) (traced s m) rule := by
  have hexec : exec lib (fuel + 1) d s m =
      annotated s (step lib (exec lib fuel) fuel d s) (traced s m) := by
    rw [exec, bind_apply, trace_apply]
  have hfails : Fails (exec lib (fuel + 1) d s) m rule ↔
      Fails (annotated s (step lib (exec lib fuel) fuel d s)) (traced s m) rule := by
    unfold Fails
    rw [hexec]
  exact hfails.trans fails_annotated_iff

theorem scope_traced (s : Stmt) (m : Machine) (lib : Library) :
    (traced s m).scope lib = m.scope lib := by
  rw [Machine.scope, heap_traced, frame_traced, Machine.scope]

/-- The operator is its own inverse, so the direction does not matter. -/
theorem step_xor (run : Direction → Stmt → Execution Unit) (fuel : Nat) (d : Direction)
    (loc : Option Location) :
    step lib run fuel d (.assign loc target "^=" value) = update lib .xor target value := by
  change assign lib d target "^=" value = _
  rw [assign_eq]
  cases d <;> rfl

theorem fails_update_iff {s : Scope} (o : s.Operands target value) (hm : m.scope lib = s)
    (u : Update) : Fails (update lib u target value) m .arithmeticOverflow ↔
      o.slot ∉ o.reads ∧ o.type.contains (u.apply o.current o.operand.toInt) = false := by
  unfold Fails
  rw [o.update_apply hm]
  by_cases hslot : o.slot ∈ o.reads
  · simp [hslot, Frame.fault, Violation.breaks_iff, Violation.rule]
  · by_cases hfits : o.type.contains (u.apply o.current o.operand.toInt) = true <;>
      simp [hslot, hfits, Violation.breaks_iff, Violation.rule]

theorem completes_update_iff {s : Scope} (o : s.Operands target value) (hm : m.scope lib = s)
    (u : Update) : (∃ m', update lib u target value m = .ok () m') ↔
      o.slot ∉ o.reads ∧ o.type.contains (u.apply o.current o.operand.toInt) = true := by
  rw [o.update_apply hm]
  by_cases hslot : o.slot ∈ o.reads
  · simp [hslot]
  · by_cases hfits : o.type.contains (u.apply o.current o.operand.toInt) = true <;>
      simp [hslot, hfits]

end Execution

/-! ## Updates that do not get to write -/

/-- No function fails with an overflow. -/
def HostFunction.NeverOverflow (functions : List (String × HostFunction)) : Prop :=
  ∀ name function, Datum.field? name functions = some function →
    ∀ values, Fault.Only (fun f => ¬f.Breaks .arithmeticOverflow) (function values)

theorem HostFunction.neverOverflow_of_builtins {functions : List (String × HostFunction)}
    (h : functions ⊆ builtins) : NeverOverflow functions :=
  fun _ _ hf => only_of_builtins (fun _ hne => Fault.not_breaks_of_ne hne _) h hf

/-- Evaluation does not overflow on its own: numbers have no bounds until they are stored. -/
theorem Scope.permits_overflow {s : Scope} (hs : HostFunction.NeverOverflow s.functions) :
    s.Permits fun f => ¬f.Breaks .arithmeticOverflow where
  violation _ _ _ hv h := hv (Violation.breaks_iff.mp h)
  released _ h := by cases Violation.breaks_iff.mp h
  function := hs
  mistake _ hf := Fault.not_breaks_of_ne hf _

namespace Execution

variable {lib : Library} {m : Machine} {target value : Expr}

/-- An update of a slot that was released is refused, or fails when it reads the slot. -/
theorem not_fails_of_released {u : Update} {slot : Slot} {operand : Value}
    {located reads : List Slot} (hlocate : (m.scope lib).locate target [] = .ok slot located)
    (heval : (m.scope lib).eval value located = .ok operand reads)
    (hcell : m.heap.cell? slot = none) :
    ¬Fails (update lib u target value) m .arithmeticOverflow := by
  have hread : readSlot slot m =
      .error (.fault ((Violation.released slot.index).fault none)) m := by
    change ofExcept (m.heap.read slot) m = _
    rw [Heap.read, hcell]
    rfl
  rintro ⟨f, m', hf, hbreaks⟩
  unfold update at hf
  simp only [bind_apply, reading_apply, hlocate, heval] at hf
  by_cases hslot : slot ∈ reads
  · simp only [Overlap.ofUpdate, hslot, if_true, refuse, violate, bind_apply, get_apply,
      throw_apply] at hf
    cases hf
    cases Violation.breaks_iff.mp hbreaks
  · simp only [Overlap.ofUpdate, hslot, if_false, refuse, pure_apply, hread] at hf
    cases hf
    cases Violation.breaks_iff.mp hbreaks

/-- Only an update that has all its operands can overflow. -/
theorem exists_operands_of_fails (hlib : HostFunction.NeverOverflow lib.functions) {u : Update}
    (h : Fails (update lib u target value) m .arithmeticOverflow) :
    Nonempty ((m.scope lib).Operands target value) := by
  have hpermits : (m.scope lib).Permits fun f => ¬f.Breaks .arithmeticOverflow :=
    Scope.permits_overflow hlib
  obtain ⟨f, m', hupdate, hbreaks⟩ := h
  have hf := hupdate
  unfold update at hf
  simp only [bind_apply, reading_apply] at hf
  cases hlocate : (m.scope lib).locate target [] with
  | error g reads =>
    simp only [hlocate] at hf
    cases hf
    exact absurd hbreaks (Scope.raises_locate hpermits target [] _ _ hlocate)
  | ok slot located =>
    simp only [hlocate] at hf
    cases heval : (m.scope lib).eval value located with
    | error g reads =>
      simp only [heval] at hf
      cases hf
      exact absurd hbreaks (Scope.raises_eval hpermits value located _ _ heval)
    | ok operand reads =>
      cases hcell : m.heap.cell? slot with
      | some current => exact ⟨⟨slot, current, operand, located, reads, hlocate, heval, hcell⟩⟩
      | none =>
        exact absurd ⟨f, m', hupdate, hbreaks⟩ (not_fails_of_released hlocate heval hcell)

end Execution

/-! ## Statements that update by exclusive or -/

namespace Execution

variable {lib : Library} {m : Machine} {target value : Expr}

/-- Where the slot holds a number of its type, only the operand matters. -/
theorem fails_exec_xor_iff (o : (m.scope lib).Operands target value)
    (hcurrent : o.type.contains o.current = true) (fuel : Nat) (d : Direction)
    (loc : Option Location) :
    Fails (exec lib (fuel + 1) d (.assign loc target "^=" value)) m .arithmeticOverflow ↔
      o.slot ∉ o.reads ∧ o.type.contains o.operand.toInt = false := by
  rw [fails_exec_succ_iff, step_xor, fails_update_iff o (scope_traced ..), ← Bool.not_eq_true,
    IntType.contains_xor_iff hcurrent, Bool.not_eq_true]

theorem completes_exec_xor_iff (o : (m.scope lib).Operands target value)
    (hcurrent : o.type.contains o.current = true) (fuel : Nat) (d : Direction)
    (loc : Option Location) :
    (∃ m', exec lib (fuel + 1) d (.assign loc target "^=" value) m = .ok () m') ↔
      o.slot ∉ o.reads ∧ o.type.contains o.operand.toInt = true := by
  simp only [exec_succ_eq_ok, step_xor]
  rw [completes_update_iff o (scope_traced ..), IntType.contains_xor_iff hcurrent]

/-- A variable that is updated is not read for it, where names share no slots and the value does not
name the variable. -/
theorem not_mem_reads_of_var {loc : Option Location} {x : String}
    (o : (m.scope lib).Operands (.var loc x) value) (hapart : m.frame.bindings.Pairwise Frame.Apart)
    (hx : x ∉ value.names) : o.slot ∉ o.reads := by
  obtain ⟨hslot, hnone⟩ := Actions.ofExcept_eq_ok.mp o.locate_eq
  have heval := o.eval_eq
  rw [← hnone] at heval
  exact Scope.not_mem_reads hapart hslot hx heval

/-- What an update by exclusive or does in a machine, with regard to the type of its slot. -/
structure XorLaw (lib : Library) (m : Machine) (loc : Option Location) (target value : Expr) :
    Prop where
  /-- where the slot holds a number of its type, the update overflows exactly if the operand is not
  of the type, unless it is refused because it reads the slot -/
  overflow : ∀ (o : (m.scope lib).Operands target value) (fuel : Nat) (d : Direction),
    o.type.contains o.current = true →
      (Fails (exec lib (fuel + 1) d (.assign loc target "^=" value)) m .arithmeticOverflow ↔
        o.slot ∉ o.reads ∧ o.type.contains o.operand.toInt = false)
  /-- it completes exactly if the operand is of the type, again unless it is refused -/
  completion : ∀ (o : (m.scope lib).Operands target value) (fuel : Nat) (d : Direction),
    o.type.contains o.current = true →
      ((∃ m', exec lib (fuel + 1) d (.assign loc target "^=" value) m = .ok () m') ↔
        o.slot ∉ o.reads ∧ o.type.contains o.operand.toInt = true)
  /-- an update of a variable in a registered procedure is never refused -/
  scalar : ∀ (loc' : Option Location) (x : String), target = .var loc' x → lib.Accepted →
    lib.Holds (.assign loc target "^=" value) → m.Ordered →
      ∀ (o : (m.scope lib).Operands target value) (fuel : Nat) (d : Direction),
        o.type.contains o.current = true →
          (Fails (exec lib (fuel + 1) d (.assign loc target "^=" value)) m .arithmeticOverflow ↔
            o.type.contains o.operand.toInt = false)
  /-- an update whose slot or operand cannot be had does not overflow -/
  reached : HostFunction.NeverOverflow lib.functions → ∀ (fuel : Nat) (d : Direction),
    Fails (exec lib (fuel + 1) d (.assign loc target "^=" value)) m .arithmeticOverflow →
      Nonempty ((m.scope lib).Operands target value)
  /-- where the update has completed, it completes once more, in either direction, and gives back
  the heap as it was -/
  undone : ∀ (o : (m.scope lib).Operands target value) (fuel : Nat) (d : Direction) (m' : Machine),
    o.type.contains o.current = true →
      exec lib (fuel + 1) d (.assign loc target "^=" value) m = .ok () m' →
        ∀ (fuel' : Nat) (d' : Direction), ∃ m'',
          exec lib (fuel' + 1) d' (.assign loc target "^=" value) m' = .ok () m'' ∧
            m''.heap = m.heap

end Execution

namespace Library

open Execution

/-- **Exclusive or and the range of a type.** For every type, a number of the type combined with any
number gives one of the type exactly if the other number is of the type. Hence a statement that
updates by exclusive or, in whatever machine, overflows exactly if its operand is not of the type of
its slot, and where it has completed it can be taken back without an overflow. -/
theorem xor_overflow_exact (lib : Library) (m : Machine) (loc : Option Location)
    (target value : Expr) :
    (∀ (type : IntType) (c v : Int), type.contains c = true →
      (type.contains (Update.xor.apply c v) = true ↔ type.contains v = true)) ∧
    XorLaw lib m loc target value := by
  refine ⟨fun type c v hc => IntType.contains_xor_iff hc v, ?_, ?_, ?_, ?_, ?_⟩
  · intro o fuel d hcurrent
    exact fails_exec_xor_iff o hcurrent fuel d loc
  · intro o fuel d hcurrent
    exact completes_exec_xor_iff o hcurrent fuel d loc
  · rintro loc' x rfl hlib hholds hm o fuel d hcurrent
    have hunread := not_mem_reads_of_var o hm.apart (hlib.not_mem_names hholds)
    rw [fails_exec_xor_iff o hcurrent fuel d loc]
    exact and_iff_right hunread
  · intro hlib fuel d h
    rw [fails_exec_succ_iff, step_xor] at h
    rw [← scope_traced (.assign loc target "^=" value)]
    exact exists_operands_of_fails hlib h
  · intro o fuel d m' hcurrent h fuel' d'
    rw [exec_succ_eq_ok, step_xor] at h
    have hback := o.update_restores (scope_traced ..) hcurrent h
      (scope_traced (.assign loc target "^=" value) m' lib)
    exact ⟨_, exec_succ_eq_ok.mpr ((congrFun (step_xor ..) _).trans hback), rfl⟩

end Library

namespace Sample

/-- `x ^= abs(y)`. -/
def masking : Stmt :=
  .assign none (.var none "x") "^=" (.call none "abs" [.var none "y"])

/-- `mask(x, y)` changes `x` by the magnitude of `y`. -/
def mask : Procedure :=
  { name := "mask", params := [⟨"x", none⟩, ⟨"y", none⟩], body := [masking] }

def maskSettings : Settings := { intType := "i8", pureFunctions := ["abs"] }

/-- A library that offers the magnitude of a number. -/
def maskEmpty : Library :=
  { settings := maskSettings, intType := byte, functions := HostFunction.builtins.take 1 }

def maskLibrary : Library := { maskEmpty with procedures := [mask] }

theorem accepted_maskLibrary : maskLibrary.Accepted := by
  have hempty : Library.empty maskSettings [] = .ok maskEmpty := rfl
  have hregister : maskEmpty.register default [mask] {} =
      .ok maskLibrary { log := [.registered mask] } := rfl
  exact .register (.empty hempty) hregister

/-- The machine in which `mask` starts, where `x` is the least number of its type. -/
def maskMachine (y : Int) : Machine :=
  maskLibrary.entered mask arguments .forward 0
    { heap := ⟨#[{ intType := byte, cells := #[some (-128), some y] }]⟩ }

theorem ordered_maskMachine (y : Int) : (maskMachine y).Ordered := by
  refine Library.ordered_entered ?_ ?_
  · simp [Binding.Among, arguments, Binding.slots, Heap.size]
  · simp [mask, Procedure.paramNames, arguments, Frame.Apart, Binding.slots]

/-- What the update works with. -/
def maskOperands (y : Int) : ((maskMachine y).scope maskLibrary).Operands (.var none "x")
    (.call none "abs" [.var none "y"]) where
  slot := ⟨0, 0⟩
  current := -128
  operand := .int y.natAbs
  located := []
  reads := [⟨0, 1⟩]
  locate_eq := rfl
  eval_eq := rfl
  cell_eq := rfl

theorem contains_maskOperands (y : Int) :
    (maskOperands y).type.contains (maskOperands y).current = true := by
  change byte.contains (-128) = true
  decide

end Sample

/-- The magnitude of the least number is one too large, and the update fails; that of the greatest
number is not, and the update is taken back. -/
theorem mask_overflow_exact :
    (Sample.maskLibrary.Accepted ∧ Sample.maskLibrary.Holds Sample.masking ∧
      HostFunction.NeverOverflow Sample.maskLibrary.functions ∧
      ∀ y, (Sample.maskMachine y).Ordered) ∧
    Execution.Fails (Execution.exec Sample.maskLibrary 1 .forward Sample.masking)
      (Sample.maskMachine (-128)) .arithmeticOverflow ∧
    ¬Execution.Fails (Execution.exec Sample.maskLibrary 1 .forward Sample.masking)
      (Sample.maskMachine 127) .arithmeticOverflow ∧
    ∃ m' m'', Execution.exec Sample.maskLibrary 1 .forward Sample.masking
        (Sample.maskMachine 127) = .ok () m' ∧
      Execution.exec Sample.maskLibrary 1 .backward Sample.masking m' = .ok () m'' ∧
        m''.heap = (Sample.maskMachine 127).heap := by
  have hholds : Sample.maskLibrary.Holds Sample.masking :=
    ⟨Sample.mask, List.mem_singleton_self _, List.mem_singleton_self _⟩
  have hlaw : ∀ y, Execution.XorLaw Sample.maskLibrary (Sample.maskMachine y) none
      (.var none "x") (.call none "abs" [.var none "y"]) := fun y =>
    (Library.xor_overflow_exact ..).2
  have hiff : ∀ y, Execution.Fails (Execution.exec Sample.maskLibrary 1 .forward Sample.masking)
      (Sample.maskMachine y) .arithmeticOverflow ↔ Sample.byte.contains y.natAbs = false := fun y =>
    (hlaw y).scalar none "x" rfl Sample.accepted_maskLibrary hholds (Sample.ordered_maskMachine y)
      (Sample.maskOperands y) 0 .forward (Sample.contains_maskOperands y)
  refine ⟨⟨Sample.accepted_maskLibrary, hholds,
    HostFunction.neverOverflow_of_builtins (List.take_subset ..), Sample.ordered_maskMachine⟩,
    (hiff _).mpr (by decide), fun h => ?_, ?_⟩
  · cases (hiff _).mp h
  · obtain ⟨m', h⟩ := ((hlaw 127).completion (Sample.maskOperands 127) 0 .forward
      (Sample.contains_maskOperands 127)).mpr ⟨by decide, by decide⟩
    obtain ⟨m'', hback⟩ := (hlaw 127).undone (Sample.maskOperands 127) 0 .forward m'
      (Sample.contains_maskOperands 127) h 0 .backward
    exact ⟨m', m'', h, hback⟩

end Retrace
