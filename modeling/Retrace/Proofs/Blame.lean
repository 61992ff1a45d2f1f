import Retrace.Proofs.Aliasing
import Retrace.Proofs.Registry

/-!
# Which statement a failure names

A record that is raised while statements are running is completed by the innermost of them, and
nothing that encloses it changes the record afterwards. To say which statement is the innermost
one, the run is set beside one that keeps account of the statements in progress and completes no
record (`Execution.tracked`): there a statement enters the log when it begins and leaves it when it
ends, so that a run which fails leaves the innermost statement, with the name of its procedure, on
top.

`Library.run_blames` says what a failure of a registered procedure then tells: the text and the
place of that statement, and the name of its procedure, with one exception. A call that nests too
deep is found by the procedure that is not entered any more, so it is the name of that procedure
that stands in the record, beside the text and the place of the call.
-/

namespace Retrace

open Actions

/-! ## Completing a record -/

/-- The failure that a violation causes in a statement and is said to lie in a procedure. -/
def Violation.blamed (v : Violation) (procedure : String) (s : Stmt) : Failure :=
  ⟨.run (some v.rule),
    [{ v.record (some procedure) with location := s.loc, statement := some s.summary }]⟩

/-- A fault as a statement of the procedure passes it on. -/
def Fault.blame (procedure : String) (s : Stmt) : Fault → Fault
  | .failure f =>
    .failure (if f.isRun then f.annotate (some procedure) (some s.summary) s.loc else f)
  | f => f

theorem Record.annotate_annotate (p p' : Option String) (text : String) (t' : Option String)
    (l l' : Option Location) (r : Record) :
    (r.annotate p (some text) l).annotate p' t' l' = r.annotate p (some text) l := by
  cases h : r.statement <;> simp [Record.annotate, h]

theorem Failure.annotate_annotate (p p' : Option String) (text : String) (t' : Option String)
    (l l' : Option Location) (f : Failure) :
    (f.annotate p (some text) l).annotate p' t' l' = f.annotate p (some text) l := by
  simp only [Failure.annotate, List.map_map, Failure.mk.injEq, true_and]
  exact List.map_congr_left fun r _ => r.annotate_annotate ..

/-- Only the first statement that a fault passes leaves its mark. -/
theorem Fault.blame_blame (f : Fault) (p q : String) (s t : Stmt) :
    (f.blame p s).blame q t = f.blame p s := by
  cases f with
  | failure g =>
    cases hrun : g.isRun with
    | false => simp [Fault.blame, hrun]
    | true =>
      have hkeep : (g.annotate (some p) (some s.summary) s.loc).isRun = true := hrun
      simp only [Fault.blame, hrun, hkeep, if_true, Failure.annotate_annotate]
  | _ => rfl

/-- A record without a procedure gets that of the statement. -/
theorem Violation.blame_bare (v : Violation) (procedure : String) (s : Stmt) :
    (v.fault none).blame procedure s = .failure (v.blamed procedure s) := rfl

/-- A record with a procedure keeps it. -/
theorem Violation.blame_named (v : Violation) {name procedure : String} (s : Stmt)
    (h : name = procedure ∨ name ≠ "") :
    (v.fault (some name)).blame procedure s = .failure (v.blamed name s) := by
  have hgiven : (Record.given? (some name)).or (some procedure) = some name := by
    by_cases hname : name = ""
    · obtain rfl := h.resolve_right (not_not.mpr hname)
      simp [Record.given?, Option.filter, hname]
    · have hempty : name.isEmpty = false := by simpa [String.isEmpty_iff] using hname
      simp [Record.given?, Option.filter, hempty]
  simp only [Fault.blame, Violation.fault, Failure.annotate, List.map_cons, List.map_nil,
    Record.annotate, Violation.record, hgiven]
  rfl

/-! ## The faults of a single statement -/

/-- The faults that a statement of the procedure raises itself. -/
inductive Fault.RaisedBy (lib : Library) (procedure : String) (s : Stmt) : Fault → Prop where
  | bare {v : Violation} (hv : v.rule ≠ .callDepthExceeded) : RaisedBy lib procedure s (v.fault none)
  | named {v : Violation} (hv : v.rule ≠ .callDepthExceeded) :
    RaisedBy lib procedure s (v.fault (some procedure))
  /-- the callee of a call is not entered any more -/
  | tooDeep {loc : Option Location} {p : Procedure} {args : List Expr} {uncall : Bool}
      (depth limit : Int) (hp : p ∈ lib.procedures) (hs : s = .call loc p.name args uncall) :
    RaisedBy lib procedure s ((Violation.tooDeep depth limit).fault (some p.name))
  | function {name : String} {function : HostFunction} {values : List Int} {f : Fault}
      (hfunction : Datum.field? name lib.functions = some function)
      (hf : function values = .error f) : RaisedBy lib procedure s f
  /-- a mistake of the host -/
  | mistake {f : Fault} (hf : ∀ g, f ≠ .failure g) : RaisedBy lib procedure s f

namespace Overlap

theorem rule_of_firstRepeat {seen rest : List (String × Slot)} {v : Violation}
    (h : firstRepeat seen rest = some v) : v.rule = .aliasViolation := by
  induction rest generalizing seen with
  | nil => cases h
  | cons entry rest ih =>
    obtain ⟨label, slot⟩ := entry
    unfold firstRepeat at h
    split at h
    · cases h
      rfl
    · exact ih h

theorem rule_of_ofUpdate {target : Slot} {reads : List Slot} {name : String} {v : Violation}
    (h : ofUpdate target reads name = some v) : v.rule = .aliasViolation := by
  unfold ofUpdate at h
  split at h
  · cases h
    rfl
  · cases h

theorem rule_of_ofIndices {bindings : List (String × Binding)} {reads : List (String × List Slot)}
    {v : Violation} (h : ofIndices bindings reads = some v) : v.rule = .aliasViolation := by
  obtain ⟨entry, -, hentry⟩ := List.exists_of_findSome?_eq_some h
  obtain ⟨slot, -, hslot⟩ := List.exists_of_findSome?_eq_some hentry
  obtain ⟨operand, -, rfl⟩ := Option.map_eq_some_iff.mp hslot
  rfl

end Overlap

/-! ## Keeping account of what is in progress -/

/-- The innermost statement in progress and its procedure, by the log of a run that is tracked. -/
def innermost? : List Event → Option (String × Stmt)
  | [] => none
  | .executing _ procedure s :: _ => some (procedure, s)
  | _ :: rest => innermost? rest

namespace Execution

/-- Performs the work of a statement, which stands in the log until it is done. -/
def underway (s : Stmt) (work : Execution Unit) : Execution Unit := fun m =>
  match work ⟨m.toMemory.record (.executing m.frame.depth m.frame.procedure s), m.frame⟩ with
  | .ok _ m' => .ok () { m' with log := m.log }
  | .error stop m' => .error stop m'

/-- Runs a statement like `exec`, but the log tells what is in progress, and records stay as they
are raised. -/
def tracked (lib : Library) : Nat → Direction → Stmt → Execution Unit
  | 0, _, _ => throw .exhausted
  | fuel + 1, d, s => underway s (step lib (tracked lib fuel) fuel d s)

end Execution

/-- Runs a procedure like `run`, with account of what is in progress. -/
def Library.runTracked (lib : Library) (fuel : Nat) (p : Procedure) (args : List Binding)
    (d : Direction) (depth : Int) : MemoryAction Unit :=
  Execution.runProcedure lib (Execution.tracked lib fuel) p args d depth

/-- A statement somewhere in the body of a procedure of that name. -/
def Library.Places (lib : Library) (procedure : String) (s : Stmt) : Prop :=
  ∃ p ∈ lib.procedures, p.name = procedure ∧ s ∈ Stmt.nestedAll p.body

namespace Library

theorem places_of_body {lib : Library} {p : Procedure} (hp : p ∈ lib.procedures) {s : Stmt}
    (hs : s ∈ p.body) : lib.Places p.name s :=
  ⟨p, hp, rfl, Stmt.mem_nestedAll_of_mem hs⟩

theorem Places.of_bodies {lib : Library} {procedure : String} {s t : Stmt} {body : List Stmt}
    (hs : lib.Places procedure s) (hbody : body ∈ s.bodies) (ht : t ∈ body) :
    lib.Places procedure t := by
  obtain ⟨p, hp, hname, hs⟩ := hs
  exact ⟨p, hp, hname, Stmt.nestedAll_of_bodies hs hbody ht⟩

end Library

/-! ## The two runs side by side -/

/-- Where the two runs stand: the innermost statement in progress, the procedure of the frame, and
the faults that may be raised here. -/
structure Watch where
  innermost : Option (String × Stmt)
  procedure : String
  raises : Fault → Prop

namespace Watch

/-- Inside a statement of the procedure. -/
def inside (lib : Library) (procedure : String) (s : Stmt) : Watch where
  innermost := some (procedure, s)
  procedure := procedure
  raises := Fault.RaisedBy lib procedure s

/-- Between the statements of the procedure, where nothing is raised. -/
def between (innermost : Option (String × Stmt)) (procedure : String) : Watch where
  innermost := innermost
  procedure := procedure
  raises _ := False

/-- The machines of the two runs differ in their logs only. -/
structure Apace (w : Watch) (m n : Machine) : Prop where
  heap : m.heap = n.heap
  frame : m.frame = n.frame
  procedure : m.frame.procedure = w.procedure
  innermost : innermost? n.log = w.innermost

/-- Both runs go on, or both raise the same fault here, or the first one passes on a fault that a
statement in progress has raised in the second one, or both are out of fuel. -/
inductive Follows (lib : Library) (w : Watch) {α : Type} :
    EStateM.Result Stop Machine α → EStateM.Result Stop Machine α → Prop where
  | ok {a : α} {m n : Machine} (h : w.Apace m n) : Follows lib w (.ok a m) (.ok a n)
  | raised {f : Fault} {m n : Machine} (h : w.Apace m n) (hf : w.raises f) :
    Follows lib w (.error (.fault f) m) (.error (.fault f) n)
  | passed {f : Fault} {m n : Machine} {procedure : String} {s : Stmt} (hheap : m.heap = n.heap)
      (hinner : innermost? n.log = some (procedure, s)) (hplace : lib.Places procedure s)
      (hf : f.RaisedBy lib procedure s) :
    Follows lib w (.error (.fault (f.blame procedure s)) m) (.error (.fault f) n)
  | exhausted {m n : Machine} : Follows lib w (.error .exhausted m) (.error .exhausted n)

/-- The second action keeps account of what the first one does. -/
def Tracks (lib : Library) (w : Watch) {α : Type} (x y : Execution α) : Prop :=
  ∀ m n, w.Apace m n → w.Follows lib (x m) (y n)

variable {lib : Library} {w : Watch} {α β : Type}

theorem Tracks.pure (a : α) : w.Tracks lib (pure a) (pure a) := fun _ _ h => .ok h

theorem Tracks.exhausted :
    w.Tracks lib (throw .exhausted : Execution α) (throw .exhausted) :=
  fun _ _ _ => .exhausted

theorem Tracks.throw {f : Fault} (hf : w.raises f) :
    w.Tracks lib (throw (.fault f) : Execution α) (throw (.fault f)) :=
  fun _ _ hmn => .raised hmn hf

theorem Tracks.bind {x y : Execution α} {f g : α → Execution β} (h : w.Tracks lib x y)
    (hf : ∀ a, w.Tracks lib (f a) (g a)) : w.Tracks lib (x >>= f) (y >>= g) := by
  intro m n hmn
  have hxy := h m n hmn
  rw [bind_apply, bind_apply]
  generalize x m = r at hxy ⊢
  generalize y n = r' at hxy ⊢
  cases hxy with
  | ok h => exact hf _ _ _ h
  | raised h hf => exact .raised h hf
  | passed hheap hinner hplace hf => exact .passed hheap hinner hplace hf
  | exhausted => exact .exhausted

/-- What follows may depend on the frames and heaps, which are the same. -/
theorem Tracks.get_bind {f g : Machine → Execution α}
    (h : ∀ m n, w.Apace m n → w.Tracks lib (f m) (g n)) :
    w.Tracks lib (get >>= f) (get >>= g) :=
  fun m n hmn => h m n hmn m n hmn

theorem Tracks.modify {f : Machine → Machine}
    (h : ∀ m n, w.Apace m n → w.Apace (f m) (f n)) : w.Tracks lib (modify f) (modify f) :=
  fun m n hmn => .ok (h m n hmn)

theorem Tracks.guard {p : Prop} [Decidable p] {x y : Execution α} {k l : Execution β}
    (h : w.Tracks lib x y) (hk : w.Tracks lib k l) :
    w.Tracks lib (if p then x >>= fun _ => k else k) (if p then y >>= fun _ => l else l) := by
  split
  · exact h.bind fun _ => hk
  · exact hk

/-- What happens between statements may happen inside a statement that is made of them. -/
theorem Tracks.inside {procedure : String} {s : Stmt} {x y : Execution α}
    (h : (between (some (procedure, s)) procedure).Tracks lib x y) :
    (inside lib procedure s).Tracks lib x y := by
  intro m n hmn
  have hxy := h m n ⟨hmn.heap, hmn.frame, hmn.procedure, hmn.innermost⟩
  generalize x m = r at hxy ⊢
  generalize y n = r' at hxy ⊢
  cases hxy with
  | ok h => exact .ok ⟨h.heap, h.frame, h.procedure, h.innermost⟩
  | raised h hf => exact hf.elim
  | passed hheap hinner hplace hf => exact .passed hheap hinner hplace hf
  | exhausted => exact .exhausted

end Watch

/-! ## Single statements -/

namespace Scope

variable {s : Scope} {P : Fault → Prop}

theorem raises_locate (hs : s.Permits P) (e : Expr) (reads : List Slot) :
    Raises P (s.locate e) reads := by
  cases e with
  | elem loc x index =>
    exact .bind (raises_eval hs index reads) fun i _ _ =>
      raises_ofExcept (s.frame.only_element hs.violation x i.toInt) _
  | var loc x => exact raises_ofExcept (s.frame.only_slot hs.violation x) reads
  | _ => exact raises_throw (hs.mistake _ (by simp)) reads

theorem raises_argument (hs : s.Permits P) (e : Expr) (reads : List Slot) :
    Raises P (s.argument e) reads := by
  cases e with
  | var loc x => exact raises_ofExcept (s.frame.only_lookup hs.violation x) reads
  | _ => exact .bind (raises_locate hs _ reads) fun _ _ _ => raises_pure _ _

theorem only_value (hs : s.Permits P) (e : Expr) : Fault.Only P (s.value e) := by
  intro f hf
  unfold value at hf
  split at hf
  · cases hf
  · rename_i g reads hg
    cases hf
    exact raises_eval hs e [] _ _ hg

theorem only_test (hs : s.Permits P) (e : Expr) : Fault.Only P (s.test e) :=
  (only_value hs e).bind fun _ => .ok _

end Scope

namespace Execution

open Watch

variable {lib : Library} {q : String} {s : Stmt}

/-- What an evaluation can find is raised by the statement that asks for it. -/
theorem permits_raisedBy {m : Machine} (hm : m.frame.procedure = q) :
    (m.scope lib).Permits (Fault.RaisedBy lib q s) where
  violation _ _ hv _ := hm ▸ .named hv
  released _ := .bare nofun
  function _ _ hfunction _ _ hf := .function hfunction hf
  mistake _ hf := .mistake hf

theorem tracks_violate {α : Type} {v : Violation} (hv : v.rule ≠ .callDepthExceeded) :
    (inside lib q s).Tracks lib (violate v : Execution α) (violate v) := by
  refine .get_bind fun m n h => ?_
  rw [← h.frame]
  refine .throw ?_
  rw [Frame.fault, h.procedure]
  exact .named hv

theorem tracks_mistake {α : Type} {f : Fault} (hf : ∀ g, f ≠ .failure g) :
    (inside lib q s).Tracks lib (throw (.fault f) : Execution α) (throw (.fault f)) :=
  .throw (.mistake hf)

theorem tracks_refuse {v : Option Violation} (hv : ∀ w, v = some w → w.rule = .aliasViolation) :
    (inside lib q s).Tracks lib (refuse v) (refuse v) := by
  cases v with
  | none => exact .pure ()
  | some v => exact tracks_violate (by rw [hv v rfl]; decide)

theorem tracks_ofExcept {α : Type} {r : Except Fault α}
    (hr : Fault.Only (Fault.RaisedBy lib q s) r) :
    (inside lib q s).Tracks lib (ofExcept r) (ofExcept r) := by
  cases r with
  | ok a => exact .pure a
  | error f => exact .throw (hr f rfl)

theorem tracks_reading {α : Type} (before : List Slot) {work : Scope → Reading α}
    (h : ∀ t : Scope, t.Permits (Fault.RaisedBy lib q s) →
      Raises (Fault.RaisedBy lib q s) (work t) before) :
    (inside lib q s).Tracks lib (reading lib before work) (reading lib before work) := by
  intro m n hmn
  have hscope : n.scope lib = m.scope lib := by
    simp only [Machine.scope, hmn.frame, hmn.heap]
  rw [reading_apply, reading_apply, hscope]
  cases hwork : work (m.scope lib) before with
  | ok a reads => exact .ok hmn
  | error f reads =>
    exact .raised hmn (h _ (permits_raisedBy hmn.procedure) f reads hwork)

theorem tracks_number (e : Expr) :
    (inside lib q s).Tracks lib (number lib e) (number lib e) := by
  refine Tracks.get_bind fun m n h => Tracks.bind ?_ fun _ => .pure _
  rw [← h.frame, ← h.heap]
  exact tracks_ofExcept (Scope.only_value (permits_raisedBy h.procedure) e)

theorem tracks_test (e : Expr) : (inside lib q s).Tracks lib (test lib e) (test lib e) := by
  refine Tracks.get_bind fun m n h => ?_
  rw [← h.frame, ← h.heap]
  exact tracks_ofExcept (Scope.only_test (permits_raisedBy h.procedure) e)

theorem tracks_readSlot (u : Slot) : (inside lib q s).Tracks lib (readSlot u) (readSlot u) := by
  refine Tracks.get_bind fun m n h => ?_
  rw [← h.heap]
  exact tracks_ofExcept (m.heap.only_read (fun i => .bare nofun) u)

/-- Work on the heap alone. -/
theorem tracks_onHeap {α : Type} {action : EStateM Fault Heap α}
    (h : ∀ heap, Raises (Fault.RaisedBy lib q s) action heap) :
    (inside lib q s).Tracks lib (onHeap action) (onHeap action) := by
  intro m n hmn
  unfold onHeap
  rw [← hmn.heap]
  cases haction : action m.heap with
  | ok a heap => exact .ok ⟨rfl, hmn.frame, hmn.procedure, hmn.innermost⟩
  | error f heap =>
    exact .raised ⟨rfl, hmn.frame, hmn.procedure, hmn.innermost⟩ (h _ f heap haction)

theorem tracks_writeSlot (u : Slot) (n : Int) :
    (inside lib q s).Tracks lib (writeSlot u n) (writeSlot u n) := by
  refine tracks_onHeap fun heap f heap' hf => ?_
  rw [Heap.write_eq] at hf
  split at hf
  · cases hf
    exact .bare nofun
  · split at hf
    · cases hf
    · cases hf
      exact .bare nofun

theorem tracks_update (u : Update) (target value : Expr) :
    (inside lib q s).Tracks lib (update lib u target value) (update lib u target value) :=
  (tracks_reading _ fun _ ht => Scope.raises_locate ht target _).bind fun _ =>
    (tracks_reading _ fun _ ht => Scope.raises_eval ht value _).bind fun _ =>
      (tracks_refuse fun _ => Overlap.rule_of_ofUpdate).bind fun _ =>
        (tracks_readSlot _).bind fun _ => tracks_writeSlot _ _

theorem tracks_assign (d : Direction) (target value : Expr) (op : String) :
    (inside lib q s).Tracks lib (assign lib d target op value) (assign lib d target op value) := by
  rw [assign_eq]
  refine Tracks.bind (tracks_ofExcept ?_) fun u => tracks_update _ target value
  unfold Update.ofSymbol
  cases Update.ofSymbol? op with
  | some u => exact .ok u
  | none => exact .error (.mistake (by simp))

theorem tracks_swap (left right : Expr) :
    (inside lib q s).Tracks lib (swap lib left right) (swap lib left right) :=
  (tracks_reading _ fun _ ht => Scope.raises_locate ht left _).bind fun _ =>
    (tracks_reading _ fun _ ht => Scope.raises_locate ht right _).bind fun _ =>
      (tracks_refuse fun _ => Overlap.rule_of_firstRepeat).bind fun _ =>
        (tracks_refuse fun _ => Overlap.rule_of_ofIndices).bind fun _ =>
          (tracks_readSlot _).bind fun _ => (tracks_readSlot _).bind fun _ =>
            (tracks_writeSlot _ _).bind fun _ => tracks_writeSlot _ _

/-- A change of what the frame binds. -/
theorem tracks_rebind (f : Frame → Frame) (hf : ∀ frame, (f frame).procedure = frame.procedure) :
    (inside lib q s).Tracks lib (modify fun m => { m with frame := f m.frame })
      (modify fun m => { m with frame := f m.frame }) :=
  .modify fun _ _ h =>
    ⟨h.heap, congrArg f h.frame, (hf _).trans h.procedure, h.innermost⟩

theorem tracks_introduce (name : String) (e : Expr) :
    (inside lib q s).Tracks lib (introduce lib name e) (introduce lib name e) := by
  refine (tracks_number e).bind fun v => Tracks.bind (.get_bind fun m n h => ?_) fun _ => .pure _
  rw [← h.frame]
  refine (tracks_mistake (by simp)).guard (Tracks.bind ?_ fun index => ?_)
  · refine tracks_onHeap fun heap f heap' hf => ?_
    rw [Heap.within_alloc_eq] at hf
    split at hf
    · cases hf
    · cases hf
      exact .bare nofun
  · exact (tracks_rebind (·.push name (.scalar ⟨m.frame.locals, index⟩)) fun _ => rfl).bind
      fun _ => .pure _

theorem tracks_unbind (name : String) :
    (inside lib q s).Tracks lib (unbind name) (unbind name) := by
  refine Tracks.get_bind fun m n h => ?_
  rw [← h.frame]
  have hspans : m.frame.Spans (Fault.RaisedBy lib q s) := (permits_raisedBy h.procedure).violation
  refine (tracks_ofExcept (m.frame.only_slot hspans name)).bind fun u => ?_
  refine (tracks_mistake (by simp)).guard (Tracks.bind ?_ fun _ => ?_)
  · exact tracks_rebind (·.erase name) fun _ => rfl
  · refine tracks_onHeap fun heap f heap' hf => ?_
    rw [Heap.within_free_eq] at hf
    split at hf
    · cases hf
      exact .bare nofun
    · cases hf

theorem tracks_remove (name : String) (e : Expr) :
    (inside lib q s).Tracks lib (remove lib name e) (remove lib name e) := by
  refine (tracks_number e).bind fun v => Tracks.get_bind fun m n h => ?_
  rw [← h.frame]
  have hspans : m.frame.Spans (Fault.RaisedBy lib q s) := (permits_raisedBy h.procedure).violation
  refine (tracks_ofExcept (m.frame.only_slot hspans name)).bind fun u => ?_
  refine (tracks_readSlot u).bind fun c => ?_
  exact (tracks_violate (by nofun)).guard ((tracks_unbind name).bind fun _ => .pure _)

theorem tracks_arguments (args : List Expr) :
    (inside lib q s).Tracks lib (arguments lib args) (arguments lib args) := by
  induction args with
  | nil => exact .pure _
  | cons arg rest ih =>
    exact (tracks_reading _ fun _ ht => Scope.raises_argument ht arg _).bind fun _ =>
      ih.bind fun _ => .pure _

/-! ## Statements made of others -/

section Compound

variable {run run' : Stmt → Execution Unit} {r : Option (String × Stmt)}

theorem tracks_block (d : Direction) {body : List Stmt}
    (h : ∀ t ∈ body, (between r q).Tracks lib (run t) (run' t)) :
    (between r q).Tracks lib (block run d body) (block run' d body) := by
  have hforM : ∀ stmts : List Stmt, (∀ t ∈ stmts, (between r q).Tracks lib (run t) (run' t)) →
      (between r q).Tracks lib (stmts.forM run) (stmts.forM run') := by
    intro stmts
    induction stmts with
    | nil => exact fun _ => .pure ()
    | cons t rest ih =>
      intro hall
      rw [List.forall_mem_cons] at hall
      exact hall.1.bind fun _ => ih hall.2
  exact hforM (d.order body) fun t ht => h t (Direction.mem_order.mp ht)

theorem tracks_check (e : Expr) (b : Bool) {v : Violation} (hv : v.rule ≠ .callDepthExceeded) :
    (inside lib q s).Tracks lib (check lib e b v) (check lib e b v) := by
  refine (tracks_test e).bind fun c => ?_
  split
  · exact tracks_violate hv
  · exact .pure ()

theorem tracks_confirm (d : Direction) (guard assertion : Expr) (b : Bool) :
    (inside lib q s).Tracks lib (confirm lib d guard assertion b)
      (confirm lib d guard assertion b) := by
  cases d with
  | forward => exact tracks_check assertion b (by simp [Violation.rule])
  | backward =>
    simp only [confirm]
    split
    · exact tracks_check guard b (by simp [Violation.rule])
    · exact .pure ()

theorem tracks_branch (d : Direction) (guard assertion : Expr) {thenBody elseBody : List Stmt}
    (hthen : (inside lib q s).Tracks lib (block run d thenBody) (block run' d thenBody))
    (helse : (inside lib q s).Tracks lib (block run d elseBody) (block run' d elseBody)) :
    (inside lib q s).Tracks lib (branch lib run d guard thenBody elseBody assertion)
      (branch lib run' d guard thenBody elseBody assertion) := by
  rw [branch_eq, branch_eq]
  refine (tracks_test _).bind fun b => Tracks.bind ?_ fun _ => tracks_confirm d guard assertion b
  cases b with
  | true => exact hthen
  | false => exact helse

theorem tracks_repeatUntil {last : Expr} {body body' : Nat → Execution Unit}
    (hbody : ∀ i, (inside lib q s).Tracks lib (body i) (body' i)) (fuel i : Nat) :
    (inside lib q s).Tracks lib (repeatUntil (test lib last) body fuel i)
      (repeatUntil (test lib last) body' fuel i) := by
  induction fuel generalizing i with
  | zero => exact Tracks.exhausted
  | succ fuel ih =>
    refine (tracks_test last).bind fun b => ?_
    cases b with
    | true => exact .pure ()
    | false => exact (hbody (i + 1)).bind fun _ => ih (i + 1)

theorem tracks_loop (fuel : Nat) (d : Direction) (entry exit : Expr) {doBody loopBody : List Stmt}
    (hdo : (inside lib q s).Tracks lib (block run d doBody) (block run' d doBody))
    (hloop : (inside lib q s).Tracks lib (block run d loopBody) (block run' d loopBody)) :
    (inside lib q s).Tracks lib (loop lib run fuel d entry doBody loopBody exit)
      (loop lib run' fuel d entry doBody loopBody exit) := by
  have hagain : ∀ first i, (inside lib q s).Tracks lib (again lib run d first doBody loopBody i)
      (again lib run' d first doBody loopBody i) := fun first i =>
    hloop.bind fun _ => (tracks_test first).bind fun _ => (tracks_violate (by nofun)).guard hdo
  rw [loop_eq, loop_eq]
  exact (tracks_test _).bind fun _ => (tracks_violate (by nofun)).guard
    (hdo.bind fun _ => tracks_repeatUntil (hagain _) fuel 0)

end Compound

/-! ## Procedures -/

section Procedures

variable {run run' : Direction → Stmt → Execution Unit}

/-- A run of a procedure is refused from the outset, in both runs for the same reason, or it is
that of the body. -/
theorem runProcedure_cases (p : Procedure) (args : List Binding) (d : Direction) (depth : Int)
    {mem nem : Memory} (hheap : mem.heap = nem.heap)
    (hbody : ∀ t ∈ p.body, (between (innermost? nem.log) p.name).Tracks lib (run d t) (run' d t)) :
    (∃ f, runProcedure lib run p args d depth mem = .error (.fault f) mem ∧
      runProcedure lib run' p args d depth nem = .error (.fault f) nem ∧
      (f = (Violation.tooDeep depth lib.settings.maxCallDepth).fault (some p.name) ∨
        (∀ g, f ≠ .failure g) ∨
        (lib.frameOf p depth mem).attachAll (p.paramNames.zip args) = .error f)) ∨
    ∃ r r', runProcedure lib run p args d depth mem = embed Machine.left r ∧
      runProcedure lib run' p args d depth nem = embed Machine.left r' ∧
      (between (innermost? nem.log) p.name).Follows lib r r' := by
  have hframe : lib.frameOf p depth mem = lib.frameOf p depth nem := by
    simp only [Library.frameOf, hheap]
  have hentered : (between (innermost? nem.log) p.name).Apace (lib.entered p args d depth mem)
      (lib.entered p args d depth nem) :=
    ⟨by simp only [Library.entered, hheap], by simp only [Library.entered, hframe], rfl, rfl⟩
  rw [runProcedure_apply, runProcedure_apply, ← hframe]
  by_cases hdepth : depth > lib.settings.maxCallDepth
  · simp only [if_pos hdepth]
    exact .inl ⟨_, rfl, rfl, .inl rfl⟩
  by_cases hcount : args.length ≠ p.params.length
  · simp only [if_neg hdepth, if_pos hcount]
    exact .inl ⟨_, rfl, rfl, .inr (.inl (by simp))⟩
  simp only [if_neg hdepth, if_neg hcount]
  cases (lib.frameOf p depth mem).attachAll (p.paramNames.zip args) with
  | error f => exact .inl ⟨f, rfl, rfl, .inr (.inr rfl)⟩
  | ok frame => exact .inr ⟨_, _, rfl, rfl, tracks_block d hbody _ _ hentered⟩

/-- A callee whose parameters can be bound to the arguments is entered, unless it nests too deep or
the host made a mistake. -/
theorem tracks_enter (hlib : ∀ p ∈ lib.procedures, p.paramNames.Nodup) {loc : Option Location}
    {callee : String} {args : List Expr} {uncall : Bool} (hs : s = .call loc callee args uncall)
    {p : Procedure} (hp : lib.get callee = .ok p) {operands : List (String × Binding)}
    (hoperands : Overlap.ofOperands operands = none) {d : Direction} {depth : Int}
    (hbody : ∀ t ∈ p.body, (between (some (q, s)) p.name).Tracks lib (run d t) (run' d t)) :
    (inside lib q s).Tracks lib
      (onMemory (runProcedure lib run p (operands.map Prod.snd) d depth))
      (onMemory (runProcedure lib run' p (operands.map Prod.snd) d depth)) := by
  intro m n h
  have hmem := Library.mem_of_get hp
  have hinner : innermost? n.toMemory.log = some (q, s) := h.innermost
  rw [onMemory_apply, onMemory_apply]
  obtain ⟨f, hx, hy, hf⟩ | ⟨x, y, hx, hy, hxy⟩ :=
    runProcedure_cases p (operands.map Prod.snd) d depth h.heap (hinner ▸ hbody)
  · rw [hx, hy]
    refine .raised h ?_
    obtain rfl | hmistake | hattach := hf
    · exact .tooDeep _ _ hmem (Library.name_of_get hp ▸ hs)
    · exact .mistake hmistake
    · -- operands that do not overlap can be bound to parameters of different names
      have hzip := Overlap.pairwise_zip (hlib p hmem) (Overlap.ofOperands_eq_none.mp hoperands)
      rw [Frame.attachAll_eq_ok.mpr ⟨rfl, hzip, by simp [Library.frameOf]⟩] at hattach
      cases hattach
  · rw [hx, hy]
    cases hxy with
    | ok hleft =>
      exact .ok ⟨congrArg Heap.pop hleft.heap, h.frame, h.procedure,
        hleft.innermost.trans hinner⟩
    | raised _ hf => exact hf.elim
    | passed hheap hinner hplace hf => exact .passed (congrArg Heap.pop hheap) hinner hplace hf
    | exhausted => exact .exhausted

theorem violate_bind {α β : Type} (v : Violation) (k : α → Execution β) :
    (violate v >>= k) = violate v := rfl

/-- A call whose arguments do not overlap can bind the parameters of its callee, so a call that is
not entered nests too deep or is a mistake of the host. -/
theorem tracks_call (hlib : ∀ p ∈ lib.procedures, p.paramNames.Nodup) (d : Direction)
    {loc : Option Location} {callee : String} {args : List Expr} {uncall : Bool}
    (hs : s = .call loc callee args uncall)
    (hcallee : ∀ p, lib.get callee = .ok p → ∀ d, ∀ t ∈ p.body,
      (between (some (q, s)) p.name).Tracks lib (run d t) (run' d t)) :
    (inside lib q s).Tracks lib (call lib run d callee args uncall)
      (call lib run' d callee args uncall) := by
  unfold call
  cases hget : lib.get callee with
  | error f =>
    have hmistake : ∀ g, f ≠ .failure g := by
      unfold Library.get at hget
      split at hget
      · cases hget
      · cases hget
        simp
    exact tracks_mistake hmistake
  | ok p =>
    simp only [ofExcept, pure_bind]
    refine (tracks_arguments args).bind fun operands => ?_
    -- the outcome of this check is needed again when the parameters are bound
    cases hoverlap : Overlap.ofOperands operands.1 with
    | some v =>
      have hrule := Overlap.rule_of_firstRepeat hoverlap
      simp only [refuse, violate_bind]
      exact tracks_violate (by rw [hrule]; decide)
    | none =>
      refine (Tracks.pure ()).bind fun _ => ?_
      refine (tracks_refuse fun _ => Overlap.rule_of_ofIndices).bind fun _ => ?_
      refine Tracks.get_bind fun m n h => ?_
      rw [← h.frame]
      exact tracks_enter hlib hs hget hoverlap (hcallee p hget _)

end Procedures

/-! ## All statements -/

theorem annotated_fault {work : Execution Unit} {m m' : Machine} {f : Fault}
    (h : work m = .error (.fault f) m') :
    annotated s work m = .error (.fault (f.blame m'.frame.procedure s)) m' := by
  unfold annotated
  rw [h]
  cases f <;> rfl

/-- A statement completes the faults that its work raises, and passes on those that are complete. -/
theorem tracks_underway {r : Option (String × Stmt)} {work work' : Execution Unit}
    (hs : lib.Places q s) (h : (inside lib q s).Tracks lib work work') :
    (between r q).Tracks lib (trace s >>= fun _ => annotated s work) (underway s work') := by
  intro m n hmn
  have hstart : (inside lib q s).Apace (traced s m)
      ⟨n.toMemory.record (.executing n.frame.depth n.frame.procedure s), n.frame⟩ := by
    refine ⟨?_, ?_, ?_, ?_⟩
    · rw [heap_traced]
      exact hmn.heap
    · rw [frame_traced]
      exact hmn.frame
    · rw [frame_traced]
      exact hmn.procedure
    · simp only [Memory.record, innermost?, inside, ← hmn.frame, hmn.procedure, between]
  have hwork := h _ _ hstart
  rw [bind_apply, trace_apply]
  simp only [underway]
  generalize hx : work (traced s m) = x at hwork
  generalize work' ⟨n.toMemory.record (.executing n.frame.depth n.frame.procedure s), n.frame⟩ = y
    at hwork ⊢
  cases hwork with
  | ok h =>
    rw [annotated_eq_ok.mpr hx]
    exact .ok ⟨h.heap, h.frame, h.procedure, hmn.innermost⟩
  | raised h hf =>
    rw [annotated_fault hx, h.procedure]
    exact .passed h.heap h.innermost hs hf
  | passed hheap hinner hplace hf =>
    -- raised in a statement inside this one, which has completed it
    rw [annotated_fault hx, Fault.blame_blame]
    exact .passed hheap hinner hplace hf
  | exhausted =>
    rw [annotated_eq_exhausted.mpr hx]
    exact .exhausted

/-- **All statements.** A run keeps to the one that is tracked. -/
theorem tracks_exec (hlib : ∀ p ∈ lib.procedures, p.paramNames.Nodup) (fuel : Nat) (d : Direction)
    {s : Stmt} (hs : lib.Places q s) (r : Option (String × Stmt)) :
    (between r q).Tracks lib (exec lib fuel d s) (tracked lib fuel d s) := by
  induction fuel generalizing d q s r with
  | zero => exact Tracks.exhausted
  | succ fuel ih =>
    have hbody : ∀ body ∈ s.bodies, (inside lib q s).Tracks lib
        (block (exec lib fuel d) d body) (block (tracked lib fuel d) d body) :=
      fun body hbody => (tracks_block d fun t ht => ih d (hs.of_bodies hbody ht) _).inside
    refine tracks_underway hs ?_
    cases s with
    | assign loc target op value => exact tracks_assign d target value op
    | branch loc guard thenBody elseBody assertion =>
      exact tracks_branch d guard assertion (hbody _ (by simp [Stmt.bodies]))
        (hbody _ (by simp [Stmt.bodies]))
    | call loc callee args uncall =>
      refine tracks_call hlib d rfl fun p hp d t ht => ih d ?_ _
      exact Library.places_of_body (Library.mem_of_get hp) ht
    | declare loc name value =>
      cases d with
      | forward => exact tracks_introduce name value
      | backward => exact tracks_remove name value
    | discard loc name value =>
      cases d with
      | forward => exact tracks_remove name value
      | backward => exact tracks_introduce name value
    | loop loc entry doBody loopBody exit =>
      exact tracks_loop fuel d entry exit (hbody _ (by simp [Stmt.bodies]))
        (hbody _ (by simp [Stmt.bodies]))
    | swap loc left right => exact tracks_swap left right
    | block loc body => exact hbody _ (by simp [Stmt.bodies])
    | hole loc => exact tracks_mistake (by simp)

end Execution

/-! ## Runs of procedures -/

/-- A name has a character. -/
theorem Lexer.IsName.ne_empty {name : String} (h : IsName name) : name ≠ "" := by
  rintro rfl
  obtain ⟨file, loc, stop, h⟩ := h
  cases h

/-- What a failure says that was raised in a statement of the procedure: the text and the place of
the statement and the name of the procedure. If a call nests too deep, it is the name of the callee,
and a failure of a host function keeps what it says itself. -/
inductive Failure.Blames (lib : Library) (procedure : String) (s : Stmt) : Failure → Prop where
  | violation {v : Violation} (hv : v.rule ≠ .callDepthExceeded) :
    Blames lib procedure s (v.blamed procedure s)
  | tooDeep {loc : Option Location} {callee : String} {args : List Expr} {uncall : Bool}
      (depth limit : Int) (hs : s = .call loc callee args uncall) :
    Blames lib procedure s ((Violation.tooDeep depth limit).blamed callee s)
  | function {name : String} {function : HostFunction} {values : List Int} {f : Failure}
      (hfunction : Datum.field? name lib.functions = some function)
      (hf : function values = .error (.failure f)) :
    Blames lib procedure s
      (if f.isRun then f.annotate (some procedure) (some s.summary) s.loc else f)

namespace Library

variable {lib : Library}

/-- Procedures that were read from a text can be written down again. -/
theorem Compiled.writable (h : lib.Compiled) : ∀ p ∈ lib.procedures, p.Writable := by
  induction h with
  | empty hempty =>
    intro p hp
    rw [procedures_empty hempty] at hp
    cases hp
  | register hlib hparse hregister ih =>
    obtain ⟨rfl, -⟩ := register_eq_ok hregister
    intro p hp
    rcases List.mem_append.mp hp with hp | hp
    · exact ih p hp
    · exact Program.writable_of_parse hparse p hp

/-- A fault that a statement raised blames it once it is passed on. -/
theorem Compiled.blames (hlib : lib.Compiled) {procedure : String} {s : Stmt} {f : Fault}
    (hf : f.RaisedBy lib procedure s) {g : Failure} (hg : f.blame procedure s = .failure g) :
    (∃ raw, f = .failure raw) ∧ g.Blames lib procedure s := by
  cases hf with
  | @bare v hv =>
    rw [v.blame_bare] at hg
    cases hg
    exact ⟨⟨_, rfl⟩, .violation hv⟩
  | @named v hv =>
    rw [v.blame_named s (.inl rfl)] at hg
    cases hg
    exact ⟨⟨_, rfl⟩, .violation hv⟩
  | @tooDeep loc p args uncall depth limit hp hs =>
    rw [Violation.blame_named _ s (.inr (hlib.writable p hp).1.ne_empty)] at hg
    cases hg
    exact ⟨⟨_, rfl⟩, .tooDeep depth limit hs⟩
  | function hfunction hf =>
    cases f with
    | failure raw =>
      cases hg
      exact ⟨⟨raw, rfl⟩, .function hfunction hf⟩
    | _ => cases hg
  | mistake hmistake =>
    cases f with
    | failure raw => exact absurd rfl (hmistake raw)
    | _ => cases hg

/-- **Blame.** If a run of a procedure that was read from a text and registered fails, in either
direction, the run that is tracked fails with the same heap. Either no statement was in progress,
and the failure is as it was raised, or the failure blames the innermost statement in progress. -/
theorem run_blames (hlib : lib.Compiled) {p : Procedure} (hp : p ∈ lib.procedures) {fuel : Nat}
    {args : List Binding} {d : Direction} {depth : Int} {m m' : Memory} {f : Failure}
    (hrun : lib.run fuel p args d depth m = .error (.fault (.failure f)) m') :
    ∃ g n, lib.runTracked fuel p args d depth { heap := m.heap } = .error (.fault (.failure g)) n ∧
      n.heap = m'.heap ∧
      (innermost? n.log = none ∧ f = g ∨
        ∃ procedure s, innermost? n.log = some (procedure, s) ∧ lib.Places procedure s ∧
          f.Blames lib procedure s) := by
  have hparams : ∀ p ∈ lib.procedures, p.paramNames.Nodup := fun p hp => by
    obtain ⟨t, -, hlegal⟩ := hlib.legal p hp
    exact hlegal.params
  have hbody : ∀ t ∈ p.body, (Watch.between (innermost? []) p.name).Tracks lib
      (Execution.exec lib fuel d t) (Execution.tracked lib fuel d t) := fun t ht =>
    Execution.tracks_exec hparams fuel d (places_of_body hp ht) none
  obtain ⟨raw, hx, hy, -⟩ | ⟨x, y, hx, hy, hxy⟩ :=
    @Execution.runProcedure_cases lib _ _ p args d depth m { heap := m.heap } rfl hbody
  · -- refused before the procedure was entered
    obtain ⟨hstop, rfl⟩ := EStateM.Result.error.inj (hx.symm.trans hrun)
    cases hstop
    exact ⟨f, _, hy, rfl, .inl ⟨rfl, rfl⟩⟩
  · have hleft := hx.symm.trans hrun
    cases hxy with
    | ok h => cases hleft
    | raised h hf => exact hf.elim
    | exhausted => cases hleft
    | @passed raw k n procedure s hheap hinner hplace hf =>
      obtain ⟨hstop, rfl⟩ := EStateM.Result.error.inj hleft
      obtain ⟨⟨g, rfl⟩, hblames⟩ := hlib.blames hf (Stop.fault.inj hstop)
      exact ⟨g, n.left, hy, congrArg Heap.pop hheap.symm,
        .inr ⟨procedure, s, hinner, hplace, hblames⟩⟩

end Library

namespace Sample

/-- Two procedures that call each other without end. -/
def rally : String :=
  "procedure ping(n) \x7b\n    call pong(n)\n\x7d\n\n" ++
    "procedure pong(n) \x7b\n    n += 1\n    call ping(n)\n\x7d\n"

/-- A library in which calls nest twice at most, with the given procedures. -/
def rallyOf (procedures : List Procedure) : Library :=
  { settings := { maxCallDepth := 2 }
    intType := .word
    functions :=
      [("abs", .unary "abs" fun n => n.natAbs), ("max", .joining "max" max),
        ("min", .joining "min" min)]
    procedures }

/-- One store with one slot, for `n`. -/
def rallyMemory (n : Int) : Memory := { heap := ⟨#[{ cells := #[some n] }]⟩ }

/-- The procedure and the statement that each record of a failure names. -/
def blamed : Stop → List (Option String × Option String)
  | .fault (.failure f) => f.records.map fun r => (r.procedure, r.statement)
  | _ => []

/-- What a run of the procedure that fails on `n` names. -/
def rallyBlames (lib : Library) (n : Int) (p : Procedure) : List (Option String × Option String) :=
  ((error? (lib.run 9 p [.scalar ⟨0, 0⟩] .forward 0) (rallyMemory n)).map blamed).getD []

/-- What is in progress when the run ends. -/
def rallyRunning (lib : Library) (n : Int) (p : Procedure) : Option (String × String) :=
  let m := after (lib.runTracked 9 p [.scalar ⟨0, 0⟩] .forward 0) { heap := (rallyMemory n).heap }
  (innermost? m.log).map fun entry => (entry.1, entry.2.summary)

/-- The program can be registered. A run of `ping` on 0 fails at the second call of `pong`, and one
on the greatest number in `pong`. -/
def rallies (program : Program) : Bool :=
  completes ((rallyOf []).register default program.procedures) {} &&
    program.procedures.head?.any fun p =>
      rallyBlames (rallyOf program.procedures) 0 p = [(some "pong", some "call pong(n)")] &&
        rallyRunning (rallyOf program.procedures) 0 p = some ("ping", "call pong(n)") &&
        rallyBlames (rallyOf program.procedures) 9223372036854775807 p =
          [(some "pong", some "n += 1")] &&
        rallyRunning (rallyOf program.procedures) 9223372036854775807 p = some ("pong", "n += 1")

theorem exists_rallies :
    ∃ program, Program.parse rally "<text>" = .ok program ∧ rallies program = true := by
  have hany : (Program.parse rally "<text>").toOption.any rallies = true := by decide +kernel
  exact exists_of_toOption_any hany

/-- The library of a program that can be registered is compiled. -/
theorem compiled_rallyOf {program : Program} (hparse : Program.parse rally "<text>" = .ok program)
    (h : rallies program = true) : (rallyOf program.procedures).Compiled := by
  simp only [rallies, Bool.and_eq_true] at h
  obtain ⟨lib, inquiry, hregister⟩ := exists_of_completes h.1
  have hempty : Library.empty { maxCallDepth := 2 } [] = .ok (rallyOf []) := rfl
  have hcompiled : lib.Compiled := .register (.empty hempty) hparse hregister
  obtain ⟨rfl, -⟩ := Library.register_eq_ok hregister
  exact hcompiled

/-- A run that names something has failed. -/
theorem exists_of_rallyBlames {lib : Library} {n : Int} {p : Procedure}
    {entry : Option String × Option String} (h : rallyBlames lib n p = [entry]) :
    ∃ f m', lib.run 9 p [.scalar ⟨0, 0⟩] .forward 0 (rallyMemory n) =
      .error (.fault (.failure f)) m' := by
  unfold rallyBlames at h
  cases hstop : error? (lib.run 9 p [.scalar ⟨0, 0⟩] .forward 0) (rallyMemory n) with
  | none => simp [hstop] at h
  | some stop =>
    obtain ⟨m', hrun⟩ := exists_of_error? hstop
    simp only [hstop, Option.map_some, Option.getD_some] at h
    unfold blamed at h
    split at h
    · exact ⟨_, m', hrun⟩
    · cases h

end Sample

/-- The number overflows in `pong`, and neither the call in `ping` nor its procedure is named. -/
theorem rally_overflow_blamed : ∃ (program : Program) (p : Procedure) (f : Failure) (m' : Memory),
    Program.parse Sample.rally "<text>" = .ok program ∧
      (Sample.rallyOf program.procedures).Compiled ∧
      p ∈ (Sample.rallyOf program.procedures).procedures ∧
      (Sample.rallyOf program.procedures).run 9 p [.scalar ⟨0, 0⟩] .forward 0
        (Sample.rallyMemory 9223372036854775807) = .error (.fault (.failure f)) m' ∧
      ∃ g n, (Sample.rallyOf program.procedures).runTracked 9 p [.scalar ⟨0, 0⟩] .forward 0
          { heap := (Sample.rallyMemory 9223372036854775807).heap } =
            .error (.fault (.failure g)) n ∧
        n.heap = m'.heap ∧
        (innermost? n.log = none ∧ f = g ∨
          ∃ procedure s, innermost? n.log = some (procedure, s) ∧
            (Sample.rallyOf program.procedures).Places procedure s ∧
            f.Blames (Sample.rallyOf program.procedures) procedure s) := by
  obtain ⟨program, hparse, hrallies⟩ := Sample.exists_rallies
  have hcompiled := Sample.compiled_rallyOf hparse hrallies
  simp only [Sample.rallies, Bool.and_eq_true, Option.any_eq_true, decide_eq_true_eq] at hrallies
  obtain ⟨-, p, hhead, ⟨-, hblames⟩, -⟩ := hrallies
  obtain ⟨f, m', hrun⟩ := Sample.exists_of_rallyBlames hblames
  have hp : p ∈ (Sample.rallyOf program.procedures).procedures := List.mem_of_head? hhead
  exact ⟨program, p, f, m', hparse, hcompiled, hp, hrun, Library.run_blames hcompiled hp hrun⟩

/-- A call in `ping` nests too deep, and `pong` is named as the procedure that it lies in. -/
theorem rally_callee_blamed : ∃ (program : Program) (p : Procedure),
    Program.parse Sample.rally "<text>" = .ok program ∧
      (Sample.rallyOf program.procedures).Compiled ∧
      p ∈ (Sample.rallyOf program.procedures).procedures ∧
      Sample.rallyRunning (Sample.rallyOf program.procedures) 0 p = some ("ping", "call pong(n)") ∧
      Sample.rallyBlames (Sample.rallyOf program.procedures) 0 p =
        [(some "pong", some "call pong(n)")] := by
  obtain ⟨program, hparse, hrallies⟩ := Sample.exists_rallies
  have hcompiled := Sample.compiled_rallyOf hparse hrallies
  simp only [Sample.rallies, Bool.and_eq_true, Option.any_eq_true, decide_eq_true_eq] at hrallies
  obtain ⟨-, p, hhead, ⟨⟨hblames, hinner⟩, -⟩, -⟩ := hrallies
  exact ⟨program, p, hparse, hcompiled, List.mem_of_head? hhead, hinner, hblames⟩

end Retrace
