import Retrace.Proofs.Legality
import Retrace.Proofs.RoundTrip

/-!
# No aliasing inside a frame

In every machine in which a run of a registered procedure executes a statement, no two names share a
slot. So a call that has passed its checks finds no overlap among its parameters, and an update of a
variable never reads the variable: the check that compares slots before an update can only find
something where the target is an element of an array (`Library.run_unaliased`).

To speak of every machine in which a statement is executed, the run is set beside one that tests a
condition before each statement and does something else where the condition fails
(`Execution.monitored`). If the two are the same, whatever the other thing is, the condition held
each time.

The condition follows from two facts. The machine is in order (`Machine.Ordered`), which every
statement keeps; and the statement occurs in the library, so that the legality check has seen it.
-/

namespace Retrace

open Actions

/-! ## The slots that are read -/

/-- The frame with the given names only. -/
def Frame.restrict (f : Frame) (names : List String) : Frame :=
  { f with bindings := f.bindings.filter fun entry => names.contains entry.1 }

theorem Frame.lookup?_restrict (f : Frame) (names : List String) (x : String) :
    (f.restrict names).lookup? x = if names.contains x then f.lookup? x else none :=
  Datum.field?_filter names.contains x f.bindings

/-- Every slot that an evaluation reads belongs to a name of the expression. -/
theorem Scope.named_of_eval {s : Scope} {e : Expr} {reads reads' : List Slot} {v : Value}
    (h : s.eval e reads = .ok v reads') : ∃ new, reads' = reads ++ new ∧
      ∀ u ∈ new, ∃ x ∈ e.names, ∃ b, s.frame.lookup? x = some b ∧ u ∈ b.slots := by
  -- the names of the expression are enough to evaluate it
  have hextends : s.Extends id e.names { s with frame := s.frame.restrict e.names } := by
    refine ⟨rfl, Nat.le_refl _, fun x hx b hb => ?_⟩
    rw [Frame.lookup?_restrict, if_pos (List.contains_iff_mem.mpr hx), hb, Binding.rename_id]
  have hrestricted := Scope.eval_of_extends hextends h fun _ _ _ => rfl
  rw [List.map_id, List.map_id] at hrestricted
  obtain ⟨new, hnew, hcovers⟩ := Scope.reads_of_eval hrestricted
  refine ⟨new, hnew, fun u hu => ?_⟩
  obtain ⟨x, b, hb, hub⟩ := hcovers u hu
  rw [Frame.lookup?_restrict] at hb
  split at hb
  · rename_i hx
    exact ⟨x, List.contains_iff_mem.mp hx, b, hb, hub⟩
  · cases hb

/-- Where no two names share a slot, computing a value does not read a variable that it does not
name. -/
theorem Scope.not_mem_reads {s : Scope} (hapart : s.frame.bindings.Pairwise Frame.Apart)
    {x : String} {u : Slot} (hu : s.frame.slot x = .ok u) {e : Expr} (hx : x ∉ e.names)
    {reads : List Slot} {v : Value} (h : s.eval e [] = .ok v reads) : u ∉ reads := by
  obtain ⟨new, rfl, hnamed⟩ := Scope.named_of_eval h
  intro hmem
  obtain ⟨y, hy, b, hb, hub⟩ := hnamed u hmem
  have hxy : x ≠ y := fun he => hx (he ▸ hy)
  exact Frame.disjoint_of_lookup? hapart hxy (Frame.slot_eq_ok.mp hu) hb (by simp [Binding.slots])
    hub

/-! ## Parameters -/

/-- Operands that share no slot share none under other names either. -/
theorem Overlap.pairwise_zip {names : List String} (hnames : names.Nodup)
    {operands : List (String × Binding)} (hslots : (slotsOf operands).Nodup) :
    (names.zip (operands.map Prod.snd)).Pairwise Frame.Apart := by
  induction operands generalizing names with
  | nil => simp
  | cons operand rest ih =>
    cases names with
    | nil => simp
    | cons name names =>
      rw [slotsOf_cons, List.nodup_append'] at hslots
      obtain ⟨-, hrest, hdisjoint⟩ := hslots
      rw [List.nodup_cons] at hnames
      rw [List.map_cons, List.zip_cons_cons, List.pairwise_cons]
      refine ⟨fun entry hentry => ?_, ih hnames.2 hrest⟩
      obtain ⟨hname, hbinding⟩ := List.of_mem_zip hentry
      refine ⟨?_, fun u hu hu' => hdisjoint hu ?_⟩
      · rintro rfl
        exact hnames.1 hname
      · exact Binding.among_iff_mem_slotsOf.mp ⟨entry.2, hbinding, hu'⟩

/-! ## Faults of another class -/

namespace Actions

variable {ε σ α β : Type} {P : ε → Prop}

/-- If an action fails, the error has the property. -/
def Raises (P : ε → Prop) (x : EStateM ε σ α) (s : σ) : Prop := ∀ e t, x s = .error e t → P e

theorem Raises.bind {x : EStateM ε σ α} {f : α → EStateM ε σ β} {s : σ} (hx : Raises P x s)
    (hf : ∀ a t, x s = .ok a t → Raises P (f a) t) : Raises P (x >>= f) s := by
  intro e t h
  rw [bind_apply] at h
  cases hxs : x s with
  | ok a u =>
    rw [hxs] at h
    exact hf a u hxs e t h
  | error e' u =>
    rw [hxs] at h
    obtain ⟨rfl, rfl⟩ := EStateM.Result.error.inj h
    exact hx _ _ hxs

theorem raises_pure (a : α) (s : σ) : Raises P (pure a) s := nofun

theorem raises_throw {e : ε} (he : P e) (s : σ) : Raises P (throw e : EStateM ε σ α) s := by
  intro e' t h
  obtain ⟨rfl, -⟩ := EStateM.Result.error.inj h
  exact he

theorem raises_modify (f : σ → σ) (s : σ) : Raises P (modify f) s := nofun

theorem raises_ofExcept {r : Except ε α} (hr : ∀ e, r = .error e → P e) (s : σ) :
    Raises P (MonadExcept.ofExcept r : EStateM ε σ α) s := by
  cases r with
  | ok a => exact raises_pure a s
  | error e => exact raises_throw (hr e rfl) s

end Actions

/-- Not a failure of the class for overlapping storage. -/
def Fault.Harmless (f : Fault) : Prop := ¬f.Breaks .aliasViolation

theorem Fault.spans_harmless : Fault.Spans Fault.Harmless := fun _ _ hv h =>
  hv (Violation.breaks_iff.mp h)

/-- A mistake of the host is no failure of the language. -/
theorem Fault.not_breaks_of_ne {f : Fault} (h : ∀ g, f ≠ .failure g) (rule : RunRule) :
    ¬f.Breaks rule := by
  rintro ⟨g, rfl, -⟩
  exact h g rfl

theorem Fault.harmless_of_ne {f : Fault} (h : ∀ g, f ≠ .failure g) : f.Harmless :=
  not_breaks_of_ne h _

/-- No function fails with the class for overlapping storage. -/
def HostFunction.AllHarmless (functions : List (String × HostFunction)) : Prop :=
  ∀ name function, Datum.field? name functions = some function →
    ∀ values, Fault.Only Fault.Harmless (function values)

namespace Scope

variable {s : Scope} {P : Fault → Prop}

/-- The property holds for every fault that an evaluation in the scope can find. -/
structure Permits (s : Scope) (P : Fault → Prop) : Prop where
  violation : s.frame.Spans P
  released : ∀ i, P ((Violation.released i).fault none)
  function : ∀ name function, Datum.field? name s.functions = some function →
    ∀ values, Fault.Only P (function values)
  /-- mistakes of the host -/
  mistake : ∀ f : Fault, (∀ g, f ≠ .failure g) → P f

theorem raises_readSlot (hs : s.Permits P) (u : Slot) (reads : List Slot) :
    Raises P (s.readSlot u) reads :=
  .bind (raises_modify _ _) fun _ _ _ => raises_ofExcept (s.heap.only_read hs.released u) _

theorem raises_stored (hs : s.Permits P) {slot : Except Fault Slot} (h : Fault.Only P slot)
    (reads : List Slot) :
    Raises P (do return Value.int (← s.readSlot (← MonadExcept.ofExcept slot))) reads :=
  .bind (raises_ofExcept h reads) fun u _ _ =>
    .bind (raises_readSlot hs u _) fun _ _ _ => raises_pure _ _

theorem raises_binary (hs : s.Permits P) (loc : Option Location) (op : String) {left right : Expr}
    (hl : ∀ reads, Raises P (s.eval left) reads) (hr : ∀ reads, Raises P (s.eval right) reads)
    (reads : List Slot) : Raises P (s.eval (.binary loc op left right)) reads := by
  rw [eval_binary]
  refine .bind (hl reads) fun l reads _ => ?_
  cases BinaryOp.ofSymbol? op with
  | none => exact .bind (hr reads) fun _ _ _ => raises_throw (hs.mistake _ (by simp)) _
  | some o =>
    cases hsettled : o.settled? l.holds with
    | some b =>
      simp only [hsettled]
      exact raises_pure _ _
    | none =>
      simp only [hsettled]
      exact .bind (hr reads) fun r _ _ =>
        raises_ofExcept (o.only_apply hs.violation l.toInt r.toInt) _

theorem raises_unary (hs : s.Permits P) (loc : Option Location) (op : String) {operand : Expr}
    (h : ∀ reads, Raises P (s.eval operand) reads) (reads : List Slot) :
    Raises P (s.eval (.unary loc op operand)) reads := by
  rw [eval]
  refine .bind (h reads) fun v reads _ => ?_
  cases UnaryOp.ofSymbol? op with
  | none => exact raises_throw (hs.mistake _ (by simp)) _
  | some o => exact raises_pure _ _

theorem raises_call (hs : s.Permits P) (loc : Option Location) (name : String) {args : List Expr}
    (h : ∀ reads, Raises P (s.evalAll args) reads) (reads : List Slot) :
    Raises P (s.eval (.call loc name args)) reads := by
  rw [eval]
  cases hf : Datum.field? name s.functions with
  | none => exact raises_throw (hs.mistake _ (by simp)) _
  | some f =>
    refine .bind (h reads) fun values reads _ => ?_
    exact .bind (raises_ofExcept (hs.function name f hf values) _) fun _ _ _ => raises_pure _ _

mutual

/-- Evaluation finds no other faults than those that the scope permits. -/
theorem raises_eval (hs : s.Permits P) :
    ∀ (e : Expr) (reads : List Slot), Raises P (s.eval e) reads
  | .int _ n, reads => raises_pure (Value.int n) reads
  | .bool _ b, reads => raises_pure (Value.bool b) reads
  | .var _ name, reads => raises_stored hs (s.frame.only_slot hs.violation name) reads
  | .elem _ name index, reads =>
    .bind (raises_eval hs index reads) fun i reads _ =>
      raises_stored hs (s.frame.only_element hs.violation name i.toInt) reads
  | .binary loc op left right, reads =>
    raises_binary hs loc op (raises_eval hs left) (raises_eval hs right) reads
  | .unary loc op operand, reads => raises_unary hs loc op (raises_eval hs operand) reads
  | .call loc name args, reads => raises_call hs loc name (raises_evalAll hs args) reads
  | .update .., reads => raises_throw (hs.mistake _ (by simp)) reads
  | .hole _, reads => raises_throw (hs.mistake _ (by simp)) reads

theorem raises_evalAll (hs : s.Permits P) :
    ∀ (es : List Expr) (reads : List Slot), Raises P (s.evalAll es) reads
  | [], reads => raises_pure [] reads
  | e :: es, reads =>
    .bind (raises_eval hs e reads) fun _ reads _ =>
      .bind (raises_evalAll hs es reads) fun _ _ _ => raises_pure _ _

end

/-- Evaluation does not fail with the class for overlapping storage on its own. -/
theorem permits_harmless (hs : HostFunction.AllHarmless s.functions) : s.Permits Fault.Harmless where
  violation := Fault.spans_harmless.frame s.frame
  released _ := Fault.spans_harmless _ _ nofun
  function := hs
  mistake _ := Fault.harmless_of_ne

end Scope

/-! ## Updates of variables -/

/-- A run did not stop with a failure of the class for overlapping storage. -/
def Stop.Harmless (stop : Stop) : Prop := ∀ f, stop = .fault f → f.Harmless

theorem Fault.Harmless.stop {f : Fault} (h : f.Harmless) : Stop.Harmless (.fault f) := by
  intro g hg
  obtain rfl := Stop.fault.inj hg
  exact h

namespace Execution

variable {lib : Library} {m : Machine}

theorem raises_fault {α : Type} {r : Except Fault α} (h : Fault.Only Fault.Harmless r) :
    Raises Stop.Harmless (ofExcept r) m := by
  cases r with
  | ok a => exact raises_pure a m
  | error f => exact raises_throw (h f rfl).stop m

theorem raises_reading {α : Type} {before : List Slot} {work : Scope → Reading α}
    (h : Raises Fault.Harmless (work (m.scope lib)) before) :
    Raises Stop.Harmless (reading lib before work) m := by
  intro stop m' hstop
  rw [reading_apply] at hstop
  cases hwork : work (m.scope lib) before with
  | ok a reads =>
    rw [hwork] at hstop
    cases hstop
  | error f reads =>
    rw [hwork] at hstop
    obtain ⟨rfl, -⟩ := EStateM.Result.error.inj hstop
    exact (h f reads hwork).stop

theorem raises_writeSlot (s : Slot) (n : Int) : Raises Stop.Harmless (writeSlot s n) m := by
  intro stop m' hstop
  rw [writeSlot_apply] at hstop
  cases hc : m.heap.cell? s with
  | none =>
    rw [hc] at hstop
    obtain ⟨rfl, -⟩ := EStateM.Result.error.inj hstop
    exact (Fault.spans_harmless _ _ (by simp [Violation.rule])).stop
  | some c =>
    rw [hc] at hstop
    by_cases hn : (m.heap.store s.store).intType.contains n = true
    · simp only [hn, if_true] at hstop
      cases hstop
    · simp only [hn] at hstop
      obtain ⟨rfl, -⟩ := EStateM.Result.error.inj hstop
      exact (Fault.spans_harmless _ _ (by simp [Violation.rule])).stop

/-- The check before an update of a variable finds nothing, if the variable is not named by the
value. -/
theorem ofUpdate_var_eq_none (hapart : m.frame.bindings.Pairwise Frame.Apart) {x : String}
    {value : Expr} (hx : x ∉ value.names) {u : Slot} (hu : m.frame.slot x = .ok u) {v : Value}
    {reads : List Slot} (hv : (m.scope lib).eval value [] = .ok v reads) (name : String) :
    Overlap.ofUpdate u reads name = none :=
  Overlap.ofUpdate_eq_none.mpr (Scope.not_mem_reads hapart hu hx hv)

/-- An update of a variable does not fail with the class for overlapping storage. -/
theorem raises_assign (hlib : HostFunction.AllHarmless lib.functions)
    (hapart : m.frame.bindings.Pairwise Frame.Apart) {x : String} {value : Expr}
    (hx : x ∉ value.names) (d : Direction) (loc : Option Location) (op : String) :
    Raises Stop.Harmless (assign lib d (.var loc x) op value) m := by
  have hsymbol : Fault.Only Fault.Harmless (Update.ofSymbol op) := by
    unfold Update.ofSymbol
    cases Update.ofSymbol? op with
    | some u => exact .ok u
    | none => exact .error (Fault.harmless_of_ne (by simp))
  rw [assign_eq]
  refine .bind (raises_fault hsymbol) fun u m₁ h₁ => ?_
  obtain ⟨-, rfl⟩ := ofExcept_eq_ok.mp h₁
  have hslot : Raises Fault.Harmless ((m₁.scope lib).locate (.var loc x)) [] :=
    raises_ofExcept (m₁.frame.only_slot (Fault.spans_harmless.frame _) x) []
  refine .bind (raises_reading hslot) fun located m₂ h₂ => ?_
  obtain ⟨hlocated, rfl⟩ := reading_eq_ok.mp h₂
  obtain ⟨hs, hnone⟩ := Actions.ofExcept_eq_ok.mp hlocated
  refine .bind (raises_reading (Scope.raises_eval (Scope.permits_harmless hlib) value _))
    fun operand m₃ h₃ => ?_
  obtain ⟨hoperand, rfl⟩ := reading_eq_ok.mp h₃
  rw [← hnone] at hoperand
  simp only [ofUpdate_var_eq_none hapart hx hs hoperand]
  refine .bind (raises_pure () m₃) fun _ m₄ h₄ => ?_
  obtain ⟨-, rfl⟩ := pure_eq_ok.mp h₄
  have hread := m₃.heap.only_read (fun i => Fault.spans_harmless (.released i) none nofun)
  exact .bind (raises_fault (hread _)) fun _ _ _ =>
    raises_writeSlot _ _

/-- Naming the statement does not change the class of a failure. -/
theorem raises_annotated {s : Stmt} {work : Execution Unit} (h : Raises Stop.Harmless work m) :
    Raises Stop.Harmless (annotated s work) m := by
  intro stop m' hstop
  unfold annotated at hstop
  split at hstop
  · rename_i f after hwork
    obtain ⟨rfl, rfl⟩ := EStateM.Result.error.inj hstop
    have hf := h _ _ hwork _ rfl
    rintro g hg ⟨failure, rfl, hkind⟩
    obtain rfl := Fault.failure.inj (Stop.fault.inj hg)
    refine hf ⟨f, rfl, ?_⟩
    split at hkind <;> exact hkind
  · exact h stop m' hstop

theorem raises_exec (hlib : HostFunction.AllHarmless lib.functions)
    (hapart : m.frame.bindings.Pairwise Frame.Apart) {x : String} {value : Expr}
    (hx : x ∉ value.names) (fuel : Nat) (d : Direction) (loc loc' : Option Location) (op : String) :
    Raises Stop.Harmless (exec lib fuel d (.assign loc (.var loc' x) op value)) m := by
  cases fuel with
  | zero => exact raises_throw nofun m
  | succ fuel =>
    refine .bind (fun _ _ h => by cases (trace_apply _ m).symm.trans h) fun _ m' h => ?_
    rw [trace_apply] at h
    obtain ⟨-, rfl⟩ := EStateM.Result.ok.inj h
    exact raises_annotated (raises_assign hlib (by rwa [frame_traced]) hx d loc' op)

end Execution

/-- The functions that are built in complain of their arguments only. -/
theorem HostFunction.only_of_builtins {P : Fault → Prop}
    (hP : ∀ f : Fault, (∀ g, f ≠ .failure g) → P f) {functions : List (String × HostFunction)}
    (h : functions ⊆ builtins) {name : String} {function : HostFunction}
    (hf : Datum.field? name functions = some function) (values : List Int) :
    Fault.Only P (function values) := by
  have harity : ∀ name, P (.hostArity name) := fun name => hP _ (by simp)
  have hmem := h (Datum.mem_of_field? hf)
  simp only [builtins, List.mem_cons, List.not_mem_nil, or_false, Prod.mk.injEq] at hmem
  obtain ⟨-, rfl⟩ | ⟨-, rfl⟩ | ⟨-, rfl⟩ := hmem
  · unfold unary
    split
    · exact .ok _
    · exact .error (harity _)
  all_goals
    unfold joining
    split
    · exact .ok _
    · exact .error (harity _)

theorem HostFunction.allHarmless_of_builtins {functions : List (String × HostFunction)}
    (h : functions ⊆ builtins) : AllHarmless functions :=
  fun _ _ hf => only_of_builtins (fun _ => Fault.harmless_of_ne) h hf

/-! ## What holds before each statement -/

/-- No two names share a slot where a statement is about to run, and what the checks of names have
let through has nothing in store for the checks of slots, but for the elements of arrays. -/
structure Library.Unaliased (lib : Library) (d : Direction) (s : Stmt) (m : Machine) : Prop where
  apart : ∀ x y b c, x ≠ y → m.frame.lookup? x = some b → m.frame.lookup? y = some c →
    b.slots.Disjoint c.slots
  /-- the parameters of a procedure can be bound to arguments that do not overlap -/
  attached : ∀ loc callee args uncall p operands reads, s = .call loc callee args uncall →
    lib.get callee = .ok p → Execution.arguments lib args m = .ok (operands, reads) m →
      Overlap.ofOperands operands = none →
        ∃ frame, (lib.frameOf p (m.frame.depth + 1) m.toMemory).attachAll
          (p.paramNames.zip (operands.map Prod.snd)) = .ok frame
  /-- only an update of an element can find that it reads what it writes -/
  element : ∀ loc target op value u located v reads, s = .assign loc target op value →
    (m.scope lib).locate target [] = .ok u located →
      (m.scope lib).eval value located = .ok v reads →
        Overlap.ofUpdate u reads (target.refName?.getD "") ≠ none →
          ∃ loc' name index, target = .elem loc' name index
  /-- an update of a variable does not fail for overlapping storage -/
  harmless : HostFunction.AllHarmless lib.functions → ∀ loc loc' x op value,
    s = .assign loc (.var loc' x) op value → ∀ fuel f m',
      Execution.exec lib fuel d s m = .error (.fault f) m' → ¬f.Breaks .aliasViolation

namespace Library

variable {lib : Library} {s : Stmt} {m : Machine}

/-- Every statement of a library has passed the check. -/
theorem Accepted.permitted (hlib : lib.Accepted) (hs : lib.Holds s) : ∃ t, s.Permitted t := by
  obtain ⟨p, hp, hmem⟩ := hs
  obtain ⟨t, hfindings⟩ := hlib.checked p hp
  exact ⟨t, Legality.permitted_of_blockFindings (List.append_eq_nil_iff.mp hfindings).2 s hmem⟩

theorem Accepted.nodup_params (hlib : lib.Accepted) {p : Procedure} (hp : p ∈ lib.procedures) :
    p.paramNames.Nodup := by
  obtain ⟨t, hfindings⟩ := hlib.checked p hp
  exact (Legality.nodup_of_paramFindings (List.append_eq_nil_iff.mp hfindings).1).1

/-- A variable that is updated does not occur in the value. -/
theorem Accepted.not_mem_names (hlib : lib.Accepted) {loc loc' : Option Location} {x op : String}
    {value : Expr} (hs : lib.Holds (.assign loc (.var loc' x) op value)) : x ∉ value.names := by
  obtain ⟨t, -, -, -, -, hself⟩ := hlib.permitted hs
  intro hx
  simp [Legality.selfAliased, hx] at hself

/-- **One statement.** A statement of the library that is about to run in a machine in order finds
nothing aliased. -/
theorem Accepted.unaliased (hlib : lib.Accepted) (hs : lib.Holds s) (hm : m.Ordered)
    (d : Direction) : lib.Unaliased d s m where
  apart x y b c hxy hx hy := Frame.disjoint_of_lookup? hm.apart hxy hx hy
  attached loc callee args uncall p operands reads _ hp _ hoperands := by
    have hparams := hlib.nodup_params (mem_of_get hp)
    have hzip := Overlap.pairwise_zip hparams (Overlap.ofOperands_eq_none.mp hoperands)
    exact ⟨_, Frame.attachAll_eq_ok.mpr ⟨rfl, hzip, by simp [frameOf]⟩⟩
  element loc target op value u located v reads hassign hu hv hfires := by
    subst hassign
    obtain ⟨t, -, href, -⟩ := hlib.permitted hs
    cases target with
    | elem loc' name index => exact ⟨loc', name, index, rfl⟩
    | var loc' x =>
      obtain ⟨hslot, rfl⟩ := Actions.ofExcept_eq_ok.mp hu
      exact absurd (Execution.ofUpdate_var_eq_none hm.apart (hlib.not_mem_names hs) hslot hv _)
        hfires
    | _ => cases href
  harmless hfunctions loc loc' x op value hassign fuel f m' hfault := by
    subst hassign
    exact Execution.raises_exec hfunctions hm.apart (hlib.not_mem_names hs) fuel d loc loc' op _ _
      hfault f rfl

end Library

/-! ## Runs that are watched -/

namespace Execution

open Classical in
/-- Runs a statement like `exec`, but sounds an alarm before any statement, at any depth, for which
the condition does not hold. -/
noncomputable def monitored (P : Direction → Stmt → Machine → Prop) (alarm : Execution Unit)
    (lib : Library) : Nat → Direction → Stmt → Execution Unit
  | 0, _, _ => throw .exhausted
  | fuel + 1, d, s => do
    if P d s (← get) then
      trace s
      annotated s (step lib (monitored P alarm lib fuel) fuel d s)
    else alarm

/-- In a machine that is in order, the two actions are the same. -/
def Coincide {α : Type} (x y : Execution α) (m : Machine) : Prop := m.Ordered → x m = y m

variable {lib : Library} {m : Machine}

theorem Coincide.refl {α : Type} (x : Execution α) (m : Machine) : Coincide x x m := fun _ => rfl

theorem Coincide.bind {α β : Type} {x y : Execution α} {f g : α → Execution β}
    (hx : Coincide x y m) (hy : Careful y m)
    (hf : ∀ a m', y m = .ok a m' → Coincide (f a) (g a) m') :
    Coincide (x >>= f) (y >>= g) m := by
  intro hm
  rw [bind_apply, bind_apply, hx hm]
  cases hym : y m with
  | error stop m' => rfl
  | ok a m' =>
    rw [Careful, Moves, after_of_ok hym] at hy
    exact hf a m' hym (hy.ordered hm)

section Compound

variable {run run' : Stmt → Execution Unit}

theorem coincide_block (hcareful : ∀ s m, Careful (run' s) m) (d : Direction) {body : List Stmt}
    (hbody : ∀ s ∈ body, ∀ m, Coincide (run s) (run' s) m) :
    Coincide (block run d body) (block run' d body) m := by
  have hforM : ∀ stmts : List Stmt, (∀ s ∈ stmts, ∀ m, Coincide (run s) (run' s) m) →
      ∀ m, Coincide (stmts.forM run) (stmts.forM run') m := by
    intro stmts
    induction stmts with
    | nil => exact fun _ m => .refl _ m
    | cons s rest ih =>
      intro hall m
      rw [List.forall_mem_cons] at hall
      exact (hall.1 m).bind (hcareful s m) fun _ m' _ => ih hall.2 m'
  exact hforM (d.order body) (fun s hs => hbody s (Direction.mem_order.mp hs)) m

theorem coincide_branch (hcareful : ∀ s m, Careful (run' s) m) (d : Direction)
    (guard assertion : Expr) {thenBody elseBody : List Stmt}
    (hthen : ∀ s ∈ thenBody, ∀ m, Coincide (run s) (run' s) m)
    (helse : ∀ s ∈ elseBody, ∀ m, Coincide (run s) (run' s) m) :
    Coincide (branch lib run d guard thenBody elseBody assertion)
      (branch lib run' d guard thenBody elseBody assertion) m := by
  rw [branch_eq, branch_eq]
  refine (Coincide.refl _ m).bind (careful_test _) fun b m' _ => ?_
  refine Coincide.bind (coincide_block hcareful d ?_) (careful_block hcareful ..) fun _ _ _ =>
    .refl _ _
  cases b with
  | true => exact hthen
  | false => exact helse

theorem coincide_again (hcareful : ∀ s m, Careful (run' s) m) (d : Direction) (first : Expr)
    {doBody loopBody : List Stmt} (hdo : ∀ s ∈ doBody, ∀ m, Coincide (run s) (run' s) m)
    (hloop : ∀ s ∈ loopBody, ∀ m, Coincide (run s) (run' s) m) (i : Nat) :
    Coincide (again lib run d first doBody loopBody i) (again lib run' d first doBody loopBody i)
      m := by
  refine (coincide_block hcareful d hloop).bind (careful_block hcareful ..) fun _ m₁ _ => ?_
  refine (Coincide.refl _ m₁).bind (careful_test first) fun b m₂ _ => ?_
  cases b with
  | true =>
    exact (Coincide.refl _ m₂).bind (careful_violate _) fun _ _ _ => coincide_block hcareful d hdo
  | false => exact coincide_block hcareful d hdo

theorem coincide_repeatUntil {last : Expr} {body body' : Nat → Execution Unit}
    (hcareful : ∀ i m, Careful (body' i) m) (hbody : ∀ i m, Coincide (body i) (body' i) m)
    (fuel i : Nat) :
    Coincide (repeatUntil (test lib last) body fuel i) (repeatUntil (test lib last) body' fuel i)
      m := by
  induction fuel generalizing i m with
  | zero => exact .refl _ m
  | succ fuel ih =>
    refine (Coincide.refl _ m).bind (careful_test last) fun b m₁ _ => ?_
    cases b with
    | true => exact .refl _ m₁
    | false => exact (hbody (i + 1) m₁).bind (hcareful (i + 1) m₁) fun _ _ _ => ih (i + 1)

theorem coincide_loop (hcareful : ∀ s m, Careful (run' s) m) (fuel : Nat) (d : Direction)
    (entry exit : Expr) {doBody loopBody : List Stmt}
    (hdo : ∀ s ∈ doBody, ∀ m, Coincide (run s) (run' s) m)
    (hloop : ∀ s ∈ loopBody, ∀ m, Coincide (run s) (run' s) m) :
    Coincide (loop lib run fuel d entry doBody loopBody exit)
      (loop lib run' fuel d entry doBody loopBody exit) m := by
  have hrest : ∀ m, Coincide
      (block run d doBody >>= fun _ => repeatUntil (test lib (d.pick exit entry))
        (again lib run d (d.pick entry exit) doBody loopBody) fuel 0)
      (block run' d doBody >>= fun _ => repeatUntil (test lib (d.pick exit entry))
        (again lib run' d (d.pick entry exit) doBody loopBody) fuel 0) m := fun m =>
    (coincide_block hcareful d hdo).bind (careful_block hcareful ..) fun _ _ _ =>
      coincide_repeatUntil (fun i m => careful_again hcareful d _ doBody loopBody i)
        (fun i m => coincide_again hcareful d _ hdo hloop i) fuel 0
  rw [loop_eq, loop_eq]
  refine (Coincide.refl _ m).bind (careful_test _) fun b m₁ _ => ?_
  cases b with
  | false => exact (Coincide.refl _ m₁).bind (careful_violate _) fun _ m₂ _ => hrest m₂
  | true => exact hrest m₁

end Compound

section Procedures

variable {run run' : Direction → Stmt → Execution Unit}

/-- A procedure starts in order, so it is enough that the statements of its body coincide. -/
theorem runProcedure_eq_of_coincide (hcareful : ∀ d s m, Careful (run' d s) m) {p : Procedure}
    {args : List Binding} {d : Direction} {depth : Int} {mem : Memory}
    (hbody : ∀ s ∈ p.body, ∀ m, Coincide (run d s) (run' d s) m)
    (hargs : ∀ s, Binding.Among args s → s.store < mem.heap.size) :
    runProcedure lib run p args d depth mem = runProcedure lib run' p args d depth mem := by
  rw [runProcedure_apply, runProcedure_apply]
  cases hattach : (lib.frameOf p depth mem).attachAll (p.paramNames.zip args) with
  | error f => rfl
  | ok frame =>
    obtain ⟨-, happart, -⟩ := Frame.attachAll_eq_ok.mp hattach
    have hentered : (lib.entered p args d depth mem).Ordered :=
      Library.ordered_entered hargs happart
    rw [coincide_block (hcareful d) d hbody hentered]

theorem coincide_call (hcareful : ∀ d s m, Careful (run' d s) m) (d : Direction) {callee : String}
    (hcallee : ∀ p, lib.get callee = .ok p → ∀ d, ∀ s ∈ p.body, ∀ m,
      Coincide (run d s) (run' d s) m) (args : List Expr) (uncall : Bool) :
    Coincide (call lib run d callee args uncall) (call lib run' d callee args uncall) m := by
  refine (Coincide.refl _ m).bind (careful_ofExcept _) fun p m₁ hp => ?_
  obtain ⟨hget, rfl⟩ := ofExcept_eq_ok.mp hp
  refine (Coincide.refl _ m₁).bind (careful_of_after (after_arguments args m₁))
    fun operands m₂ hoperands => ?_
  obtain ⟨rfl, hcovers, -⟩ := covers_of_arguments hoperands
  refine (Coincide.refl _ m₂).bind (careful_refuse _) fun _ m₃ h₃ => ?_
  refine (Coincide.refl _ m₃).bind (careful_refuse _) fun _ m₄ h₄ => ?_
  refine (Coincide.refl _ m₄).bind (careful_of_after rfl) fun m₅ m₆ h₆ => ?_
  obtain ⟨-, rfl⟩ := refuse_eq_ok.mp h₃
  obtain ⟨-, rfl⟩ := refuse_eq_ok.mp h₄
  cases h₆
  intro hm
  -- what the arguments stand for is named in the frame of the caller, which is in order
  have hargs : ∀ s, Binding.Among (operands.1.map Prod.snd) s → s.store < m₄.heap.size :=
    fun s hs => hm.store_lt (hcovers s (Binding.among_iff_mem_slotsOf.mp hs))
  rw [onMemory_apply, onMemory_apply,
    runProcedure_eq_of_coincide hcareful (hcallee p hget _) hargs]

end Procedures

/-- **All statements.** A condition that holds of the statements of the library in machines that
are in order never sounds the alarm. -/
theorem coincide_monitored {P : Direction → Stmt → Machine → Prop}
    (hP : ∀ d s m, lib.Holds s → m.Ordered → P d s m) (alarm : Execution Unit) (fuel : Nat)
    (d : Direction) {s : Stmt} (hs : lib.Holds s) (m : Machine) :
    Coincide (monitored P alarm lib fuel d s) (exec lib fuel d s) m := by
  induction fuel generalizing d s m with
  | zero => exact .refl _ m
  | succ fuel ih =>
    have hcareful := careful_exec lib fuel
    have hbody : ∀ body ∈ s.bodies, ∀ t ∈ body, ∀ m,
        Coincide (monitored P alarm lib fuel d t) (exec lib fuel d t) m :=
      fun body hbody t ht => ih d (hs.of_bodies hbody ht)
    have hstep : ∀ m, Coincide (step lib (monitored P alarm lib fuel) fuel d s)
        (step lib (exec lib fuel) fuel d s) m := by
      intro m
      cases s with
      | branch loc guard thenBody elseBody assertion =>
        exact coincide_branch (hcareful d) d guard assertion (hbody _ (by simp [Stmt.bodies]))
          (hbody _ (by simp [Stmt.bodies]))
      | call loc callee args uncall =>
        exact coincide_call hcareful d (fun p hp d t ht =>
          ih d (Library.holds_of_body (Library.mem_of_get hp) ht)) args uncall
      | loop loc entry doBody loopBody exit =>
        exact coincide_loop (hcareful d) fuel d entry exit (hbody _ (by simp [Stmt.bodies]))
          (hbody _ (by simp [Stmt.bodies]))
      | block loc body => exact coincide_block (hcareful d) d (hbody _ (by simp [Stmt.bodies]))
      | assign | declare | discard | swap | hole => exact .refl _ m
    intro hm
    have htraced : (traced s m).Ordered :=
      (Machine.Safe.of_eq (heap_traced s m) (frame_traced s m)).ordered hm
    rw [monitored, exec]
    simp only [bind_apply, get_apply, if_pos (hP d s m hs hm), trace_apply, annotated,
      hstep _ htraced]

end Execution

/-! ## Runs of procedures -/

namespace Library

/-- **No aliasing inside a frame.** A run of a procedure of an accepted library, in either
direction, is the same as one that sounds an alarm before any statement, in whatever frame, that
finds two names with a slot in common, arguments that have passed their check and cannot be bound,
an update other than of an element that reads what it writes, or an update of a variable that fails
for overlapping storage. The last is understood of functions of the host that do not fail in that
way themselves, and those that are built in do not. -/
theorem run_unaliased {lib : Library} (hlib : lib.Accepted) {p : Procedure}
    (hp : p ∈ lib.procedures) {args : List Binding} {mem : Memory}
    (hargs : ∀ s, Binding.Among args s → s.store < mem.heap.size) (fuel : Nat) (d : Direction)
    (depth : Int) (alarm : Execution Unit) :
    Execution.runProcedure lib (Execution.monitored lib.Unaliased alarm lib fuel) p args d depth
        mem = lib.run fuel p args d depth mem ∧
      (lib.functions ⊆ HostFunction.builtins → HostFunction.AllHarmless lib.functions) := by
  refine ⟨?_, HostFunction.allHarmless_of_builtins⟩
  refine Execution.runProcedure_eq_of_coincide (Execution.careful_exec lib fuel)
    (fun s hs m => ?_) hargs
  exact Execution.coincide_monitored (fun d s m hs hm => hlib.unaliased hs hm d) alarm fuel d
    (holds_of_body hp hs) m

end Library

/-- A run with a call that runs a loop backward never sounds the alarm, and completes. -/
theorem settle_unaliased : (Sample.library true).Accepted ∧
    Sample.settle ∈ (Sample.library true).procedures ∧
    (∀ s, Binding.Among Sample.arguments s → s.store < Sample.memory.heap.size) ∧
    HostFunction.AllHarmless (Sample.library true).functions ∧
    ∀ alarm, ∃ mem', Execution.runProcedure (Sample.library true)
      (Execution.monitored (Sample.library true).Unaliased alarm (Sample.library true) 10)
      Sample.settle Sample.arguments .forward 0 Sample.memory = .ok () mem' := by
  have hsettle : Sample.settle ∈ (Sample.library true).procedures := by simp [Sample.library]
  have hunaliased := Library.run_unaliased (Sample.accepted true) hsettle Sample.placed_arguments 10
    .forward 0
  refine ⟨Sample.accepted true, hsettle, Sample.placed_arguments,
    (hunaliased (throw .exhausted)).2 (List.nil_subset _), fun alarm => ?_⟩
  have hruns : completes ((Sample.library true).run 10 Sample.settle Sample.arguments .forward 0)
      Sample.memory = true := by
    decide +kernel
  obtain ⟨_, mem', h⟩ := exists_of_completes hruns
  exact ⟨mem', (hunaliased alarm).1.trans h⟩

end Retrace
