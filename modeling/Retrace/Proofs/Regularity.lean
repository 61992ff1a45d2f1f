import Retrace.Proofs.Legality

/-!
# Legal procedures stop for reasons of the language only

A run of a procedure that was read from a text and registered is not stopped by a name that is bound
twice, a local that is foreign, a procedure that is unknown or a tree that cannot be run: if it
stops early, then because a rule of the language was broken (`Library.regular_run`). The one
exception is a host function that gives no number. To say that no call in a run does this, the run
is set beside one in which all such calls end with `Fault.hostFailure` (`Library.watched`): it must
not end so.

`Regular` is the judgement about both runs at once: unless a host function fails, both end alike,
and where they complete the state satisfies a postcondition. The invariant of a block is
`Frame.Carries`: the frame holds what it held when the block started, and on top of it the pending
locals of the place, in either direction. From it follows that a name which begins is not bound, and
that a name which ends is bound to a slot of the frame.
-/

namespace Retrace

open Actions Legality

/-! ## Reasons to stop -/

/-- A rule of the language was broken while a procedure ran. -/
def Fault.Expected (f : Fault) : Prop := ∃ g : Failure, f = .failure g ∧ g.isRun = true

/-- A rule of the language was broken, or the fuel is used up. -/
def Stop.Expected (stop : Stop) : Prop :=
  stop = .exhausted ∨ ∃ f : Fault, stop = .fault f ∧ f.Expected

theorem Fault.Expected.stop {f : Fault} (h : f.Expected) : Stop.Expected (.fault f) :=
  Or.inr ⟨f, rfl, h⟩

theorem Violation.expected (v : Violation) (p : Option String) : (v.fault p).Expected :=
  ⟨_, rfl, rfl⟩

theorem Fault.spans_expected : Fault.Spans Fault.Expected := fun v procedure _ =>
  v.expected procedure

/-- If the result is a fault, a rule of the language was broken. -/
abbrev Fault.Tame {α : Type} (r : Except Fault α) : Prop := Fault.Only Fault.Expected r

theorem Heap.tame_read (h : Heap) (s : Slot) : Fault.Tame (h.read s) :=
  h.only_read (fun i => Violation.expected (.released i) none) s

namespace Frame

variable (f : Frame) (name : String)

theorem tame_lookup : Fault.Tame (f.lookup name) :=
  f.only_lookup (Fault.spans_expected.frame f) name

theorem tame_slot : Fault.Tame (f.slot name) := f.only_slot (Fault.spans_expected.frame f) name

theorem tame_element (i : Int) : Fault.Tame (f.element name i) :=
  f.only_element (Fault.spans_expected.frame f) name i

/-- Parameters with different names that are not bound yet can only share storage. -/
theorem tame_attachAll {f : Frame} {params : List (String × Binding)}
    (hnodup : (params.map Prod.fst).Nodup) (hnew : ∀ x ∈ params.map Prod.fst, x ∉ f.names) :
    Fault.Tame (f.attachAll params) := by
  induction params generalizing f with
  | nil => exact .ok f
  | cons param rest ih =>
    obtain ⟨name, b⟩ := param
    rw [List.map_cons, List.nodup_cons] at hnodup
    rw [List.map_cons, List.forall_mem_cons] at hnew
    have hhas : f.has name = false := by
      rw [← Bool.not_eq_true, has_iff_mem_names]
      exact hnew.1
    have hpush : ∀ x ∈ rest.map Prod.fst, x ∉ (f.push name b).names := by
      intro x hx
      simp only [names, push, List.map_append, List.mem_append, List.map_cons, List.map_nil,
        List.mem_singleton, not_or]
      exact ⟨hnew.2 x hx, fun he => hnodup.1 (he ▸ hx)⟩
    simp only [attachAll, attach, hhas, Bool.false_eq_true, if_false]
    cases f.overlapping? b with
    | some other => exact .error (Violation.expected _ _)
    | none => exact ih hnodup.2 hpush

end Frame

theorem BinaryOp.tame_apply (op : BinaryOp) (f : Frame) (l r : Int) :
    Fault.Tame (op.apply f l r) :=
  op.only_apply (Fault.spans_expected.frame f) l r

/-! ## Host functions under watch -/

/-- The function with `hostFailure` for all its faults. -/
def HostFunction.watched (f : HostFunction) : HostFunction :=
  fun values => (f values).mapError fun _ => .hostFailure

/-- The library with `hostFailure` for all faults of its host functions. A run of it ends so exactly
if it calls a function that gives no number. -/
def Library.watched (lib : Library) : Library :=
  { lib with functions := lib.functions.map fun entry => (entry.1, HostFunction.watched entry.2) }

/-- The scope with `hostFailure` for all faults of its host functions. -/
def Scope.watched (s : Scope) : Scope :=
  { s with functions := s.functions.map fun entry => (entry.1, HostFunction.watched entry.2) }

theorem Machine.scope_watched (m : Machine) (lib : Library) :
    m.scope lib.watched = (m.scope lib).watched := rfl

/-! ## Regular actions -/

/-- How errors are judged. -/
structure Judgement (ε : Type) where
  /-- a host function gave no number -/
  host : ε
  expected : ε → Prop

/-- The judgement on faults. -/
def Judgement.faults : Judgement Fault := ⟨.hostFailure, Fault.Expected⟩

/-- The judgement on runs that stop. -/
def Judgement.stops : Judgement Stop := ⟨.fault .hostFailure, Stop.Expected⟩

/-- From the state `s`, the second action meets a host function that gives no number, or both
actions end alike: they complete and satisfy `post`, or they end with an expected error. -/
inductive Regular {ε σ α : Type} (v : Judgement ε) (x y : EStateM ε σ α) (s : σ)
    (post : α → σ → Prop) : Prop
  | host {t : σ} (hy : y s = .error v.host t)
  | ok {a : α} {t : σ} (hx : x s = .ok a t) (hy : y s = .ok a t) (h : post a t)
  | error {e : ε} {t : σ} (hx : x s = .error e t) (hy : y s = .error e t) (h : v.expected e)

namespace Regular

variable {ε σ α β : Type} {v : Judgement ε} {x y : EStateM ε σ α} {s : σ} {post : α → σ → Prop}

theorem mono {post' : α → σ → Prop} (h : Regular v x y s post)
    (hpost : ∀ a t, post a t → post' a t) : Regular v x y s post' := by
  cases h with
  | host hy => exact .host hy
  | ok hx hy h => exact .ok hx hy (hpost _ _ h)
  | error hx hy h => exact .error hx hy h

theorem bind {f g : α → EStateM ε σ β} {post' : β → σ → Prop} (h : Regular v x y s post)
    (hf : ∀ a t, post a t → Regular v (f a) (g a) t post') :
    Regular v (x >>= f) (y >>= g) s post' := by
  cases h with
  | host hy => exact .host (by rw [bind_apply, hy])
  | error hx hy he => exact .error (by rw [bind_apply, hx]) (by rw [bind_apply, hy]) he
  | @ok a t hx hy h =>
    have hfx : (x >>= f) s = f a t := by rw [bind_apply, hx]
    have hgy : (y >>= g) s = g a t := by rw [bind_apply, hy]
    cases hf a t h with
    | host hg => exact .host (hgy.trans hg)
    | ok hf hg h => exact .ok (hfx.trans hf) (hgy.trans hg) h
    | error hf hg h => exact .error (hfx.trans hf) (hgy.trans hg) h

theorem pure {a : α} (h : post a s) : Regular v (pure a) (pure a) s post := .ok rfl rfl h

theorem throw {e : ε} (h : v.expected e) : Regular v (throw e) (throw e) s post := .error rfl rfl h

theorem get_bind {f g : σ → EStateM ε σ α} (h : Regular v (f s) (g s) s post) :
    Regular v (get >>= f) (get >>= g) s post := by
  cases h with
  | host hy => exact .host hy
  | ok hx hy h => exact .ok hx hy h
  | error hx hy h => exact .error hx hy h

theorem modify (f : σ → σ) : Regular v (modify f) (modify f) s fun _ t => f s = t :=
  .ok rfl rfl rfl

/-- An action that does not depend on host functions. -/
theorem self (hok : ∀ a t, x s = .ok a t → post a t)
    (herror : ∀ e t, x s = .error e t → v.expected e) : Regular v x x s post := by
  cases hx : x s with
  | ok a t => exact .ok hx hx (hok a t hx)
  | error e t => exact .error hx hx (herror e t hx)

/-- Actions whose outcomes are those of regular actions in a larger state. -/
theorem embed {τ : Type} {f : σ → τ} {x' y' : EStateM ε τ α} {u : τ} {post' : α → τ → Prop}
    (h : Regular v x y s post) (hx' : x' u = Actions.embed f (x s))
    (hy' : y' u = Actions.embed f (y s)) (hpost : ∀ a t, post a t → post' a (f t)) :
    Regular v x' y' u post' := by
  cases h with
  | host hy => exact .host (by rw [hy', hy, embed_error])
  | ok hx hy h => exact .ok (by rw [hx', hx, embed_ok]) (by rw [hy', hy, embed_ok]) (hpost _ _ h)
  | error hx hy h => exact .error (by rw [hx', hx, embed_error]) (by rw [hy', hy, embed_error]) h

/-- A step that may be in front of another one, and has no result. -/
theorem guard {c : Prop} [Decidable c] {k l : EStateM ε σ β} {post' : β → σ → Prop}
    (h : c → Regular v x y s fun _ _ => False) (hk : ¬c → Regular v k l s post') :
    Regular v (if c then x >>= fun _ => k else k) (if c then y >>= fun _ => l else l) s post' := by
  split
  · exact (h ‹_›).bind fun _ _ hfalse => hfalse.elim
  · exact hk ‹_›

end Regular

/-! ## Evaluation -/

namespace Scope

open Judgement

variable {s : Scope} {t : Table}

theorem regular_ofExcept {α : Type} {r : Except Fault α} (h : Fault.Tame r) (reads : List Slot) :
    Regular faults (MonadExcept.ofExcept r : Reading α) (MonadExcept.ofExcept r) reads
      fun _ _ => True := by
  cases r with
  | ok a => exact .pure trivial
  | error f => exact .throw (h f rfl)

theorem regular_readSlot (u : Slot) (reads : List Slot) :
    Regular faults (s.readSlot u) (s.watched.readSlot u) reads fun _ _ => True :=
  (Regular.modify _).bind fun _ _ _ => regular_ofExcept (s.heap.tame_read u) _

/-- A host function gives a number to both, or none to either. -/
theorem regular_call (f : HostFunction) (values : List Int) (reads : List Slot) :
    Regular faults (MonadExcept.ofExcept (f values) : Reading Int)
      (MonadExcept.ofExcept (HostFunction.watched f values)) reads fun _ _ => True := by
  unfold HostFunction.watched
  cases f values with
  | ok n => exact .pure trivial
  | error e => exact .host rfl

mutual

/-- A legal expression comes to a value, or it breaks a rule of the language. -/
theorem regular_eval (hs : t.Offered s.functions) : ∀ {e : Expr}, e.Evaluable t → ∀ reads,
    Regular faults (s.eval e) (s.watched.eval e) reads fun _ _ => True
  | .int _ n, _, reads => by
    simp only [eval]
    exact .pure trivial
  | .bool _ b, _, reads => by
    simp only [eval]
    exact .pure trivial
  | .var _ x, _, reads => by
    simp only [eval]
    exact (regular_ofExcept (s.frame.tame_slot x) _).bind fun u _ _ =>
      (regular_readSlot u _).bind fun _ _ _ => .pure trivial
  | .elem _ x index, he, reads => by
    rw [Expr.Evaluable] at he
    simp only [eval]
    exact (regular_eval hs he reads).bind fun i _ _ =>
      (regular_ofExcept (s.frame.tame_element x _) _).bind fun u _ _ =>
        (regular_readSlot u _).bind fun _ _ _ => .pure trivial
  | .binary _ op left right, he, reads => by
    rw [Expr.Evaluable] at he
    obtain ⟨o, ho⟩ := Option.isSome_iff_exists.mp he.1
    rw [eval_binary, eval_binary, ho]
    refine (regular_eval hs he.2.1 reads).bind fun l reads _ => ?_
    cases hsettled : o.settled? l.holds with
    | some b =>
      simp only [hsettled]
      exact .pure trivial
    | none =>
      simp only [hsettled]
      exact (regular_eval hs he.2.2 reads).bind fun r reads _ =>
        regular_ofExcept (o.tame_apply s.frame _ _) reads
  | .unary _ op operand, he, reads => by
    rw [Expr.Evaluable] at he
    obtain ⟨o, ho⟩ := Option.isSome_iff_exists.mp he.1
    simp only [eval, ho]
    exact (regular_eval hs he.2 reads).bind fun v reads _ => .pure trivial
  | .call _ name args, he, reads => by
    rw [Expr.Evaluable] at he
    obtain ⟨f, hf⟩ := Option.isSome_iff_exists.mp (hs name he.1)
    have hwatched : Datum.field? name s.watched.functions = some (HostFunction.watched f) := by
      rw [Scope.watched, Datum.field?_map, hf]
      rfl
    simp only [eval, hf, hwatched]
    exact (regular_evalAll hs he.2 reads).bind fun values reads _ =>
      (regular_call f values reads).bind fun _ _ _ => .pure trivial
  | .update .., he, _ => he.elim
  | .hole _, he, _ => he.elim

theorem regular_evalAll (hs : t.Offered s.functions) :
    ∀ {es : List Expr}, Expr.AllEvaluable t es → ∀ reads,
      Regular faults (s.evalAll es) (s.watched.evalAll es) reads fun _ _ => True
  | [], _, reads => by
    simp only [evalAll]
    exact .pure trivial
  | e :: es, he, reads => by
    rw [Expr.AllEvaluable] at he
    simp only [evalAll]
    exact (regular_eval hs he.1 reads).bind fun v reads _ =>
      (regular_evalAll hs he.2 reads).bind fun _ _ _ => .pure trivial

end

theorem regular_locate (hs : t.Offered s.functions) {e : Expr} (he : e.Locatable t)
    (reads : List Slot) :
    Regular faults (s.locate e) (s.watched.locate e) reads fun _ _ => True := by
  obtain ⟨href, he⟩ := he
  cases e with
  | var loc x => exact regular_ofExcept (s.frame.tame_slot x) _
  | elem loc x index =>
    rw [Expr.Evaluable] at he
    exact (regular_eval hs he reads).bind fun i reads _ =>
      regular_ofExcept (s.frame.tame_element x _) reads
  | int | bool | binary | unary | call | update | hole => cases href

theorem regular_argument (hs : t.Offered s.functions) {e : Expr} (he : e.Locatable t)
    (reads : List Slot) :
    Regular faults (s.argument e) (s.watched.argument e) reads fun _ _ => True := by
  cases e with
  | var loc x => exact regular_ofExcept (s.frame.tame_lookup x) _
  | _ => exact (regular_locate hs he reads).bind fun _ _ _ => .pure trivial

end Scope

/-! ## Single statements -/

namespace Execution

open Judgement

variable {lib : Library} {t : Table} {m : Machine}

theorem regular_ofExcept {α : Type} {r : Except Fault α} (h : Fault.Tame r) :
    Regular stops (ofExcept r) (ofExcept r) m fun a m' => r = .ok a ∧ m = m' := by
  cases r with
  | ok a => exact .pure ⟨rfl, rfl⟩
  | error f => exact .throw (h f rfl).stop

theorem regular_violate {α : Type} (v : Violation) {post : α → Machine → Prop} :
    Regular stops (violate v) (violate v) m post :=
  .get_bind (.throw (Violation.expected _ _).stop)

theorem regular_refuse (v : Option Violation) :
    Regular stops (refuse v) (refuse v) m fun _ m' => m = m' := by
  cases v with
  | none => exact .pure rfl
  | some v => exact regular_violate v

theorem regular_reading {α : Type} (before : List Slot) {work : Scope → Reading α}
    (h : Regular faults (work (m.scope lib)) (work (m.scope lib).watched) before fun _ _ => True) :
    Regular stops (reading lib before work) (reading lib.watched before work) m
      fun _ m' => m = m' := by
  have happly := reading_apply lib before work m
  have hwatched := reading_apply lib.watched before work m
  rw [Machine.scope_watched] at hwatched
  cases h with
  | host hy => exact .host (t := m) (by rw [hwatched, hy]; rfl)
  | ok hx hy _ =>
    rw [hx] at happly
    rw [hy] at hwatched
    exact .ok happly hwatched rfl
  | error hx hy he =>
    rw [hx] at happly
    rw [hy] at hwatched
    exact .error happly hwatched he.stop

theorem ofExcept_value_of_ok {scope : Scope} {e : Expr} {v : Value} {reads : List Slot}
    (h : scope.eval e [] = .ok v reads) : ofExcept (scope.value e) m = .ok v m := by
  rw [Scope.value, h]
  rfl

theorem ofExcept_value_of_error {scope : Scope} {e : Expr} {f : Fault} {reads : List Slot}
    (h : scope.eval e [] = .error f reads) : ofExcept (scope.value e) m = .error (.fault f) m := by
  rw [Scope.value, h]
  rfl

/-- The value of an expression, in both runs. -/
theorem regular_value (hlib : lib.Keeps t) {e : Expr} (he : e.Evaluable t) :
    Regular stops (ofExcept ((m.scope lib).value e)) (ofExcept ((m.scope lib.watched).value e)) m
      fun _ m' => m = m' := by
  have heval : Regular faults ((m.scope lib).eval e) ((m.scope lib).watched.eval e) []
      fun _ _ => True := Scope.regular_eval hlib.functions he []
  cases heval with
  | host hy => exact .host (ofExcept_value_of_error hy)
  | ok hx hy _ => exact .ok (ofExcept_value_of_ok hx) (ofExcept_value_of_ok hy) rfl
  | error hx hy hf =>
    exact .error (ofExcept_value_of_error hx) (ofExcept_value_of_error hy) hf.stop

theorem regular_number (hlib : lib.Keeps t) {e : Expr} (he : e.Evaluable t) :
    Regular stops (number lib e) (number lib.watched e) m fun _ m' => m = m' :=
  .get_bind ((regular_value hlib he).bind fun _ _ hm => .pure hm)

theorem regular_test (hlib : lib.Keeps t) {e : Expr} (he : e.Evaluable t) :
    Regular stops (test lib e) (test lib.watched e) m fun _ m' => m = m' := by
  have hmap : ∀ scope : Scope,
      ofExcept (scope.test e) = ofExcept (scope.value e) >>= fun v => pure v.holds := by
    intro scope
    unfold Scope.test
    cases scope.value e <;> rfl
  refine .get_bind ?_
  rw [hmap, hmap]
  exact (regular_value hlib he).bind fun _ _ hm => .pure hm

theorem regular_readSlot (s : Slot) :
    Regular stops (readSlot s) (readSlot s) m fun _ m' => m = m' :=
  .get_bind ((regular_ofExcept (m.heap.tame_read s)).mono fun _ _ h => h.2)

theorem regular_writeSlot (s : Slot) (n : Int) :
    Regular stops (writeSlot s n) (writeSlot s n) m fun _ m' => m'.frame = m.frame := by
  refine .self (fun a m' h => ?_) fun stop m' h => ?_
  · obtain ⟨-, -, rfl⟩ := writeSlot_eq_ok.mp h
    rfl
  · rw [writeSlot_apply] at h
    split at h
    · cases h
      exact (Violation.expected _ _).stop
    · split at h
      · cases h
      · cases h
        exact (Violation.expected _ _).stop

theorem regular_assign (hlib : lib.Keeps t) (d : Direction) {target value : Expr} {op : String}
    (hop : (Update.ofSymbol? op).isSome = true) (htarget : target.Locatable t)
    (hvalue : value.Evaluable t) :
    Regular stops (assign lib d target op value) (assign lib.watched d target op value) m
      fun _ m' => m'.frame = m.frame := by
  obtain ⟨u, hu⟩ := Option.isSome_iff_exists.mp hop
  have hsymbol : Update.ofSymbol op = .ok u := by rw [Update.ofSymbol, hu]
  rw [assign_eq, assign_eq, hsymbol]
  refine (regular_ofExcept (.ok u)).bind fun _ _ ⟨_, h₀⟩ => ?_
  subst h₀
  refine (regular_reading [] (Scope.regular_locate hlib.functions htarget [])).bind fun a _ h₁ => ?_
  subst h₁
  refine (regular_reading _ (Scope.regular_eval hlib.functions hvalue _)).bind fun b _ h₂ => ?_
  subst h₂
  refine (regular_refuse _).bind fun _ _ h₃ => ?_
  subst h₃
  refine (regular_readSlot _).bind fun _ _ h₄ => ?_
  subst h₄
  exact regular_writeSlot _ _

theorem regular_swap (hlib : lib.Keeps t) {left right : Expr} (hl : left.Locatable t)
    (hr : right.Locatable t) :
    Regular stops (swap lib left right) (swap lib.watched left right) m
      fun _ m' => m'.frame = m.frame := by
  refine (regular_reading [] (Scope.regular_locate hlib.functions hl [])).bind fun a _ h₁ => ?_
  subst h₁
  refine (regular_reading [] (Scope.regular_locate hlib.functions hr [])).bind fun b _ h₂ => ?_
  subst h₂
  refine (regular_refuse _).bind fun _ _ h₃ => ?_
  subst h₃
  refine (regular_refuse _).bind fun _ _ h₄ => ?_
  subst h₄
  refine (regular_readSlot _).bind fun _ _ h₅ => ?_
  subst h₅
  refine (regular_readSlot _).bind fun _ _ h₆ => ?_
  subst h₆
  exact (regular_writeSlot _ _).bind fun _ _ h₇ =>
    (regular_writeSlot _ _).mono fun _ _ h₈ => h₈.trans h₇

/-- A name that is not bound can begin. -/
theorem regular_introduce (hlib : lib.Keeps t) {name : String} {e : Expr} (he : e.Evaluable t)
    (hname : m.frame.has name = false) :
    Regular stops (introduce lib name e) (introduce lib.watched name e) m fun _ m' =>
      ∃ s : Slot, s.store = m.frame.locals ∧ m'.frame = m.frame.push name (.scalar s) := by
  refine (regular_number hlib he).bind fun n _ h₁ => ?_
  subst h₁
  have hbind : Regular stops (Execution.bind name n) (Execution.bind name n) m fun _ m' =>
      ∃ s : Slot, s.store = m.frame.locals ∧ m'.frame = m.frame.push name (.scalar s) := by
    refine .get_bind (Regular.guard (fun h => ?_) fun _ => ?_)
    · rw [hname] at h
      cases h
    have halloc : Regular stops (onHeap (Heap.within m.frame.locals (Store.alloc n)))
        (onHeap (Heap.within m.frame.locals (Store.alloc n))) m
        fun _ m' => m'.frame = m.frame := by
      refine .self (fun i m' h => ?_) fun stop m' h => ?_
      · obtain ⟨-, -, rfl⟩ := onHeap_alloc_eq_ok.mp h
        rfl
      · rw [onHeap_alloc_apply] at h
        split at h
        · cases h
        · cases h
          exact (Violation.expected _ _).stop
    refine halloc.bind fun i m' hframe => ?_
    refine (Regular.modify _).bind fun _ k hk => .pure ⟨⟨m.frame.locals, i⟩, rfl, ?_⟩
    rw [← hk, hframe]
  exact hbind.bind fun _ _ h => .pure h

/-- A name that is bound to a slot of the frame can end. -/
theorem regular_remove (hlib : lib.Keeps t) {name : String} {e : Expr} (he : e.Evaluable t)
    {s : Slot} (hname : m.frame.lookup? name = some (.scalar s)) (hs : s.store = m.frame.locals) :
    Regular stops (remove lib name e) (remove lib.watched name e) m fun _ m' =>
      m'.frame = m.frame.erase name := by
  have hslot : m.frame.slot name = .ok s := Frame.slot_eq_ok.mpr hname
  refine (regular_number hlib he).bind fun n _ h₁ => ?_
  subst h₁
  refine .get_bind ((regular_ofExcept (m.frame.tame_slot name)).bind fun u _ ⟨hu, h₂⟩ => ?_)
  subst h₂
  obtain rfl : s = u := Except.ok.inj (hslot.symm.trans hu)
  refine (regular_readSlot s).bind fun c _ h₃ => ?_
  subst h₃
  refine Regular.guard (fun _ => regular_violate _) fun _ => ?_
  have hunbind : Regular stops (unbind name) (unbind name) m
      fun _ m' => m'.frame = m.frame.erase name := by
    refine .get_bind ((regular_ofExcept (m.frame.tame_slot name)).bind fun u _ ⟨hu, h₂⟩ => ?_)
    subst h₂
    obtain rfl : s = u := Except.ok.inj (hslot.symm.trans hu)
    refine Regular.guard (fun hne => absurd hs hne) fun _ => ?_
    refine (Regular.modify _).bind fun _ k hk => ?_
    subst hk
    refine .self (fun n m' h => ?_) fun stop m' h => ?_
    · obtain ⟨-, rfl⟩ := onHeap_free_eq_ok.mp h
      rfl
    · rw [onHeap_free_apply] at h
      split at h
      · cases h
        exact (Violation.expected _ _).stop
      · cases h
  exact hunbind.bind fun _ _ h => .pure h

theorem regular_arguments (hlib : lib.Keeps t) {args : List Expr}
    (hargs : ∀ arg ∈ args, arg.Locatable t) :
    Regular stops (arguments lib args) (arguments lib.watched args) m
      fun r m' => r.1.length = args.length ∧ m = m' := by
  induction args with
  | nil => exact .pure ⟨rfl, rfl⟩
  | cons arg rest ih =>
    rw [List.forall_mem_cons] at hargs
    refine (regular_reading [] (Scope.regular_argument hlib.functions hargs.1 [])).bind
      fun a _ h₁ => ?_
    subst h₁
    exact (ih hargs.2).bind fun r _ h₂ => .pure ⟨by simp [h₂.1], h₂.2⟩

end Execution

/-! ## The names of a block -/

/-- The frame holds what `f₀` holds, and on top of it the pending locals, in slots of its own. -/
def Frame.Carries (f₀ : Frame) (pending : List String) (f : Frame) : Prop :=
  ∃ extra : List (String × Binding), f = { f₀ with bindings := f₀.bindings ++ extra } ∧
    (extra.map Prod.fst).Perm pending ∧
    ∀ entry ∈ extra, ∃ s : Slot, entry.2 = .scalar s ∧ s.store = f₀.locals

namespace Frame.Carries

variable {f₀ f : Frame} {bound pending : List String} {name : String}

theorem nil (f₀ : Frame) : f₀.Carries [] f₀ := ⟨[], by simp, by simp, nofun⟩

theorem eq_of_nil (h : f₀.Carries [] f) : f = f₀ := by
  obtain ⟨extra, rfl, hperm, -⟩ := h
  obtain rfl : extra = [] := by simpa using hperm.eq_nil
  simp

theorem locals_eq (h : f₀.Carries pending f) : f.locals = f₀.locals := by
  obtain ⟨extra, rfl, -⟩ := h
  rfl

theorem mem_names (h : f₀.Carries pending f) :
    name ∈ f.names ↔ name ∈ f₀.names ∨ name ∈ pending := by
  obtain ⟨extra, rfl, hperm, -⟩ := h
  rw [names, List.map_append, List.mem_append, hperm.mem_iff]
  rfl

/-- The names that are bound are those of the start of the block and those of the check. -/
theorem names_subset (h : f₀.Carries pending f) (hbound : f₀.names ⊆ bound) :
    f.names ⊆ bound ++ pending := by
  intro x hx
  exact List.mem_append.mpr ((h.mem_names.mp hx).imp_left fun hx => hbound hx)

/-- A name that begins is not bound. -/
theorem has_eq_false (h : f₀.Carries pending f) (hbound : f₀.names ⊆ bound)
    (hname : name ∉ bound) (hpending : name ∉ pending) : f.has name = false := by
  rw [← Bool.not_eq_true, has_iff_mem_names, h.mem_names]
  exact fun hmem => hmem.elim (fun hx => hname (hbound hx)) hpending

theorem push (h : f₀.Carries pending f) (name : String) {s : Slot} (hs : s.store = f.locals) :
    f₀.Carries (pending ++ [name]) (f.push name (.scalar s)) := by
  have hlocals := h.locals_eq
  obtain ⟨extra, rfl, hperm, hextra⟩ := h
  refine ⟨extra ++ [(name, .scalar s)], by simp [Frame.push], ?_, fun entry hentry => ?_⟩
  · simpa using hperm.append_right [name]
  · rcases List.mem_append.mp hentry with hentry | hentry
    · exact hextra entry hentry
    · rw [List.mem_singleton.mp hentry]
      exact ⟨s, rfl, hs.trans hlocals⟩

/-- A name that ends is bound to a slot of the frame. -/
theorem lookup?_eq_some (h : f₀.Carries pending f) (hname : name ∈ pending)
    (hnew : name ∉ f₀.names) :
    ∃ s : Slot, f.lookup? name = some (.scalar s) ∧ s.store = f.locals := by
  obtain ⟨extra, rfl, hperm, hextra⟩ := h
  have hbase : Datum.field? name f₀.bindings = none := by
    rw [← Option.not_isSome_iff_eq_none, Datum.field?_isSome]
    exact fun hany => hnew (has_iff_mem_names.mp hany)
  have hmem : name ∈ extra.map Prod.fst := hperm.mem_iff.mpr hname
  have hsome : (Datum.field? name extra).isSome = true := by
    rw [Datum.field?_isSome]
    simpa using hmem
  obtain ⟨b, hb⟩ := Option.isSome_iff_exists.mp hsome
  obtain ⟨s, hs, hstore⟩ := hextra _ (Datum.mem_of_field? hb)
  obtain rfl : b = .scalar s := hs
  refine ⟨s, ?_, hstore⟩
  rw [lookup?, Datum.field?_append, hbase, hb]
  rfl

theorem erase (h : f₀.Carries pending f) (hpending : pending.Nodup) (hnew : name ∉ f₀.names) :
    f₀.Carries (pending.erase name) (f.erase name) := by
  obtain ⟨extra, rfl, hperm, hextra⟩ := h
  have hnodup : (extra.map Prod.fst).Nodup := hperm.nodup_iff.mpr hpending
  refine ⟨extra.filter fun entry => entry.1 != name, ?_, ?_, fun entry hentry =>
    hextra entry (List.mem_filter.mp hentry).1⟩
  · have hbase : f₀.bindings.filter (fun entry => entry.1 != name) = f₀.bindings := by
      refine List.filter_eq_self.mpr fun entry hentry => ?_
      have hne : entry.1 ≠ name := fun he => hnew (he ▸ List.mem_map_of_mem hentry)
      simpa using hne
    simp only [Frame.erase, List.filter_append, hbase]
  · have hfilter : (extra.filter fun entry => entry.1 != name).map Prod.fst =
        (extra.map Prod.fst).erase name := by
      rw [hnodup.erase_eq_filter, List.filter_map]
      rfl
    rw [hfilter]
    exact hperm.erase name

end Frame.Carries

/-! ## Statements made of others -/

namespace Execution

open Judgement Stmt

variable {lib : Library} {t : Table}

/-- In the direction `d`, the runs of a statement are regular wherever it is legal, and leave the
names as they are. -/
def RegularRuns (t : Table) (run run' : Stmt → Execution Unit) : Prop :=
  ∀ (s : Stmt) (bound : List String) (m : Machine), s.Scoped bound → (∀ u ∈ s.nested, u.Proper t) →
    m.frame.names ⊆ bound → Regular stops (run s) (run' s) m fun _ m' => m'.frame = m.frame

/-- A statement that is about to run is logged, and its failures get its name. -/
theorem regular_exec_of_step {fuel : Nat} {d : Direction} {s : Stmt} {m : Machine}
    {post : Unit → Machine → Prop}
    (h : ∀ k, fuel = k + 1 → Regular stops (step lib (exec lib k) k d s)
      (step lib.watched (exec lib.watched k) k d s) (traced s m) post) :
    Regular stops (exec lib fuel d s) (exec lib.watched fuel d s) m post := by
  cases fuel with
  | zero => exact .throw (Or.inl rfl)
  | succ k =>
    have hexec : ∀ lib : Library, exec lib (k + 1) d s m =
        annotated s (step lib (exec lib k) k d s) (traced s m) := by
      intro lib
      rw [exec, bind_apply, trace_apply]
    cases h k rfl with
    | @host m' hy =>
      have hhost : exec lib.watched (k + 1) d s m = .error (.fault .hostFailure) m' := by
        rw [hexec, annotated, hy]
        rfl
      exact .host hhost
    | ok hx hy hpost =>
      exact .ok ((hexec lib).trans (annotated_eq_ok.mpr hx))
        ((hexec lib.watched).trans (annotated_eq_ok.mpr hy)) hpost
    | @error stop m' hx hy hstop =>
      rcases hstop with rfl | ⟨f, rfl, g, rfl, hg⟩
      · exact .error ((hexec lib).trans (annotated_eq_exhausted.mpr hx))
          ((hexec lib.watched).trans (annotated_eq_exhausted.mpr hy)) (Or.inl rfl)
      · have hannotated : ∀ {x : Execution Unit},
            x (traced s m) = .error (.fault (.failure g)) m' → annotated s x (traced s m) =
              .error (.fault (.failure (g.annotate (some m'.frame.procedure) (some s.summary)
                s.loc))) m' := by
          intro x hx
          simp only [annotated, hx, hg, if_true]
        exact .error ((hexec lib).trans (hannotated hx)) ((hexec lib.watched).trans (hannotated hy))
          (Fault.Expected.stop ⟨_, rfl, hg⟩)

/-- A local begins, in the direction of the run. -/
theorem regular_begin (hlib : lib.Keeps t) (fuel : Nat) (d : Direction) (s : Stmt) {name : String}
    {e : Expr} {m : Machine} (he : e.Evaluable t) (hname : m.frame.has name = false)
    (hstep : ∀ (lib : Library) (k : Nat), step lib (exec lib k) k d s = introduce lib name e) :
    Regular stops (exec lib fuel d s) (exec lib.watched fuel d s) m fun _ m' =>
      ∃ u : Slot, u.store = m.frame.locals ∧ m'.frame = m.frame.push name (.scalar u) := by
  refine regular_exec_of_step fun k _ => ?_
  rw [hstep, hstep, ← frame_traced s m]
  exact regular_introduce hlib he (by rw [frame_traced]; exact hname)

/-- A local ends, in the direction of the run. -/
theorem regular_end (hlib : lib.Keeps t) (fuel : Nat) (d : Direction) (s : Stmt) {name : String}
    {e : Expr} {m : Machine} (he : e.Evaluable t) {u : Slot}
    (hname : m.frame.lookup? name = some (.scalar u)) (hu : u.store = m.frame.locals)
    (hstep : ∀ (lib : Library) (k : Nat), step lib (exec lib k) k d s = remove lib name e) :
    Regular stops (exec lib fuel d s) (exec lib.watched fuel d s) m fun _ m' =>
      m'.frame = m.frame.erase name := by
  refine regular_exec_of_step fun k _ => ?_
  rw [hstep, hstep, ← frame_traced s m]
  exact regular_remove hlib he (by rw [frame_traced]; exact hname) (by rw [frame_traced]; exact hu)

section Blocks

variable {fuel : Nat} {f₀ : Frame} {bound pending : List String}

theorem forM_concat (run : Stmt → Execution Unit) (body : List Stmt) (s : Stmt) :
    (body ++ [s]).forM run = body.forM run >>= fun _ => run s := by
  induction body with
  | nil => exact bind_pure (run s)
  | cons first rest ih =>
    change (run first >>= fun _ => (rest ++ [s]).forM run) =
      (run first >>= fun _ => rest.forM run) >>= fun _ => run s
    rw [ih, bind_assoc]

/-- Forward, the pending locals of the place are on top of what the frame held at the start. -/
theorem regular_forward (hlib : lib.Keeps t)
    (hrun : RegularRuns t (exec lib fuel .forward) (exec lib.watched fuel .forward))
    (hbound : f₀.names ⊆ bound) : ∀ {body : List Stmt} {pending : List String} {m : Machine},
      ScopedBlock bound pending body → ProperAll t body → Pending bound pending →
      f₀.Carries pending m.frame →
      Regular stops (body.forM (exec lib fuel .forward))
        (body.forM (exec lib.watched fuel .forward)) m fun _ m' => m'.frame = f₀
  | [], pending, m, h, _, _, hc => by
    rw [ScopedBlock] at h
    subst h
    exact .pure hc.eq_of_nil
  | .declare loc name value :: rest, pending, m, h, ht, hp, hc => by
    rw [ScopedBlock] at h
    rw [properAll_cons] at ht
    obtain ⟨hname, hnew, hrest⟩ := h
    have hbegin := regular_begin hlib fuel .forward (.declare loc name value)
      (ht.1 _ (mem_nested_self _)) (hc.has_eq_false hbound hname hnew) fun _ _ => rfl
    exact hbegin.bind fun _ m' ⟨u, hu, hframe⟩ =>
      regular_forward hlib hrun hbound hrest ht.2 (hp.declare hname hnew) (hframe ▸ hc.push name hu)
  | .discard loc name value :: rest, pending, m, h, ht, hp, hc => by
    rw [ScopedBlock] at h
    rw [properAll_cons] at ht
    obtain ⟨hname, hrest⟩ := h
    have hnew : name ∉ f₀.names := fun hx => hp.apart name hname (hbound hx)
    obtain ⟨u, hlookup, hu⟩ := hc.lookup?_eq_some hname hnew
    have hend := regular_end hlib fuel .forward (.discard loc name value)
      (ht.1 _ (mem_nested_self _)) hlookup hu fun _ _ => rfl
    exact hend.bind fun _ m' hframe =>
      regular_forward hlib hrun hbound hrest ht.2 (hp.discard name)
        (hframe ▸ hc.erase hp.nodup hnew)
  | .assign .. :: rest, pending, m, h, ht, hp, hc | .call .. :: rest, pending, m, h, ht, hp, hc
  | .branch .. :: rest, pending, m, h, ht, hp, hc | .loop .. :: rest, pending, m, h, ht, hp, hc
  | .swap .. :: rest, pending, m, h, ht, hp, hc | .block .. :: rest, pending, m, h, ht, hp, hc
  | .hole _ :: rest, pending, m, h, ht, hp, hc => by
    simp only [ScopedBlock] at h
    rw [properAll_cons] at ht
    exact (hrun _ _ m h.1 ht.1 (hc.names_subset hbound)).bind fun _ m' hframe =>
      regular_forward hlib hrun hbound h.2 ht.2 hp (hframe ▸ hc)

/-- Backward, the rest of a block is run before the statement in front of it, and leaves the pending
locals of its start. -/
theorem regular_backward (hlib : lib.Keeps t)
    (hrun : RegularRuns t (exec lib fuel .backward) (exec lib.watched fuel .backward))
    (hbound : f₀.names ⊆ bound) : ∀ {body : List Stmt} {pending : List String} {m : Machine},
      ScopedBlock bound pending body → ProperAll t body → Pending bound pending → m.frame = f₀ →
      Regular stops (body.reverse.forM (exec lib fuel .backward))
        (body.reverse.forM (exec lib.watched fuel .backward)) m
        fun _ m' => f₀.Carries pending m'.frame
  | [], pending, m, h, _, _, hm => by
    rw [ScopedBlock] at h
    subst h
    exact .pure (hm ▸ .nil _)
  | .declare loc name value :: rest, pending, m, h, ht, hp, hm => by
    rw [ScopedBlock] at h
    rw [properAll_cons] at ht
    obtain ⟨hname, hnew, hrest⟩ := h
    have hp' := hp.declare hname hnew
    rw [List.reverse_cons, forM_concat, forM_concat]
    refine (regular_backward hlib hrun hbound hrest ht.2 hp' hm).bind fun _ k hc => ?_
    have hmem : name ∈ pending ++ [name] := by simp
    have hbase : name ∉ f₀.names := fun hx => hname (hbound hx)
    obtain ⟨u, hlookup, hu⟩ := hc.lookup?_eq_some hmem hbase
    have hend := regular_end hlib fuel .backward (.declare loc name value)
      (ht.1 _ (mem_nested_self _)) hlookup hu fun _ _ => rfl
    refine hend.mono fun _ m' hframe => ?_
    have herase := hc.erase hp'.nodup hbase
    rw [List.erase_append_right _ hnew, List.erase_cons_head, List.append_nil] at herase
    rw [hframe]
    exact herase
  | .discard loc name value :: rest, pending, m, h, ht, hp, hm => by
    rw [ScopedBlock] at h
    rw [properAll_cons] at ht
    obtain ⟨hname, hrest⟩ := h
    rw [List.reverse_cons, forM_concat, forM_concat]
    refine (regular_backward hlib hrun hbound hrest ht.2 (hp.discard name) hm).bind fun _ k hc => ?_
    have hbegin := regular_begin hlib fuel .backward (.discard loc name value)
      (ht.1 _ (mem_nested_self _))
      (hc.has_eq_false hbound (hp.apart name hname) hp.nodup.not_mem_erase) fun _ _ => rfl
    refine hbegin.mono fun _ m' ⟨u, hu, hframe⟩ => ?_
    rw [hframe]
    obtain ⟨extra, he, hperm, hextra⟩ := hc.push name hu
    exact ⟨extra, he, hperm.trans ((List.perm_append_singleton _ _).trans
      (List.perm_cons_erase hname).symm), hextra⟩
  | .assign .. :: rest, pending, m, h, ht, hp, hm | .call .. :: rest, pending, m, h, ht, hp, hm
  | .branch .. :: rest, pending, m, h, ht, hp, hm | .loop .. :: rest, pending, m, h, ht, hp, hm
  | .swap .. :: rest, pending, m, h, ht, hp, hm | .block .. :: rest, pending, m, h, ht, hp, hm
  | .hole _ :: rest, pending, m, h, ht, hp, hm => by
    simp only [ScopedBlock] at h
    rw [properAll_cons] at ht
    rw [List.reverse_cons, forM_concat, forM_concat]
    refine (regular_backward hlib hrun hbound h.2 ht.2 hp hm).bind fun _ k hc => ?_
    exact (hrun _ _ k h.1 ht.1 (hc.names_subset hbound)).mono fun _ m' hframe => hframe ▸ hc

end Blocks

section Compound

variable {fuel : Nat} {d : Direction} {bound : List String} {m : Machine}

theorem regular_block (hlib : lib.Keeps t)
    (hrun : RegularRuns t (exec lib fuel d) (exec lib.watched fuel d)) {body : List Stmt}
    (h : LegalBody t bound body) (hbound : m.frame.names ⊆ bound) :
    Regular stops (block (exec lib fuel d) d body) (block (exec lib.watched fuel d) d body) m
      fun _ m' => m'.frame = m.frame := by
  cases d with
  | forward => exact regular_forward hlib hrun hbound h.scopes h.proper (.nil bound) (.nil m.frame)
  | backward =>
    exact (regular_backward hlib hrun hbound h.scopes h.proper (.nil bound) rfl).mono
      fun _ _ hc => hc.eq_of_nil

theorem regular_check (hlib : lib.Keeps t) {e : Expr} (he : e.Evaluable t) (b : Bool)
    (v : Violation) :
    Regular stops (check lib e b v) (check lib.watched e b v) m fun _ m' => m = m' := by
  refine (regular_test hlib he).bind fun c _ h => ?_
  subst h
  split
  · exact regular_violate v
  · exact .pure rfl

theorem regular_confirm (hlib : lib.Keeps t) {guard assertion : Expr} (hg : guard.Evaluable t)
    (ha : assertion.Evaluable t) (b : Bool) :
    Regular stops (confirm lib d guard assertion b) (confirm lib.watched d guard assertion b) m
      fun _ m' => m = m' := by
  cases d with
  | forward => exact regular_check hlib ha b _
  | backward =>
    -- the settings are those of the library
    change Regular stops (if lib.settings.checkGuardOnBackward = true then _ else _)
      (if lib.settings.checkGuardOnBackward = true then _ else _) m _
    split
    · exact regular_check hlib hg b _
    · exact .pure rfl

theorem evaluable_pick {guard assertion : Expr} (hg : guard.Evaluable t)
    (ha : assertion.Evaluable t) (d : Direction) : (d.pick guard assertion).Evaluable t := by
  cases d with
  | forward => exact hg
  | backward => exact ha

theorem regular_branch (hlib : lib.Keeps t)
    (hrun : RegularRuns t (exec lib fuel d) (exec lib.watched fuel d)) {guard assertion : Expr}
    {thenBody elseBody : List Stmt} (hg : guard.Evaluable t) (ha : assertion.Evaluable t)
    (hthen : LegalBody t bound thenBody) (helse : LegalBody t bound elseBody)
    (hbound : m.frame.names ⊆ bound) :
    Regular stops (branch lib (exec lib fuel d) d guard thenBody elseBody assertion)
      (branch lib.watched (exec lib.watched fuel d) d guard thenBody elseBody assertion) m
      fun _ m' => m'.frame = m.frame := by
  rw [branch_eq, branch_eq]
  refine (regular_test hlib (evaluable_pick hg ha d)).bind fun b _ h => ?_
  subst h
  have hbody : LegalBody t bound (if b then thenBody else elseBody) := by
    cases b with
    | true => exact hthen
    | false => exact helse
  exact (regular_block hlib hrun hbody hbound).bind fun _ m' hframe =>
    (regular_confirm hlib hg ha b).mono fun _ _ h => h ▸ hframe

theorem regular_again (hlib : lib.Keeps t)
    (hrun : RegularRuns t (exec lib fuel d) (exec lib.watched fuel d)) {first : Expr}
    {doBody loopBody : List Stmt} (hf : first.Evaluable t)
    (hdo : LegalBody t bound doBody) (hloop : LegalBody t bound loopBody)
    (hbound : m.frame.names ⊆ bound) (i : Nat) :
    Regular stops (again lib (exec lib fuel d) d first doBody loopBody i)
      (again lib.watched (exec lib.watched fuel d) d first doBody loopBody i) m
      fun _ m' => m'.frame = m.frame := by
  refine (regular_block hlib hrun hloop hbound).bind fun _ m₁ h₁ => ?_
  refine (regular_test hlib hf).bind fun b _ h₂ => ?_
  subst h₂
  refine Regular.guard (fun _ => regular_violate _) fun _ => ?_
  exact (regular_block hlib hrun hdo (h₁ ▸ hbound)).mono fun _ _ h₃ => h₃.trans h₁

theorem regular_repeatUntil (hlib : lib.Keeps t) {last : Expr} (hl : last.Evaluable t)
    {body body' : Nat → Execution Unit} {f : Frame}
    (hbody : ∀ i (m : Machine), m.frame = f →
      Regular stops (body i) (body' i) m fun _ m' => m'.frame = f)
    (k i : Nat) (hm : m.frame = f) :
    Regular stops (repeatUntil (test lib last) body k i)
      (repeatUntil (test lib.watched last) body' k i) m fun _ m' => m'.frame = f := by
  induction k generalizing i m with
  | zero => exact .throw (Or.inl rfl)
  | succ k ih =>
    refine (regular_test hlib hl).bind fun b _ h => ?_
    subst h
    cases b with
    | true => exact .pure hm
    | false => exact (hbody (i + 1) m hm).bind fun _ m' h' => ih (i + 1) h'

theorem regular_loop (hlib : lib.Keeps t)
    (hrun : RegularRuns t (exec lib fuel d) (exec lib.watched fuel d)) {entry exit : Expr}
    {doBody loopBody : List Stmt} (he : entry.Evaluable t) (hx : exit.Evaluable t)
    (hdo : LegalBody t bound doBody) (hloop : LegalBody t bound loopBody)
    (hbound : m.frame.names ⊆ bound) (k : Nat) :
    Regular stops (loop lib (exec lib fuel d) k d entry doBody loopBody exit)
      (loop lib.watched (exec lib.watched fuel d) k d entry doBody loopBody exit) m
      fun _ m' => m'.frame = m.frame := by
  have hfirst := evaluable_pick he hx d
  rw [loop_eq, loop_eq]
  refine (regular_test hlib hfirst).bind fun b _ h => ?_
  subst h
  refine Regular.guard (fun _ => regular_violate _) fun _ => ?_
  refine (regular_block hlib hrun hdo hbound).bind fun _ m₁ h₁ => ?_
  refine regular_repeatUntil hlib (evaluable_pick hx he d) (fun i m₂ h₂ => ?_) k 0 h₁
  exact (regular_again hlib hrun hfirst hdo hloop (h₂ ▸ hbound) i).mono fun _ _ h₃ => h₃.trans h₂

end Compound

/-! ## Procedures -/

/-- A legal procedure with as many arguments as parameters. -/
theorem regular_runProcedure (hlib : lib.Keeps t) {fuel : Nat} {d : Direction}
    (hrun : RegularRuns t (exec lib fuel d) (exec lib.watched fuel d)) {p : Procedure}
    (hp : p.Legal t) {args : List Binding} (hargs : args.length = p.params.length) (depth : Int)
    (mem : Memory) :
    Regular stops (runProcedure lib (exec lib fuel) p args d depth)
      (runProcedure lib.watched (exec lib.watched fuel) p args d depth) mem fun _ _ => True := by
  have hx : runProcedure lib (exec lib fuel) p args d depth mem = _ :=
    runProcedure_apply p args depth mem
  have hy : runProcedure lib.watched (exec lib.watched fuel) p args d depth mem = _ :=
    runProcedure_apply p args depth mem
  by_cases hdepth : depth > lib.settings.maxCallDepth
  · rw [if_pos hdepth] at hx
    rw [if_pos (show depth > lib.watched.settings.maxCallDepth from hdepth)] at hy
    exact .error hx hy (Violation.expected _ _).stop
  rw [if_neg hdepth, if_neg (not_not.mpr hargs)] at hx
  rw [if_neg (show ¬depth > lib.watched.settings.maxCallDepth from hdepth),
    if_neg (not_not.mpr hargs)] at hy
  have hnames : (p.paramNames.zip args).map Prod.fst = p.paramNames :=
    List.map_fst_zip (by simp [Procedure.paramNames, hargs])
  have hattach : Fault.Tame ((lib.frameOf p depth mem).attachAll (p.paramNames.zip args)) :=
    Frame.tame_attachAll (by rw [hnames]; exact hp.params) fun x _ => by
      simp [Frame.names, Library.frameOf]
  cases hframe : (lib.frameOf p depth mem).attachAll (p.paramNames.zip args) with
  | error f =>
    rw [hframe] at hx
    rw [show lib.watched.frameOf p depth mem = lib.frameOf p depth mem from rfl, hframe] at hy
    exact .error hx hy (hattach f hframe).stop
  | ok frame =>
    rw [hframe] at hx
    rw [show lib.watched.frameOf p depth mem = lib.frameOf p depth mem from rfl, hframe] at hy
    have hbound : (lib.entered p args d depth mem).frame.names ⊆ p.paramNames := by
      rw [← hnames]
      exact fun _ h => h
    exact (regular_block hlib hrun hp.body hbound).embed hx hy fun _ _ _ => trivial

/-- A call of a procedure in the table, with legal arguments. -/
theorem regular_call (hlegal : lib.Legal) (hlib : lib.Keeps t) {fuel : Nat}
    (hrun : ∀ (d : Direction) (t : Table), lib.Keeps t →
      RegularRuns t (exec lib fuel d) (exec lib.watched fuel d))
    {d : Direction} {callee : String} {args : List Expr} {uncall : Bool} {m : Machine}
    (hcallee : Datum.field? callee t.arities = some args.length)
    (hargs : ∀ arg ∈ args, arg.Locatable t) :
    Regular stops (call lib (exec lib fuel) d callee args uncall)
      (call lib.watched (exec lib.watched fuel) d callee args uncall) m
      fun _ m' => m'.frame = m.frame := by
  obtain ⟨p, hp, hcount⟩ := hlib.procedure hcallee
  obtain ⟨t', hlib', hp'⟩ := hlegal p (Library.mem_of_get hp)
  have hget : lib.watched.get callee = .ok p := hp
  unfold call
  rw [hp, hget]
  refine (regular_ofExcept (.ok p)).bind fun q _ ⟨hq, h₀⟩ => ?_
  subst h₀
  obtain rfl : p = q := Except.ok.inj hq
  refine (regular_arguments hlib hargs).bind fun r _ ⟨hlength, h₁⟩ => ?_
  subst h₁
  refine (regular_refuse _).bind fun _ _ h₂ => ?_
  subst h₂
  refine (regular_refuse _).bind fun _ _ h₃ => ?_
  subst h₃
  have hlengths : (r.1.map Prod.snd).length = p.params.length := by
    rw [List.length_map, hlength, hcount]
  exact .get_bind ((regular_runProcedure hlib' (hrun _ t' hlib') hp' hlengths _ m.toMemory).embed
    (onMemory_apply _ m) (onMemory_apply _ m) fun _ _ _ => rfl)

/-- **Legal statements are regular**, in both directions. -/
theorem regular_exec (hlegal : lib.Legal) (fuel : Nat) (d : Direction) {t : Table}
    (hlib : lib.Keeps t) : RegularRuns t (exec lib fuel d) (exec lib.watched fuel d) := by
  induction fuel generalizing d t with
  | zero => exact fun s bound m hs ht hbound => .throw (Or.inl rfl)
  | succ fuel ih =>
    intro s bound m hs ht hbound
    refine regular_exec_of_step fun k hk => ?_
    obtain rfl : fuel = k := Nat.succ.inj hk
    have hrun := ih d hlib
    have hbound' : (traced s m).frame.names ⊆ bound := by rwa [frame_traced]
    rw [← frame_traced s m]
    have hself := ht s s.mem_nested_self
    have hbodies : ∀ body ∈ s.bodies, ProperAll t body := fun body hbody u hu =>
      ht u (mem_nested.mpr (Or.inr ⟨body, hbody, hu⟩))
    cases s with
    | assign loc target op value => exact regular_assign hlib d hself.1 hself.2.1 hself.2.2
    | swap loc left right => exact regular_swap hlib hself.1 hself.2
    | call loc callee args uncall =>
      exact regular_call hlegal hlib (fun d t hlib => ih d hlib) hself.1 hself.2
    | branch loc guard thenBody elseBody assertion =>
      rw [Scoped] at hs
      exact regular_branch hlib hrun hself.1 hself.2 ⟨hs.1, hbodies thenBody (by simp [bodies])⟩
        ⟨hs.2, hbodies elseBody (by simp [bodies])⟩ hbound'
    | loop loc entry doBody loopBody exit =>
      rw [Scoped] at hs
      exact regular_loop hlib hrun hself.1 hself.2 ⟨hs.1, hbodies doBody (by simp [bodies])⟩
        ⟨hs.2, hbodies loopBody (by simp [bodies])⟩ hbound' fuel
    | block loc body =>
      rw [Scoped] at hs
      exact regular_block hlib hrun ⟨hs, hbodies body (by simp [bodies])⟩ hbound'
    | declare | discard => simp [Scoped] at hs
    | hole => exact hself.elim

end Execution

namespace Library

open Judgement

variable {lib : Library}

/-- **Runs of legal procedures are regular.** -/
theorem regular_run (hlegal : lib.Legal) {p : Procedure} (hp : p ∈ lib.procedures)
    {args : List Binding} (hargs : args.length = p.params.length) (fuel : Nat) (d : Direction)
    (depth : Int) (mem : Memory) :
    Retrace.Regular stops (lib.run fuel p args d depth) (lib.watched.run fuel p args d depth) mem
      fun _ _ => True := by
  obtain ⟨t, hlib, hp⟩ := hlegal p hp
  exact Execution.regular_runProcedure hlib (Execution.regular_exec hlegal fuel d hlib) hp hargs
    depth mem

end Library

end Retrace
