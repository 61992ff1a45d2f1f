import Retrace.Proofs.Statement

/-!
# Two runs side by side

A `Comparison` says how two runs are set against each other: which states correspond, which errors
are alike, and whether the comparison is strict. Two actions that match have outcomes that agree
wherever they start in corresponding states: both complete with the same value, or both fail with
like errors, and the states that they leave correspond. If a comparison is not strict, only
completions are set against each other.

The comparison of interest here is that of two machines with the same heap whose frames bind the
same names to the same slots (`Machine.Twin`), in procedures that may have different names. The name
of a procedure shows in the text of faults and not in their class. What is made of matching parts
matches; the lemmas about conditionals, loops, calls and procedures allow for the parts to come in
another order and to be run in another direction.
-/

namespace Retrace

open Actions

/-- How two runs are set against each other. -/
structure Comparison (ε σ : Type) where
  /-- whether an error has to be matched by an error -/
  strict : Prop
  like : ε → ε → Prop
  related : σ → σ → Prop

namespace Comparison

variable {ε σ α β : Type} {c : Comparison ε σ}

/-- Both outcomes are completions with the same value, or errors that are alike. -/
def Agree (c : Comparison ε σ) : EStateM.Result ε σ α → EStateM.Result ε σ α → Prop
  | .ok a s, .ok b t => a = b ∧ c.related s t
  | .error e s, .error f t => c.strict → c.like e f ∧ c.related s t
  | _, _ => ¬c.strict

/-- The outcomes of two actions agree, in all states that correspond. -/
def Matches (c : Comparison ε σ) (x y : EStateM ε σ α) : Prop :=
  ∀ ⦃s t⦄, c.related s t → c.Agree (x s) (y t)

theorem agree_ok {a : α} {s t : σ} (h : c.related s t) :
    c.Agree (.ok a s : EStateM.Result ε σ α) (.ok a t) :=
  ⟨rfl, h⟩

theorem agree_error {e f : ε} {s t : σ} (he : c.like e f) (h : c.related s t) :
    c.Agree (.error e s : EStateM.Result ε σ α) (.error f t) :=
  fun _ => ⟨he, h⟩

theorem agree_error_left (h : ¬c.strict) (e : ε) (s : σ) (r : EStateM.Result ε σ α) :
    c.Agree (.error e s) r := by
  cases r with
  | ok b t => exact h
  | error f t => exact fun hs => absurd hs h

theorem agree_error_right (h : ¬c.strict) (r : EStateM.Result ε σ α) (f : ε) (t : σ) :
    c.Agree r (.error f t) := by
  cases r with
  | ok a s => exact h
  | error e s => exact fun hs => absurd hs h

/-- Outcomes of sequences agree if those of their first steps do, and those of the rest wherever
these end. -/
theorem Agree.bind {x y : EStateM ε σ α} {f g : α → EStateM ε σ β} {s t : σ}
    (h : c.Agree (x s) (y t)) (hf : ∀ a, c.Matches (f a) (g a)) :
    c.Agree ((x >>= f) s) ((y >>= g) t) := by
  rw [bind_apply, bind_apply]
  cases hx : x s with
  | ok a s' =>
    cases hy : y t with
    | ok b t' =>
      rw [hx, hy] at h
      obtain ⟨rfl, hst⟩ := h
      exact hf a hst
    | error e t' =>
      rw [hx, hy] at h
      exact agree_error_right h _ e t'
  | error e s' =>
    cases hy : y t with
    | ok b t' =>
      rw [hx, hy] at h
      exact agree_error_left h e s' _
    | error e' t' =>
      rw [hx, hy] at h
      exact h

theorem Matches.bind {x y : EStateM ε σ α} {f g : α → EStateM ε σ β} (h : c.Matches x y)
    (hf : ∀ a, c.Matches (f a) (g a)) : c.Matches (x >>= f) (y >>= g) :=
  fun _ _ hst => (h hst).bind hf

theorem Matches.pure (a : α) : c.Matches (pure a) (pure a) := fun _ _ => agree_ok

theorem Matches.throw {e f : ε} (h : c.like e f) :
    c.Matches (throw e : EStateM ε σ α) (throw f) :=
  fun _ _ => agree_error h

theorem Matches.modify {f g : σ → σ} (h : ∀ s t, c.related s t → c.related (f s) (g t)) :
    c.Matches (modify f : EStateM ε σ PUnit) (modify g) :=
  fun s t hst => agree_ok (h s t hst)

/-- What follows may depend on the states. -/
theorem Matches.get_bind {f g : σ → EStateM ε σ α}
    (h : ∀ s t, c.related s t → c.Matches (f s) (g t)) : c.Matches (get >>= f) (get >>= g) :=
  fun s t hst => h s t hst hst

/-- A step that something else may come before. -/
theorem Matches.guard {p : Prop} [Decidable p] {x y : EStateM ε σ α} {k l : EStateM ε σ β}
    (h : c.Matches x y) (hk : c.Matches k l) :
    c.Matches (if p then x >>= fun _ => k else k) (if p then y >>= fun _ => l else l) := by
  split
  · exact h.bind fun _ => hk
  · exact hk

/-- Outcomes that agree still do when their states are put into states that correspond. -/
theorem Agree.embed {τ : Type} {related : τ → τ → Prop} {r r' : EStateM.Result ε σ α}
    (h : c.Agree r r') {f g : σ → τ} (hfg : ∀ s t, c.related s t → related (f s) (g t)) :
    Agree ⟨c.strict, c.like, related⟩ (Actions.embed f r) (Actions.embed g r') := by
  cases r with
  | ok a s =>
    cases r' with
    | ok b t => exact ⟨h.1, hfg s t h.2⟩
    | error e t => exact h
  | error e s =>
    cases r' with
    | ok b t => exact h
    | error e' t => exact fun hs => ⟨(h hs).1, hfg s t (h hs).2⟩

end Comparison

/-! ## Faults of one class -/

/-- Two faults belong to the same class. -/
def Fault.Like (f g : Fault) : Prop := f.label = g.label

/-- Two runs stopped for like reasons. -/
def Stop.Like : Stop → Stop → Prop
  | .fault f, .fault g => f.Like g
  | .exhausted, .exhausted => True
  | _, _ => False

theorem Violation.like_fault {v w : Violation} (h : v.rule = w.rule) (p q : Option String) :
    (v.fault p).Like (w.fault q) := by
  simp [Fault.Like, Fault.label, Violation.fault, h]

/-- Both are the same value, or faults of the same class. -/
def Fault.Agree {α : Type} : Except Fault α → Except Fault α → Prop
  | .ok a, .ok b => a = b
  | .error f, .error g => f.Like g
  | _, _ => False

theorem Fault.Agree.refl {α : Type} (r : Except Fault α) : Fault.Agree r r := by
  cases r with
  | ok a => exact rfl
  | error f => exact (rfl : f.label = f.label)

/-- Results that agree end the same way. -/
theorem Fault.Agree.cases {α : Type} {r r' : Except Fault α} (h : Fault.Agree r r') :
    (∃ a, r = .ok a ∧ r' = .ok a) ∨ (∃ f g : Fault, f.Like g ∧ r = .error f ∧ r' = .error g) := by
  cases r with
  | ok a =>
    cases r' with
    | ok b =>
      obtain rfl : a = b := h
      exact .inl ⟨a, rfl, rfl⟩
    | error g => exact h.elim
  | error f =>
    cases r' with
    | ok b => exact h.elim
    | error g => exact .inr ⟨f, g, h, rfl, rfl⟩

theorem Fault.Agree.bind {α β : Type} {r r' : Except Fault α} {k k' : α → Except Fault β}
    (h : Fault.Agree r r') (hk : ∀ a, Fault.Agree (k a) (k' a)) :
    Fault.Agree (r >>= k) (r' >>= k') := by
  obtain ⟨a, rfl, rfl⟩ | ⟨f, g, hfg, rfl, rfl⟩ := h.cases
  · exact hk a
  · exact hfg

/-! ## Frames that differ in the name of the procedure -/

/-- The second frame is the first one, in a procedure that may have another name. -/
def Frame.Twin (f g : Frame) : Prop := ∃ name, g = { f with procedure := name }

namespace Frame.Twin

variable {f g : Frame}

theorem fault (v : Violation) : (f.fault v).Like (g.fault v) := Violation.like_fault rfl ..

theorem lookup (h : f.Twin g) (x : String) : Fault.Agree (f.lookup x) (g.lookup x) := by
  obtain ⟨name, rfl⟩ := h
  simp only [Frame.lookup, lookup?]
  cases Datum.field? x f.bindings with
  | some b => exact rfl
  | none => exact fault _

theorem slot (h : f.Twin g) (x : String) : Fault.Agree (f.slot x) (g.slot x) := by
  refine (h.lookup x).bind fun b => ?_
  cases b with
  | scalar s => exact rfl
  | array slots => exact fault _

theorem array (h : f.Twin g) (x : String) : Fault.Agree (f.array x) (g.array x) := by
  refine (h.lookup x).bind fun b => ?_
  cases b with
  | scalar s => exact fault _
  | array slots => exact rfl

theorem element (h : f.Twin g) (x : String) (i : Int) :
    Fault.Agree (f.element x i) (g.element x i) := by
  refine (h.array x).bind fun slots => ?_
  by_cases hi : 0 ≤ i
  · simp only [hi, if_true]
    cases slots[i.toNat]? with
    | some s => exact rfl
    | none => exact fault _
  · simp only [hi, if_false]
    exact fault _

theorem attach (h : f.Twin g) (x : String) (b : Binding) :
    (∃ f' g', f.attach x b = .ok f' ∧ g.attach x b = .ok g' ∧ f'.Twin g') ∨
      ∃ e e', f.attach x b = .error e ∧ g.attach x b = .error e' ∧ e.Like e' := by
  obtain ⟨name, rfl⟩ := h
  simp only [Frame.attach, has, overlapping?]
  by_cases hhas : (f.bindings.any fun entry => entry.1 == x) = true
  · simp only [hhas, if_true]
    exact Or.inr ⟨_, _, rfl, rfl, rfl⟩
  simp only [hhas, if_false, Bool.false_eq_true]
  split
  · exact Or.inr ⟨_, _, rfl, rfl, fault _⟩
  · exact Or.inl ⟨_, _, rfl, rfl, name, rfl⟩

theorem attachAll (h : f.Twin g) (params : List (String × Binding)) :
    (∃ f' g', f.attachAll params = .ok f' ∧ g.attachAll params = .ok g') ∨
      ∃ e e', f.attachAll params = .error e ∧ g.attachAll params = .error e' ∧ e.Like e' := by
  induction params generalizing f g with
  | nil => exact Or.inl ⟨f, g, rfl, rfl⟩
  | cons param rest ih =>
    obtain ⟨x, b⟩ := param
    simp only [Frame.attachAll]
    rcases h.attach x b with ⟨f', g', hf, hg, htwin⟩ | ⟨e, e', hf, hg, hlike⟩
    · simp only [hf, hg]
      exact ih htwin
    · simp only [hf, hg]
      exact Or.inr ⟨e, e', rfl, rfl, hlike⟩

end Frame.Twin

theorem BinaryOp.apply_twin (op : BinaryOp) {f g : Frame} (h : f.Twin g) (l r : Int) :
    Fault.Agree (op.apply f l r) (op.apply g l r) := by
  obtain ⟨name, rfl⟩ := h
  cases op with
  | div | rem =>
    simp only [apply]
    split
    · exact Frame.Twin.fault _
    · exact rfl
  | shiftLeft | shiftRight =>
    simp only [apply]
    split
    · exact rfl
    · exact Frame.Twin.fault _
  | _ => exact rfl

/-! ## Evaluation -/

/-- Readings are compared strictly, and with the same slots read. -/
def Comparison.reads : Comparison Fault (List Slot) where
  strict := True
  like := Fault.Like
  related := Eq

/-- The second scope is the first one, in a procedure that may have another name. -/
structure Scope.Twin (s t : Scope) : Prop where
  functions : s.functions = t.functions
  frame : s.frame.Twin t.frame
  heap : s.heap = t.heap

namespace Scope

open Comparison

variable {s t : Scope}

theorem matches_self {α : Type} (x : Reading α) : reads.Matches x x := by
  rintro r _ rfl
  cases x r with
  | ok a r' => exact agree_ok rfl
  | error f r' => exact agree_error rfl rfl

theorem matches_ofExcept {α : Type} {r r' : Except Fault α} (h : Fault.Agree r r') :
    reads.Matches (MonadExcept.ofExcept r : Reading α) (MonadExcept.ofExcept r') := by
  obtain ⟨a, rfl, rfl⟩ | ⟨f, g, hfg, rfl, rfl⟩ := h.cases
  · exact .pure a
  · exact .throw hfg

theorem matches_readSlot (h : s.Twin t) (u : Slot) :
    reads.Matches (s.readSlot u) (t.readSlot u) := by
  unfold readSlot
  rw [h.heap]
  exact matches_self _

mutual

/-- An expression comes to the same in twin scopes, or fails alike. -/
theorem matches_eval (h : s.Twin t) : ∀ e : Expr, reads.Matches (s.eval e) (t.eval e)
  | .int _ n => by
    simp only [eval]
    exact .pure _
  | .bool _ b => by
    simp only [eval]
    exact .pure _
  | .var _ x => by
    simp only [eval]
    exact (matches_ofExcept (h.frame.slot x)).bind fun u =>
      (matches_readSlot h u).bind fun _ => .pure _
  | .elem _ x index => by
    simp only [eval]
    exact (matches_eval h index).bind fun i =>
      (matches_ofExcept (h.frame.element x _)).bind fun u =>
        (matches_readSlot h u).bind fun _ => .pure _
  | .binary _ op left right => by
    rw [eval_binary, eval_binary]
    refine (matches_eval h left).bind fun l => ?_
    cases BinaryOp.ofSymbol? op with
    | none => exact (matches_eval h right).bind fun _ => matches_self _
    | some o =>
      simp only
      cases o.settled? l.holds with
      | some b => exact .pure _
      | none =>
        exact (matches_eval h right).bind fun r => matches_ofExcept (o.apply_twin h.frame _ _)
  | .unary _ op operand => by
    simp only [eval]
    refine (matches_eval h operand).bind fun v => ?_
    cases UnaryOp.ofSymbol? op <;> exact matches_self _
  | .call _ name args => by
    simp only [eval, h.functions]
    cases Datum.field? name t.functions with
    | none => exact matches_self _
    | some f => exact (matches_evalAll h args).bind fun _ => matches_self _
  | .update .. => by
    simp only [eval]
    exact matches_self _
  | .hole _ => by
    simp only [eval]
    exact matches_self _

theorem matches_evalAll (h : s.Twin t) :
    ∀ es : List Expr, reads.Matches (s.evalAll es) (t.evalAll es)
  | [] => by
    simp only [evalAll]
    exact .pure _
  | e :: es => by
    simp only [evalAll]
    exact (matches_eval h e).bind fun _ => (matches_evalAll h es).bind fun _ => .pure _

end

theorem agree_value (h : s.Twin t) (e : Expr) : Fault.Agree (s.value e) (t.value e) := by
  have heval := matches_eval h e (rfl : ([] : List Slot) = [])
  unfold value
  cases hs : s.eval e [] with
  | ok v r =>
    cases ht : t.eval e [] with
    | ok w r' =>
      rw [hs, ht] at heval
      exact heval.1
    | error g r' =>
      rw [hs, ht] at heval
      exact heval trivial
  | error f r =>
    cases ht : t.eval e [] with
    | ok w r' =>
      rw [hs, ht] at heval
      exact heval trivial
    | error g r' =>
      rw [hs, ht] at heval
      exact (heval trivial).1

theorem agree_test (h : s.Twin t) (e : Expr) : Fault.Agree (s.test e) (t.test e) :=
  (agree_value h e).bind fun _ => .refl _

theorem matches_locate (h : s.Twin t) (e : Expr) : reads.Matches (s.locate e) (t.locate e) := by
  cases e with
  | elem loc x index =>
    exact (matches_eval h index).bind fun _ => matches_ofExcept (h.frame.element x _)
  | var loc x => exact matches_ofExcept (h.frame.slot x)
  | _ => exact matches_self _

theorem matches_argument (h : s.Twin t) (e : Expr) :
    reads.Matches (s.argument e) (t.argument e) := by
  cases e with
  | var loc x => exact matches_ofExcept (h.frame.lookup x)
  | _ => exact (matches_locate h _).bind fun _ => .pure _

end Scope

/-! ## Single statements -/

/-- The second machine has the same heap, and the frame of the first one in a procedure that may
have another name. The logs do not matter. -/
structure Machine.Twin (m n : Machine) : Prop where
  heap : m.heap = n.heap
  frame : m.frame.Twin n.frame

namespace Machine.Twin

variable {m n : Machine}

theorem push (h : m.Twin n) (name : String) (b : Binding) :
    Machine.Twin { m with frame := m.frame.push name b }
      { n with frame := n.frame.push name b } := by
  obtain ⟨q, hq⟩ := h.frame
  exact ⟨h.heap, q, by rw [hq]; rfl⟩

theorem erase (h : m.Twin n) (name : String) :
    Machine.Twin { m with frame := m.frame.erase name } { n with frame := n.frame.erase name } := by
  obtain ⟨q, hq⟩ := h.frame
  exact ⟨h.heap, q, by rw [hq]; rfl⟩

end Machine.Twin

/-- Runs are compared on machines that are twins. -/
def Comparison.runs (strict : Prop) : Comparison Stop Machine where
  strict := strict
  like := Stop.Like
  related := Machine.Twin

namespace Execution

open Comparison

variable {lib : Library} {strict : Prop}

theorem scope_twin {m n : Machine} (h : m.Twin n) : (m.scope lib).Twin (n.scope lib) :=
  ⟨rfl, h.frame, h.heap⟩

theorem matches_violate {α : Type} {v w : Violation} (h : v.rule = w.rule) :
    (runs strict).Matches (violate v : Execution α) (violate w) :=
  .get_bind fun _ _ _ => .throw (Violation.like_fault h _ _)

theorem matches_refuse (v : Option Violation) : (runs strict).Matches (refuse v) (refuse v) := by
  cases v with
  | none => exact .pure ()
  | some v => exact matches_violate rfl

theorem agree_ofExcept {α : Type} {r r' : Except Fault α} (h : Fault.Agree r r') :
    (runs strict).Matches (ofExcept r) (ofExcept r') := by
  obtain ⟨a, rfl, rfl⟩ | ⟨f, g, hfg, rfl, rfl⟩ := h.cases
  · exact .pure a
  · exact .throw hfg

theorem ofExcept_map_bind {α β γ : Type} (r : Except Fault α) (f : α → β) (k : β → Execution γ) :
    ofExcept (r.map f) >>= k = ofExcept r >>= fun a => k (f a) := by
  cases r <;> rfl

theorem matches_reading {α : Type} (before : List Slot) {work : Scope → Reading α}
    (h : ∀ s t : Scope, s.Twin t → reads.Matches (work s) (work t)) :
    (runs strict).Matches (reading lib before work) (reading lib before work) := by
  intro m n hmn
  have htwin : (m.scope lib).Twin (n.scope lib) := scope_twin hmn
  have hwork := h _ _ htwin (rfl : before = before)
  rw [reading_apply, reading_apply]
  cases hm : work (m.scope lib) before with
  | ok a r =>
    cases hn : work (n.scope lib) before with
    | ok b r' =>
      rw [hm, hn] at hwork
      obtain ⟨rfl, hr⟩ := hwork
      obtain rfl : r = r' := hr
      exact agree_ok hmn
    | error g r' =>
      rw [hm, hn] at hwork
      exact absurd trivial hwork
  | error f r =>
    cases hn : work (n.scope lib) before with
    | ok b r' =>
      rw [hm, hn] at hwork
      exact absurd trivial hwork
    | error g r' =>
      rw [hm, hn] at hwork
      exact agree_error (hwork trivial).1 hmn

theorem matches_number (e : Expr) : (runs strict).Matches (number lib e) (number lib e) :=
  Matches.get_bind fun _ _ h =>
    (agree_ofExcept (Scope.agree_value (scope_twin h) e)).bind fun _ => .pure _

theorem matches_test (e : Expr) : (runs strict).Matches (test lib e) (test lib e) :=
  .get_bind fun _ _ h => agree_ofExcept (Scope.agree_test (scope_twin h) e)

theorem matches_readSlot (s : Slot) : (runs strict).Matches (readSlot s) (readSlot s) := by
  refine .get_bind fun m n h => agree_ofExcept ?_
  rw [h.heap]
  exact .refl _

/-- Work on the heap alone matches itself. -/
theorem matches_onHeap {α : Type} (action : EStateM Fault Heap α) :
    (runs strict).Matches (onHeap action) (onHeap action) := by
  intro m n h
  unfold onHeap
  rw [h.heap]
  cases action n.heap with
  | ok a heap => exact agree_ok ⟨rfl, h.frame⟩
  | error f heap => exact agree_error (c := runs strict) (rfl : f.Like f) ⟨rfl, h.frame⟩

/-- An update matches another one that applies the same operator in its direction. -/
theorem matches_assign {d e : Direction} {target value : Expr} {op op' : String}
    (hop : Fault.Agree ((Update.ofSymbol op).map (·.directed d))
      ((Update.ofSymbol op').map (·.directed e))) :
    (runs strict).Matches (assign lib d target op value) (assign lib e target op' value) := by
  have hupdate : ∀ u, (runs strict).Matches (update lib u target value)
      (update lib u target value) := fun u =>
    (matches_reading _ fun _ _ h => Scope.matches_locate h target).bind fun _ =>
      (matches_reading _ fun _ _ h => Scope.matches_eval h value).bind fun _ =>
        (matches_refuse _).bind fun _ => (matches_readSlot _).bind fun _ => matches_onHeap _
  have hmap : ∀ (d : Direction) (op : String), assign lib d target op value =
      ofExcept ((Update.ofSymbol op).map (·.directed d)) >>= fun u =>
        update lib u target value := by
    intro d op
    rw [assign_eq, ofExcept_map_bind]
  rw [hmap, hmap]
  exact (agree_ofExcept hop).bind hupdate

theorem matches_swap (left right : Expr) :
    (runs strict).Matches (swap lib left right) (swap lib left right) :=
  (matches_reading _ fun _ _ h => Scope.matches_locate h left).bind fun _ =>
    (matches_reading _ fun _ _ h => Scope.matches_locate h right).bind fun _ =>
      (matches_refuse _).bind fun _ => (matches_refuse _).bind fun _ =>
        (matches_readSlot _).bind fun _ => (matches_readSlot _).bind fun _ =>
          (matches_onHeap _).bind fun _ => matches_onHeap _

theorem matches_introduce (name : String) (e : Expr) :
    (runs strict).Matches (introduce lib name e) (introduce lib name e) := by
  refine (matches_number e).bind fun v => Matches.bind (.get_bind fun m n h => ?_) fun _ => .pure _
  obtain ⟨q, hq⟩ := h.frame
  rw [hq]
  refine (Matches.throw rfl).guard ((matches_onHeap _).bind fun index => ?_)
  exact (Matches.modify fun k l hkl => Machine.Twin.push hkl name _).bind fun _ => .pure _

theorem matches_unbind (name : String) :
    (runs strict).Matches (unbind name) (unbind name) := by
  refine .get_bind fun m n h => (agree_ofExcept (h.frame.slot name)).bind fun s => ?_
  obtain ⟨q, hq⟩ := h.frame
  rw [hq]
  refine (Matches.throw rfl).guard ?_
  exact (Matches.modify fun k l hkl => Machine.Twin.erase hkl name).bind fun _ => matches_onHeap _

theorem matches_remove (name : String) (e : Expr) :
    (runs strict).Matches (remove lib name e) (remove lib name e) := by
  refine (matches_number e).bind fun v => .get_bind fun m n h =>
    (agree_ofExcept (h.frame.slot name)).bind fun s => (matches_readSlot s).bind fun c => ?_
  exact (matches_violate rfl).guard ((matches_unbind name).bind fun _ => .pure _)

theorem matches_arguments (args : List Expr) :
    (runs strict).Matches (arguments lib args) (arguments lib args) := by
  induction args with
  | nil => exact .pure _
  | cons arg rest ih =>
    exact (matches_reading _ fun _ _ h => Scope.matches_argument h arg).bind fun _ =>
      ih.bind fun _ => .pure _

/-! ## Statements made of others -/

section Compound

variable {run run' : Stmt → Execution Unit} {d e : Direction}

theorem matches_forM {stmts stmts' : List Stmt}
    (h : List.Forall₂ (fun s t => (runs strict).Matches (run s) (run' t)) stmts stmts') :
    (runs strict).Matches (stmts.forM run) (stmts'.forM run') := by
  induction h with
  | nil => exact .pure ()
  | cons hst _ ih => exact hst.bind fun _ => ih

theorem confirm_of_checks {guard assertion : Expr} {b : Bool} (h : lib.Checks d) :
    ∃ v : Violation, v.rule = .assertionMismatch ∧
      confirm lib d guard assertion b = check lib (d.pick assertion guard) b v := by
  cases d with
  | forward => exact ⟨_, rfl, rfl⟩
  | backward =>
    have hflag : lib.settings.checkGuardOnBackward = true := by simpa [Library.Checks] using h
    exact ⟨.unselected guard.text (Branch.of b).name, rfl, by simp [confirm, hflag, Direction.pick]⟩

/-- Two conditionals confirm alike, if a strict comparison finds both of them checking. -/
theorem matches_confirm {guard assertion guard' assertion' : Expr}
    (hsecond : d.pick assertion guard = e.pick assertion' guard')
    (hchecks : strict → lib.Checks d ∧ lib.Checks e) (b : Bool) :
    (runs strict).Matches (confirm lib d guard assertion b)
      (confirm lib e guard' assertion' b) := by
  by_cases hs : strict
  · obtain ⟨v, hv, hd⟩ := confirm_of_checks (b := b) (hchecks hs).1
    obtain ⟨w, hw, he⟩ := confirm_of_checks (b := b) (hchecks hs).2
    rw [hd, he, hsecond]
    refine (matches_test _).bind fun c => ?_
    split
    · exact matches_violate (hv.trans hw.symm)
    · exact .pure ()
  · -- a check that completes changes nothing
    intro m n hmn
    cases hm : confirm lib d guard assertion b m with
    | error f m' => exact agree_error_left hs f m' _
    | ok a m' =>
      cases hn : confirm lib e guard' assertion' b n with
      | error g n' => exact agree_error_right hs _ g n'
      | ok a n' =>
        obtain ⟨-, rfl⟩ := confirm_eq_ok.mp hm
        obtain ⟨-, rfl⟩ := confirm_eq_ok.mp hn
        exact agree_ok hmn

theorem matches_branch {guard assertion guard' assertion' : Expr}
    {thenBody elseBody thenBody' elseBody' : List Stmt}
    (hfirst : d.pick guard assertion = e.pick guard' assertion')
    (hsecond : d.pick assertion guard = e.pick assertion' guard')
    (hchecks : strict → lib.Checks d ∧ lib.Checks e)
    (hthen : (runs strict).Matches (block run d thenBody) (block run' e thenBody'))
    (helse : (runs strict).Matches (block run d elseBody) (block run' e elseBody')) :
    (runs strict).Matches (branch lib run d guard thenBody elseBody assertion)
      (branch lib run' e guard' thenBody' elseBody' assertion') := by
  rw [branch_eq, branch_eq, hfirst]
  refine (matches_test _).bind fun b => Matches.bind ?_ fun _ => matches_confirm hsecond hchecks b
  cases b with
  | true => exact hthen
  | false => exact helse

theorem matches_again {first : Expr} {doBody loopBody doBody' loopBody' : List Stmt}
    (hdo : (runs strict).Matches (block run d doBody) (block run' e doBody'))
    (hloop : (runs strict).Matches (block run d loopBody) (block run' e loopBody')) (i : Nat) :
    (runs strict).Matches (again lib run d first doBody loopBody i)
      (again lib run' e first doBody' loopBody' i) :=
  hloop.bind fun _ => (matches_test first).bind fun _ => (matches_violate rfl).guard hdo

theorem matches_repeatUntil {last : Expr} {body body' : Nat → Execution Unit}
    (hbody : ∀ i, (runs strict).Matches (body i) (body' i)) (fuel i : Nat) :
    (runs strict).Matches (repeatUntil (test lib last) body fuel i)
      (repeatUntil (test lib last) body' fuel i) := by
  induction fuel generalizing i with
  | zero => exact .throw trivial
  | succ fuel ih =>
    refine (matches_test last).bind fun b => ?_
    cases b with
    | true => exact .pure ()
    | false => exact (hbody (i + 1)).bind fun _ => ih (i + 1)

theorem matches_loop {entry exit entry' exit' : Expr}
    {doBody loopBody doBody' loopBody' : List Stmt}
    (hfirst : d.pick entry exit = e.pick entry' exit')
    (hlast : d.pick exit entry = e.pick exit' entry')
    (hdo : (runs strict).Matches (block run d doBody) (block run' e doBody'))
    (hloop : (runs strict).Matches (block run d loopBody) (block run' e loopBody')) (fuel : Nat) :
    (runs strict).Matches (loop lib run fuel d entry doBody loopBody exit)
      (loop lib run' fuel e entry' doBody' loopBody' exit') := by
  rw [loop_eq, loop_eq, hfirst, hlast]
  exact (matches_test _).bind fun _ => (matches_violate rfl).guard
    (hdo.bind fun _ => matches_repeatUntil (matches_again hdo hloop) fuel 0)

end Compound

end Execution

/-! ## Procedures -/

/-- Runs of procedures are compared on memories with the same heap. -/
def Comparison.memories (strict : Prop) : Comparison Stop Memory where
  strict := strict
  like := Stop.Like
  related mem nem := mem.heap = nem.heap

namespace Execution

open Comparison

variable {lib : Library} {strict : Prop} {run run' : Direction → Stmt → Execution Unit}
  {d e : Direction}

/-- Procedures with the same parameters match if their bodies do. -/
theorem matches_runProcedure {p q : Procedure} (hparams : p.params = q.params)
    (hbody : (runs strict).Matches (block (run d) d p.body) (block (run' e) e q.body))
    (args : List Binding) (depth : Int) :
    (memories strict).Matches (runProcedure lib run p args d depth)
      (runProcedure lib run' q args e depth) := by
  intro mem nem hheap
  replace hheap : mem.heap = nem.heap := hheap
  have hnames : p.paramNames = q.paramNames := by
    rw [Procedure.paramNames, Procedure.paramNames, hparams]
  have hframe : (lib.frameOf p depth mem).Twin (lib.frameOf q depth nem) :=
    ⟨q.name, by rw [Library.frameOf, Library.frameOf, hheap]⟩
  have hentered : (lib.entered p args d depth mem).Twin (lib.entered q args e depth nem) := by
    refine ⟨?_, q.name, ?_⟩
    · simp only [Library.entered, hheap]
    · simp only [Library.entered, Library.frameOf, hheap, hnames]
  rw [runProcedure_apply, runProcedure_apply, hparams, hnames]
  by_cases hdepth : depth > lib.settings.maxCallDepth
  · simp only [if_pos hdepth]
    exact agree_error (Violation.like_fault rfl _ _) hheap
  by_cases hcount : args.length ≠ q.params.length
  · simp only [if_neg hdepth, if_pos hcount]
    exact agree_error rfl hheap
  simp only [if_neg hdepth, if_neg hcount]
  rcases hframe.attachAll (q.paramNames.zip args) with ⟨f, g, hf, hg⟩ | ⟨f, g, hf, hg, hlike⟩
  · simp only [hf, hg]
    exact (hbody hentered).embed fun m n hmn => congrArg Heap.pop hmn.heap
  · simp only [hf, hg]
    exact agree_error hlike hheap

theorem matches_onMemory {x y : MemoryAction Unit} (h : (memories strict).Matches x y) :
    (runs strict).Matches (onMemory x) (onMemory y) := by
  intro m n hmn
  rw [onMemory_apply, onMemory_apply]
  exact (h (hmn.heap : m.toMemory.heap = n.toMemory.heap)).embed fun mem nem hheap =>
    ⟨hheap, hmn.frame⟩

/-- Calls match if the procedures that they run do. -/
theorem matches_call {callee callee' : String} {uncall uncall' : Bool} (args : List Expr)
    (hget : (∃ p q, lib.get callee = .ok p ∧ lib.get callee' = .ok q ∧ ∀ args depth,
        (memories strict).Matches (runProcedure lib run p args (if uncall then d.flip else d) depth)
          (runProcedure lib run' q args (if uncall' then e.flip else e) depth)) ∨
      ∃ f g, lib.get callee = .error f ∧ lib.get callee' = .error g ∧ f.Like g) :
    (runs strict).Matches (call lib run d callee args uncall)
      (call lib run' e callee' args uncall') := by
  unfold call
  rcases hget with ⟨p, q, hp, hq, hproc⟩ | ⟨f, g, hf, hg, hlike⟩
  · simp only [hp, hq, ofExcept, pure_bind]
    refine (matches_arguments args).bind fun operands => (matches_refuse _).bind fun _ =>
      (matches_refuse _).bind fun _ => .get_bind fun m n hmn => matches_onMemory ?_
    obtain ⟨name, hname⟩ := hmn.frame
    rw [hname]
    exact hproc _ _
  · simp only [hf, hg]
    exact fun m n hmn => agree_error hlike hmn

/-! ## Logging and annotating -/

theorem matches_trace (s t : Stmt) : (runs strict).Matches (trace s) (trace t) := by
  intro m n hmn
  rw [trace_apply, trace_apply]
  refine agree_ok ⟨?_, ?_⟩
  · rw [heap_traced, heap_traced, hmn.heap]
  · rw [frame_traced, frame_traced]
    exact hmn.frame

/-- An annotation keeps the class of a fault. -/
theorem annotated_error {s : Stmt} {work : Execution Unit} {m m' : Machine} {stop : Stop}
    (h : work m = .error stop m') : ∃ stop', annotated s work m = .error stop' m' ∧
      ∀ other, (stop.Like other ↔ stop'.Like other) ∧ (other.Like stop ↔ other.Like stop') := by
  unfold annotated
  rw [h]
  cases stop with
  | exhausted => exact ⟨_, rfl, fun _ => ⟨.rfl, .rfl⟩⟩
  | fault f =>
    cases f with
    | failure f =>
      refine ⟨_, rfl, fun other => ?_⟩
      have hkind : (if f.isRun then f.annotate (some m'.frame.procedure) (some s.summary) s.loc
          else f).kind = f.kind := by
        split <;> rfl
      cases other with
      | exhausted => exact ⟨.rfl, .rfl⟩
      | fault g => simp only [Stop.Like, Fault.Like, Fault.label, hkind, and_self]
    | _ => exact ⟨_, rfl, fun _ => ⟨.rfl, .rfl⟩⟩

theorem matches_annotated (s t : Stmt) {x y : Execution Unit} (h : (runs strict).Matches x y) :
    (runs strict).Matches (annotated s x) (annotated t y) := by
  intro m n hmn
  have hagree := h hmn
  cases hm : x m with
  | ok a m' =>
    have hm' := annotated_eq_ok (s := s) |>.mpr hm
    cases hn : y n with
    | ok b n' =>
      rw [hm, hn] at hagree
      rw [hm', annotated_eq_ok.mpr hn]
      exact hagree
    | error g n' =>
      rw [hm, hn] at hagree
      obtain ⟨g', hg, -⟩ := annotated_error (s := t) hn
      rw [hg]
      exact agree_error_right hagree _ g' n'
  | error f m' =>
    obtain ⟨f', hf, hlike⟩ := annotated_error (s := s) hm
    rw [hf]
    cases hn : y n with
    | ok b n' =>
      rw [hm, hn] at hagree
      exact agree_error_left hagree f' m' _
    | error g n' =>
      rw [hm, hn] at hagree
      obtain ⟨g', hg, hlike'⟩ := annotated_error (s := t) hn
      rw [hg]
      exact fun hs => ⟨((hlike g').1).mp (((hlike' f).2).mp (hagree hs).1), (hagree hs).2⟩

end Execution

end Retrace
