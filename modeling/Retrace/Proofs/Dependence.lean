import Retrace.Proofs.Evaluation

/-!
# What an evaluation depends on

An evaluation records the slots that it reads, also when it fails in the end. The record is
complete: in a heap that holds the same in these slots, the evaluation has the same outcome and
records the same slots (`Scope.eval_of_agree`). Which slots are read may itself depend on values
that were read before, as in a computed index or to the right of `&&`.

Two facts about a reading carry this from step to step. It only adds to the record, and does
nothing else with it (`Reading.Additive`); and its counterpart in another heap follows it where the
heaps agree on what it recorded (`Reading.Tracked`). Both are kept by doing one reading after the
other.
-/

namespace Retrace

open Actions

namespace Reading

variable {α β : Type}

/-! ## Readings add to the record -/

/-- A reading puts slots behind those recorded before, and does not depend on these. -/
def Additive (x : Reading α) : Prop := ∀ before, x before = embed (before ++ ·) (x [])

theorem embed_append (before new : List Slot) (r : EStateM.Result Fault (List Slot) α) :
    embed (before ++ ·) (embed (new ++ ·) r) = embed (before ++ new ++ ·) r := by
  cases r <;> simp

theorem after_append {x : Reading α} (hx : x.Additive) (before : List Slot) :
    after x before = before ++ after x [] := by
  unfold after
  rw [hx before]
  cases x [] <;> rfl

theorem additive_ofExcept (r : Except Fault α) :
    Additive (MonadExcept.ofExcept r : Reading α) := by
  intro before
  cases r <;> simp

theorem additive_pure (a : α) : Additive (pure a : Reading α) := additive_ofExcept (.ok a)

theorem additive_throw (f : Fault) : Additive (throw f : Reading α) := additive_ofExcept (.error f)

theorem additive_bind {x : Reading α} {f : α → Reading β} (hx : x.Additive)
    (hf : ∀ a, (f a).Additive) : Additive (x >>= f) := by
  intro before
  rw [bind_apply, bind_apply, hx before]
  cases x [] with
  | error e new => rfl
  | ok a new =>
    simp only [embed_ok]
    rw [hf a (before ++ new), hf a new, embed_append]

/-! ## The same reading in another heap -/

/-- `y` does in the heap `k` what `x` does in the heap `h`, if the two hold the same in the slots
that `x` records. -/
structure Tracked (h k : Heap) (x y : Reading α) : Prop where
  source : x.Additive
  target : y.Additive
  follows : (∀ u ∈ after x [], k.cell? u = h.cell? u) → y [] = x []

variable {h k : Heap}

theorem Tracked.of_additive {x : Reading α} (hx : x.Additive) : Tracked h k x x :=
  ⟨hx, hx, fun _ => rfl⟩

/-- Agreement on all that is recorded covers the first step, and the second from where the first
ends. -/
theorem Tracked.bind {x y : Reading α} {f g : α → Reading β} (hxy : Tracked h k x y)
    (hfg : ∀ a, Tracked h k (f a) (g a)) : Tracked h k (x >>= f) (y >>= g) := by
  refine ⟨additive_bind hxy.source fun a => (hfg a).source,
    additive_bind hxy.target fun a => (hfg a).target, fun hagree => ?_⟩
  cases hx : x [] with
  | error e new =>
    have hrecord : after (x >>= f) [] = after x [] := by
      rw [after_of_error hx, after_of_error (by rw [bind_apply, hx])]
    have hy : y [] = .error e new := (hxy.follows (hrecord ▸ hagree)).trans hx
    rw [bind_apply, bind_apply, hx, hy]
  | ok a new =>
    have hrecord : after (x >>= f) [] = new ++ after (f a) [] := by
      rw [← after_append (hfg a).source]
      simp only [after, bind_apply, hx]
    simp only [hrecord, List.forall_mem_append] at hagree
    have hy : y [] = .ok a new := (hxy.follows (after_of_ok hx ▸ hagree.1)).trans hx
    calc (y >>= g) [] = g a new := by rw [bind_apply, hy]
      _ = embed (new ++ ·) (g a []) := (hfg a).target new
      _ = embed (new ++ ·) (f a []) := by rw [(hfg a).follows hagree.2]
      _ = f a new := ((hfg a).source new).symm
      _ = (x >>= f) [] := by rw [bind_apply, hx]

end Reading

/-! ## Evaluation in another heap -/

namespace Scope

open Reading

/-- The same names and functions in another heap. -/
def withHeap (s : Scope) (k : Heap) : Scope := { s with heap := k }

/-- The slots that evaluating an expression records, whether it has a value or fails. -/
def readsOf (s : Scope) (e : Expr) : List Slot := after (s.eval e) []

variable (s : Scope) (k : Heap)

theorem readSlot_apply (u : Slot) (before : List Slot) :
    s.readSlot u before =
      (MonadExcept.ofExcept (s.heap.read u) : Reading Int) (before ++ [u]) := rfl

theorem additive_readSlot (u : Slot) : (s.readSlot u).Additive := by
  intro before
  rw [readSlot_apply, readSlot_apply]
  cases s.heap.read u <;> simp

/-- Reading a slot records it, before it turns out whether the slot is live. -/
theorem tracked_readSlot (u : Slot) :
    Tracked s.heap k (s.readSlot u) ((s.withHeap k).readSlot u) := by
  refine ⟨s.additive_readSlot u, (s.withHeap k).additive_readSlot u, fun hagree => ?_⟩
  have hrecord : after (s.readSlot u) [] = [u] := by
    unfold after
    rw [readSlot_apply]
    cases s.heap.read u <;> rfl
  have hread : k.read u = s.heap.read u := by
    unfold Heap.read
    rw [hagree u (by simp [hrecord])]
  rw [readSlot_apply, readSlot_apply, ← hread]
  rfl

theorem tracked_stored (slot : Except Fault Slot) :
    Tracked s.heap k (do return Value.int (← s.readSlot (← MonadExcept.ofExcept slot)))
      (do return Value.int (← (s.withHeap k).readSlot (← MonadExcept.ofExcept slot))) :=
  .bind (.of_additive (additive_ofExcept slot)) fun u =>
    .bind (s.tracked_readSlot k u) fun n => .of_additive (additive_pure (Value.int n))

theorem tracked_binary (loc : Option Location) (op : String) {left right : Expr}
    (hl : Tracked s.heap k (s.eval left) ((s.withHeap k).eval left))
    (hr : Tracked s.heap k (s.eval right) ((s.withHeap k).eval right)) :
    Tracked s.heap k (s.eval (.binary loc op left right))
      ((s.withHeap k).eval (.binary loc op left right)) := by
  rw [eval_binary, eval_binary]
  refine .bind hl fun l => ?_
  cases BinaryOp.ofSymbol? op with
  | none => exact .bind hr fun _ => .of_additive (additive_throw _)
  | some o =>
    -- The value of the left side says whether the right side is read at all.
    cases hsettled : o.settled? l.holds with
    | some b =>
      simp only [hsettled]
      exact .of_additive (additive_pure _)
    | none =>
      simp only [hsettled]
      exact .bind hr fun r => .of_additive (additive_ofExcept (o.apply s.frame l.toInt r.toInt))

theorem tracked_unary (loc : Option Location) (op : String) {operand : Expr}
    (h : Tracked s.heap k (s.eval operand) ((s.withHeap k).eval operand)) :
    Tracked s.heap k (s.eval (.unary loc op operand))
      ((s.withHeap k).eval (.unary loc op operand)) := by
  rw [eval, eval]
  refine .bind h fun v => ?_
  cases UnaryOp.ofSymbol? op with
  | none => exact .of_additive (additive_throw _)
  | some o => exact .of_additive (additive_pure _)

theorem tracked_call (loc : Option Location) (name : String) {args : List Expr}
    (h : Tracked s.heap k (s.evalAll args) ((s.withHeap k).evalAll args)) :
    Tracked s.heap k (s.eval (.call loc name args))
      ((s.withHeap k).eval (.call loc name args)) := by
  have hsame : (s.withHeap k).functions = s.functions := rfl
  rw [eval, eval, hsame]
  cases Datum.field? name s.functions with
  | none => exact .of_additive (additive_throw _)
  | some f =>
    refine .bind h fun values => ?_
    exact .bind (.of_additive (additive_ofExcept (f values))) fun n =>
      .of_additive (additive_pure _)

mutual

theorem tracked_eval : ∀ e : Expr, Tracked s.heap k (s.eval e) ((s.withHeap k).eval e)
  | .int _ n => .of_additive (additive_pure (Value.int n))
  | .bool _ b => .of_additive (additive_pure (Value.bool b))
  | .var _ name => s.tracked_stored k (s.frame.slot name)
  | .elem _ name index =>
    .bind (tracked_eval index) fun i => s.tracked_stored k (s.frame.element name i.toInt)
  | .binary loc op left right => s.tracked_binary k loc op (tracked_eval left) (tracked_eval right)
  | .unary loc op operand => s.tracked_unary k loc op (tracked_eval operand)
  | .call loc name args => s.tracked_call k loc name (tracked_evalAll args)
  | .update .. => .of_additive (additive_throw _)
  | .hole _ => .of_additive (additive_throw _)

theorem tracked_evalAll : ∀ es : List Expr,
    Tracked s.heap k (s.evalAll es) ((s.withHeap k).evalAll es)
  | [] => .of_additive (additive_pure [])
  | e :: es =>
    .bind (tracked_eval e) fun v =>
      .bind (tracked_evalAll es) fun values => .of_additive (additive_pure (v.toInt :: values))

end

/-- **The recorded slots suffice.** In a heap that holds the same in the slots that evaluating `e`
records, released slots among them, `e` has the same value or fails in the same way, and the
evaluation records the same slots, whatever had been recorded before. -/
theorem eval_of_agree (s : Scope) (k : Heap) (e : Expr)
    (hagree : ∀ u ∈ s.readsOf e, k.cell? u = s.heap.cell? u) (before : List Slot) :
    (s.withHeap k).eval e before = s.eval e before := by
  have htracked := s.tracked_eval k e
  rw [htracked.target before, htracked.follows hagree, ← htracked.source before]

end Scope

namespace Sample

/-- `a[a[0]] > 3 && 10 / z > 1`. -/
def chased : Expr :=
  .binary none "&&"
    (.binary none ">" (.elem none "a" (.elem none "a" (.int none 0))) (.int none 3))
    (.binary none ">" (.binary none "/" (.int none 10) (.var none "z")) (.int none 1))

/-- An array `a` and a number `z`, in a heap with one store. -/
def chasing (cells : Array (Option Int)) : Scope :=
  { functions := []
    frame := { bindings := [("a", .array [⟨0, 0⟩, ⟨0, 1⟩, ⟨0, 2⟩]), ("z", .scalar ⟨0, 3⟩)] }
    heap := ⟨#[{ cells }]⟩ }

end Sample

/-- The second element of the array is not read, so it may as well be released: the division by
zero is found in both heaps. -/
theorem chased_of_agree :
    (Sample.chasing #[some 2, some 5, some 7, some 0]).readsOf Sample.chased =
        [⟨0, 0⟩, ⟨0, 2⟩, ⟨0, 3⟩] ∧
      ((Sample.chasing #[some 2, some 5, some 7, some 0]).withHeap
          (Sample.chasing #[some 2, none, some 7, some 0]).heap).eval Sample.chased [] =
        (Sample.chasing #[some 2, some 5, some 7, some 0]).eval Sample.chased [] :=
  ⟨by decide +kernel, Scope.eval_of_agree _ _ _ (by decide +kernel) []⟩

end Retrace
