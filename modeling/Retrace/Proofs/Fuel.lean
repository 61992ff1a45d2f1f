import Retrace.Proofs.Confinement

/-!
# More fuel changes nothing

The number that bounds a run has no other effect: where a run does not exhaust it, a larger number
gives the same result. `Actions.Below` compares two actions in this way, and it is kept by
everything that runs are made of (`exec_below`).

A family of actions, one for each amount of fuel, `Settles` in a state if some amount suffices.
-/

namespace Retrace

namespace Actions

variable {σ α β : Type}

/-- An action gives what another one gives, unless it exhausts its fuel. -/
def Below (x y : EStateM Stop σ α) : Prop := ∀ s, (∃ t, x s = .error .exhausted t) ∨ x s = y s

theorem Below.refl (x : EStateM Stop σ α) : Below x x := fun _ => Or.inr rfl

theorem Below.bind {x y : EStateM Stop σ α} {f g : α → EStateM Stop σ β} (hx : Below x y)
    (hf : ∀ a, Below (f a) (g a)) : Below (x >>= f) (y >>= g) := by
  intro s
  rw [bind_apply, bind_apply]
  rcases hx s with ⟨t, ht⟩ | hxy
  · exact Or.inl ⟨t, by rw [ht]⟩
  · rw [← hxy]
    cases x s with
    | ok a t => exact hf a t
    | error e t => exact Or.inr rfl

theorem Below.eq_ok {x y : EStateM Stop σ α} (h : Below x y) {s t : σ} {a : α}
    (hx : x s = .ok a t) : y s = .ok a t := by
  rcases h s with ⟨_, he⟩ | he
  · rw [hx] at he
    cases he
  · rw [← he, hx]

/-- Some amount of fuel suffices. -/
def Settles (x : Nat → EStateM Stop σ α) (s : σ) : Prop :=
  ∃ fuel, ∀ t, x fuel s ≠ .error .exhausted t

/-- More fuel gives no other result. -/
def Steady (x : Nat → EStateM Stop σ α) : Prop := ∀ ⦃k l⦄, k ≤ l → Below (x k) (x l)

theorem Steady.const (x : EStateM Stop σ α) : Steady fun _ => x := fun _ _ _ => .refl x

theorem Steady.bind {x : Nat → EStateM Stop σ α} {f : Nat → α → EStateM Stop σ β} (hx : Steady x)
    (hf : ∀ a, Steady fun k => f k a) : Steady fun k => x k >>= f k :=
  fun _ _ hkl => (hx hkl).bind fun a => hf a hkl

/-- With enough fuel, the result is always the same. -/
theorem Settles.eventually {x : Nat → EStateM Stop σ α} {s : σ} (h : Settles x s) (hx : Steady x) :
    ∃ bound r, (∀ t, r ≠ .error .exhausted t) ∧ ∀ fuel ≥ bound, x fuel s = r := by
  obtain ⟨bound, hbound⟩ := h
  refine ⟨bound, x bound s, hbound, fun fuel hfuel => ?_⟩
  rcases hx hfuel s with ⟨t, ht⟩ | he
  · exact absurd ht (hbound t)
  · exact he.symm

/-- Two results that a family has are the same. -/
theorem Steady.eq_of_ok {x : Nat → EStateM Stop σ α} (hx : Steady x) {s t u : σ} {a b : α}
    {k l : Nat} (hk : x k s = .ok a t) (hl : x l s = .ok b u) : a = b ∧ t = u := by
  have hk' := (hx (Nat.le_max_left k l)).eq_ok hk
  rw [(hx (Nat.le_max_right k l)).eq_ok hl] at hk'
  cases hk'
  exact ⟨rfl, rfl⟩

/-- Whether an action fails at a fault. -/
def faults (x : EStateM Stop σ α) (s : σ) : Bool :=
  match x s with
  | .error (.fault _) _ => true
  | _ => false

theorem exists_of_faults {x : EStateM Stop σ α} {s : σ} (h : faults x s = true) :
    ∃ f t, x s = .error (.fault f) t := by
  unfold faults at h
  split at h
  · rename_i f t hx
    exact ⟨f, t, hx⟩
  · cases h

/-- A family that has failed once has no result. -/
theorem Steady.ne_ok_of_faults {x : Nat → EStateM Stop σ α} (hx : Steady x) {s : σ} {k : Nat}
    (hk : faults (x k) s = true) {l : Nat} {a : α} {t : σ} : x l s ≠ .ok a t := by
  intro hl
  have hl' := (hx (Nat.le_max_right k l)).eq_ok hl
  unfold faults at hk
  split at hk
  · rename_i f u hf
    rcases hx (Nat.le_max_left k l) s with ⟨v, hv⟩ | he
    · rw [hf] at hv
      cases hv
    · rw [hf, hl'] at he
      cases he
  · cases hk

/-- A sequence settles if its first part does, and the second from where that ends. -/
theorem Settles.bind {x : Nat → EStateM Stop σ α} {f : Nat → α → EStateM Stop σ β} (hx : Steady x)
    (hf : ∀ a, Steady fun k => f k a) {s : σ} (hs : Settles x s)
    (hnext : ∀ a t k, x k s = .ok a t → Settles (fun k => f k a) t) :
    Settles (fun k => x k >>= f k) s := by
  obtain ⟨bound, r, hr, hall⟩ := hs.eventually hx
  have hbound := hall bound (Nat.le_refl bound)
  cases r with
  | error e t =>
    refine ⟨bound, fun u => ?_⟩
    simp only [bind_apply, hbound]
    exact fun he => hr u (by cases he; rfl)
  | ok a t =>
    obtain ⟨bound', r', hr', hall'⟩ := (hnext a t bound hbound).eventually (hf a)
    refine ⟨max bound bound', fun u => ?_⟩
    simp only [bind_apply, hall _ (Nat.le_max_left ..), hall' _ (Nat.le_max_right ..)]
    exact hr' u

theorem Settles.const {x : EStateM Stop σ α} {s : σ} (h : ∀ t, x s ≠ .error .exhausted t) :
    Settles (fun _ => x) s :=
  ⟨0, h⟩

end Actions

namespace Execution

open Actions

variable {lib : Library} {d : Direction}

section Compound

variable {run run' : Stmt → Execution Unit}

theorem forM_below (hrun : ∀ s, Below (run s) (run' s)) (stmts : List Stmt) :
    Below (stmts.forM run) (stmts.forM run') := by
  induction stmts with
  | nil => exact .refl _
  | cons s rest ih => exact (hrun s).bind fun _ => ih

theorem block_below (hrun : ∀ s, Below (run s) (run' s)) (d : Direction) (body : List Stmt) :
    Below (block run d body) (block run' d body) :=
  forM_below hrun (d.order body)

theorem branch_below (hrun : ∀ s, Below (run s) (run' s)) (d : Direction) (guard assertion : Expr)
    (thenBody elseBody : List Stmt) :
    Below (branch lib run d guard thenBody elseBody assertion)
      (branch lib run' d guard thenBody elseBody assertion) := by
  cases d with
  | forward => exact (Below.refl _).bind fun _ => (block_below hrun _ _).bind fun _ => .refl _
  | backward => exact (Below.refl _).bind fun _ => (block_below hrun _ _).bind fun _ => .refl _

theorem again_below (hrun : ∀ s, Below (run s) (run' s)) (d : Direction) (first : Expr)
    (doBody loopBody : List Stmt) (i : Nat) :
    Below (again lib run d first doBody loopBody i) (again lib run' d first doBody loopBody i) := by
  refine (block_below hrun d loopBody).bind fun _ => (Below.refl _).bind fun b => ?_
  cases b with
  | true => exact (Below.refl _).bind fun _ => block_below hrun d doBody
  | false => exact block_below hrun d doBody

theorem repeatUntil_below {done : Execution Bool} {body body' : Nat → Execution Unit}
    (hbody : ∀ i, Below (body i) (body' i)) {k l : Nat} (hkl : k ≤ l) (i : Nat) :
    Below (repeatUntil done body k i) (repeatUntil done body' l i) := by
  induction k generalizing l i with
  | zero => exact fun m => Or.inl ⟨m, rfl⟩
  | succ k ih =>
    obtain ⟨l, rfl⟩ : ∃ j, l = j + 1 := ⟨l - 1, by omega⟩
    refine (Below.refl done).bind fun b => ?_
    cases b with
    | true => exact .refl _
    | false => exact (hbody (i + 1)).bind fun _ => ih (by omega) (i + 1)

theorem loop_below (hrun : ∀ s, Below (run s) (run' s)) {k l : Nat} (hkl : k ≤ l) (d : Direction)
    (entry exit : Expr) (doBody loopBody : List Stmt) :
    Below (loop lib run k d entry doBody loopBody exit)
      (loop lib run' l d entry doBody loopBody exit) := by
  have hrest : Below
      (block run d doBody >>= fun _ => repeatUntil (test lib (d.pick exit entry))
        (again lib run d (d.pick entry exit) doBody loopBody) k 0)
      (block run' d doBody >>= fun _ => repeatUntil (test lib (d.pick exit entry))
        (again lib run' d (d.pick entry exit) doBody loopBody) l 0) :=
    (block_below hrun d doBody).bind fun _ =>
      repeatUntil_below (again_below hrun d _ doBody loopBody) hkl 0
  rw [loop_eq, loop_eq]
  refine (Below.refl _).bind fun b => ?_
  cases b with
  | false => exact (Below.refl _).bind fun _ => hrest
  | true => exact hrest

end Compound

section Procedures

variable {run run' : Direction → Stmt → Execution Unit}

theorem runProcedure_below (hrun : ∀ d s, Below (run d s) (run' d s)) (p : Procedure)
    (args : List Binding) (d : Direction) (depth : Int) :
    Below (runProcedure lib run p args d depth) (runProcedure lib run' p args d depth) := by
  intro mem
  rw [runProcedure_apply, runProcedure_apply]
  by_cases hdepth : depth > lib.settings.maxCallDepth
  · simp [hdepth]
  by_cases hcount : args.length ≠ p.params.length
  · simp [hdepth, hcount]
  rw [if_neg hdepth, if_neg hcount, if_neg hdepth, if_neg hcount]
  cases (lib.frameOf p depth mem).attachAll (p.paramNames.zip args) with
  | error f => exact Or.inr rfl
  | ok frame =>
    rcases block_below (hrun d) d p.body (lib.entered p args d depth mem) with ⟨m, hm⟩ | he
    · exact Or.inl ⟨m.left, by simp only [hm, embed_error]⟩
    · exact Or.inr (by simp only [he])

theorem onMemory_below {α : Type} {x y : MemoryAction α} (h : Below x y) :
    Below (onMemory x) (onMemory y) := by
  intro m
  rw [onMemory_apply, onMemory_apply]
  rcases h m.toMemory with ⟨mem, hmem⟩ | he
  · exact Or.inl ⟨⟨mem, m.frame⟩, by rw [hmem, embed_error]⟩
  · exact Or.inr (by rw [he])

theorem call_below (hrun : ∀ d s, Below (run d s) (run' d s)) (d : Direction) (callee : String)
    (args : List Expr) (uncall : Bool) :
    Below (call lib run d callee args uncall) (call lib run' d callee args uncall) :=
  (Below.refl _).bind fun _ => (Below.refl _).bind fun _ => (Below.refl _).bind fun _ =>
    (Below.refl _).bind fun _ => (Below.refl _).bind fun _ =>
      onMemory_below (runProcedure_below hrun _ _ _ _)

theorem step_below (hrun : ∀ d s, Below (run d s) (run' d s)) {k l : Nat} (hkl : k ≤ l)
    (d : Direction) (s : Stmt) : Below (step lib run k d s) (step lib run' l d s) := by
  cases s with
  | branch loc guard thenBody elseBody assertion =>
    exact branch_below (hrun d) d guard assertion thenBody elseBody
  | call loc callee args uncall => exact call_below hrun d callee args uncall
  | loop loc entry doBody loopBody exit =>
    exact loop_below (hrun d) hkl d entry exit doBody loopBody
  | block loc body => exact block_below (hrun d) d body
  | assign | declare | discard | swap | hole => exact .refl _

end Procedures

theorem annotated_below (s : Stmt) {x y : Execution Unit} (h : Below x y) :
    Below (annotated s x) (annotated s y) := by
  intro m
  unfold annotated
  rcases h m with ⟨t, ht⟩ | he
  · exact Or.inl ⟨t, by simp only [ht]⟩
  · exact Or.inr (by simp only [he])

/-- **More fuel changes nothing.** A run that did not exhaust its fuel gives the same with more. -/
theorem exec_below (lib : Library) {k l : Nat} (hkl : k ≤ l) (d : Direction) (s : Stmt) :
    Below (exec lib k d s) (exec lib l d s) := by
  induction k generalizing l d s with
  | zero => exact fun m => Or.inl ⟨m, rfl⟩
  | succ k ih =>
    obtain ⟨l, rfl⟩ : ∃ j, l = j + 1 := ⟨l - 1, by omega⟩
    have hkl' : k ≤ l := by omega
    exact (Below.refl (trace s)).bind fun _ =>
      annotated_below s (step_below (fun d s => ih hkl' d s) hkl' d s)

/-- The run of a block, for each amount of fuel. -/
theorem steady_block (lib : Library) (d : Direction) (body : List Stmt) :
    Steady fun k => block (exec lib k d) d body :=
  fun _ _ hkl => block_below (exec_below lib hkl d) d body

end Execution

namespace Library

open Actions

theorem steady_run (lib : Library) (p : Procedure) (args : List Binding) (d : Direction)
    (depth : Int) : Steady fun k => lib.run k p args d depth :=
  fun _ _ hkl => Execution.runProcedure_below (Execution.exec_below lib hkl) p args d depth

theorem steady_runNamed (lib : Library) (name : String) (args : List Binding) (d : Direction) :
    Steady fun k => lib.runNamed k name args d := by
  intro k l hkl mem
  change (∃ t, lib.runNamed k name args d mem = .error .exhausted t) ∨
    lib.runNamed k name args d mem = lib.runNamed l name args d mem
  rw [runNamed_apply, runNamed_apply]
  cases lib.get name with
  | error f => exact Or.inr rfl
  | ok p =>
    by_cases hpoison : ((Binding.storesOf args).any fun id => (mem.heap.store id).poisoned) = true
    · simp only [hpoison, if_true, or_true]
    · simp only [hpoison, if_false, Bool.false_eq_true]
      rcases lib.steady_run p args d 0 hkl mem with ⟨t, ht⟩ | he
      · exact Or.inl ⟨t, concluded_eq_exhausted.mpr ht⟩
      · simp only at he
        exact Or.inr (by rw [he])

end Library

end Retrace
