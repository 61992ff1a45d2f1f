import Mathlib.Data.List.Forall2
import Retrace.Program.Inverse
import Retrace.Proofs.Agreement
import Retrace.Proofs.Fuel
import Retrace.Proofs.RoundTrip

/-!
# Inverse procedures run backward

The inverse of a procedure, run in one direction, does what the procedure does in the other one. The
two runs take the same steps side by side. A statement of the procedure stands against its inverse
in the other direction; where both call a procedure other than the two, its statements stand against
themselves in the same direction. So this holds also where such a procedure calls the first one
again.

The one difference is that a conditional run forward always checks its second condition, and run
backward only if the settings ask for it. With that check on, the two runs agree in everything but
the texts of their faults; without it they agree where both complete (`matches_exec`).
-/

namespace Retrace

open Actions

/-! ## Inverses of statements -/

namespace Update

theorem ofSymbol_symbol (u : Update) : ofSymbol u.symbol = .ok u := by
  cases u <;> rfl

theorem directed_inverse (u : Update) (d : Direction) :
    u.inverse.directed d = u.directed d.flip := by
  cases d <;> simp [directed, Direction.pick, Direction.flip]

end Update

namespace Stmt

variable {renames : List (String × String)}

section Equations

variable {l : Option Location} {s' : Stmt} {e e' : Expr} {first second : List Stmt}

theorem inverse_assign_eq_ok {op : String} :
    (assign l e op e').inverse renames = .ok s' ↔
      ∃ u, Update.ofSymbol op = .ok u ∧ assign l e u.inverse.symbol e' = s' := by
  rw [inverse, except_bind_eq_ok]
  simp only [pure, Except.pure, Except.ok.injEq]

theorem inverse_branch_eq_ok :
    (branch l e first second e').inverse renames = .ok s' ↔
      ∃ first', inverseBody renames first = .ok first' ∧ ∃ second',
        inverseBody renames second = .ok second' ∧ branch l e' first' second' e = s' := by
  rw [inverse]
  simp only [except_bind_eq_ok, pure, Except.pure, Except.ok.injEq]

theorem inverse_loop_eq_ok :
    (loop l e first second e').inverse renames = .ok s' ↔
      ∃ first', inverseBody renames first = .ok first' ∧ ∃ second',
        inverseBody renames second = .ok second' ∧ loop l e' first' second' e = s' := by
  rw [inverse]
  simp only [except_bind_eq_ok, pure, Except.pure, Except.ok.injEq]

theorem inverse_block_eq_ok :
    (block l first).inverse renames = .ok s' ↔
      ∃ first', inverseBody renames first = .ok first' ∧ block l first' = s' := by
  rw [inverse, except_bind_eq_ok]
  simp only [pure, Except.pure, Except.ok.injEq]

/-- The procedure that the inverse of a call goes to. -/
def renamed (renames : List (String × String)) (callee : String) : String :=
  ((renames.find? fun entry => entry.1 = callee).map Prod.snd).getD callee

theorem inverse_call (l : Option Location) (callee : String) (args : List Expr) (uncall : Bool) :
    ∃ uncall', (call l callee args uncall).inverse renames =
      .ok (call l (renamed renames callee) args uncall') := by
  rw [inverse, renamed]
  cases renames.find? fun entry => entry.1 = callee with
  | some entry => exact ⟨uncall, rfl⟩
  | none => exact ⟨!uncall, rfl⟩

theorem inverseBody_cons_eq_ok {s : Stmt} {rest body' : List Stmt} :
    inverseBody renames (s :: rest) = .ok body' ↔
      ∃ rest', inverseBody renames rest = .ok rest' ∧ ∃ s', s.inverse renames = .ok s' ∧
        rest' ++ [s'] = body' := by
  rw [inverseBody]
  simp only [except_bind_eq_ok, pure, Except.pure, Except.ok.injEq]

end Equations

/-- The inverse of a body holds the inverses of its statements, the last one first. -/
theorem forall₂_of_inverseBody {body body' : List Stmt}
    (h : inverseBody renames body = .ok body') :
    List.Forall₂ (fun s t => s.inverse renames = .ok t) body body'.reverse := by
  induction body generalizing body' with
  | nil =>
    simp only [inverseBody, Except.ok.injEq] at h
    subst h
    exact .nil
  | cons s rest ih =>
    obtain ⟨rest', hrest, t, ht, rfl⟩ := inverseBody_cons_eq_ok.mp h
    rw [List.reverse_append]
    exact .cons ht (ih hrest)

/-- In the order in which they are run, the statements of a body meet their inverses. -/
theorem forall₂_order {body body' : List Stmt} (h : inverseBody renames body = .ok body')
    (d : Direction) :
    List.Forall₂ (fun s t => s.inverse renames = .ok t) (d.order body) (d.flip.order body') := by
  have hforall := forall₂_of_inverseBody h
  cases d with
  | forward => exact hforall
  | backward => simpa [Direction.order, Direction.flip] using List.rel_reverse hforall

end Stmt

/-- A procedure and its inverse are both registered. -/
structure Library.Inverts (lib : Library) (p q : Procedure) : Prop where
  registered : lib.get p.name = .ok p
  inverse : p.inverse q.name = .ok q
  inverted : lib.get q.name = .ok q

namespace Library.Inverts

variable {lib : Library} {p q : Procedure}

theorem params (h : lib.Inverts p q) : p.params = q.params := by
  obtain ⟨body, -, hq⟩ := except_bind_eq_ok.mp h.inverse
  rw [← Except.ok.inj hq]

theorem body (h : lib.Inverts p q) : Stmt.inverseBody [(p.name, q.name)] p.body = .ok q.body := by
  obtain ⟨body, hbody, hq⟩ := except_bind_eq_ok.mp h.inverse
  rw [hbody, ← Except.ok.inj hq]

end Library.Inverts

namespace Execution

open Comparison

variable {lib : Library} {strict : Prop} {run : Direction → Stmt → Execution Unit}

theorem matches_block_self (hrun : ∀ d s, (runs strict).Matches (run d s) (run d s))
    (d : Direction) (body : List Stmt) :
    (runs strict).Matches (block (run d) d body) (block (run d) d body) :=
  matches_forM (List.forall₂_same.mpr fun s _ => hrun d s)

theorem matches_runProcedure_self (hrun : ∀ d s, (runs strict).Matches (run d s) (run d s))
    (p : Procedure) (args : List Binding) (d : Direction) (depth : Int) :
    (memories strict).Matches (runProcedure lib run p args d depth)
      (runProcedure lib run p args d depth) :=
  matches_runProcedure rfl (matches_block_self hrun d p.body) args depth

/-- A statement in the same direction takes the same steps in twin machines. -/
theorem matches_step_self (hstrict : strict → lib.settings.checkGuardOnBackward = true)
    (hrun : ∀ d s, (runs strict).Matches (run d s) (run d s)) (fuel : Nat) (d : Direction)
    (s : Stmt) : (runs strict).Matches (step lib run fuel d s) (step lib run fuel d s) := by
  have hblock := matches_block_self hrun d
  cases s with
  | assign loc target op value => exact matches_assign (.refl _)
  | branch loc guard thenBody elseBody assertion =>
    exact matches_branch rfl rfl (fun hs => ⟨Or.inr (hstrict hs), Or.inr (hstrict hs)⟩) (hblock _)
      (hblock _)
  | call loc callee args uncall =>
    refine matches_call args ?_
    cases lib.get callee with
    | ok p => exact Or.inl ⟨p, p, rfl, rfl, fun args => matches_runProcedure_self hrun p args _⟩
    | error f => exact Or.inr ⟨f, f, rfl, rfl, rfl⟩
  | declare loc name value =>
    cases d with
    | forward => exact matches_introduce name value
    | backward => exact matches_remove name value
  | discard loc name value =>
    cases d with
    | forward => exact matches_remove name value
    | backward => exact matches_introduce name value
  | loop loc entry doBody loopBody exit => exact matches_loop rfl rfl (hblock _) (hblock _) fuel
  | swap loc left right => exact matches_swap left right
  | block loc body => exact hblock body
  | hole loc => exact .throw rfl

variable {p q : Procedure}

theorem matches_block_inverse
    (hinv : ∀ d s t, s.inverse [(p.name, q.name)] = .ok t →
      (runs strict).Matches (run d s) (run d.flip t)) (d : Direction) {body body' : List Stmt}
    (h : Stmt.inverseBody [(p.name, q.name)] body = .ok body') :
    (runs strict).Matches (block (run d) d body) (block (run d.flip) d.flip body') :=
  matches_forM ((Stmt.forall₂_order h d).imp fun s t => hinv d s t)

/-- The inverse of a statement in the other direction takes the same steps as the statement. -/
theorem matches_step_inverse (hlib : lib.Inverts p q)
    (hstrict : strict → lib.settings.checkGuardOnBackward = true)
    (hrun : ∀ d s, (runs strict).Matches (run d s) (run d s))
    (hinv : ∀ d s t, s.inverse [(p.name, q.name)] = .ok t →
      (runs strict).Matches (run d s) (run d.flip t)) (fuel : Nat) (d : Direction) {s t : Stmt}
    (h : s.inverse [(p.name, q.name)] = .ok t) :
    (runs strict).Matches (step lib run fuel d s) (step lib run fuel d.flip t) := by
  cases s with
  | assign loc target op value =>
    obtain ⟨u, hu, rfl⟩ := Stmt.inverse_assign_eq_ok.mp h
    refine matches_assign ?_
    rw [hu, Update.ofSymbol_symbol]
    exact (by rw [Update.directed_inverse, Direction.flip_flip] :
      u.directed d = u.inverse.directed d.flip)
  | branch loc guard thenBody elseBody assertion =>
    obtain ⟨thenBody', hthen, elseBody', helse, rfl⟩ := Stmt.inverse_branch_eq_ok.mp h
    exact matches_branch (Direction.pick_flip ..).symm (Direction.pick_flip ..).symm
      (fun hs => ⟨Or.inr (hstrict hs), Or.inr (hstrict hs)⟩) (matches_block_inverse hinv d hthen)
      (matches_block_inverse hinv d helse)
  | call loc callee args uncall =>
    rw [Stmt.inverse] at h
    by_cases hcallee : p.name = callee
    · -- a call of the procedure to itself goes to the inverse
      simp only [List.find?_cons, hcallee, decide_true, Except.ok.injEq] at h
      subst h hcallee
      refine matches_call args (Or.inl ⟨p, q, hlib.registered, hlib.inverted, fun args depth => ?_⟩)
      have hbody := matches_block_inverse hinv (if uncall then d.flip else d) hlib.body
      cases uncall <;> exact matches_runProcedure hlib.params hbody args depth
    · simp only [List.find?_cons, hcallee, decide_false, List.find?_nil, Except.ok.injEq] at h
      subst h
      have hdir : (if (!uncall) = true then d.flip.flip else d.flip) =
          if uncall then d.flip else d := by
        cases uncall <;> simp
      refine matches_call args ?_
      rw [hdir]
      cases lib.get callee with
      | ok r => exact Or.inl ⟨r, r, rfl, rfl, fun args => matches_runProcedure_self hrun r args _⟩
      | error f => exact Or.inr ⟨f, f, rfl, rfl, rfl⟩
  | declare loc name value =>
    cases h
    cases d with
    | forward => exact matches_introduce name value
    | backward => exact matches_remove name value
  | discard loc name value =>
    cases h
    cases d with
    | forward => exact matches_remove name value
    | backward => exact matches_introduce name value
  | loop loc entry doBody loopBody exit =>
    obtain ⟨doBody', hdo, loopBody', hloop, rfl⟩ := Stmt.inverse_loop_eq_ok.mp h
    exact matches_loop (Direction.pick_flip ..).symm (Direction.pick_flip ..).symm
      (matches_block_inverse hinv d hdo) (matches_block_inverse hinv d hloop) fuel
  | swap loc left right =>
    cases h
    exact matches_swap left right
  | block loc body =>
    obtain ⟨body', hbody, rfl⟩ := Stmt.inverse_block_eq_ok.mp h
    exact matches_block_inverse hinv d hbody
  | hole loc => cases h

/-- **A statement and its inverse take the same steps**, in opposite directions, and so does every
statement that both come to in the same direction. -/
theorem matches_exec (hlib : lib.Inverts p q)
    (hstrict : strict → lib.settings.checkGuardOnBackward = true) (fuel : Nat) :
    (∀ d s, (runs strict).Matches (exec lib fuel d s) (exec lib fuel d s)) ∧
      ∀ d s t, s.inverse [(p.name, q.name)] = .ok t →
        (runs strict).Matches (exec lib fuel d s) (exec lib fuel d.flip t) := by
  induction fuel with
  | zero => exact ⟨fun _ _ => .throw trivial, fun _ _ _ _ => .throw trivial⟩
  | succ fuel ih =>
    obtain ⟨hself, hinv⟩ := ih
    refine ⟨fun d s => (matches_trace s s).bind fun _ => matches_annotated s s ?_,
      fun d s t h => (matches_trace s t).bind fun _ => matches_annotated s t ?_⟩
    · exact matches_step_self hstrict hself fuel d s
    · exact matches_step_inverse hlib hstrict hself hinv fuel d h

end Execution

/-! ## Procedures and invocations -/

namespace Library

open Comparison Execution

variable {lib : Library} {strict : Prop} {p q : Procedure}

theorem matches_run (hlib : lib.Inverts p q)
    (hstrict : strict → lib.settings.checkGuardOnBackward = true) (fuel : Nat)
    (args : List Binding) (d : Direction) (depth : Int) :
    (memories strict).Matches (lib.run fuel p args d depth) (lib.run fuel q args d.flip depth) :=
  matches_runProcedure hlib.params
    (matches_block_inverse (matches_exec hlib hstrict fuel).2 d hlib.body) args depth

/-- Invocations come to like outcomes if their runs do. -/
theorem agree_concluded {args : List Binding} {d e : Direction}
    {r r' : EStateM.Result Stop Memory Unit} (h : (memories strict).Agree r r') :
    (memories strict).Agree (concluded p args d r) (concluded q args e r') := by
  cases r with
  | ok a mem =>
    cases r' with
    | ok b nem => exact h
    | error stop nem => cases stop <;> exact h
  | error stop mem =>
    cases r' with
    | ok b nem => cases stop <;> exact h
    | error stop' nem =>
      cases stop with
      | exhausted =>
        cases stop' with
        | exhausted => exact h
        | fault g => exact fun hs => (h hs).1.elim
      | fault f =>
        cases stop' with
        | exhausted => exact fun hs => (h hs).1.elim
        | fault g => exact fun hs => ⟨(h hs).1, congrArg (Heap.poison · _) (h hs).2⟩

theorem matches_runNamed (hlib : lib.Inverts p q)
    (hstrict : strict → lib.settings.checkGuardOnBackward = true) (fuel : Nat)
    (args : List Binding) (d : Direction) :
    (memories strict).Matches (lib.runNamed fuel p.name args d)
      (lib.runNamed fuel q.name args d.flip) := by
  intro mem nem hheap
  replace hheap : mem.heap = nem.heap := hheap
  rw [runNamed_apply, runNamed_apply, hlib.registered, hlib.inverted, hheap]
  by_cases hpoison : ((Binding.storesOf args).any fun id => (nem.heap.store id).poisoned) = true
  · simp only [hpoison, if_true]
    exact agree_error (Violation.like_fault rfl _ _) hheap
  simp only [hpoison, if_false, Bool.false_eq_true]
  exact agree_concluded (matches_run hlib hstrict fuel args d 0 hheap)

/-- Both outcomes are completions, or stops for like reasons, and leave the same heap. -/
inductive SameOutcome :
    EStateM.Result Stop Memory Unit → EStateM.Result Stop Memory Unit → Prop where
  | completed {mem nem : Memory} (hheap : mem.heap = nem.heap) :
    SameOutcome (.ok () mem) (.ok () nem)
  | failed {stop stop' : Stop} {mem nem : Memory} (hlike : stop.Like stop')
    (hheap : mem.heap = nem.heap) : SameOutcome (.error stop mem) (.error stop' nem)

theorem sameOutcome_of_agree {r r' : EStateM.Result Stop Memory Unit}
    (h : (memories True).Agree r r') : SameOutcome r r' := by
  cases r with
  | ok a mem =>
    cases r' with
    | ok b nem => exact .completed h.2
    | error stop nem => exact absurd trivial h
  | error stop mem =>
    cases r' with
    | ok b nem => exact absurd trivial h
    | error stop' nem => exact .failed (h trivial).1 (h trivial).2

/-- **Inversion law.** A procedure in one direction and its inverse in the other one leave the same
heap wherever both complete. If the guards of conditionals are checked backward too, they always
have the same outcome: with the same fuel both complete, both fail with a fault of one class, or
both exhaust it, and they leave the same heap. -/
theorem runNamed_inverse {n : String} (hp : lib.get p.name = .ok p) (hinverse : p.inverse n = .ok q)
    (hq : lib.get n = .ok q) (args : List Binding) (d : Direction) (mem : Memory) :
    (∀ fuel fuel' mem₁ mem₂, lib.runNamed fuel p.name args d mem = .ok () mem₁ →
      lib.runNamed fuel' n args d.flip mem = .ok () mem₂ → mem₁.heap = mem₂.heap) ∧
    (lib.settings.checkGuardOnBackward = true → ∀ fuel,
      SameOutcome (lib.runNamed fuel p.name args d mem) (lib.runNamed fuel n args d.flip mem)) := by
  obtain rfl : q.name = n := by
    obtain ⟨body, -, hbody⟩ := except_bind_eq_ok.mp hinverse
    rw [← Except.ok.inj hbody]
  have hlib : lib.Inverts p q := ⟨hp, hinverse, hq⟩
  refine ⟨fun fuel fuel' mem₁ mem₂ h₁ h₂ => ?_, fun hguard fuel => ?_⟩
  · -- both runs complete with the larger amount of fuel too
    have h₁' := (lib.steady_runNamed p.name args d (Nat.le_max_left fuel fuel')).eq_ok h₁
    have h₂' := (lib.steady_runNamed q.name args d.flip (Nat.le_max_right fuel fuel')).eq_ok h₂
    have hstrict : False → lib.settings.checkGuardOnBackward = true := False.elim
    have hagree := matches_runNamed hlib hstrict (max fuel fuel') args d (rfl : mem.heap = mem.heap)
    simp only at h₁' h₂'
    rw [h₁', h₂'] at hagree
    exact hagree.2
  · exact sameOutcome_of_agree (matches_runNamed hlib (fun _ => hguard) fuel args d rfl)

end Library

namespace Sample

/-- `fib(x, y, n)` turns two zeros into neighbours of the Fibonacci sequence, `n` steps on. -/
def fib : Procedure :=
  { name := "fib"
    params := [⟨"x", none⟩, ⟨"y", none⟩, ⟨"n", none⟩]
    body :=
      [.branch none (.binary none "==" (.var none "n") (.int none 0))
        [.assign none (.var none "x") "+=" (.int none 1),
          .assign none (.var none "y") "+=" (.int none 1)]
        [.assign none (.var none "n") "-=" (.int none 1),
          .call none "fib" [.var none "x", .var none "y", .var none "n"] false,
          .assign none (.var none "x") "+=" (.var none "y"),
          .swap none (.var none "x") (.var none "y")]
        (.binary none "==" (.var none "x") (.var none "y"))] }

/-- The inverse of `fib`, under another name. -/
def fibInverse : Procedure :=
  { name := "fib_inv"
    params := [⟨"x", none⟩, ⟨"y", none⟩, ⟨"n", none⟩]
    body :=
      [.branch none (.binary none "==" (.var none "x") (.var none "y"))
        [.assign none (.var none "y") "-=" (.int none 1),
          .assign none (.var none "x") "-=" (.int none 1)]
        [.swap none (.var none "x") (.var none "y"),
          .assign none (.var none "x") "-=" (.var none "y"),
          .call none "fib_inv" [.var none "x", .var none "y", .var none "n"] false,
          .assign none (.var none "n") "+=" (.int none 1)]
        (.binary none "==" (.var none "n") (.int none 0))] }

/-- The library of both. -/
def fibs : Library := { emptyLibrary true with procedures := [fib, fibInverse] }

theorem accepted_fibs : fibs.Accepted := by
  have hempty : Library.empty (settings true) [] = .ok (emptyLibrary true) := rfl
  have hregister : (emptyLibrary true).register default [fib, fibInverse] {} =
      .ok fibs { log := [.registered fibInverse, .registered fib] } := rfl
  exact .register (.empty hempty) hregister

/-- One store with the values of `x`, `y` and `n`. -/
def triple (x y n : Int) : Memory :=
  { heap := ⟨#[{ intType := byte, cells := #[some x, some y, some n] }]⟩ }

def tripleArguments : List Binding := [.scalar ⟨0, 0⟩, .scalar ⟨0, 1⟩, .scalar ⟨0, 2⟩]

end Sample

/-- From the neighbours 3 and 5, `fib` backward and its inverse forward complete alike. With a count
left over, both fail alike. -/
theorem fib_inverse_agrees : Sample.fibs.Accepted ∧
    (∃ mem₁ mem₂,
      Sample.fibs.runNamed 20 "fib" Sample.tripleArguments .backward (Sample.triple 3 5 0) =
          .ok () mem₁ ∧
        Sample.fibs.runNamed 20 "fib_inv" Sample.tripleArguments .forward (Sample.triple 3 5 0) =
            .ok () mem₂ ∧
          mem₁.heap = mem₂.heap) ∧
    faults (Sample.fibs.runNamed 20 "fib" Sample.tripleArguments .backward) (Sample.triple 3 5 7) =
        true ∧
      Library.SameOutcome
        (Sample.fibs.runNamed 20 "fib" Sample.tripleArguments .backward (Sample.triple 3 5 7))
        (Sample.fibs.runNamed 20 "fib_inv" Sample.tripleArguments .forward
          (Sample.triple 3 5 7)) := by
  have hget : Sample.fibs.get Sample.fib.name = .ok Sample.fib := rfl
  have hinverse : Sample.fib.inverse "fib_inv" = .ok Sample.fibInverse := rfl
  have hget' : Sample.fibs.get "fib_inv" = .ok Sample.fibInverse := rfl
  have hruns : completes (Sample.fibs.runNamed 20 "fib" Sample.tripleArguments .backward)
      (Sample.triple 3 5 0) = true := by decide +kernel
  have hruns' : completes (Sample.fibs.runNamed 20 "fib_inv" Sample.tripleArguments .forward)
      (Sample.triple 3 5 0) = true := by decide +kernel
  obtain ⟨_, mem₁, h₁⟩ := exists_of_completes hruns
  obtain ⟨_, mem₂, h₂⟩ := exists_of_completes hruns'
  have hlaw := Library.runNamed_inverse hget hinverse hget' Sample.tripleArguments .backward
  rw [(rfl : Sample.fib.name = "fib"), (rfl : Direction.backward.flip = .forward)] at hlaw
  refine ⟨Sample.accepted_fibs, ⟨mem₁, mem₂, h₁, h₂, ?_⟩, by decide +kernel, ?_⟩
  · exact (hlaw (Sample.triple 3 5 0)).1 20 20 mem₁ mem₂ h₁ h₂
  · exact (hlaw (Sample.triple 3 5 7)).2 rfl 20

end Retrace
