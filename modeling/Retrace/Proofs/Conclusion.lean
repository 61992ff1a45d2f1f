import Retrace.Proofs.Regularity
import Retrace.Proofs.Termination

/-!
# How runs of checked programs end

A run of a procedure that was read from a text and registered, if it ends, completes or ends with a
failure of the language, as long as all host functions that it calls give numbers. It does end where
it can be retraced: if guards are checked backward too and no local begins with a value that names
it, or if it is forward and no call is turned round (`Library.runNamed_regular`).

In general it need not end. Where guards are not checked backward, a conditional can be left as it
was entered, and a loop around it goes on for ever (`circle_never_ends`).
-/

namespace Retrace

open Actions

namespace Library

variable {lib : Library}

/-- A call of a host function in the run of a procedure gives no number. -/
def HostFails (lib : Library) (fuel : Nat) (name : String) (args : List Binding) (d : Direction)
    (mem : Memory) : Prop :=
  ∃ mem', lib.watched.runNamed fuel name args d mem = .error (.fault .hostFailure) mem'

/-- A run completed, or it ended with a failure of the language. -/
inductive Concludes : EStateM.Result Stop Memory Unit → Prop
  | completed (mem : Memory) : Concludes (.ok () mem)
  | failed {f : Failure} (hf : f.isRun = true) (mem : Memory) :
      Concludes (.error (.fault (.failure f)) mem)

variable {name : String} {p : Procedure} {args : List Binding} {d : Direction} {mem : Memory}

theorem concludes_of_not_exhausted (hlegal : lib.Legal) (hp : lib.get name = .ok p)
    (hargs : args.length = p.params.length) {fuel : Nat}
    (hcalls : ¬lib.HostFails fuel name args d mem)
    (hends : ∀ mem', lib.runNamed fuel name args d mem ≠ .error .exhausted mem') :
    Concludes (lib.runNamed fuel name args d mem) := by
  have hwatched : lib.watched.get name = .ok p := hp
  have hx := runNamed_apply lib fuel name args d mem
  have hy := runNamed_apply lib.watched fuel name args d mem
  rw [hp] at hx
  rw [hwatched] at hy
  by_cases hpoison : ((Binding.storesOf args).any fun id => (mem.heap.store id).poisoned) = true
  · simp only [hpoison, if_true] at hx
    rw [hx]
    exact .failed rfl mem
  simp only [hpoison, if_false, Bool.false_eq_true] at hx hy
  cases regular_run hlegal (mem_of_get hp) hargs fuel d 0 mem with
  | host h =>
    rw [h] at hy
    exact absurd ⟨_, hy⟩ hcalls
  | @ok a mem' h _ _ =>
    rw [hx, h]
    exact .completed mem'
  | @error stop mem' h _ hstop =>
    rw [h] at hx
    rcases hstop with rfl | ⟨f, rfl, g, rfl, hg⟩
    · exact absurd hx (hends mem')
    · rw [hx]
      exact .failed hg _

/-- **Checked programs break no rule of the machine.** In a library made of programs that were read
from texts and registered, a procedure is run by its name, in either direction, with as many
arguments as it has parameters, on any memory. If every call of a host function in the run gives a
number and the run ends, it completes, or it ends with a failure of the language. It does end if the
guards of conditionals are checked backward too and no local begins with a value that names it, or
if it is forward and no call is turned round. -/
theorem runNamed_regular (hlib : lib.Compiled) {name : String} {p : Procedure}
    (hp : lib.get name = .ok p) {args : List Binding} (hargs : args.length = p.params.length)
    (d : Direction) (mem : Memory) :
    (∀ fuel, ¬lib.HostFails fuel name args d mem →
      (∀ mem', lib.runNamed fuel name args d mem ≠ .error .exhausted mem') →
      Concludes (lib.runNamed fuel name args d mem)) ∧
    ((lib.settings.checkGuardOnBackward = true ∧
        ∀ loc x e, lib.Holds (.declare loc x e) → x ∉ e.names) ∨
      (d = .forward ∧ ∀ loc callee args, ¬lib.Holds (.call loc callee args true)) →
      mem.heap.InRange → (∀ s, Binding.Among args s → s.store < mem.heap.size) →
      ∃ bound, ∀ fuel ≥ bound, ¬lib.HostFails fuel name args d mem →
        Concludes (lib.runNamed fuel name args d mem)) := by
  refine ⟨fun fuel hcalls hends => concludes_of_not_exhausted hlib.legal hp hargs hcalls hends,
    fun hmode hrange hplaced => ?_⟩
  have hd : lib.Retraceable d := by
    rcases hmode with ⟨hguard, hlocals⟩ | ⟨rfl, hcalls⟩
    · exact retraceable_of_guards hguard hlocals
    · exact retraceable_of_forward hcalls
  obtain ⟨bound, result, hresult, hall⟩ :=
    (settles_runNamed hlib.accepted.wellScoped hd name hrange hplaced).eventually
      (lib.steady_runNamed name args d)
  refine ⟨bound, fun fuel hfuel hcalls => ?_⟩
  refine concludes_of_not_exhausted hlib.legal hp hargs hcalls fun mem' => ?_
  rw [hall fuel hfuel]
  exact hresult mem'

end Library

namespace Sample

/-- A local that a host function computes, in the text of a program. -/
def halving : String :=
  "procedure halve(x, y) \x7b local t = half(x) y += t delocal t = half(x) \x7d"

/-- Half of a number. -/
def half : HostFunction := .unary "half" fun n => n / 2

/-- A library with a further host function and the given procedures, in which guards are checked
backward. -/
def halvingOf (procedures : List Procedure) : Library :=
  { settings := { checkGuardOnBackward := true }
    intType := .word
    functions :=
      [("half", half), ("abs", .unary "abs" fun n => n.natAbs), ("max", .joining "max" max),
        ("min", .joining "min" min)]
    procedures }

/-- One store with two slots, for `x` and `y`. -/
def halvingMemory : Memory := { heap := ⟨#[{ cells := #[some 7, some 3] }]⟩ }

def halvingArguments : List Binding := [.scalar ⟨0, 0⟩, .scalar ⟨0, 1⟩]

/-- A statement is not a local that begins with a value that names it. -/
def beginsPlainly : Stmt → Bool
  | .declare _ name e => name ∉ e.names
  | _ => true

/-- The program can be registered, its locals begin plainly, and `halve` runs backward on the sample
memory. -/
def halves (program : Program) : Bool :=
  completes ((halvingOf []).register default program.procedures) {} &&
    (((halvingOf program.procedures).get "halve").toOption.any fun p =>
      halvingArguments.length = p.params.length) &&
      (program.procedures.all fun p => (Stmt.nestedAll p.body).all beginsPlainly) &&
        completes ((halvingOf program.procedures).watched.runNamed 5 "halve" halvingArguments
          .backward) halvingMemory

theorem exists_halves :
    ∃ program, Program.parse halving "<text>" = .ok program ∧ halves program = true := by
  have hany : (Program.parse halving "<text>").toOption.any halves = true := by decide +kernel
  exact exists_of_toOption_any hany

end Sample

/-- A program in which a host function is called is read, registered and run backward. -/
theorem halve_regular : ∃ (program : Program) (p : Procedure),
    Program.parse Sample.halving "<text>" = .ok program ∧
      (Sample.halvingOf program.procedures).Compiled ∧
      (Sample.halvingOf program.procedures).get "halve" = .ok p ∧
      Sample.halvingArguments.length = p.params.length ∧
      ∃ bound, ∀ fuel ≥ bound, Library.Concludes ((Sample.halvingOf program.procedures).runNamed
        fuel "halve" Sample.halvingArguments .backward Sample.halvingMemory) := by
  obtain ⟨program, hparse, hsample⟩ := Sample.exists_halves
  simp only [Sample.halves, Bool.and_eq_true] at hsample
  obtain ⟨⟨⟨hregister, hget⟩, hplain⟩, hrun⟩ := hsample
  obtain ⟨lib, inquiry, hregister⟩ := exists_of_completes hregister
  obtain ⟨_, mem', hrun⟩ := exists_of_completes hrun
  have hempty : Library.empty { checkGuardOnBackward := true } [("half", Sample.half)] =
      .ok (Sample.halvingOf []) := rfl
  have hcompiled : (Sample.halvingOf program.procedures).Compiled := by
    obtain ⟨rfl, -⟩ := Library.register_eq_ok hregister
    exact .register (.empty hempty) hparse hregister
  have hlocals : ∀ loc x e, (Sample.halvingOf program.procedures).Holds (.declare loc x e) →
      x ∉ e.names := by
    rintro loc x e ⟨p, hp, hs⟩
    have hx := List.all_eq_true.mp (List.all_eq_true.mp hplain p hp) _ hs
    simpa [Sample.beginsPlainly] using hx
  have hplaced : ∀ s, Binding.Among Sample.halvingArguments s →
      s.store < Sample.halvingMemory.heap.size := by
    simp [Binding.Among, Sample.halvingArguments, Binding.slots, Sample.halvingMemory, Heap.size]
  obtain ⟨p, hp, hlength⟩ := exists_of_toOption_any hget
  have hlength : Sample.halvingArguments.length = p.params.length := of_decide_eq_true hlength
  obtain ⟨-, hends⟩ := Library.runNamed_regular hcompiled hp hlength .backward Sample.halvingMemory
  obtain ⟨bound, hbound⟩ :=
    hends (Or.inl ⟨rfl, hlocals⟩) (Heap.inRange_of_all (by decide)) hplaced
  refine ⟨program, p, hparse, hcompiled, hp, hlength, max bound 5, fun fuel hfuel => ?_⟩
  refine hbound fuel (Nat.le_trans (Nat.le_max_left bound 5) hfuel) ?_
  rintro ⟨after, hfails⟩
  -- the watched run completes, with this fuel too
  have hcompletes := (Library.steady_runNamed _ _ _ _
    (Nat.le_trans (Nat.le_max_right bound 5) hfuel)).eq_ok hrun
  cases hcompletes.symm.trans hfails

/-! ## Runs without an end -/

namespace Execution

/-- An action leads to a state with some property, unless its fuel is used up. -/
def Lasts (P : Machine → Prop) (x : Execution Unit) (m : Machine) : Prop :=
  (∃ m', x m = .ok () m' ∧ P m') ∨ ∃ m', x m = .error .exhausted m'

variable {P : Machine → Prop} {run : Stmt → Execution Unit} {d : Direction} {m : Machine}

theorem lasts_block_singleton {s : Stmt} (h : Lasts P (run s) m) :
    Lasts P (block run d [s]) m := by
  have hblock : block run d [s] m = (run s >>= fun _ => pure ()) m := by cases d <;> rfl
  unfold Lasts
  rw [hblock, bind_apply]
  obtain ⟨m', hrun, hm'⟩ | ⟨m', hrun⟩ := h
  · rw [hrun]
    exact .inl ⟨m', rfl, hm'⟩
  · rw [hrun]
    exact .inr ⟨m', rfl⟩

/-- **A loop that goes on for ever.** Its last condition fails, and goes on to fail after each
pass. -/
theorem exhausted_repeatUntil {done : Execution Bool} {body : Nat → Execution Unit}
    (hdone : ∀ m, P m → done m = .ok false m) (hbody : ∀ i m, P m → Lasts P (body i) m)
    (fuel i : Nat) (hm : P m) :
    ∃ m', repeatUntil done body fuel i m = .error .exhausted m' := by
  induction fuel generalizing i m with
  | zero => exact ⟨m, rfl⟩
  | succ fuel ih =>
    rw [repeatUntil, bind_apply, hdone m hm]
    change ∃ m', (body (i + 1) >>= fun _ => repeatUntil done body fuel (i + 1)) m = _
    rw [bind_apply]
    obtain ⟨m₁, hpass, hm₁⟩ | ⟨m₁, hpass⟩ := hbody (i + 1) m hm
    · rw [hpass]
      exact ih (i + 1) hm₁
    · rw [hpass]
      exact ⟨m₁, rfl⟩

/-- A loop that is entered and never left. -/
theorem exhausted_loop {lib : Library} {entry exit : Expr} {doBody loopBody : List Stmt}
    (hfirst : test lib (d.pick entry exit) m = .ok true m) (hstart : Lasts P (block run d doBody) m)
    (hlast : ∀ m, P m → test lib (d.pick exit entry) m = .ok false m)
    (hpass : ∀ i m, P m → Lasts P (again lib run d (d.pick entry exit) doBody loopBody i) m)
    (fuel : Nat) :
    ∃ m', loop lib run fuel d entry doBody loopBody exit m = .error .exhausted m' := by
  rw [loop_eq, bind_apply, hfirst]
  change ∃ m', (block run d doBody >>= fun _ => repeatUntil _ _ fuel 0) m = _
  rw [bind_apply]
  obtain ⟨m₁, hblock, hm₁⟩ | ⟨m₁, hblock⟩ := hstart
  · rw [hblock]
    exact exhausted_repeatUntil hlast hpass fuel 0 hm₁
  · rw [hblock]
    exact ⟨m₁, rfl⟩

end Execution

namespace Sample

/-- A loop around a conditional. Backward, a number above `5` goes down by one, and `5` stays as it
is: it is not the end of the loop, and not its beginning. -/
def circling : String :=
  "procedure p(x) \x7b from x == 100 do \x7b if x == 0 \x7b x += 1 \x7d else \x7b \x7d " ++
    "assert x > 5 \x7d until x == 6 \x7d"

/-- A comparison of `x`, read at some places. -/
def compared (op : String) (n : Int) (places : Nat → Option Location) (i : Nat) : Expr :=
  .binary (places i) op (.var (places (i + 1)) "x") (.int (places (i + 2)) n)

/-- The conditional of `circling`. -/
def descent (places : Nat → Option Location) : Stmt :=
  .branch (places 5) (compared "==" 0 places 6)
    [.assign (places 9) (.var (places 10) "x") "+=" (.int (places 11) 1)] []
    (compared ">" 5 places 12)

/-- The loop of `circling`. -/
def circuit (places : Nat → Option Location) : Stmt :=
  .loop (places 1) (compared "==" 100 places 2) [descent places] [] (compared "==" 6 places 15)

/-- The procedure of `circling`. -/
def circle (places : Nat → Option Location) : Procedure :=
  { name := "p", params := [⟨"x", places 0⟩], body := [circuit places], loc := places 18 }

/-- Whether procedures are those of `circling`. -/
def circles : List Procedure → Bool
  | [⟨"p", [⟨"x", _⟩], [.loop _ (.binary _ "==" (.var _ "x") (.int _ 100))
      [.branch _ (.binary _ "==" (.var _ "x") (.int _ 0))
        [.assign _ (.var _ "x") "+=" (.int _ 1)] [] (.binary _ ">" (.var _ "x") (.int _ 5))] []
      (.binary _ "==" (.var _ "x") (.int _ 6))], _⟩] => true
  | _ => false

theorem exists_of_circles {procedures : List Procedure} (h : circles procedures = true) :
    ∃ places, procedures = [circle places] := by
  unfold circles at h
  split at h
  · rename_i l₀ l₁ l₂ l₃ l₄ l₅ l₆ l₇ l₈ l₉ l₁₀ l₁₁ l₁₂ l₁₃ l₁₄ l₁₅ l₁₆ l₁₇ l₁₈
    exact ⟨fun i => [l₀, l₁, l₂, l₃, l₄, l₅, l₆, l₇, l₈, l₉, l₁₀, l₁₁, l₁₂, l₁₃, l₁₄, l₁₅, l₁₆,
      l₁₇, l₁₈].getD i none, rfl⟩
  · cases h

/-- The usual settings, with any functions and procedures. -/
def circleLibrary (functions : List (String × HostFunction)) (procedures : List Procedure) :
    Library :=
  { settings := {}, intType := .word, functions, procedures }

/-- One store with one slot, for `x`. -/
def one (n : Int) : Memory := { heap := ⟨#[{ cells := #[some n] }]⟩ }

/-- A machine that runs `circling`. -/
def circleMachine (n : Int) (log : List Event) : Machine :=
  { heap := (one n).heap.push {}, log
    frame := { procedure := "p", locals := 1, bindings := [("x", .scalar ⟨0, 0⟩)] } }

section

open Execution

variable (functions : List (String × HostFunction)) (procedures : List Procedure)
  (places : Nat → Option Location) (fuel : Nat) (log : List Event)

/-- The conditional goes down from `6` to `5`. -/
theorem lasts_descent_six : Lasts (fun m => ∃ log, m = circleMachine 5 log)
    (exec (circleLibrary functions procedures) fuel .backward (descent places))
    (circleMachine 6 log) := by
  match fuel with
  | 0 | 1 => exact .inr ⟨_, rfl⟩
  | _ + 2 => exact .inl ⟨_, rfl, _, rfl⟩

/-- It leaves `5` as it is. -/
theorem lasts_descent_five : Lasts (fun m => ∃ log, m = circleMachine 5 log)
    (exec (circleLibrary functions procedures) fuel .backward (descent places))
    (circleMachine 5 log) := by
  match fuel with
  | 0 => exact .inr ⟨_, rfl⟩
  | _ + 1 => exact .inl ⟨_, rfl, _, rfl⟩

/-- The loop is entered at `6`, and stays at `5`. -/
theorem exhausted_circuit :
    ∃ m', exec (circleLibrary functions procedures) fuel .backward (circuit places)
      (circleMachine 6 log) = .error .exhausted m' := by
  cases fuel with
  | zero => exact ⟨_, rfl⟩
  | succ fuel =>
    let lib := circleLibrary functions procedures
    have hloop : ∃ m', loop lib (exec lib fuel .backward) fuel .backward
        (compared "==" 100 places 2) [descent places] [] (compared "==" 6 places 15)
        (circleMachine 6 (.executing 0 "p" (circuit places) :: log)) = .error .exhausted m' := by
      refine exhausted_loop (P := fun m => ∃ log, m = circleMachine 5 log) rfl
        (lasts_block_singleton (lasts_descent_six ..)) ?_ ?_ fuel
      · rintro m ⟨log, rfl⟩
        rfl
      · rintro i m ⟨log, rfl⟩
        exact @lasts_block_singleton _ _ .backward _ _ (lasts_descent_five ..)
    obtain ⟨m', hloop⟩ := hloop
    refine ⟨m', ?_⟩
    rw [exec, bind_apply, trace_apply]
    exact annotated_eq_exhausted.mpr hloop

/-- So the procedure never ends. -/
theorem exhausted_circle : ∃ mem', (circleLibrary functions [circle places]).runNamed fuel "p"
    [.scalar ⟨0, 0⟩] .backward (one 6) = .error .exhausted mem' := by
  let lib := circleLibrary functions [circle places]
  have hbody : Lasts (fun _ => False) (block (exec lib fuel .backward) .backward [circuit places])
      (circleMachine 6 [.entering 0 .backward "p"]) :=
    lasts_block_singleton (.inr (exhausted_circuit ..))
  obtain ⟨_, -, h⟩ | ⟨m', hbody⟩ := hbody
  · exact h.elim
  have hrun : lib.run fuel (circle places) [.scalar ⟨0, 0⟩] .backward 0 (one 6) =
      .error .exhausted m'.left := by
    rw [Library.run, runProcedure_apply]
    exact congrArg (embed Machine.left) hbody
  refine ⟨m'.left, ?_⟩
  rw [Library.runNamed_apply]
  exact Library.concluded_eq_exhausted.mpr hrun

end

theorem exists_circle : ∃ program places, Program.parse circling "<text>" = .ok program ∧
    program.procedures = [circle places] ∧
      completes (usual.register default program.procedures) {} = true := by
  have hany : (Program.parse circling "<text>").toOption.any (fun program =>
      circles program.procedures && completes (usual.register default program.procedures) {}) =
        true := by
    decide +kernel
  obtain ⟨program, hparse, hprogram⟩ := exists_of_toOption_any hany
  obtain ⟨hcircles, hregister⟩ := Bool.and_eq_true_iff.mp hprogram
  obtain ⟨places, hplaces⟩ := exists_of_circles hcircles
  exact ⟨program, places, hparse, hplaces, hregister⟩

end Sample

/-- A program that is read and registered with the usual settings, and a procedure of it that is run
backward on a number: no host function is called, and the run neither completes nor fails, but goes
on for ever. -/
theorem circle_never_ends : ∃ (program : Program) (lib : Library) (inquiry : Inquiry)
    (p : Procedure), Program.parse Sample.circling "<text>" = .ok program ∧
      Library.empty {} [] = .ok Sample.usual ∧
      Sample.usual.register default program.procedures {} = .ok lib inquiry ∧
      lib.get "p" = .ok p ∧ p.params.length = 1 ∧
      ∀ fuel, ¬lib.HostFails fuel "p" [.scalar ⟨0, 0⟩] .backward (Sample.one 6) ∧
        ∃ mem', lib.runNamed fuel "p" [.scalar ⟨0, 0⟩] .backward (Sample.one 6) =
          .error .exhausted mem' := by
  obtain ⟨program, places, hparse, hplaces, hregister⟩ := Sample.exists_circle
  obtain ⟨lib, inquiry, hregister⟩ := exists_of_completes hregister
  obtain ⟨hlib, -⟩ := Library.register_eq_ok hregister
  rw [hplaces] at hlib
  refine ⟨program, lib, inquiry, Sample.circle places, hparse, rfl, hregister, ?_, rfl,
    fun fuel => ⟨?_, ?_⟩⟩
  · rw [hlib]
    rfl
  · rintro ⟨mem', hfails⟩
    rw [hlib] at hfails
    obtain ⟨mem'', hexhausted⟩ := Sample.exhausted_circle Sample.usual.watched.functions places fuel
    cases hexhausted.symm.trans hfails
  · rw [hlib]
    exact Sample.exhausted_circle Sample.usual.functions places fuel

end Retrace
