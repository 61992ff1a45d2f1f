import Retrace.Proofs.Fuel
import Retrace.Proofs.Relaxation
import Retrace.Proofs.Undo

/-!
# Round trips

Running a procedure one way and then the other way gives back every slot of every store. In one
direction the law holds of all legal procedures that turn no call round: a forward run checks both
conditions of every conditional, and no local ends with a value that names it. Where calls are
turned round, runs of both directions are mixed, and both have to be regular: conditionals that are
run backward check their guards too, and no local begins with a value that names it
(`Library.Retraceable`).

The laws are proved for statements by induction on the fuel (`undo_exec`), with the laws of `Undo`
for each form. The run back needs no more fuel than the run.
-/

namespace Retrace

open Actions Execution

/-! ## Libraries whose runs can be retraced -/

/-- A run of the direction checks both conditions of every conditional, and ends no local with a
value that names it. -/
structure Library.Regular (lib : Library) (d : Direction) : Prop where
  checks : lib.Checks d
  locals : d = .backward → ∀ loc name e, lib.Holds (.declare loc name e) → name ∉ e.names

/-- All runs that a run of the direction is made of are regular. -/
structure Library.Retraceable (lib : Library) (d : Direction) : Prop where
  regular : lib.Regular d
  turned : lib.Regular d.flip ∨ ∀ loc callee args, ¬lib.Holds (.call loc callee args true)

namespace Library

variable {lib : Library} {d : Direction}

theorem Retraceable.flip (h : lib.Retraceable d) {loc : Option Location} {callee : String}
    {args : List Expr} (hcall : lib.Holds (.call loc callee args true)) :
    lib.Retraceable d.flip := by
  rcases h.turned with hflip | hnone
  · exact ⟨hflip, Or.inl (by rw [Direction.flip_flip]; exact h.regular)⟩
  · exact absurd hcall (hnone loc callee args)

/-- With the check of guards on, runs of both directions are regular. -/
theorem retraceable_of_guards (hguard : lib.settings.checkGuardOnBackward = true)
    (hlocals : ∀ loc name e, lib.Holds (.declare loc name e) → name ∉ e.names) :
    lib.Retraceable d :=
  ⟨⟨Or.inr hguard, fun _ => hlocals⟩, Or.inl ⟨Or.inr hguard, fun _ => hlocals⟩⟩

/-- Where no call is turned round, forward runs are forward throughout. -/
theorem retraceable_of_forward
    (hcalls : ∀ loc callee args, ¬lib.Holds (.call loc callee args true)) :
    lib.Retraceable .forward :=
  ⟨⟨Or.inl rfl, nofun⟩, Or.inr hcalls⟩

end Library

/-! ## Statements -/

namespace Execution

variable {lib : Library} {d : Direction}

/-- **Every statement can be undone.** A statement that completed is taken back by the same
statement in the other direction. -/
theorem undo_exec (hlib : lib.WellScoped) (hd : lib.Retraceable d) {fuel : Nat} {s : Stmt}
    (hs : lib.Holds s) : UndoneBy (exec lib fuel d s) (exec lib fuel d.flip s) := by
  induction fuel generalizing d s with
  | zero =>
    intro m m' n' _ h
    exact absurd h exec_zero_ne_ok
  | succ fuel ih =>
    -- the steps of the statement, after its line in the log
    suffices hstep : UndoneBy (step lib (exec lib fuel) fuel d s)
        (step lib (exec lib fuel) fuel d.flip s) by
      rintro m m' n' hm h hn' ⟨ρ, hρ⟩
      have htraced : ∀ k : Machine, k.Safe (traced s k) := fun k =>
        .of_eq (heap_traced s k) (frame_traced s k)
      obtain ⟨n, hn, σ, hσ⟩ := hstep ((htraced m).sound hm) (exec_succ_eq_ok.mp h)
        ((htraced n').sound hn')
        ⟨ρ, hρ.of_eq rfl rfl (heap_traced s n') (frame_traced s n')⟩
      exact ⟨n, exec_succ_eq_ok.mpr hn, σ,
        hσ.of_eq (heap_traced s m).symm (frame_traced s m).symm rfl rfl⟩
    have hcareful := careful_exec lib fuel
    have hblock : ∀ body ∈ s.bodies, UndoneBy (block (exec lib fuel d) d body)
        (block (exec lib fuel d.flip) d.flip body) := fun body hbody =>
      undo_block (hcareful d) (hcareful d.flip) fun t ht => ih hd (hs.of_bodies hbody ht)
    cases s with
    | assign loc target op value => exact undo_assign target op value
    | branch loc guard thenBody elseBody assertion =>
      exact undo_branch hd.regular.checks (hblock _ (by simp [Stmt.bodies]))
        (hblock _ (by simp [Stmt.bodies]))
    | call loc callee args uncall =>
      refine undo_call hcareful hcareful fun p hp => ?_
      have hmem := Library.mem_of_get hp
      have hbody := hlib.body p hmem
      have hheld : ∀ t ∈ p.body, lib.Holds t := fun t ht => Library.holds_of_body hmem ht
      have hdir : lib.Retraceable (if uncall then d.flip else d) := by
        cases uncall with
        | false => exact hd
        | true => exact hd.flip hs
      exact undo_runProcedure hcareful hcareful
        (undo_block (hcareful _) (hcareful _) fun t ht => ih hdir (hheld t ht))
        (fun hm => frame_of_balanced hlib hbody hheld hm.ordered)
        (fun hm => frame_of_balanced hlib hbody hheld hm.ordered)
    | declare loc name value =>
      cases d with
      | forward => exact undo_introduce name value
      | backward => exact undo_remove (hd.regular.locals rfl loc name value hs)
    | discard loc name value =>
      cases d with
      | forward => exact undo_remove ((hlib.stmt _ hs).discard loc name value rfl)
      | backward => exact undo_introduce name value
    | loop loc entry doBody loopBody exit =>
      exact undo_loop (hcareful d) (hcareful d.flip) (hblock _ (by simp [Stmt.bodies]))
        (hblock _ (by simp [Stmt.bodies]))
    | swap loc left right => exact undo_swap left right
    | block loc body => exact hblock body (by simp [Stmt.bodies])
    | hole loc =>
      intro m m' n' _ h
      cases h

end Execution

/-! ## Procedures -/

namespace Library

variable {lib : Library} {d : Direction} {fuel : Nat} {p : Procedure} {args : List Binding}
  {depth : Int} {mem mem' : Memory}

theorem undo_procedure (hlib : lib.WellScoped) (hd : lib.Retraceable d)
    (hp : p ∈ lib.procedures) (fuel : Nat) :
    ProcedureUndone lib (exec lib fuel) (exec lib fuel) p d := by
  have hcareful := careful_exec lib fuel
  have hheld : ∀ t ∈ p.body, lib.Holds t := fun t ht => holds_of_body hp ht
  exact undo_runProcedure hcareful hcareful
    (undo_block (hcareful _) (hcareful _) fun t ht => undo_exec hlib hd (hheld t ht))
    (fun hm => frame_of_balanced hlib (hlib.body p hp) hheld hm.ordered)
    (fun hm => frame_of_balanced hlib (hlib.body p hp) hheld hm.ordered)

theorem kept_run (h : lib.run fuel p args d depth mem = .ok () mem') (id : Nat) :
    Heap.KeptOutside (Binding.Among args) id mem.heap mem'.heap :=
  after_of_ok h ▸ kept_runProcedure (careful_exec lib fuel) p args d depth mem id

/-- **A procedure can be run back.** After a run that completed, the run in the other direction
completes and gives back the whole heap. -/
theorem run_flip (hlib : lib.WellScoped) (hd : lib.Retraceable d) (hp : p ∈ lib.procedures)
    (hrange : mem.heap.InRange) (hargs : ∀ s, Binding.Among args s → s.store < mem.heap.size)
    (h : lib.run fuel p args d depth mem = .ok () mem') :
    ∃ mem'', lib.run fuel p args d.flip depth mem' = .ok () mem'' ∧ mem''.heap = mem.heap := by
  have hkept := kept_run h
  have hrange' : mem'.heap.InRange := after_of_ok h ▸
    inRange_runProcedure (careful_exec lib fuel) p d depth hrange hargs
  have hhosts : Heap.Hosts id args mem.heap mem'.heap :=
    ⟨hargs, fun s hs => (hkept 0).size.symm ▸ hargs s hs, fun _ _ _ _ he => he,
      fun s _ => (hkept 0).types s.store⟩
  obtain ⟨mem'', hback, hcell⟩ :=
    undo_procedure hlib hd hp fuel hrange hrange' hhosts h fun _ _ => rfl
  have hid : args.map (Binding.rename id) = args := by
    rw [funext Binding.rename_id, List.map_id']
  rw [hid] at hback
  have hkept' : ∀ id, Heap.KeptOutside (Binding.Among args) id mem'.heap mem''.heap :=
    kept_run hback
  refine ⟨mem'', hback, Heap.ext_cell? ?_ (fun i => ?_) (fun i => ?_) (fun i => ?_) fun s => ?_⟩
  · rw [(hkept' 0).size, (hkept 0).size]
  · rw [(hkept' 0).types, (hkept 0).types]
  · rw [(hkept' 0).flags, (hkept 0).flags]
  · rw [(hkept' (i + 1)).lengths i (by omega), (hkept (i + 1)).lengths i (by omega)]
  · by_cases hs : Binding.Among args s
    · exact hcell s hs
    · have hne : s.store ≠ s.store + 1 := by omega
      rw [(hkept' _).cells s hne hs, (hkept _).cells s hne hs]

/-! ## Invocations -/

/-- **Two-way round trip.** If the guards of conditionals are checked backward too and no local
begins with a value that names it, or if no call is turned round and the run is forward, then every
invocation that completes can be run the other way, and this gives back the whole heap. -/
theorem runNamed_flip_restores (hlib : lib.Accepted)
    (hmode : (lib.settings.checkGuardOnBackward = true ∧
        ∀ loc name e, lib.Holds (.declare loc name e) → name ∉ e.names) ∨
      (d = .forward ∧ ∀ loc callee args, ¬lib.Holds (.call loc callee args true)))
    {name : String} (hrange : mem.heap.InRange)
    (hargs : ∀ s, Binding.Among args s → s.store < mem.heap.size)
    (h : lib.runNamed fuel name args d mem = .ok () mem') :
    ∃ mem'', lib.runNamed fuel name args d.flip mem' = .ok () mem'' ∧ mem''.heap = mem.heap := by
  obtain ⟨p, hp, hclean, hrun⟩ := runNamed_eq_ok.mp h
  have hd : lib.Retraceable d := by
    rcases hmode with ⟨hguard, hlocals⟩ | ⟨rfl, hcalls⟩
    · exact retraceable_of_guards hguard hlocals
    · exact retraceable_of_forward hcalls
  obtain ⟨mem'', hback, hheap⟩ :=
    run_flip hlib.wellScoped hd (mem_of_get hp) hrange hargs hrun
  refine ⟨mem'', runNamed_eq_ok.mpr ⟨p, hp, fun id hid => ?_, hback⟩, hheap⟩
  rw [(kept_run hrun 0).flags]
  exact hclean id hid

end Library

namespace Sample

/-- `triangle(n, s)` adds the numbers from one to `n` to `s`, with a loop over a local. -/
def triangle : Procedure :=
  { name := "triangle"
    params := [⟨"n", none⟩, ⟨"s", none⟩]
    body :=
      [.declare none "i" (.int none 0),
        .loop none (.binary none "==" (.var none "i") (.int none 0)) []
          [.assign none (.var none "i") "+=" (.int none 1),
            .assign none (.var none "s") "+=" (.var none "i")]
          (.binary none "==" (.var none "i") (.var none "n")),
        .discard none "i" (.var none "n")] }

/-- `settle(n, s)` brings a positive `s` to zero by running `triangle` backward. -/
def settle : Procedure :=
  { name := "settle"
    params := [⟨"n", none⟩, ⟨"s", none⟩]
    body :=
      [.branch none (.binary none ">" (.var none "s") (.int none 0))
        [.call none "triangle" [.var none "n", .var none "s"] true] []
        (.binary none "==" (.var none "s") (.int none 0))] }

/-- Settings with small numbers. -/
def settings (guards : Bool) : Settings :=
  { intType := "i8", checkGuardOnBackward := guards, pureFunctions := [] }

/-- A library before procedures are registered in it. -/
def emptyLibrary (guards : Bool) : Library :=
  { settings := settings guards, intType := byte, functions := [] }

/-- The library of both procedures. -/
def library (guards : Bool) : Library :=
  { emptyLibrary guards with procedures := [triangle, settle] }

theorem accepted (guards : Bool) : (library guards).Accepted := by
  have hempty : Library.empty (settings guards) [] = .ok (emptyLibrary guards) := rfl
  have hregister : (emptyLibrary guards).register default [triangle, settle] {} =
      .ok (library guards) { log := [.registered settle, .registered triangle] } := rfl
  exact .register (.empty hempty) hregister

/-- One store with two slots, for `n` and `s`. -/
def memory : Memory :=
  { heap := ⟨#[{ intType := byte, cells := #[some 2, some 3] }]⟩ }

def arguments : List Binding := [.scalar ⟨0, 0⟩, .scalar ⟨0, 1⟩]

theorem inRange_memory : memory.heap.InRange := Heap.inRange_of_all (by decide)

theorem placed_arguments : ∀ s, Binding.Among arguments s → s.store < memory.heap.size := by
  simp [Binding.Among, arguments, Binding.slots, memory, Heap.size]

theorem not_mem_names_of_declare (guards : Bool) :
    ∀ loc name e, (library guards).Holds (.declare loc name e) → name ∉ e.names := by
  intro loc name e h
  obtain ⟨-, rfl, rfl⟩ : loc = none ∧ name = "i" ∧ e = .int none 0 := by
    simpa [Library.Holds, library, triangle, settle, Stmt.nestedAll, Stmt.nested] using h
  simp [Expr.names]

/-- `settle` completes on the sample memory, with guards checked or not. -/
theorem settle_completes (guards : Bool) : ∃ mem',
    (library guards).runNamed 10 "settle" arguments .forward memory = .ok () mem' := by
  have hruns : completes ((library guards).runNamed 10 "settle" arguments .forward) memory =
      true := by
    cases guards <;> decide +kernel
  obtain ⟨_, mem', h⟩ := exists_of_completes hruns
  exact ⟨mem', h⟩

end Sample

/-- A forward run that runs a loop backward, taken back. -/
theorem settle_flip_restores : ∃ mem' mem'',
    (Sample.library true).runNamed 10 "settle" Sample.arguments .forward Sample.memory =
        .ok () mem' ∧
      (Sample.library true).runNamed 10 "settle" Sample.arguments .backward mem' = .ok () mem'' ∧
        mem''.heap = Sample.memory.heap := by
  obtain ⟨mem', h⟩ := Sample.settle_completes true
  obtain ⟨mem'', hback⟩ := Library.runNamed_flip_restores (Sample.accepted true)
    (Or.inl ⟨rfl, Sample.not_mem_names_of_declare true⟩) Sample.inRange_memory
    Sample.placed_arguments h
  exact ⟨mem', mem'', h, hback⟩

/-! ## Guards that are not checked

Where guards are not checked backward, a run that is turned round can take a branch that a forward
run would not have taken. Then the forward run cannot be taken back. -/

/-- The same library with guards checked backward. -/
def Library.guarded (lib : Library) : Library :=
  { lib with settings := { lib.settings with checkGuardOnBackward := true } }

namespace Library

variable {lib : Library} {fuel : Nat} {args : List Binding} {mem mem' : Memory}

theorem relaxes_guarded (lib : Library) : lib.guarded.Relaxes lib :=
  ⟨rfl, rfl, rfl, Int.le_refl _, fun _ => rfl⟩

theorem WellScoped.guarded (h : lib.WellScoped) : lib.guarded.WellScoped := ⟨h.body, h.stmt⟩

/-- **Forward and back, whatever the settings.** A forward run that completed can be taken back if
no call is turned round, or if no local begins with a value that names it and the guards that the
run does not check would have held. -/
theorem runNamed_backward_restores (hlib : lib.Accepted) {name : String}
    (hrange : mem.heap.InRange) (hargs : ∀ s, Binding.Among args s → s.store < mem.heap.size)
    (h : lib.runNamed fuel name args .forward mem = .ok () mem')
    (hmode : (∀ loc callee args, ¬lib.Holds (.call loc callee args true)) ∨
      (∀ loc name e, lib.Holds (.declare loc name e) → name ∉ e.names) ∧
        ∃ fuel' after, lib.guarded.runNamed fuel' name args .forward mem = .ok () after) :
    ∃ fuel' mem'', lib.runNamed fuel' name args .backward mem' = .ok () mem'' ∧
      mem''.heap = mem.heap := by
  obtain ⟨p, hp, hclean, hrun⟩ := runNamed_eq_ok.mp h
  have hclean' : ∀ id ∈ Binding.storesOf args, (mem'.heap.store id).poisoned = false := by
    intro id hid
    rw [(kept_run hrun 0).flags]
    exact hclean id hid
  rcases hmode with hcalls | ⟨hlocals, fuel', after, hguarded⟩
  · obtain ⟨mem'', hback, hheap⟩ := run_flip hlib.wellScoped (retraceable_of_forward hcalls)
      (mem_of_get hp) hrange hargs hrun
    exact ⟨fuel, mem'', runNamed_eq_ok.mpr ⟨p, hp, hclean', hback⟩, hheap⟩
  · obtain ⟨q, hq, -, hrun'⟩ := runNamed_eq_ok.mp hguarded
    obtain rfl : p = q := Except.ok.inj (hp.symm.trans hq)
    -- the guarded run ends where the run without guards ends
    obtain ⟨-, rfl⟩ := (lib.steady_run p args .forward 0).eq_of_ok hrun
      (run_of_relaxes lib.relaxes_guarded hrun')
    have hd : lib.guarded.Retraceable .forward := retraceable_of_guards rfl hlocals
    obtain ⟨mem'', hback, hheap⟩ :=
      run_flip hlib.wellScoped.guarded hd (mem_of_get hp) hrange hargs hrun'
    exact ⟨fuel', mem'', runNamed_eq_ok.mpr ⟨p, hp, hclean',
      run_of_relaxes lib.relaxes_guarded hback⟩, hheap⟩

end Library

/-- Without the check of guards, `settle` is taken back since its guards hold. -/
theorem settle_backward_restores : ∃ mem' fuel' mem'',
    (Sample.library false).runNamed 10 "settle" Sample.arguments .forward Sample.memory =
        .ok () mem' ∧
      (Sample.library false).runNamed fuel' "settle" Sample.arguments .backward mem' =
          .ok () mem'' ∧
        mem''.heap = Sample.memory.heap := by
  obtain ⟨mem', h⟩ := Sample.settle_completes false
  obtain ⟨after, hguarded⟩ := Sample.settle_completes true
  obtain ⟨fuel', mem'', hback⟩ := Library.runNamed_backward_restores (Sample.accepted false)
    Sample.inRange_memory Sample.placed_arguments h
    (Or.inr ⟨Sample.not_mem_names_of_declare false, 10, after, hguarded⟩)
  exact ⟨mem', fuel', mem'', h, hback⟩

namespace Sample

/-- `bump(x)` makes a zero a one, and nothing else. -/
def bump : Procedure :=
  { name := "bump"
    params := [⟨"x", none⟩]
    body :=
      [.branch none (.binary none "==" (.var none "x") (.int none 0))
        [.assign none (.var none "x") "+=" (.int none 1)] []
        (.binary none ">" (.var none "x") (.int none 0))] }

/-- `unbump(x)` runs `bump` backward. -/
def unbump : Procedure :=
  { name := "unbump"
    params := [⟨"x", none⟩]
    body := [.call none "bump" [.var none "x"] true] }

/-- A library with the usual settings. -/
def usual : Library :=
  { settings := {}
    intType := .word
    functions := [("abs", .unary "abs" fun n => n.natAbs), ("max", .joining "max" max),
      ("min", .joining "min" min)] }

def bumps : Library := { usual with procedures := [bump, unbump] }

theorem accepted_bumps : bumps.Accepted := by
  have hempty : Library.empty {} [] = .ok usual := rfl
  have hregister : usual.register default [bump, unbump] {} =
      .ok bumps { log := [.registered unbump, .registered bump] } := rfl
  exact .register (.empty hempty) hregister

/-- One store with a five in it. -/
def five : Memory := { heap := ⟨#[{ intType := .word, cells := #[some 5] }]⟩ }

end Sample

/-- With the usual settings, `unbump` completes forward on a five, and cannot be taken back then. -/
theorem unbump_not_backward : Sample.bumps.Accepted ∧ Sample.five.heap.InRange ∧
    ∃ mem', Sample.bumps.runNamed 10 "unbump" [.scalar ⟨0, 0⟩] .forward Sample.five = .ok () mem' ∧
      ∀ fuel mem'', Sample.bumps.runNamed fuel "unbump" [.scalar ⟨0, 0⟩] .backward mem' ≠
        .ok () mem'' := by
  have hruns : completes (Sample.bumps.runNamed 10 "unbump" [.scalar ⟨0, 0⟩] .forward)
      Sample.five = true := by decide +kernel
  have hfails : faults (Sample.bumps.runNamed 10 "unbump" [.scalar ⟨0, 0⟩] .backward)
      (after (Sample.bumps.runNamed 10 "unbump" [.scalar ⟨0, 0⟩] .forward) Sample.five) =
        true := by decide +kernel
  obtain ⟨_, mem', h⟩ := exists_of_completes hruns
  rw [after_of_ok h] at hfails
  refine ⟨Sample.accepted_bumps, Heap.inRange_of_all (by decide), mem', h, fun fuel mem'' => ?_⟩
  exact (Library.steady_runNamed _ _ _ _).ne_ok_of_faults hfails

end Retrace
