import Mathlib.Data.Fintype.Pi
import Mathlib.Data.Set.Finite.Basic
import Mathlib.Data.Int.Interval
import Mathlib.Order.Preorder.Finite
import Retrace.Proofs.RoundTrip

/-!
# Every run ends

Loops have no bound on their iterations, and yet no run that can be retraced goes on for ever. The
depth of calls is bounded by the settings, so only loops are in question. A loop that went on for
ever would come to the same values twice, since the names stay bound to the same slots and these
hold numbers of fixed width. But what is taken back from the same values is the same: then the first
of the two passes and a later one would have begun alike, with the first condition true at the one
and false at the other (`not_alike_of_turns`).

`settles_exec_of_calls` is the law for all statements, by induction on their size, and
`Library.settles_run` the law for procedures, by induction on the depth of calls that is left.
-/

namespace Retrace

open Actions

/-! ## Actions that need no fuel -/

namespace Actions

variable {σ α β : Type}

/-- An action never exhausts its fuel. -/
def Finishes (x : EStateM Stop σ α) : Prop := ∀ s t, x s ≠ .error .exhausted t

theorem Finishes.bind {x : EStateM Stop σ α} {f : α → EStateM Stop σ β} (hx : Finishes x)
    (hf : ∀ a, Finishes (f a)) : Finishes (x >>= f) := by
  intro s t
  rw [bind_apply]
  have hxs := hx s
  cases hs : x s with
  | ok a u => exact hf a u t
  | error e u =>
    intro he
    rw [hs] at hxs
    exact hxs t (by cases he; rfl)

/-- A step that a fault may come before. -/
theorem Finishes.guard {c : Prop} [Decidable c] {x : EStateM Stop σ α} {k : EStateM Stop σ β}
    (hx : Finishes x) (hk : Finishes k) : Finishes (if c then x >>= fun _ => k else k) := by
  split
  · exact hx.bind fun _ => hk
  · exact hk

theorem Finishes.pure (a : α) : Finishes (pure a : EStateM Stop σ α) := nofun

theorem Finishes.fault (f : Fault) : Finishes (throw (.fault f) : EStateM Stop σ α) := nofun

theorem Finishes.get : Finishes (get : EStateM Stop σ σ) := nofun

theorem Finishes.modify (f : σ → σ) : Finishes (modify f : EStateM Stop σ PUnit) := nofun

theorem Finishes.settles {x : EStateM Stop σ α} (h : Finishes x) (s : σ) :
    Settles (fun _ => x) s :=
  .const (h s)

/-- What comes after an action without fuel settles the whole. -/
theorem Finishes.settles_bind {x : EStateM Stop σ α} {f : Nat → α → EStateM Stop σ β}
    (hx : Finishes x) {s : σ} (hf : ∀ a t, x s = .ok a t → Settles (fun k => f k a) t) :
    Settles (fun k => x >>= f k) s := by
  cases hs : x s with
  | ok a t =>
    obtain ⟨fuel, hfuel⟩ := hf a t hs
    refine ⟨fuel, fun u => ?_⟩
    simp only [bind_apply, hs]
    exact hfuel u
  | error e t =>
    refine ⟨0, fun u he => ?_⟩
    simp only [bind_apply, hs] at he
    exact hx s t (by rw [hs]; cases he; rfl)

end Actions

namespace Execution

variable {lib : Library}

theorem finishes_ofExcept {α : Type} (r : Except Fault α) : Finishes (ofExcept r) := by
  cases r with
  | ok a => exact .pure a
  | error f => exact .fault f

theorem finishes_violate {α : Type} (v : Violation) : Finishes (violate v : Execution α) :=
  Finishes.get.bind fun _ => .fault _

theorem finishes_refuse (v : Option Violation) : Finishes (refuse v) := by
  cases v with
  | none => exact .pure ()
  | some v => exact finishes_violate v

theorem finishes_reading {α : Type} (before : List Slot) (work : Scope → Reading α) :
    Finishes (reading lib before work) := by
  intro m t
  rw [reading_apply]
  cases work (m.scope lib) before <;> simp

theorem finishes_onHeap {α : Type} (action : EStateM Fault Heap α) : Finishes (onHeap action) := by
  intro m t
  unfold onHeap
  cases action m.heap <;> simp

theorem finishes_number (e : Expr) : Finishes (number lib e) :=
  Finishes.get.bind fun _ => (finishes_ofExcept _).bind fun _ => .pure _

theorem finishes_test (e : Expr) : Finishes (test lib e) :=
  Finishes.get.bind fun _ => finishes_ofExcept _

theorem finishes_readSlot (s : Slot) : Finishes (readSlot s) :=
  Finishes.get.bind fun _ => finishes_ofExcept _

theorem finishes_assign (d : Direction) (target : Expr) (op : String) (value : Expr) :
    Finishes (assign lib d target op value) :=
  (finishes_ofExcept _).bind fun _ => (finishes_reading _ _).bind fun _ =>
    (finishes_reading _ _).bind fun _ => (finishes_refuse _).bind fun _ =>
      (finishes_readSlot _).bind fun _ => finishes_onHeap _

theorem finishes_swap (left right : Expr) : Finishes (swap lib left right) :=
  (finishes_reading _ _).bind fun _ => (finishes_reading _ _).bind fun _ =>
    (finishes_refuse _).bind fun _ => (finishes_refuse _).bind fun _ =>
      (finishes_readSlot _).bind fun _ => (finishes_readSlot _).bind fun _ =>
        (finishes_onHeap _).bind fun _ => finishes_onHeap _

theorem finishes_introduce (name : String) (e : Expr) : Finishes (introduce lib name e) := by
  refine (finishes_number e).bind fun v => ?_
  refine Finishes.bind (Finishes.get.bind fun m => ?_) fun _ => .pure _
  exact (Finishes.fault _).guard
    ((finishes_onHeap _).bind fun _ => (Finishes.modify _).bind fun _ => .pure _)

theorem finishes_remove (name : String) (e : Expr) : Finishes (remove lib name e) := by
  have hunbind : Finishes (do let _ ← unbind name; pure () : Execution Unit) := by
    refine Finishes.bind (Finishes.get.bind fun m => (finishes_ofExcept _).bind fun s => ?_)
      fun _ => .pure _
    exact (Finishes.fault _).guard ((Finishes.modify _).bind fun _ => finishes_onHeap _)
  refine (finishes_number e).bind fun v => Finishes.get.bind fun _ =>
    (finishes_ofExcept _).bind fun s => (finishes_readSlot s).bind fun c => ?_
  exact (finishes_violate _).guard hunbind

theorem finishes_confirm (d : Direction) (guard assertion : Expr) (b : Bool) :
    Finishes (confirm lib d guard assertion b) := by
  have hcheck : ∀ (e : Expr) (v : Violation), Finishes (check lib e b v) := by
    intro e v
    refine (finishes_test e).bind fun c => ?_
    split
    · exact finishes_violate v
    · exact .pure ()
  cases d with
  | forward => exact hcheck assertion _
  | backward =>
    by_cases hflag : lib.settings.checkGuardOnBackward = true
    · simpa only [confirm, hflag, if_true] using hcheck guard _
    · simpa only [confirm, hflag, if_false, Bool.false_eq_true] using Finishes.pure ()

theorem finishes_arguments (args : List Expr) : Finishes (arguments lib args) := by
  induction args with
  | nil => exact .pure _
  | cons arg rest ih => exact (finishes_reading _ _).bind fun _ => ih.bind fun _ => .pure _

end Execution

/-! ## Runs of blocks, whatever their fuel -/

/-- A block completes with some fuel. -/
def Library.Runs (lib : Library) (d : Direction) (body : List Stmt) (m m' : Machine) : Prop :=
  ∃ fuel, Execution.block (Execution.exec lib fuel d) d body m = .ok () m'

namespace Library.Runs

open Execution

variable {lib : Library} {d : Direction} {body : List Stmt} {m m' m'' : Machine}

theorem unique (h : lib.Runs d body m m') (h' : lib.Runs d body m m'') : m' = m'' := by
  obtain ⟨k, hk⟩ := h
  obtain ⟨l, hl⟩ := h'
  exact ((steady_block lib d body).eq_of_ok hk hl).2

theorem safe (h : lib.Runs d body m m') : m.Safe m' := by
  obtain ⟨fuel, h⟩ := h
  exact (careful_block (careful_exec lib fuel d) d body).ok h

theorem frame_eq (hlib : lib.WellScoped) (hbody : Stmt.Balanced [] body)
    (hheld : ∀ s ∈ body, lib.Holds s) (h : lib.Runs d body m m') (hm : m.Sound) :
    m'.frame = m.frame := by
  obtain ⟨fuel, h⟩ := h
  exact frame_of_balanced hlib hbody hheld hm.ordered h

theorem undo (hlib : lib.WellScoped) (hd : lib.Retraceable d) (hheld : ∀ s ∈ body, lib.Holds s)
    (h : lib.Runs d body m m') (hm : m.Sound) {n' : Machine} (hn' : n'.Sound)
    (hlike : m'.Alike n') : ∃ n, lib.Runs d.flip body n' n ∧ m.Alike n := by
  obtain ⟨fuel, h⟩ := h
  have hundo : UndoneBy (block (exec lib fuel d) d body)
      (block (exec lib fuel d.flip) d.flip body) :=
    undo_block (careful_exec lib fuel d) (careful_exec lib fuel d.flip) fun s hs =>
      undo_exec hlib hd (hheld s hs)
  obtain ⟨n, hn, hlike⟩ := hundo hm h hn' hlike
  exact ⟨n, ⟨fuel, hn⟩, hlike⟩

end Library.Runs

/-! ## Loops that go on -/

/-- A loop whose last condition fails in `c` comes to `c'`, where it tests this condition again. -/
def Library.Turns (lib : Library) (d : Direction) (first last : Expr)
    (doBody loopBody : List Stmt) (c c' : Machine) : Prop :=
  (c.scope lib).test last = .ok false ∧ ∃ a, lib.Runs d loopBody c a ∧
    (a.scope lib).test first = .ok false ∧ lib.Runs d doBody a c'

namespace Library

variable {lib : Library} {d : Direction} {first last : Expr} {doBody loopBody : List Stmt}

theorem Turns.safe {c c' : Machine} (h : lib.Turns d first last doBody loopBody c c') :
    c.Safe c' := by
  obtain ⟨-, a, hloop, -, hdo⟩ := h
  exact hloop.safe.trans hdo.safe

/-- Two passes of one loop never come to alike machines: taken back step by step, one of them would
begin where the loop began, and the other not. -/
theorem not_alike_of_turns (hlib : lib.WellScoped) (hd : lib.Retraceable d)
    (hdo : ∀ s ∈ doBody, lib.Holds s) (hloop : ∀ s ∈ loopBody, lib.Holds s) {c : ℕ → Machine}
    (hc : ∀ j, (c j).Sound) {a : Machine} (ha : a.Sound)
    (hfirst : (a.scope lib).test first = .ok true)
    (hstart : lib.Runs d doBody a (c 0))
    (hturns : ∀ j, lib.Turns d first last doBody loopBody (c j) (c (j + 1))) {i j : ℕ} (hij : i < j)
    {n : Machine} (hn : n.Sound) (hi : (c i).Alike n) (hj : (c j).Alike n) : False := by
  induction i generalizing j n with
  | zero =>
    obtain ⟨j, rfl⟩ : ∃ k, j = k + 1 := ⟨j - 1, by omega⟩
    obtain ⟨-, a', hloop', hfirst', hdo'⟩ := hturns j
    have ha' : a'.Sound := hloop'.safe.sound (hc j)
    obtain ⟨n₁, hn₁, ρ, hρ⟩ := hstart.undo hlib hd hdo ha hn hi
    obtain ⟨n₂, hn₂, σ, hσ⟩ := hdo'.undo hlib hd hdo ha' hn hj
    have htrue := hρ.test hfirst
    rw [hn₁.unique hn₂, hσ.test hfirst'] at htrue
    cases htrue
  | succ i ih =>
    obtain ⟨j, rfl⟩ : ∃ k, j = k + 1 := ⟨j - 1, by omega⟩
    obtain ⟨-, a₁, hloop₁, -, hdo₁⟩ := hturns i
    obtain ⟨-, a₂, hloop₂, -, hdo₂⟩ := hturns j
    have ha₁ : a₁.Sound := hloop₁.safe.sound (hc i)
    have ha₂ : a₂.Sound := hloop₂.safe.sound (hc j)
    obtain ⟨n₁, hn₁, hlike₁⟩ := hdo₁.undo hlib hd hdo ha₁ hn hi
    obtain ⟨n₂, hn₂, hlike₂⟩ := hdo₂.undo hlib hd hdo ha₂ hn hj
    have hsound : n₁.Sound := hn₁.safe.sound hn
    rw [← hn₁.unique hn₂] at hlike₂
    obtain ⟨k₁, hk₁, hback₁⟩ := hloop₁.undo hlib hd hloop (hc i) hsound hlike₁
    obtain ⟨k₂, hk₂, hback₂⟩ := hloop₂.undo hlib hd hloop (hc j) hsound hlike₂
    rw [← hk₁.unique hk₂] at hback₂
    exact ih (by omega) (hk₁.safe.sound hsound) hback₁ hback₂

end Library

/-! ## Finitely many values -/

theorem IntType.finite_contains (t : IntType) : {v : Int | t.contains v = true}.Finite := by
  refine (Set.finite_Icc t.minValue t.maxValue).subset fun v hv => ?_
  exact (t.contains_iff v).mp hv

theorem Frame.finite_covers (f : Frame) : {s | f.Covers s}.Finite := by
  refine (List.finite_toSet (f.bindings.flatMap fun entry => entry.2.slots)).subset ?_
  rintro s ⟨name, b, hb, hs⟩
  exact List.mem_flatMap.mpr ⟨(name, b), Datum.mem_of_field? hb, hs⟩

/-- Infinitely many machines in order, with the same frame and stores of the same types, are not all
different. -/
theorem Machine.exists_alike {c : ℕ → Machine} (hc : ∀ j, (c j).Sound)
    (hframe : ∀ j, (c j).frame = (c 0).frame)
    (htype : ∀ j i, ((c j).heap.store i).intType = ((c 0).heap.store i).intType) :
    ∃ i j, i < j ∧ (c i).Alike (c j) := by
  let covered := {s // (c 0).frame.Covers s}
  have : Finite covered := (c 0).frame.finite_covers
  let values : covered → Set (Option Int) := fun s =>
    insert none (some '' {v | ((c 0).heap.store s.1.store).intType.contains v = true})
  have hfinite : {f : covered → Option Int | ∀ s, f s ∈ values s}.Finite :=
    Set.Finite.pi' fun s => ((IntType.finite_contains _).image some).insert none
  have hmem : ∀ j, (fun s : covered => (c j).heap.cell? s.1) ∈
      {f : covered → Option Int | ∀ s, f s ∈ values s} := by
    intro j s
    show (c j).heap.cell? s.1 ∈ values s
    cases hv : (c j).heap.cell? s.1 with
    | none => exact Set.mem_insert ..
    | some v =>
      refine Set.mem_insert_of_mem _ ⟨v, ?_, rfl⟩
      show ((c 0).heap.store s.1.store).intType.contains v = true
      rw [← htype j]
      exact (hc j).inRange s.1 v hv
  obtain ⟨i, j, hij, heq⟩ := Set.Finite.exists_lt_map_eq_of_forall_mem hmem hfinite
  refine ⟨i, j, hij, id, ?_⟩
  have hij' : (c j).frame = (c i).frame := (hframe j).trans (hframe i).symm
  refine (Machine.Renames.refl (c i)).of_cells rfl hij'.symm (fun _ => rfl) (fun k => ?_)
    fun s hs => ?_
  · rw [htype j, htype i]
  · rw [hframe i] at hs
    exact (congrFun heq ⟨s, hs⟩).symm

/-! ## Statements made of others -/

/-- A block ends, in whatever machine in order it starts at this depth of calls. -/
def Library.Ends (lib : Library) (d : Direction) (depth : Int) (body : List Stmt) : Prop :=
  ∀ m : Machine, m.Sound → m.frame.depth = depth →
    Settles (fun k => Execution.block (Execution.exec lib k d) d body) m

namespace Execution

variable {lib : Library} {d : Direction} {first last : Expr} {doBody loopBody : List Stmt}
  {depth : Int} {m : Machine}

theorem ends_block {body : List Stmt}
    (hrun : ∀ s ∈ body, ∀ m : Machine, m.Sound → m.frame.depth = depth →
      Settles (fun k => exec lib k d s) m) : lib.Ends d depth body := by
  have hforM : ∀ (stmts : List Stmt) (m : Machine), (∀ s ∈ stmts, s ∈ body) → m.Sound →
      m.frame.depth = depth → Settles (fun k => stmts.forM (exec lib k d)) m := by
    intro stmts
    induction stmts with
    | nil => exact fun m _ _ _ => (Finishes.pure ()).settles m
    | cons s rest ih =>
      intro m hsub hm hdepth
      refine Settles.bind (fun _ _ hkl => exec_below lib hkl d s)
        (fun _ _ _ hkl => forM_below (exec_below lib hkl d) rest)
        (hrun s (hsub s List.mem_cons_self) m hm hdepth) fun _ m' k h => ?_
      have hsafe : m.Safe m' := (careful_exec lib k d s m).ok h
      exact ih m' (fun t ht => hsub t (List.mem_cons_of_mem _ ht)) (hsafe.sound hm)
        ((hsafe.evolves hm.lt_size).depth.trans hdepth)
  exact fun m hm hdepth => hforM (d.order body) m (fun _ => Direction.mem_order.mp) hm hdepth

theorem settles_branch {guard assertion : Expr} {thenBody elseBody : List Stmt}
    (hthen : Settles (fun k => block (exec lib k d) d thenBody) m)
    (helse : Settles (fun k => block (exec lib k d) d elseBody) m) :
    Settles (fun k => branch lib (exec lib k d) d guard thenBody elseBody assertion) m := by
  simp only [branch_eq]
  refine (finishes_test _).settles_bind fun b m' hb => ?_
  obtain ⟨-, rfl⟩ := test_eq_ok.mp hb
  have hbody : Settles (fun k => block (exec lib k d) d (if b then thenBody else elseBody)) m' := by
    cases b with
    | true => exact hthen
    | false => exact helse
  exact hbody.bind (steady_block lib d _) (fun _ => .const _) fun _ n _ _ =>
    (finishes_confirm d guard assertion b).settles n

/-- A violation that comes before the rest of a statement settles it. -/
theorem settles_violate_bind {α β : Type} (v : Violation) (f : Nat → α → Execution β) :
    Settles (fun k => violate v >>= f k) m :=
  (finishes_violate v).settles_bind fun _ _ h => absurd h (violate_ne_ok v _ _ _)

theorem settles_again (hdo : lib.Ends d depth doBody) (hloop : lib.Ends d depth loopBody)
    (hm : m.Sound) (hdepth : m.frame.depth = depth) (i : Nat) :
    Settles (fun k => again lib (exec lib k d) d first doBody loopBody i) m := by
  have hrest : ∀ b : Bool, Steady fun k => (do
      if b then violate (.loopReentered first.text i)
      block (exec lib k d) d doBody : Execution Unit) := by
    intro b
    cases b with
    | true => exact (Steady.const _).bind fun _ => steady_block lib d doBody
    | false => exact steady_block lib d doBody
  refine (hloop m hm hdepth).bind (steady_block lib d loopBody)
    (fun _ => (Steady.const _).bind hrest) fun _ m₁ k h => ?_
  have hsafe : m.Safe m₁ := (careful_block (careful_exec lib k d) d loopBody).ok h
  refine (finishes_test first).settles_bind fun b m₂ hb => ?_
  obtain ⟨-, rfl⟩ := test_eq_ok.mp hb
  cases b with
  | true => exact settles_violate_bind ..
  | false => exact hdo m₂ (hsafe.sound hm) ((hsafe.evolves hm.lt_size).depth.trans hdepth)

/-- The passes of a loop after the first `i`. -/
def passes (lib : Library) (d : Direction) (first last : Expr) (doBody loopBody : List Stmt)
    (i k : Nat) : Execution Unit :=
  repeatUntil (test lib last) (again lib (exec lib k d) d first doBody loopBody) k i

theorem steady_passes (i : Nat) : Steady (passes lib d first last doBody loopBody i) :=
  fun _ _ hkl =>
    repeatUntil_below (again_below (exec_below lib hkl d) d first doBody loopBody) hkl i

/-- A loop that does not settle turns once more, and still does not settle. -/
theorem turns_of_not_settles {c : Machine} {i : Nat}
    (hagain : Settles (fun k => again lib (exec lib k d) d first doBody loopBody (i + 1)) c)
    (hstuck : ¬Settles (passes lib d first last doBody loopBody i) c) :
    ∃ c', lib.Turns d first last doBody loopBody c c' ∧
      ¬Settles (passes lib d first last doBody loopBody (i + 1)) c' := by
  obtain ⟨bound, r, hr, hall⟩ := hagain.eventually
    fun _ _ hkl => again_below (exec_below lib hkl d) d first doBody loopBody (i + 1)
  have hexhausts : ∀ k, ∃ t, repeatUntil (test lib last)
      (again lib (exec lib k d) d first doBody loopBody) k i c = .error .exhausted t := by
    simpa [Settles, passes] using hstuck
  -- each outcome of a pass but the one that comes to the next would settle the loop
  cases htest : (c.scope lib).test last with
  | error f =>
    obtain ⟨t, ht⟩ := hexhausts 1
    rw [repeatUntil_succ_apply, htest] at ht
    cases ht
  | ok b =>
    cases b with
    | true =>
      obtain ⟨t, ht⟩ := hexhausts 1
      rw [repeatUntil_succ_apply, htest] at ht
      cases ht
    | false =>
      cases r with
      | error e c' =>
        obtain ⟨t, ht⟩ := hexhausts (bound + 1)
        rw [repeatUntil_succ_apply, htest] at ht
        simp only [bind_apply, hall (bound + 1) (Nat.le_succ bound)] at ht
        exact absurd (by cases ht; rfl) (hr t)
      | ok a c' =>
        obtain ⟨c₁, hloop, hfirst, hdo⟩ := again_eq_ok.mp (hall bound (Nat.le_refl bound))
        refine ⟨c', ⟨htest, c₁, ⟨bound, hloop⟩, hfirst, ⟨bound, hdo⟩⟩, ?_⟩
        rintro ⟨fuel, hfuel⟩
        obtain ⟨t, ht⟩ := hexhausts (max bound fuel + 1)
        rw [repeatUntil_succ_apply, htest] at ht
        simp only [bind_apply, hall (max bound fuel + 1) (by omega)] at ht
        have hbody : ∀ j, Below (again lib (exec lib fuel d) d first doBody loopBody j)
            (again lib (exec lib (max bound fuel + 1) d) d first doBody loopBody j) :=
          again_below (exec_below lib (by omega) d) d first doBody loopBody
        rcases repeatUntil_below hbody (Nat.le_max_right bound fuel) (i + 1) c' with
          ⟨u, hu⟩ | heq
        · exact hfuel u hu
        · exact hfuel t (heq.trans ht)

/-- The passes of a loop that was entered come to an end, if its bodies do. -/
theorem settles_passes (hlib : lib.WellScoped) (hd : lib.Retraceable d)
    (hheld : ∀ body ∈ [doBody, loopBody], ∀ s ∈ body, lib.Holds s)
    (hbalanced : ∀ body ∈ [doBody, loopBody], Stmt.Balanced [] body)
    (hdo : lib.Ends d depth doBody) (hloop : lib.Ends d depth loopBody) (hm : m.Sound)
    (hdepth : m.frame.depth = depth) (htrue : (m.scope lib).test first = .ok true) {c₀ : Machine}
    (hstart : lib.Runs d doBody m c₀) :
    Settles (passes lib d first last doBody loopBody 0) c₀ := by
  by_contra hstuck
  have hc₀ : c₀.Sound := hstart.safe.sound hm
  -- where the passes come to, as long as they go on
  let Reached (c : Machine) (i : Nat) : Prop := c.Sound ∧ c₀.Evolves c ∧ c.frame = c₀.frame ∧
    ¬Settles (passes lib d first last doBody loopBody i) c
  have hstep : ∀ c i, Reached c i →
      ∃ c', lib.Turns d first last doBody loopBody c c' ∧ Reached c' (i + 1) := by
    rintro c i ⟨hc, hevolves, hframe, hstuck⟩
    have hcdepth : c.frame.depth = depth := by
      rw [hframe, (hstart.safe.evolves hm.lt_size).depth, hdepth]
    obtain ⟨c', hturn, hstuck'⟩ :=
      turns_of_not_settles (settles_again hdo hloop hc hcdepth (i + 1)) hstuck
    refine ⟨c', hturn, hturn.safe.sound hc, hevolves.trans (hturn.safe.evolves hc.lt_size), ?_,
      hstuck'⟩
    obtain ⟨-, a, hloop', -, hdo'⟩ := hturn
    rw [hdo'.frame_eq hlib (hbalanced _ (by simp)) (hheld _ (by simp)) (hloop'.safe.sound hc),
      hloop'.frame_eq hlib (hbalanced _ (by simp)) (hheld _ (by simp)) hc, hframe]
  choose! next hturns hreached using hstep
  let c : ℕ → Machine := fun j => Nat.rec c₀ (fun i c => next c i) j
  have hall : ∀ j, Reached (c j) j := by
    intro j
    induction j with
    | zero => exact ⟨hc₀, (Machine.Safe.refl c₀).evolves hc₀.lt_size, rfl, hstuck⟩
    | succ j ih => exact hreached (c j) j ih
  have hsound : ∀ j, (c j).Sound := fun j => (hall j).1
  obtain ⟨i, j, hij, hlike⟩ := Machine.exists_alike hsound (fun j => (hall j).2.2.1)
    fun j => (hall j).2.1.heap.types
  exact Library.not_alike_of_turns hlib hd (hheld doBody (by simp)) (hheld loopBody (by simp))
    hsound hm htrue hstart (fun j => hturns (c j) j (hall j)) hij (hsound j) hlike
    ⟨id, .refl (c j)⟩

/-- **No loop goes on for ever**, if its bodies do not. -/
theorem settles_loop (hlib : lib.WellScoped) (hd : lib.Retraceable d) {loc : Option Location}
    {entry exit : Expr} (hs : lib.Holds (.loop loc entry doBody loopBody exit))
    (hdo : lib.Ends d depth doBody) (hloop : lib.Ends d depth loopBody) (hm : m.Sound)
    (hdepth : m.frame.depth = depth) :
    Settles (fun k => loop lib (exec lib k d) k d entry doBody loopBody exit) m := by
  simp only [loop_eq]
  refine (finishes_test _).settles_bind fun b m' hb => ?_
  obtain ⟨htrue, rfl⟩ := test_eq_ok.mp hb
  cases b with
  | false => exact settles_violate_bind ..
  | true =>
    refine (hdo m' hm hdepth).bind (steady_block lib d doBody) (fun _ => steady_passes 0)
      fun _ c k h => ?_
    exact settles_passes hlib hd (fun body hbody s hs' => hs.of_bodies hbody hs')
      (hlib.stmt _ hs).bodies hdo hloop hm hdepth htrue ⟨k, h⟩

/-! ## Procedures -/

/-- A procedure ends if its body does, and if it starts too deep it does so at once. -/
theorem settles_runProcedure {p : Procedure} {args : List Binding} {mem : Memory}
    (hbody : depth ≤ lib.settings.maxCallDepth → lib.Ends d depth p.body)
    (hrange : mem.heap.InRange) (hargs : ∀ s, Binding.Among args s → s.store < mem.heap.size) :
    Settles (fun k => lib.run k p args d depth) mem := by
  by_cases hdepth : depth > lib.settings.maxCallDepth
  · refine ⟨0, fun t => ?_⟩
    simp only [Library.run, runProcedure_apply, if_pos hdepth]
    exact nofun
  by_cases hcount : args.length ≠ p.params.length
  · refine ⟨0, fun t => ?_⟩
    simp only [Library.run, runProcedure_apply, if_neg hdepth, if_pos hcount]
    exact nofun
  cases hattach : (lib.frameOf p depth mem).attachAll (p.paramNames.zip args) with
  | error f =>
    refine ⟨0, fun t => ?_⟩
    simp only [Library.run, runProcedure_apply, if_neg hdepth, if_neg hcount, hattach]
    exact nofun
  | ok frame =>
    have hsound : (lib.entered p args d depth mem).Sound :=
      Library.sound_entered hrange hargs (Frame.attachAll_eq_ok.mp hattach).2.1
    obtain ⟨fuel, hfuel⟩ := hbody (by omega) _ hsound rfl
    refine ⟨fuel, fun t => ?_⟩
    simp only [Library.run, runProcedure_apply, if_neg hdepth, if_neg hcount, hattach]
    intro he
    obtain ⟨m', hm', -⟩ := embed_eq_error.mp he
    exact hfuel m' hm'

theorem settles_onMemory {x : Nat → MemoryAction Unit} (h : Settles x m.toMemory) :
    Settles (fun k => onMemory (x k)) m := by
  obtain ⟨fuel, hfuel⟩ := h
  refine ⟨fuel, fun t he => ?_⟩
  simp only [onMemory_apply] at he
  obtain ⟨mem, hmem, -⟩ := embed_eq_error.mp he
  exact hfuel mem hmem

/-- A call ends if the procedures that it can run do. -/
theorem settles_call {callee : String} {args : List Expr} {uncall : Bool} (hm : m.Sound)
    (hproc : ∀ p bindings, lib.get callee = .ok p →
      (∀ s, Binding.Among bindings s → s.store < m.heap.size) →
      Settles (fun k => lib.run k p bindings (if uncall then d.flip else d) (m.frame.depth + 1))
        m.toMemory) :
    Settles (fun k => call lib (exec lib k) d callee args uncall) m := by
  refine (finishes_ofExcept _).settles_bind fun p m₁ h₁ => ?_
  obtain ⟨hp, rfl⟩ := ofExcept_eq_ok.mp h₁
  refine (finishes_arguments args).settles_bind fun operands m₂ h₂ => ?_
  obtain ⟨rfl, hcovers, -⟩ := covers_of_arguments h₂
  refine (finishes_refuse _).settles_bind fun _ m₃ h₃ => ?_
  obtain ⟨-, rfl⟩ := refuse_eq_ok.mp h₃
  refine (finishes_refuse _).settles_bind fun _ m₄ h₄ => ?_
  obtain ⟨-, rfl⟩ := refuse_eq_ok.mp h₄
  refine Finishes.get.settles_bind fun m₅ m₆ h₅ => ?_
  cases h₅
  exact settles_onMemory (hproc p _ hp fun s hs =>
    hm.store_lt (hcovers s (Binding.among_iff_mem_slotsOf.mp hs)))

/-! ## All statements -/

/-- Logging a statement and annotating its failures needs no fuel but one. -/
theorem settles_exec_of_step {s : Stmt}
    (h : Settles (fun k => step lib (exec lib k) k d s) (traced s m)) :
    Settles (fun k => exec lib k d s) m := by
  obtain ⟨fuel, hfuel⟩ := h
  refine ⟨fuel + 1, fun t => ?_⟩
  simp only [exec, bind_apply, trace_apply]
  exact fun he => hfuel t (annotated_eq_exhausted.mp he)

/-- A statement ends if the procedures that it can run do. The induction is on the size of the
statement, so that its bodies end. -/
theorem settles_exec_of_calls (hlib : lib.WellScoped)
    (hrun : ∀ (d : Direction) (p : Procedure) (args : List Binding) (mem : Memory),
      lib.Retraceable d → p ∈ lib.procedures → mem.heap.InRange →
      (∀ s, Binding.Among args s → s.store < mem.heap.size) →
      Settles (fun k => lib.run k p args d (depth + 1)) mem)
    (hd : lib.Retraceable d) {s : Stmt} (hs : lib.Holds s) (hm : m.Sound)
    (hdepth : m.frame.depth = depth) : Settles (fun k => exec lib k d s) m := by
  induction hsize : sizeOf s using Nat.strong_induction_on generalizing s m with
  | _ size ih =>
    have hends : ∀ body ∈ s.bodies, lib.Ends d depth body := fun body hbody =>
      ends_block fun t ht n hn hndepth => ih _ (hsize ▸ Stmt.sizeOf_lt_of_bodies hbody ht)
        (hs.of_bodies hbody ht) hn hndepth rfl
    have htraced : (traced s m).Sound :=
      (Machine.Safe.of_eq (heap_traced s m) (frame_traced s m)).sound hm
    have htdepth : (traced s m).frame.depth = depth := by rw [frame_traced, hdepth]
    refine settles_exec_of_step ?_
    cases s with
    | assign loc target op value => exact (finishes_assign d target op value).settles _
    | branch loc guard thenBody elseBody assertion =>
      exact settles_branch (hends _ (by simp [Stmt.bodies]) _ htraced htdepth)
        (hends _ (by simp [Stmt.bodies]) _ htraced htdepth)
    | call loc callee args uncall =>
      refine settles_call htraced fun p bindings hp hargs => ?_
      have hdir : lib.Retraceable (if uncall then d.flip else d) := by
        cases uncall with
        | false => exact hd
        | true => exact hd.flip hs
      rw [htdepth]
      exact hrun _ p bindings _ hdir (Library.mem_of_get hp) htraced.inRange hargs
    | declare loc name value =>
      cases d with
      | forward => exact (finishes_introduce name value).settles _
      | backward => exact (finishes_remove name value).settles _
    | discard loc name value =>
      cases d with
      | forward => exact (finishes_remove name value).settles _
      | backward => exact (finishes_introduce name value).settles _
    | loop loc entry doBody loopBody exit =>
      exact settles_loop hlib hd hs (hends _ (by simp [Stmt.bodies]))
        (hends _ (by simp [Stmt.bodies])) htraced htdepth
    | swap loc left right => exact (finishes_swap left right).settles _
    | block loc body => exact hends body (by simp [Stmt.bodies]) _ htraced htdepth
    | hole loc => exact (Finishes.fault _).settles _

end Execution

namespace Library

open Execution

variable {lib : Library} {d : Direction} {p : Procedure} {args : List Binding} {depth : Int}
  {mem : Memory}

/-- **Every procedure ends**, by induction on how much deeper calls may nest. -/
theorem settles_run (hlib : lib.WellScoped) (hd : lib.Retraceable d) (hp : p ∈ lib.procedures)
    (hrange : mem.heap.InRange) (hargs : ∀ s, Binding.Among args s → s.store < mem.heap.size) :
    Settles (fun k => lib.run k p args d depth) mem := by
  obtain ⟨n, hn⟩ : ∃ n : Nat, lib.settings.maxCallDepth - depth < n :=
    ⟨(lib.settings.maxCallDepth - depth).toNat + 1, by omega⟩
  induction n generalizing d p args depth mem with
  | zero => exact settles_runProcedure (fun hdepth => absurd hn (by omega)) hrange hargs
  | succ n ih =>
    refine settles_runProcedure (fun _ => ends_block fun s hs m hm hdepth => ?_) hrange hargs
    refine settles_exec_of_calls hlib (fun d p args mem hd hp hrange hargs => ?_) hd
      (holds_of_body hp hs) hm hdepth
    exact ih hd hp hrange hargs (by omega)

theorem settles_exec (hlib : lib.WellScoped) (hd : lib.Retraceable d) {s : Stmt}
    (hs : lib.Holds s) {m : Machine} (hm : m.Sound) : Settles (fun k => exec lib k d s) m :=
  settles_exec_of_calls hlib (fun _ _ _ _ => settles_run hlib) hd hs hm rfl

theorem settles_runNamed (hlib : lib.WellScoped) (hd : lib.Retraceable d) (name : String)
    (hrange : mem.heap.InRange) (hargs : ∀ s, Binding.Among args s → s.store < mem.heap.size) :
    Settles (fun k => lib.runNamed k name args d) mem := by
  cases hp : lib.get name with
  | error f =>
    refine ⟨0, fun t => ?_⟩
    simp only [runNamed_apply, hp]
    exact nofun
  | ok p =>
    obtain ⟨fuel, hfuel⟩ : Settles (fun k => lib.run k p args d 0) mem :=
      settles_run hlib hd (mem_of_get hp) hrange hargs
    refine ⟨fuel, fun t => ?_⟩
    simp only [runNamed_apply, hp]
    split
    · exact nofun
    · exact fun he => hfuel t (concluded_eq_exhausted.mp he)

/-! ## Invocations -/

/-- **Every invocation ends.** If the guards of conditionals are checked backward too and no local
begins with a value that names it, or if no call is turned round and the run is forward, then from
some amount of fuel on the result of a procedure is one and the same, a completion or a fault. So is
that of every statement, and no loop goes on for ever. -/
theorem runs_end (hlib : lib.Accepted)
    (hmode : (lib.settings.checkGuardOnBackward = true ∧
        ∀ loc name e, lib.Holds (.declare loc name e) → name ∉ e.names) ∨
      (d = .forward ∧ ∀ loc callee args, ¬lib.Holds (.call loc callee args true))) :
    (∀ name args (mem : Memory), mem.heap.InRange →
      (∀ s, Binding.Among args s → s.store < mem.heap.size) →
      ∃ bound result, (∀ mem', result ≠ .error .exhausted mem') ∧
        ∀ fuel ≥ bound, lib.runNamed fuel name args d mem = result) ∧
    (∀ p ∈ lib.procedures, ∀ args depth (mem : Memory), mem.heap.InRange →
      (∀ s, Binding.Among args s → s.store < mem.heap.size) →
      ∃ bound result, (∀ mem', result ≠ .error .exhausted mem') ∧
        ∀ fuel ≥ bound, lib.run fuel p args d depth mem = result) ∧
    ∀ s, lib.Holds s → ∀ m : Machine, m.Sound →
      ∃ bound result, (∀ m', result ≠ .error .exhausted m') ∧
        ∀ fuel ≥ bound, exec lib fuel d s m = result := by
  have hd : lib.Retraceable d := by
    rcases hmode with ⟨hguard, hlocals⟩ | ⟨rfl, hcalls⟩
    · exact retraceable_of_guards hguard hlocals
    · exact retraceable_of_forward hcalls
  have hscoped := hlib.wellScoped
  refine ⟨fun name args mem hrange hargs => ?_, fun p hp args depth mem hrange hargs => ?_,
    fun s hs m hm => ?_⟩
  · exact (settles_runNamed hscoped hd name hrange hargs).eventually
      (lib.steady_runNamed name args d)
  · exact (settles_run hscoped hd hp hrange hargs).eventually (lib.steady_run p args d depth)
  · exact (settles_exec hscoped hd hs hm).eventually fun _ _ hkl => exec_below lib hkl d s

end Library

/-- A run that enters a loop backward ends, and it completes. -/
theorem settle_ends : ∃ bound mem', ∀ fuel ≥ bound,
    (Sample.library true).runNamed fuel "settle" Sample.arguments .forward Sample.memory =
      .ok () mem' := by
  obtain ⟨hinvoked, -, -⟩ := Library.runs_end (d := .forward) (Sample.accepted true)
    (Or.inl ⟨rfl, Sample.not_mem_names_of_declare true⟩)
  obtain ⟨bound, result, -, hall⟩ := hinvoked "settle" Sample.arguments Sample.memory
    Sample.inRange_memory Sample.placed_arguments
  obtain ⟨mem', h⟩ := Sample.settle_completes true
  have hresult : result = .ok () mem' :=
    (hall _ (Nat.le_max_left bound 10)).symm.trans
      ((Library.steady_runNamed _ _ _ _ (Nat.le_max_right bound 10)).eq_ok h)
  exact ⟨bound, mem', fun fuel hfuel => (hall fuel hfuel).trans hresult⟩

end Retrace
