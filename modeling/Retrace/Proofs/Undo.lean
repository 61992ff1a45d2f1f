import Mathlib.Data.List.Nodup
import Retrace.Proofs.Scoping

/-!
# Undoing a run

What a statement does can be taken back by the same statement run in the other direction. A local
that was ended and begins again gets a fresh slot, so the machine that a backward run comes back to
is the old one only up to the slots of its locals. `Machine.Renames` is this relation: the names
stand for corresponding slots, which hold the same values.

`Execution.UndoneBy` says that an action takes another one back from every machine that corresponds
to the one it ended in. It is proved for each form of statement, first those that do something at
once and then those that are made of others; there the law is assumed for the smaller runs. For
calls, it is a law about whole procedures (`undo_runProcedure`), since a procedure leaves nothing
behind but the values of its arguments.
-/

namespace Retrace

open Actions

/-! ## Machines up to the slots of locals -/

/-- The names of `n` stand for the slots that correspond to those of `m`, and corresponding slots
hold the same values. -/
structure Machine.Renames (ρ : Slot → Slot) (m n : Machine) : Prop where
  depth : n.frame.depth = m.frame.depth
  width : n.frame.intType = m.frame.intType
  localsType : (n.heap.store n.frame.locals).intType = (m.heap.store m.frame.locals).intType
  lookup : ∀ x, n.frame.lookup? x = (m.frame.lookup? x).map (Binding.rename ρ)
  inj : ∀ s t, m.frame.Covers s → m.frame.Covers t → ρ s = ρ t → s = t
  cell : ∀ s, m.frame.Covers s → n.heap.cell? (ρ s) = m.heap.cell? s
  type : ∀ s, m.frame.Covers s →
    (n.heap.store (ρ s).store).intType = (m.heap.store s.store).intType
  home : ∀ s, m.frame.Covers s → ((ρ s).store = n.frame.locals ↔ s.store = m.frame.locals)

/-- Two machines are the same up to the slots of their locals. -/
def Machine.Alike (m n : Machine) : Prop := ∃ ρ, m.Renames ρ n

namespace Machine

variable {ρ : Slot → Slot} {m m' n n' : Machine}

theorem Renames.refl (m : Machine) : m.Renames id m := by
  refine ⟨rfl, rfl, rfl, fun x => ?_, fun _ _ _ _ h => h, fun _ _ => rfl, fun _ _ => rfl,
    fun _ _ => Iff.rfl⟩
  cases m.frame.lookup? x <;> simp

/-- Only heaps and frames matter. -/
theorem Renames.of_eq (h : m.Renames ρ n) (hm : m'.heap = m.heap) (hm' : m'.frame = m.frame)
    (hn : n'.heap = n.heap) (hn' : n'.frame = n.frame) : m'.Renames ρ n' := by
  obtain ⟨⟨heap, log⟩, frame⟩ := m
  obtain ⟨⟨heap', log'⟩, frame'⟩ := n
  subst hm hm' hn hn'
  exact ⟨h.depth, h.width, h.localsType, h.lookup, h.inj, h.cell, h.type, h.home⟩

/-- What is bound in a machine whose names `m'` still has is bound in every machine like `m'`. -/
theorem Renames.extends_of (h : m'.Renames ρ n) (lib : Library) {names : List String}
    (hwidth : m'.frame.intType = m.frame.intType)
    (hlookup : ∀ x ∈ names, ∀ b, m.frame.lookup? x = some b → m'.frame.lookup? x = some b) :
    (m.scope lib).Extends ρ names (n.scope lib) := by
  refine ⟨rfl, by simp only [scope, h.width, hwidth, Nat.le_refl], fun x hx b hb => ?_⟩
  rw [scope, h.lookup x, hlookup x hx b hb]
  rfl

theorem Renames.test {lib : Library} {e : Expr} {b : Bool} (h : m.Renames ρ n)
    (ht : (m.scope lib).test e = .ok b) : (n.scope lib).test e = .ok b :=
  Scope.test_of_extends (h.extends_of lib rfl fun _ _ _ hb => hb) ht h.cell

theorem Renames.covers (h : m.Renames ρ n) {s : Slot} (hs : m.frame.Covers s) :
    n.frame.Covers (ρ s) := by
  obtain ⟨x, b, hb, hs⟩ := hs
  refine ⟨x, b.rename ρ, ?_, ?_⟩
  · rw [h.lookup, hb]
    rfl
  · rw [Binding.slots_rename]
    exact List.mem_map_of_mem hs

/-- Values that change on both sides alike leave machines the same. -/
theorem Renames.of_cells (h : m'.Renames ρ n') (hm : m'.frame = m.frame) (hn : n'.frame = n.frame)
    (hmt : ∀ i, (m'.heap.store i).intType = (m.heap.store i).intType)
    (hnt : ∀ i, (n.heap.store i).intType = (n'.heap.store i).intType)
    (hcell : ∀ s, m.frame.Covers s → n.heap.cell? (ρ s) = m.heap.cell? s) : m.Renames ρ n where
  depth := by rw [← hm, ← hn, h.depth]
  width := by rw [← hm, ← hn, h.width]
  localsType := by rw [hnt, ← hm, ← hn, h.localsType, hmt]
  lookup x := by rw [← hm, ← hn, h.lookup]
  inj s t hs ht := h.inj s t (hm ▸ hs) (hm ▸ ht)
  cell := hcell
  type s hs := by rw [hnt, h.type s (hm ▸ hs), hmt]
  home s hs := by rw [← hm, ← hn, h.home s (hm ▸ hs)]

end Machine

namespace Execution

/-- From every machine like the one that `x` ends in, `y` leads back to one like the first. -/
def UndoneBy (x y : Execution Unit) : Prop :=
  ∀ ⦃m m' n' : Machine⦄, m.Sound → x m = .ok () m' → n'.Sound → m'.Alike n' →
    ∃ n, y n' = .ok () n ∧ m.Alike n

variable {lib : Library} {d : Direction}

/-! ## Single statements -/

theorem undo_assign (target : Expr) (op : String) (value : Expr) :
    UndoneBy (assign lib d target op value) (assign lib d.flip target op value) := by
  rintro m m' n' hm h - ⟨ρ, hρ⟩
  obtain ⟨u, s, r₁, v, r₂, c, hu, hs, hv, hr, hc, ht, rfl⟩ := assign_eq_ok.mp h
  obtain ⟨hcov, _, rfl, hr₁⟩ := Scope.covers_of_locate hs
  obtain ⟨new, rfl, hnew⟩ := Scope.reads_of_eval hv
  have hx : ∀ names, (m.scope lib).Extends ρ names (n'.scope lib) := fun names =>
    hρ.extends_of lib rfl fun _ _ _ hb => hb
  -- the slots that were read hold the same as before
  have hread : ∀ w ∈ r₁ ++ new, m.frame.Covers w → n'.heap.cell? (ρ w) = m.heap.cell? w := by
    intro w hw hcw
    rw [hρ.cell w hcw]
    simp only [Heap.cell?_put hc]
    rw [if_neg]
    rintro rfl
    exact hr hw
  have hcell : n'.heap.cell? (ρ s) = some ((u.directed d).apply c v.toInt) := by
    rw [hρ.cell s hcov]
    simp only [Heap.cell?_put hc, if_true]
  have hundo : (u.directed d.flip).apply ((u.directed d).apply c v.toInt) v.toInt = c := by
    rw [Update.directed_flip, Update.undo_apply]
  refine ⟨_, assign_eq_ok.mpr ⟨u, ρ s, r₁.map ρ, v, (r₁ ++ new).map ρ, _, hu, ?_, ?_, ?_, hcell,
    ?_, rfl⟩, ρ, ?_⟩
  · exact Scope.locate_of_extends (hx _) hs fun w hw => hread w (List.mem_append_left _ hw)
  · exact Scope.eval_of_extends (hx _) hv hread
  · rw [List.mem_map]
    rintro ⟨w, hw, hρw⟩
    have hcw : m.frame.Covers w := (List.mem_append.mp hw).elim (hr₁ w) (hnew w)
    exact hr (hρ.inj w s hcw hcov hρw ▸ hw)
  · rw [hundo, hρ.type s hcov, Heap.intType_put]
    exact hm.inRange s c hc
  · refine hρ.of_cells rfl rfl (fun i => Heap.intType_put ..) (fun i => Heap.intType_put ..) ?_
    intro w hcw
    simp only [Heap.cell?_put hcell, hundo]
    by_cases hw : w = s
    · rw [hw, if_pos rfl, hc]
    · rw [if_neg fun he => hw (hρ.inj w s hcw hcov he), hρ.cell w hcw]
      simp only [Heap.cell?_put hc, if_neg hw]

theorem undo_swap (left right : Expr) :
    UndoneBy (swap lib left right) (swap lib left right) := by
  rintro m m' n' hm h - ⟨ρ, hρ⟩
  obtain ⟨s, r₁, t, r₂, a, b, hs, ht, hne, hr, ha, hb, hbs, hat, rfl⟩ := swap_eq_ok.mp h
  obtain ⟨hcs, _, rfl, hr₁⟩ := Scope.covers_of_locate hs
  obtain ⟨hct, _, rfl, hr₂⟩ := Scope.covers_of_locate ht
  have hx : ∀ names, (m.scope lib).Extends ρ names (n'.scope lib) := fun names =>
    hρ.extends_of lib rfl fun _ _ _ hb => hb
  have hb' : (m.heap.put s (some b)).cell? t = some b := by
    rw [Heap.cell?_put ha, if_neg hne.symm, hb]
  have hm' : ∀ u, ((m.heap.put s (some b)).put t (some a)).cell? u =
      if u = t then some a else if u = s then some b else m.heap.cell? u := by
    intro u
    rw [Heap.cell?_put hb', Heap.cell?_put ha]
  have hread : ∀ w ∈ r₁ ++ r₂, m.frame.Covers w → n'.heap.cell? (ρ w) = m.heap.cell? w := by
    intro w hw hcw
    rw [hρ.cell w hcw]
    simp only [hm', if_neg (hr w hw).1, if_neg (hr w hw).2]
  have hρne : ρ s ≠ ρ t := fun he => hne (hρ.inj s t hcs hct he)
  have hs' : n'.heap.cell? (ρ s) = some b := by
    rw [hρ.cell s hcs]
    simp only [hm', if_neg hne, if_true]
  have ht' : n'.heap.cell? (ρ t) = some a := by
    rw [hρ.cell t hct]
    simp only [hm', if_true]
  have hput : (n'.heap.put (ρ s) (some a)).cell? (ρ t) = some a := by
    rw [Heap.cell?_put hs', if_neg hρne.symm, ht']
  refine ⟨_, swap_eq_ok.mpr ⟨ρ s, r₁.map ρ, ρ t, r₂.map ρ, b, a, ?_, ?_, hρne, ?_, hs', ht', ?_, ?_,
    rfl⟩, ρ, ?_⟩
  · exact Scope.locate_of_extends (hx _) hs fun w hw => hread w (List.mem_append_left _ hw)
  · exact Scope.locate_of_extends (hx _) ht fun w hw => hread w (List.mem_append_right _ hw)
  · rw [← List.map_append]
    intro u hu
    obtain ⟨w, hw, rfl⟩ := List.mem_map.mp hu
    have hcw : m.frame.Covers w := (List.mem_append.mp hw).elim (hr₁ w) (hr₂ w)
    exact ⟨fun he => (hr w hw).1 (hρ.inj w s hcw hcs he),
      fun he => (hr w hw).2 (hρ.inj w t hcw hct he)⟩
  · rw [hρ.type s hcs, Heap.intType_put, Heap.intType_put]
    exact hm.inRange s a ha
  · rw [hρ.type t hct, Heap.intType_put, Heap.intType_put]
    exact hm.inRange t b hb
  · refine hρ.of_cells rfl rfl (fun i => ?_) (fun i => ?_) fun w hcw => ?_
    · simp only [Heap.intType_put]
    · simp only [Heap.intType_put]
    · simp only [Heap.cell?_put hput, Heap.cell?_put hs']
      by_cases hwt : w = t
      · rw [hwt, if_pos rfl, hb]
      by_cases hws : w = s
      · rw [hws, if_neg hρne, if_pos rfl, ha]
      rw [if_neg fun he => hwt (hρ.inj w t hcw hct he),
        if_neg fun he => hws (hρ.inj w s hcw hcs he), hρ.cell w hcw]
      simp only [hm', if_neg hwt, if_neg hws]

/-- A local that has begun can be ended, with the value that it began with. -/
theorem undo_introduce (name : String) (e : Expr) :
    UndoneBy (introduce lib name e) (remove lib name e) := by
  rintro m m' n' hm h hn' ⟨ρ, hρ⟩
  obtain ⟨v, hv, hname, ht, rfl⟩ := introduce_eq_ok.mp h
  have hcov : ∀ u, m.frame.Covers u → (m.frame.push name
      (.scalar (m.heap.fresh m.frame.locals))).Covers u := fun u hu =>
    (Frame.covers_push hname).mpr (Or.inr hu)
  have hcovfresh : (m.frame.push name (.scalar (m.heap.fresh m.frame.locals))).Covers
      (m.heap.fresh m.frame.locals) :=
    (Frame.covers_push hname).mpr (Or.inl (by simp [Binding.slots]))
  -- values from before the local are the same
  have hold : ∀ u, m.frame.Covers u → n'.heap.cell? (ρ u) = m.heap.cell? u := by
    intro u hu
    rw [hρ.cell u (hcov u hu)]
    simp only [Heap.cell?_grow hm.lt_size, if_neg (hm.ne_fresh hu)]
  have hnew : n'.heap.cell? (ρ (m.heap.fresh m.frame.locals)) = some v.toInt := by
    rw [hρ.cell _ hcovfresh]
    simp only [Heap.cell?_grow hm.lt_size, if_true]
  have hname' : n'.frame.lookup? name = some (.scalar (ρ (m.heap.fresh m.frame.locals))) := by
    rw [hρ.lookup, Frame.lookup?_push hname, if_pos rfl]
    rfl
  have hx : (m.scope lib).Extends ρ e.names (n'.scope lib) :=
    hρ.extends_of lib rfl fun _ _ _ hb => Frame.lookup?_push_of_some hname _ hb
  refine ⟨_, remove_eq_ok.mpr ⟨v, _, ?_, hname', hnew, (hρ.home _ hcovfresh).mpr rfl, rfl⟩, ρ, ?_⟩
  · exact Scope.value_of_extends hx hv hold
  · refine ⟨hρ.depth, hρ.width, ?_, fun x => ?_,
      fun s t hs ht => hρ.inj s t (hcov s hs) (hcov t ht),
      fun u hu => ?_, fun u hu => ?_, fun u hu => hρ.home u (hcov u hu)⟩
    · simp only [Heap.intType_put]
      exact hρ.localsType.trans (Heap.intType_grow ..)
    · simp only [Frame.lookup?_erase]
      by_cases hx : x = name
      · have hnone : m.frame.lookup? name = none := by simpa [Frame.has_eq] using hname
        rw [if_pos hx, hx, hnone]
        rfl
      · rw [if_neg hx, hρ.lookup x, Frame.lookup?_push hname, if_neg hx]
    · have hne : ρ u ≠ ρ (m.heap.fresh m.frame.locals) := fun he =>
        hm.ne_fresh hu (hρ.inj _ _ (hcov u hu) hcovfresh he)
      simp only [Heap.cell?_put hnew, if_neg hne]
      exact hold u hu
    · simp only [Heap.intType_put]
      exact (hρ.type u (hcov u hu)).trans (Heap.intType_grow ..)

/-- A local that has ended can begin again, with the value that it ended with, if that value does
not name it. -/
theorem undo_remove {name : String} {e : Expr} (hself : name ∉ e.names) :
    UndoneBy (remove lib name e) (introduce lib name e) := by
  rintro m m' n' hm h hn' ⟨ρ, hρ⟩
  obtain ⟨v, s, hv, hs, hc, hl, rfl⟩ := remove_eq_ok.mp h
  have hcs : m.frame.Covers s := ⟨name, .scalar s, hs, by simp [Binding.slots]⟩
  have herase : ∀ u, (m.frame.erase name).Covers u ↔ m.frame.Covers u ∧ u ≠ s := fun u =>
    Frame.covers_erase hm.apart hs
  have hold : ∀ u, (m.frame.erase name).Covers u → n'.heap.cell? (ρ u) = m.heap.cell? u := by
    intro u hu
    rw [hρ.cell u hu]
    simp only [Heap.cell?_put hc, if_neg ((herase u).mp hu).2]
  have hname' : n'.frame.has name = false := by
    rw [Frame.has_eq, hρ.lookup, Frame.lookup?_erase, if_pos rfl]
    rfl
  have hfresh : ∀ u, (m.frame.erase name).Covers u → ρ u ≠ n'.heap.fresh n'.frame.locals :=
    fun u hu => hn'.ne_fresh (hρ.covers hu)
  have htype : (n'.heap.store n'.frame.locals).intType = (m.heap.store m.frame.locals).intType :=
    hρ.localsType.trans (Heap.intType_put ..)
  -- the value of `e` is the same without the local
  have hvalue : (n'.scope lib).value e = .ok v := by
    have hx₁ : (m.scope lib).Extends id e.names ⟨lib.functions, m.frame.erase name, m.heap⟩ := by
      refine ⟨rfl, Nat.le_refl _, fun x hx b hb => ?_⟩
      rw [Binding.rename_id, Frame.lookup?_erase, if_neg]
      · exact hb
      · rintro rfl
        exact hself hx
    have hx₂ : Scope.Extends ρ e.names ⟨lib.functions, m.frame.erase name, m.heap⟩
        (n'.scope lib) := by
      refine ⟨rfl, Nat.le_of_eq (congrArg IntType.bits hρ.width.symm), fun x _ b hb => ?_⟩
      rw [Machine.scope, hρ.lookup, hb]
      rfl
    exact Scope.value_of_extends hx₂ (Scope.value_of_extends hx₁ hv fun _ _ => rfl) hold
  -- the local has its fresh slot now, and the others keep theirs
  obtain ⟨σ, hσs, hσ⟩ : ∃ σ : Slot → Slot, σ s = n'.heap.fresh n'.frame.locals ∧
      ∀ u, u ≠ s → σ u = ρ u :=
    ⟨Function.update ρ s _, Function.update_self .., fun u hu => Function.update_of_ne hu ..⟩
  refine ⟨_, introduce_eq_ok.mpr ⟨v, hvalue, hname', ?_, rfl⟩, σ, ?_⟩
  · rw [htype, ← hl]
    exact hm.inRange s _ hc
  · refine ⟨hρ.depth, hρ.width, ?_, fun x => ?_, fun u w hu hw he => ?_, fun u hu => ?_,
      fun u hu => ?_, fun u hu => ?_⟩
    · simp only [Heap.intType_grow]
      exact htype
    · simp only [Frame.lookup?_push hname']
      by_cases hx : x = name
      · rw [if_pos hx, hx, hs, ← hσs]
        rfl
      · rw [if_neg hx, hρ.lookup, Frame.lookup?_erase, if_neg hx]
        cases hb : m.frame.lookup? x with
        | none => rfl
        | some b =>
          refine congrArg some (Binding.rename_congr fun u hu => (hσ u ?_).symm)
          have hcov : (m.frame.erase name).Covers u :=
            ⟨x, b, by rw [Frame.lookup?_erase, if_neg hx, hb], hu⟩
          exact ((herase u).mp hcov).2
    · by_cases hus : u = s <;> by_cases hws : w = s
      · rw [hus, hws]
      · rw [hus, hσs, hσ w hws] at he
        exact absurd he.symm (hfresh w ((herase w).mpr ⟨hw, hws⟩))
      · rw [hws, hσs, hσ u hus] at he
        exact absurd he (hfresh u ((herase u).mpr ⟨hu, hus⟩))
      · rw [hσ u hus, hσ w hws] at he
        exact hρ.inj u w ((herase u).mpr ⟨hu, hus⟩) ((herase w).mpr ⟨hw, hws⟩) he
    · simp only [Heap.cell?_grow hn'.lt_size]
      by_cases hus : u = s
      · rw [hus, hσs, if_pos rfl, hc]
      · have hu' := (herase u).mpr ⟨hu, hus⟩
        rw [hσ u hus, if_neg (hfresh u hu'), hold u hu']
    · simp only [Heap.intType_grow]
      by_cases hus : u = s
      · rw [hus, hσs, hl]
        exact htype
      · rw [hσ u hus]
        exact (hρ.type u ((herase u).mpr ⟨hu, hus⟩)).trans (Heap.intType_put ..)
    · by_cases hus : u = s
      · rw [hus, hσs]
        exact iff_of_true rfl hl
      · rw [hσ u hus]
        exact hρ.home u ((herase u).mpr ⟨hu, hus⟩)

/-! ## Statements made of others -/

section Compound

variable {run back : Stmt → Execution Unit}

/-- A block is undone statement by statement, the last one first. -/
theorem undo_block (hrun : ∀ s m, Careful (run s) m) (hback : ∀ s m, Careful (back s) m)
    {body : List Stmt} (hundo : ∀ s ∈ body, UndoneBy (run s) (back s)) :
    UndoneBy (block run d body) (block back d.flip body) := by
  have hforM : ∀ stmts : List Stmt, (∀ s ∈ stmts, UndoneBy (run s) (back s)) →
      UndoneBy (stmts.forM run) (stmts.reverse.forM back) := by
    intro stmts
    induction stmts with
    | nil =>
      intro _ m m' n' _ h _ hlike
      rw [forM_nil_eq_ok.mp h] at hlike
      exact ⟨n', rfl, hlike⟩
    | cons s rest ih =>
      intro hstmts m m' n' hm h hn' hlike
      obtain ⟨m₁, h₁, h₂⟩ := forM_cons_eq_ok.mp h
      have hm₁ := ((hrun s m).ok h₁).sound hm
      obtain ⟨n₁, hn₁, hlike₁⟩ :=
        ih (fun t ht => hstmts t (List.mem_cons_of_mem s ht)) hm₁ h₂ hn' hlike
      have hrest : Careful (block back .backward rest) n' := careful_block hback ..
      obtain ⟨n, hn, hlike⟩ :=
        hstmts s List.mem_cons_self hm h₁ ((hrest.ok hn₁).sound hn') hlike₁
      rw [List.reverse_cons]
      exact ⟨n, forM_append_eq_ok.mpr ⟨n₁, hn₁, forM_cons_eq_ok.mpr ⟨n, hn, rfl⟩⟩, hlike⟩
  unfold block
  rw [Direction.order_flip]
  exact hforM _ fun s hs => hundo s (Direction.mem_order.mp hs)

/-- A conditional is undone if it checked its second condition, which selects the branch now. -/
theorem undo_branch (hchecks : lib.Checks d) {guard assertion : Expr}
    {thenBody elseBody : List Stmt}
    (hthen : UndoneBy (block run d thenBody) (block back d.flip thenBody))
    (helse : UndoneBy (block run d elseBody) (block back d.flip elseBody)) :
    UndoneBy (branch lib run d guard thenBody elseBody assertion)
      (branch lib back d.flip guard thenBody elseBody assertion) := by
  intro m m' n' hm h hn' hlike
  obtain ⟨b, hfirst, hblock, hsecond⟩ := branch_eq_ok.mp h
  obtain ⟨n, hn, σ, hσ⟩ : ∃ n, block back d.flip (if b then thenBody else elseBody) n' = .ok () n ∧
      m.Alike n := by
    cases b with
    | true => exact hthen hm hblock hn' hlike
    | false => exact helse hm hblock hn' hlike
  obtain ⟨ρ, hρ⟩ := hlike
  refine ⟨n, branch_eq_ok.mpr ⟨b, ?_, hn, fun _ => ?_⟩, σ, hσ⟩
  · rw [Direction.pick_flip]
    exact hρ.test (hsecond hchecks)
  · rw [Direction.pick_flip]
    exact hσ.test hfirst

/-- From every machine like `a`, which is about to be left backward in a loop that began in `m`, the
loop comes back to `m` after at most `j` tests of the condition that it began with. -/
def ComesBack (lib : Library) (back : Stmt → Execution Unit) (d : Direction) (first last : Expr)
    (doBody loopBody : List Stmt) (m : Machine) (j : Nat) (a : Machine) : Prop :=
  ∀ fuel ≥ j, ∀ (i : Nat) (n : Machine), n.Sound → a.Alike n →
    ∃ n', repeatUntil (test lib first) (again lib back d.flip last doBody loopBody) fuel i n =
      .ok () n' ∧ m.Alike n'

section Loop

variable {first last : Expr} {doBody loopBody : List Stmt} {m : Machine}

theorem comesBack_start (hfirst : (m.scope lib).test first = .ok true) :
    ComesBack lib back d first last doBody loopBody m 1 m := by
  rintro fuel hfuel i n - ⟨ρ, hρ⟩
  obtain ⟨fuel, rfl⟩ := Nat.exists_eq_succ_of_ne_zero (Nat.ne_of_gt hfuel)
  exact ⟨n, repeatUntil_succ_eq_ok.mpr (Or.inl ⟨hρ.test hfirst, rfl⟩), ρ, hρ⟩

/-- One more repetition takes one more test to come back from. -/
theorem ComesBack.next (hrun : ∀ s m, Careful (run s) m) (hback : ∀ s m, Careful (back s) m)
    (hdo : UndoneBy (block run d doBody) (block back d.flip doBody))
    (hloop : UndoneBy (block run d loopBody) (block back d.flip loopBody)) {j : Nat}
    {a b a' : Machine} (h : ComesBack lib back d first last doBody loopBody m j a) (ha : a.Sound)
    (hab : block run d doBody a = .ok () b) (hb : (b.scope lib).test last = .ok false)
    (hba : block run d loopBody b = .ok () a') (ha' : (a'.scope lib).test first = .ok false) :
    ComesBack lib back d first last doBody loopBody m (j + 1) a' := by
  rintro fuel hfuel i n hn ⟨ρ, hρ⟩
  obtain ⟨fuel, rfl⟩ : ∃ k, fuel = k + 1 := ⟨fuel - 1, by omega⟩
  have hbsound := ((careful_block hrun d doBody).ok hab).sound ha
  obtain ⟨n₁, hn₁, τ, hτ⟩ := hloop hbsound hba hn ⟨ρ, hρ⟩
  have hn₁sound := ((careful_block hback d.flip loopBody).ok hn₁).sound hn
  obtain ⟨n₂, hn₂, hlike₂⟩ := hdo ha hab hn₁sound ⟨τ, hτ⟩
  have hn₂sound := ((careful_block hback d.flip doBody).ok hn₂).sound hn₁sound
  obtain ⟨n₃, hn₃, hlike₃⟩ := h fuel (by omega) (i + 1) n₂ hn₂sound hlike₂
  exact ⟨n₃, repeatUntil_succ_eq_ok.mpr (Or.inr ⟨hρ.test ha', n₂,
    again_eq_ok.mpr ⟨n₁, hn₁, hτ.test hb, hn₂⟩, hn₃⟩), hlike₃⟩

/-- The repetitions of a loop are undone by as many, where `j` tests were made before `a` and `k`
may follow. -/
theorem undo_repeatUntil (hrun : ∀ s m, Careful (run s) m) (hback : ∀ s m, Careful (back s) m)
    (hdo : UndoneBy (block run d doBody) (block back d.flip doBody))
    (hloop : UndoneBy (block run d loopBody) (block back d.flip loopBody)) {fuel k j i : Nat}
    {a b m' n' : Machine} (hjk : j + k ≤ fuel + 1)
    (hcomes : ComesBack lib back d first last doBody loopBody m j a) (ha : a.Sound)
    (hab : block run d doBody a = .ok () b)
    (h : repeatUntil (test lib last) (again lib run d first doBody loopBody) k i b = .ok () m')
    (hn' : n'.Sound) (hlike : m'.Alike n') :
    (n'.scope lib).test last = .ok true ∧ ∃ n₁, block back d.flip doBody n' = .ok () n₁ ∧
      ∃ n, repeatUntil (test lib first) (again lib back d.flip last doBody loopBody) fuel 0 n₁ =
        .ok () n ∧ m.Alike n := by
  induction k generalizing j i a b with
  | zero => cases h
  | succ k ih =>
    rcases repeatUntil_succ_eq_ok.mp h with ⟨hlast, rfl⟩ | ⟨hlast, b', hagain, hrest⟩
    · obtain ⟨ρ, hρ⟩ := hlike
      obtain ⟨n₁, hn₁, hlike₁⟩ := hdo ha hab hn' ⟨ρ, hρ⟩
      have hn₁sound := ((careful_block hback d.flip doBody).ok hn₁).sound hn'
      exact ⟨hρ.test hlast, n₁, hn₁, hcomes fuel (by omega) 0 n₁ hn₁sound hlike₁⟩
    · obtain ⟨a', hba, ha', hab'⟩ := again_eq_ok.mp hagain
      have hbsound := ((careful_block hrun d doBody).ok hab).sound ha
      have ha'sound := ((careful_block hrun d loopBody).ok hba).sound hbsound
      exact ih (by omega) (hcomes.next hrun hback hdo hloop ha hab hlast hba ha') ha'sound hab'
        hrest

end Loop

/-- A loop is undone by exchanging its two conditions. -/
theorem undo_loop (hrun : ∀ s m, Careful (run s) m) (hback : ∀ s m, Careful (back s) m)
    {fuel : Nat} {entry exit : Expr} {doBody loopBody : List Stmt}
    (hdo : UndoneBy (block run d doBody) (block back d.flip doBody))
    (hloop : UndoneBy (block run d loopBody) (block back d.flip loopBody)) :
    UndoneBy (loop lib run fuel d entry doBody loopBody exit)
      (loop lib back fuel d.flip entry doBody loopBody exit) := by
  intro m m' n' hm h hn' hlike
  obtain ⟨hfirst, m₁, h₁, h₂⟩ := loop_eq_ok.mp h
  obtain ⟨hlast, n₁, hn₁, n, hn, hlike⟩ := undo_repeatUntil hrun hback hdo hloop
    (Nat.le_of_eq (Nat.add_comm 1 fuel)) (comesBack_start hfirst) hm h₁ h₂ hn' hlike
  refine ⟨n, loop_eq_ok.mpr ⟨?_, n₁, hn₁, ?_⟩, hlike⟩
  · rwa [Direction.pick_flip]
  · rwa [Direction.pick_flip, Direction.pick_flip]

end Compound

end Execution

/-! ## Procedures -/

namespace Library

variable {lib : Library} {p : Procedure} {args : List Binding} {d : Direction} {depth : Int}
  {mem : Memory}

/-- Every argument has a name in the procedure. -/
theorem exists_name (hcount : args.length = p.params.length)
    (happart : (p.paramNames.zip args).Pairwise Frame.Apart) {b : Binding} (hb : b ∈ args) :
    ∃ name, (lib.entered p args d depth mem).frame.lookup? name = some b := by
  obtain ⟨i, hi, rfl⟩ := List.getElem_of_mem hb
  have hlen : i < p.paramNames.length := by simpa [Procedure.paramNames, ← hcount] using hi
  refine ⟨p.paramNames[i], Frame.lookup?_of_mem happart ?_⟩
  have hzip : i < (p.paramNames.zip args).length := by
    rw [List.length_zip]
    exact Nat.lt_min.mpr ⟨hlen, hi⟩
  have hget : (p.paramNames.zip args)[i] = (p.paramNames[i], args[i]) := List.getElem_zip ..
  exact hget ▸ List.getElem_mem hzip

theorem covers_entered (hcount : args.length = p.params.length)
    (happart : (p.paramNames.zip args).Pairwise Frame.Apart) {s : Slot}
    (hs : Binding.Among args s) : (lib.entered p args d depth mem).frame.Covers s := by
  obtain ⟨b, hb, hs⟩ := hs
  obtain ⟨name, hname⟩ := exists_name hcount happart hb
  exact ⟨name, b, hname, hs⟩

theorem among_rename {ρ : Slot → Slot} {s : Slot} :
    Binding.Among (args.map (Binding.rename ρ)) s ↔ ∃ t, Binding.Among args t ∧ ρ t = s := by
  constructor
  · rintro ⟨_, hc, hs⟩
    obtain ⟨b, hb, rfl⟩ := List.mem_map.mp hc
    rw [Binding.slots_rename] at hs
    obtain ⟨t, ht, rfl⟩ := List.mem_map.mp hs
    exact ⟨t, ⟨b, hb, ht⟩, rfl⟩
  · rintro ⟨t, ⟨b, hb, ht⟩, rfl⟩
    refine ⟨b.rename ρ, List.mem_map_of_mem hb, ?_⟩
    rw [Binding.slots_rename]
    exact List.mem_map_of_mem ht

/-- Arguments in other slots are apart where the first ones are. -/
theorem apart_rename {ρ : Slot → Slot}
    (hinj : ∀ s t, Binding.Among args s → Binding.Among args t → ρ s = ρ t → s = t)
    (happart : (p.paramNames.zip args).Pairwise Frame.Apart) :
    (p.paramNames.zip (args.map (Binding.rename ρ))).Pairwise Frame.Apart := by
  rw [List.zip_map_right, List.pairwise_map]
  refine happart.imp_of_mem fun {a b} ha hb hab => ⟨hab.1, fun u hu hu' => ?_⟩
  simp only [Prod.map_snd, Binding.slots_rename, List.mem_map] at hu hu'
  obtain ⟨s, hs, rfl⟩ := hu
  obtain ⟨t, ht, hst⟩ := hu'
  have hamong : ∀ c ∈ p.paramNames.zip args, ∀ w ∈ c.2.slots, Binding.Among args w :=
    fun c hc w hw => ⟨c.2, (List.of_mem_zip hc).2, hw⟩
  rw [hinj t s (hamong b hb t ht) (hamong a ha s hs) hst] at ht
  exact hab.2 hs ht

end Library

/-- Slots of the heap `k` that can stand in for the slots of some arguments in the heap `h`. -/
structure Heap.Hosts (ρ : Slot → Slot) (args : List Binding) (h k : Heap) : Prop where
  placed : ∀ s, Binding.Among args s → s.store < h.size
  hosted : ∀ s, Binding.Among args s → (ρ s).store < k.size
  inj : ∀ s t, Binding.Among args s → Binding.Among args t → ρ s = ρ t → s = t
  type : ∀ s, Binding.Among args s →
    (k.store (ρ s).store).intType = (h.store s.store).intType

namespace Execution

variable {lib : Library} {d : Direction} {run back : Direction → Stmt → Execution Unit}

/-- A machine that is done with the body of a procedure is like one that is about to run it on slots
that hold the same. -/
theorem renames_entered {p : Procedure} {args : List Binding} {e : Direction} {depth : Int}
    {mem nem : Memory} {ρ : Slot → Slot} (hhosts : Heap.Hosts ρ args mem.heap nem.heap)
    {m' : Machine} (hframe : m'.frame = (lib.entered p args d depth mem).frame)
    (hevolves : (lib.entered p args d depth mem).Evolves m')
    (hcell : ∀ s, Binding.Among args s → nem.heap.cell? (ρ s) = m'.left.heap.cell? s) :
    m'.Renames ρ (lib.entered p (args.map (Binding.rename ρ)) e depth nem) := by
  have hcov : ∀ s, m'.frame.Covers s → Binding.Among args s := fun s hs =>
    Library.among_of_covers (hframe ▸ hs)
  have hsize : m'.heap.size = mem.heap.size + 1 := by
    rw [hevolves.heap.size]
    exact Heap.size_push ..
  have htype : ∀ i, (m'.heap.store i).intType =
      ((mem.heap.push { intType := lib.intType }).store i).intType := hevolves.heap.types
  have hlocals : m'.frame.locals = mem.heap.size := hevolves.locals
  refine ⟨hevolves.depth.symm, hevolves.intType.symm, ?_, fun x => ?_, fun s t hs ht => ?_,
    fun s hs => ?_, fun s hs => ?_, fun s hs => ?_⟩
  · rw [htype, hlocals, Heap.store_push, if_pos rfl]
    simp [Library.entered, Library.frameOf, Heap.store_push]
  · rw [hframe]
    simp only [Frame.lookup?, Library.entered, List.zip_map_right]
    exact Datum.field?_map (Binding.rename ρ) x (p.paramNames.zip args)
  · exact hhosts.inj s t (hcov s hs) (hcov t ht)
  · have hs' := hcov s hs
    have hne : s.store + 1 ≠ m'.heap.size := by
      have := hhosts.placed s hs'
      omega
    refine (Heap.cell?_push _ rfl _).trans ((hcell s hs').trans ?_)
    rw [Machine.left, Heap.cell?_pop, if_neg hne]
  · have hs' := hcov s hs
    rw [htype, Heap.store_push, if_neg (Nat.ne_of_lt (hhosts.placed s hs')), ← hhosts.type s hs']
    simp only [Library.entered, Heap.store_push, if_neg (Nat.ne_of_lt (hhosts.hosted s hs'))]
  · have hs' := hcov s hs
    rw [hlocals]
    exact iff_of_false (Nat.ne_of_lt (hhosts.hosted s hs')) (Nat.ne_of_lt (hhosts.placed s hs'))

/-- On any slots that hold what the arguments of a procedure held in the end, running it the other
way gives back what they held in the beginning. -/
def ProcedureUndone (lib : Library) (run back : Direction → Stmt → Execution Unit) (p : Procedure)
    (d : Direction) : Prop :=
  ∀ ⦃args : List Binding⦄ ⦃depth : Int⦄ ⦃mem mem' nem : Memory⦄ ⦃ρ : Slot → Slot⦄,
    mem.heap.InRange → nem.heap.InRange → Heap.Hosts ρ args mem.heap nem.heap →
    runProcedure lib run p args d depth mem = .ok () mem' →
    (∀ s, Binding.Among args s → nem.heap.cell? (ρ s) = mem'.heap.cell? s) →
    ∃ nem', runProcedure lib back p (args.map (Binding.rename ρ)) d.flip depth nem = .ok () nem' ∧
      ∀ s, Binding.Among args s → nem'.heap.cell? (ρ s) = mem.heap.cell? s

/-- A procedure is undone if its body is, since the names are bound to the same slots before and
after the body. -/
theorem undo_runProcedure (hrun : ∀ d s m, Careful (run d s) m)
    (hback : ∀ d s m, Careful (back d s) m) {p : Procedure}
    (hbody : UndoneBy (block (run d) d p.body) (block (back d.flip) d.flip p.body))
    (hframe : ∀ {m m' : Machine}, m.Sound → block (run d) d p.body m = .ok () m' →
      m'.frame = m.frame)
    (hframe' : ∀ {m m' : Machine}, m.Sound → block (back d.flip) d.flip p.body m = .ok () m' →
      m'.frame = m.frame) : ProcedureUndone lib run back p d := by
  intro args depth mem mem' nem ρ hrange hrange' hhosts h hcell
  obtain ⟨hdepth, hcount, happart, m', hblock, rfl⟩ := runProcedure_eq_ok.mp h
  have happart' := Library.apart_rename hhosts.inj happart
  have hm : (lib.entered p args d depth mem).Sound :=
    Library.sound_entered hrange hhosts.placed happart
  have hn' : (lib.entered p (args.map (Binding.rename ρ)) d.flip depth nem).Sound := by
    refine Library.sound_entered hrange' (fun s hs => ?_) happart'
    obtain ⟨t, ht, rfl⟩ := Library.among_rename.mp hs
    exact hhosts.hosted t ht
  have hlike := renames_entered (e := d.flip) hhosts (hframe hm hblock)
    (((careful_block (hrun d) d p.body).ok hblock).evolves hm.lt_size) hcell
  obtain ⟨n, hn, σ, hσ⟩ := hbody hm hblock hn' ⟨ρ, hlike⟩
  have hevolves := ((careful_block (hback d.flip) d.flip p.body).ok hn).evolves hn'.lt_size
  refine ⟨n.left, runProcedure_eq_ok.mpr ⟨hdepth, by simpa using hcount, happart', n, hn, rfl⟩,
    fun s hs => ?_⟩
  -- the names are bound to the same slots after the run, so the two renamings agree
  have hρσ : ρ s = σ s := by
    obtain ⟨b, hb, hsb⟩ := hs
    obtain ⟨name, hname⟩ := Library.exists_name hcount happart hb
    have hbefore := hlike.lookup name
    have hafter := hσ.lookup name
    rw [hframe hm hblock, hname] at hbefore
    rw [hframe' hn' hn, hname, hbefore] at hafter
    exact Binding.eq_of_rename_eq (Option.some.inj hafter) s hsb
  have hne : (ρ s).store + 1 ≠ n.heap.size := by
    have hsize : n.heap.size = nem.heap.size + 1 := hevolves.heap.size.trans (Heap.size_push ..)
    have := hhosts.hosted s hs
    omega
  rw [Machine.left, Heap.cell?_pop, if_neg hne, hρσ,
    hσ.cell s (Library.covers_entered hcount happart hs)]
  exact Heap.cell?_push _ rfl s

theorem slotsOf_rename (ρ : Slot → Slot) (bindings : List (String × Binding)) :
    Overlap.slotsOf (bindings.map fun entry => (entry.1, entry.2.rename ρ)) =
      (Overlap.slotsOf bindings).map ρ := by
  simp [Overlap.slotsOf, List.flatMap_map, List.map_flatMap]

/-- A call is undone by the call in the other direction: nothing that located an argument has
changed, since no argument locates another. -/
theorem undo_call (hrun : ∀ d s m, Careful (run d s) m) (hback : ∀ d s m, Careful (back d s) m)
    {callee : String} {args : List Expr} {uncall : Bool}
    (hproc : ∀ p, lib.get callee = .ok p →
      ProcedureUndone lib run back p (if uncall then d.flip else d)) :
    UndoneBy (call lib run d callee args uncall) (call lib back d.flip callee args uncall) := by
  rintro m m' n' hm h hn' ⟨ρ, hρ⟩
  obtain ⟨p, bindings, reads, mem', hp, hargs, hnodup, hreads, hbody, rfl⟩ := call_eq_ok.mp h
  obtain ⟨-, hcovers, hcoverReads⟩ := covers_of_arguments hargs
  have hkept : ∀ id, Heap.KeptOutside (Binding.Among (bindings.map Prod.snd)) id m.heap mem'.heap :=
    fun id => after_of_ok hbody ▸ kept_runProcedure hrun ..
  have hother : ∀ u, u ∉ Overlap.slotsOf bindings → mem'.heap.cell? u = m.heap.cell? u :=
    fun u hu => (hkept (u.store + 1)).cells u (Nat.ne_of_lt (Nat.lt_succ_self _))
      (mt Binding.among_iff_mem_slotsOf.mp hu)
  have hinj : ∀ s ∈ Overlap.slotsOf bindings, ∀ t, m.frame.Covers t → ρ t = ρ s → t = s :=
    fun s hs t ht he => hρ.inj t s ht (hcovers s hs) he
  have hx : (m.scope lib).Extends ρ (Expr.namesOfList args) (n'.scope lib) :=
    hρ.extends_of lib rfl fun _ _ _ hb => hb
  have hargs' := arguments_of_extends hx hargs fun entry he s hs hcs =>
    (hρ.cell s hcs).trans (hother s (hreads entry he s hs))
  have hhosts : Heap.Hosts ρ (bindings.map Prod.snd) m.heap n'.heap := by
    refine ⟨fun s hs => ?_, fun s hs => ?_, fun s t hs ht => ?_, fun s hs => ?_⟩ <;>
      have hcs := hcovers s (Binding.among_iff_mem_slotsOf.mp hs)
    · exact hm.store_lt hcs
    · exact hn'.store_lt (hρ.covers hcs)
    · exact hρ.inj s t hcs (hcovers t (Binding.among_iff_mem_slotsOf.mp ht))
    · exact (hρ.type s hcs).trans ((hkept 0).types s.store)
  obtain ⟨nem', hbody', hcell⟩ := hproc p hp hm.inRange hn'.inRange hhosts hbody fun s hs =>
    hρ.cell s (hcovers s (Binding.among_iff_mem_slotsOf.mp hs))
  have hdir : (if uncall then d.flip else d).flip = if uncall then d.flip.flip else d.flip := by
    cases uncall <;> rfl
  have hmap : (bindings.map Prod.snd).map (Binding.rename ρ) =
      (bindings.map fun entry => (entry.1, entry.2.rename ρ)).map Prod.snd := by
    simp [Function.comp_def]
  have hkept' : ∀ id, Heap.KeptOutside (Binding.Among ((bindings.map Prod.snd).map
      (Binding.rename ρ))) id n'.heap nem'.heap :=
    fun id => after_of_ok hbody' ▸ kept_runProcedure hback ..
  rw [hdir, hmap, ← hρ.depth] at hbody'
  refine ⟨⟨nem', n'.frame⟩, call_eq_ok.mpr ⟨p, _, _, nem', hp, hargs', ?_, ?_, hbody', rfl⟩, ρ, ?_⟩
  · rw [slotsOf_rename]
    exact List.Nodup.map_on (fun s hs t ht => hinj t ht s (hcovers s hs)) hnodup
  · rw [slotsOf_rename]
    intro entry' he' u hu hmem
    obtain ⟨entry, he, rfl⟩ := List.mem_map.mp he'
    obtain ⟨t, ht, rfl⟩ := List.mem_map.mp hu
    obtain ⟨s, hs, hst⟩ := List.mem_map.mp hmem
    exact hreads entry he t ht (hinj s hs t (hcoverReads entry he t ht) hst.symm ▸ hs)
  · refine hρ.of_cells rfl rfl (hkept 0).types (hkept' 0).types fun u hcu => ?_
    by_cases hu : u ∈ Overlap.slotsOf bindings
    · exact hcell u (Binding.among_iff_mem_slotsOf.mpr hu)
    · have hne : ¬Binding.Among ((bindings.map Prod.snd).map (Binding.rename ρ)) (ρ u) := by
        rw [Library.among_rename]
        rintro ⟨t, ht, he⟩
        have ht' := Binding.among_iff_mem_slotsOf.mp ht
        exact hu (hinj t ht' u hcu he.symm ▸ ht')
      exact ((hkept' ((ρ u).store + 1)).cells (ρ u) (Nat.ne_of_lt (Nat.lt_succ_self _)) hne).trans
        ((hρ.cell u hcu).trans (hother u hu))

end Execution

end Retrace
