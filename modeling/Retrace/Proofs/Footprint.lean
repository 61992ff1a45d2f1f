import Retrace.Proofs.Legality
import Retrace.Symbolic.Footprint

/-!
# What a block leaves alone

`Stmt.modifiedIn` collects the references that a block may write to. This module says that it misses
none: a name that stands for the same slots before and after a statement, and that no collected
reference names, finds in them what they held (`spares_exec`). It is true in both directions of a
run, for any number of iterations of a loop, and for calls, which change nothing but what their
arguments stand for.

Names matter here because a block may begin and end locals of its own. Scopes are nested, so these
are never names that were bound when the block started: all along a balanced block such a name
stands for what it stood for at the start (`spares_of_balanced`).
-/

namespace Retrace

open Actions

namespace Stmt

/-- The names of the references that a statement may write to. -/
def touched (s : Stmt) : List String := s.modified.filterMap Expr.refName?

/-- The names of the references that a block may write to. -/
def touchedIn (body : List Stmt) : List String := (modifiedIn body).filterMap Expr.refName?

theorem touched_subset {s : Stmt} {body : List Stmt} (hs : s ∈ body) :
    s.touched ⊆ touchedIn body := by
  induction body with
  | nil => cases hs
  | cons first rest ih =>
    intro x hx
    rw [touchedIn, modifiedIn, List.filterMap_append, List.mem_append]
    rcases List.mem_cons.mp hs with rfl | hs
    · exact Or.inl hx
    · exact Or.inr (ih hs hx)

theorem touchedIn_subset {s : Stmt} {body : List Stmt} (hbody : body ∈ s.bodies) :
    touchedIn body ⊆ s.touched := by
  cases s <;> simp only [bodies, List.mem_cons, List.not_mem_nil, or_false] at hbody
  all_goals
    simp only [touched, modified, List.filterMap_append]
    rcases hbody with rfl | rfl <;> simp [touchedIn]

/-- A statement that begins or ends none of the names that are bound around it. -/
inductive Inside (bound : List String) : Stmt → Prop
  | declare {loc : Option Location} {name : String} {value : Expr} :
      name ∉ bound → Inside bound (.declare loc name value)
  | discard {loc : Option Location} {name : String} {value : Expr} :
      name ∉ bound → Inside bound (.discard loc name value)
  | compound {s : Stmt} {bound' : List String} : bound ⊆ bound' → s.Scoped bound' → Inside bound s

theorem inside_of_scopedBlock : ∀ {body : List Stmt} {bound pending : List String},
    ScopedBlock bound pending body → Pending bound pending → ∀ s ∈ body, s.Inside bound
  | [], _, _, _, _, _, hs => nomatch hs
  | .declare _ name _ :: rest, bound, pending, h, hp, s, hs => by
    rw [ScopedBlock] at h
    rcases List.mem_cons.mp hs with rfl | hs
    · exact .declare h.1
    · exact inside_of_scopedBlock h.2.2 (hp.declare h.1 h.2.1) s hs
  | .discard _ name _ :: rest, bound, pending, h, hp, s, hs => by
    rw [ScopedBlock] at h
    rcases List.mem_cons.mp hs with rfl | hs
    · exact .discard (hp.apart name h.1)
    · exact inside_of_scopedBlock h.2 (hp.discard name) s hs
  | .assign .. :: rest, bound, pending, h, hp, s, hs
  | .call .. :: rest, bound, pending, h, hp, s, hs
  | .branch .. :: rest, bound, pending, h, hp, s, hs
  | .loop .. :: rest, bound, pending, h, hp, s, hs
  | .swap .. :: rest, bound, pending, h, hp, s, hs
  | .block .. :: rest, bound, pending, h, hp, s, hs
  | .hole _ :: rest, bound, pending, h, hp, s, hs => by
    simp only [ScopedBlock] at h
    rcases List.mem_cons.mp hs with rfl | hs
    · exact .compound (List.subset_append_left bound pending) h.1
    · exact inside_of_scopedBlock h.2 hp s hs

theorem Inside.mono {bound bound' : List String} (hsub : bound ⊆ bound') {s : Stmt}
    (hs : s.Inside bound') : s.Inside bound := by
  cases hs with
  | declare hname => exact .declare fun h => hname (hsub h)
  | discard hname => exact .discard fun h => hname (hsub h)
  | compound hsub' hs => exact .compound (List.Subset.trans hsub hsub') hs

theorem Scoped.bodies {bound : List String} {s : Stmt} (hs : s.Scoped bound) {body : List Stmt}
    (hbody : body ∈ s.bodies) : ScopedBlock bound [] body := by
  cases s <;> simp only [Stmt.bodies, List.mem_cons, List.not_mem_nil, or_false] at hbody
  all_goals rw [Scoped] at hs
  case block => rwa [hbody]
  all_goals
    rcases hbody with rfl | rfl
    · exact hs.1
    · exact hs.2

/-- So are the statements inside a statement. -/
theorem Inside.bodies {bound : List String} {s : Stmt} (hs : s.Inside bound) {body : List Stmt}
    (hbody : body ∈ s.bodies) : ∀ u ∈ body, u.Inside bound := by
  cases hs with
  | declare | discard => simp [Stmt.bodies] at hbody
  | compound hsub hs =>
    exact fun u hu => (inside_of_scopedBlock (hs.bodies hbody) (.nil _) u hu).mono hsub

end Stmt

/-! ## References -/

namespace Scope

variable {t : Scope} {e : Expr} {reads reads' : List Slot}

/-- The slot of a reference is one of its name. -/
theorem name_of_locate {u : Slot} (h : t.locate e reads = .ok u reads') :
    ∃ y b, e.refName? = some y ∧ t.frame.lookup? y = some b ∧ u ∈ b.slots := by
  cases e with
  | elem loc y index =>
    obtain ⟨i, r, -, h⟩ := bind_eq_ok.mp h
    obtain ⟨slots, hslots, -, hu⟩ := Frame.element_eq_ok.mp (ofExcept_eq_ok.mp h).1
    exact ⟨y, .array slots, rfl, hslots, List.mem_of_getElem? hu⟩
  | var loc y =>
    have hu := Frame.slot_eq_ok.mp (ofExcept_eq_ok.mp h).1
    exact ⟨y, .scalar u, rfl, hu, List.mem_singleton_self u⟩
  | _ => cases h

/-- The slots of an argument are some of its name. -/
theorem name_of_argument {c : Binding} (h : t.argument e reads = .ok c reads') :
    ∃ y b, e.refName? = some y ∧ t.frame.lookup? y = some b ∧ c.slots ⊆ b.slots := by
  cases e with
  | var loc y =>
    exact ⟨y, c, rfl, Frame.lookup_eq_ok.mp (ofExcept_eq_ok.mp h).1, fun _ hu => hu⟩
  | _ =>
    obtain ⟨u, r, hu, h⟩ := bind_eq_ok.mp h
    obtain ⟨rfl, -⟩ := pure_eq_ok.mp h
    obtain ⟨y, b, hy, hb, hmem⟩ := name_of_locate hu
    exact ⟨y, b, hy, hb, by simpa [Binding.slots] using hmem⟩

end Scope

/-! ## Names that are left alone -/

/-- The name stands for the same slots as before, and these hold what they held. -/
structure Machine.Spares (x : String) (b : Binding) (m m' : Machine) : Prop where
  lookup : m'.frame.lookup? x = some b
  cells : ∀ u ∈ b.slots, m'.heap.cell? u = m.heap.cell? u

namespace Machine.Spares

variable {x : String} {b : Binding} {m m' m'' : Machine}

theorem trans (h₁ : m.Spares x b m') (h₂ : m'.Spares x b m'') : m.Spares x b m'' :=
  ⟨h₂.lookup, fun u hu => (h₂.cells u hu).trans (h₁.cells u hu)⟩

/-- Writing to a slot of another name. -/
theorem put (hm : m.Ordered) (hb : m.frame.lookup? x = some b) {y : String} {c : Binding} {u : Slot}
    {v : Int} (hy : m.frame.lookup? y = some c) (hu : u ∈ c.slots) (hv : m.heap.cell? u = some v)
    (hne : y ≠ x) (cell : Option Int) : m.Spares x b { m with heap := m.heap.put u cell } := by
  refine ⟨hb, fun w hw => ?_⟩
  have hwu : w ≠ u := by
    rintro rfl
    exact Frame.disjoint_of_lookup? hm.apart hne hy hb hu hw
  rw [Heap.cell?_put hv, if_neg hwu]

end Machine.Spares

namespace Execution

variable {lib : Library} {m m' : Machine} {x : String} {b : Binding}

theorem spares_assign {d : Direction} {target value : Expr} {op : String} (hm : m.Ordered)
    (hb : m.frame.lookup? x = some b) (hx : target.refName? ≠ some x)
    (h : assign lib d target op value m = .ok () m') : m.Spares x b m' := by
  obtain ⟨u, s, r₁, v, r₂, c, -, hs, -, -, hc, -, rfl⟩ := assign_eq_ok.mp h
  obtain ⟨y, bound, hy, hlookup, hmem⟩ := Scope.name_of_locate hs
  exact .put hm hb hlookup hmem hc (fun he => hx (he ▸ hy)) _

theorem spares_swap {left right : Expr} (hm : m.Ordered) (hb : m.frame.lookup? x = some b)
    (hl : left.refName? ≠ some x) (hr : right.refName? ≠ some x)
    (h : swap lib left right m = .ok () m') : m.Spares x b m' := by
  obtain ⟨s, r₁, t, r₂, a, c, hs, ht, hst, -, ha, hc, hrange, -, rfl⟩ := swap_eq_ok.mp h
  obtain ⟨y, _, hy, hys, hsy⟩ := Scope.name_of_locate hs
  obtain ⟨z, _, hz, hzt, htz⟩ := Scope.name_of_locate ht
  have hfirst : m.Spares x b { m with heap := m.heap.put s (some c) } :=
    .put hm hb hys hsy ha (fun he => hl (he ▸ hy)) _
  have hcovers : m.frame.Covers s := ⟨y, _, hys, hsy⟩
  have hordered := (Machine.Safe.put hcovers ha hrange).ordered hm
  have hc' : (m.heap.put s (some c)).cell? t = some c := by
    rw [Heap.cell?_put ha, if_neg hst.symm, hc]
  exact hfirst.trans (.put hordered hb hzt htz hc' (fun he => hr (he ▸ hz)) _)

theorem spares_introduce {name : String} {e : Expr} (hm : m.Ordered)
    (hb : m.frame.lookup? x = some b) (h : introduce lib name e m = .ok () m') :
    m.Spares x b m' := by
  obtain ⟨v, -, hname, -, rfl⟩ := introduce_eq_ok.mp h
  refine ⟨Frame.lookup?_push_of_some hname _ hb, fun u hu => ?_⟩
  exact (Heap.cell?_grow hm.lt_size _ u).trans (if_neg (hm.ne_fresh ⟨x, b, hb, hu⟩))

theorem spares_remove {name : String} {e : Expr} (hm : m.Ordered)
    (hb : m.frame.lookup? x = some b) (hb' : m'.frame.lookup? x = some b)
    (h : remove lib name e m = .ok () m') : m.Spares x b m' := by
  obtain ⟨v, u, -, hu, hv, -, rfl⟩ := remove_eq_ok.mp h
  have hne : name ≠ x := by
    rintro rfl
    have hgone : (m.frame.erase name).lookup? name = none := by
      rw [Frame.lookup?_erase, if_pos rfl]
    exact Option.some_ne_none b (hb'.symm.trans hgone)
  exact ⟨hb', (Machine.Spares.put hm hb hu (List.mem_singleton_self u) hv hne none).cells⟩

theorem names_of_arguments {args : List Expr}
    {p : List (String × Binding) × List (String × List Slot)}
    (h : arguments lib args m = .ok p m') :
    ∀ u ∈ Overlap.slotsOf p.1, ∃ y c, y ∈ args.filterMap Expr.refName? ∧
      m.frame.lookup? y = some c ∧ u ∈ c.slots := by
  induction args generalizing p with
  | nil =>
    obtain ⟨rfl, -⟩ := pure_eq_ok.mp h
    simp [Overlap.slotsOf]
  | cons arg rest ih =>
    obtain ⟨⟨c, reads⟩, _, hc', h₁⟩ := bind_eq_ok.mp h
    obtain ⟨hlocated, rfl⟩ := reading_eq_ok.mp hc'
    obtain ⟨⟨bindings, allReads⟩, _, hothers, h₂⟩ := bind_eq_ok.mp h₁
    obtain ⟨rfl, rfl⟩ := pure_eq_ok.mp h₂
    intro u hu
    rw [Overlap.slotsOf_cons, List.mem_append] at hu
    obtain ⟨y, d, hy, hd, hsub⟩ := Scope.name_of_argument hlocated
    rw [List.filterMap_cons_some hy]
    rcases hu with hu | hu
    · exact ⟨y, d, List.mem_cons_self, hd, hsub hu⟩
    · obtain ⟨z, k, hz, hk, hmem⟩ := ih (p := (bindings, allReads)) hothers u hu
      exact ⟨z, k, List.mem_cons_of_mem y hz, hk, hmem⟩

theorem kept_of_runProcedure {run : Direction → Stmt → Execution Unit}
    (hcareful : ∀ d s m, Careful (run d s) m) {p : Procedure} {args : List Binding} {d : Direction}
    {depth : Int} {mem mem' : Memory}
    (h : runProcedure lib run p args d depth mem = .ok () mem') (id : Nat) :
    Heap.KeptOutside (Binding.Among args) id mem.heap mem'.heap := by
  have hkept : Heap.KeptOutside (Binding.Among args) id mem.heap
      (after (runProcedure lib run p args d depth) mem).heap :=
    kept_runProcedure hcareful p args d depth mem id
  rwa [after_of_ok h] at hkept

theorem spares_call {run : Direction → Stmt → Execution Unit} {d : Direction} {callee : String}
    {args : List Expr} {uncall : Bool} (hcareful : ∀ d s m, Careful (run d s) m) (hm : m.Ordered)
    (hb : m.frame.lookup? x = some b) (hx : x ∉ args.filterMap Expr.refName?)
    (h : call lib run d callee args uncall m = .ok () m') : m.Spares x b m' := by
  obtain ⟨p, bindings, reads, mem', -, hargs, -, -, hrun, rfl⟩ := call_eq_ok.mp h
  refine ⟨hb, fun u hu => ?_⟩
  have hkept := kept_of_runProcedure hcareful hrun (m.frame.locals + 1)
  refine hkept.cells u ?_ fun hamong => ?_
  · have hplaced := hm.placed u ⟨x, b, hb, hu⟩
    omega
  · obtain ⟨y, c, hy, hc, huc⟩ :=
      names_of_arguments hargs u (Binding.among_iff_mem_slotsOf.mp hamong)
    have hne : y ≠ x := fun he => hx (he ▸ hy)
    exact Frame.disjoint_of_lookup? hm.apart hne hc hb huc hu

section Compound

variable {run : Stmt → Execution Unit} {d : Direction}

/-- A block leaves a name alone if its statements do, from the machines in which the name stands for
what it stood for when the block started. It does so all along the block, since whatever else is
bound in between has begun in the block and ends there. -/
theorem spares_block {body : List Stmt} (hbody : Stmt.Balanced [] body)
    (hrun : ∀ s ∈ body, ∀ m m', m.Ordered → run s m = .ok () m' →
      s.Rebinds d m.frame m'.frame ∧ m'.Ordered)
    (hspares : ∀ s ∈ body, ∀ m m', m.Ordered → m.frame.lookup? x = some b →
      m'.frame.lookup? x = some b → run s m = .ok () m' → m.Spares x b m')
    (hm : m.Ordered) (hb : m.frame.lookup? x = some b) (h : block run d body m = .ok () m') :
    m.Spares x b m' := by
  -- `l` has been run from `m` to `n`, and `r` is left
  have hrest : ∀ (r l : List Stmt) (n : Machine), d.order body = l ++ r → n.Ordered →
      Stmt.RebindAll d l m.frame n.frame → n.frame.lookup? x = some b →
      r.forM run n = .ok () m' → n.Spares x b m' := by
    intro r
    induction r with
    | nil =>
      intro l n _ _ _ hbn hnil
      rw [forM_nil_eq_ok.mp hnil]
      exact ⟨hbn, fun _ _ => rfl⟩
    | cons s r ih =>
      intro l n horder hn hl hbn hcons
      obtain ⟨n₁, h₁, h₂⟩ := forM_cons_eq_ok.mp hcons
      have hs : s ∈ body := by
        rw [← Direction.mem_order (d := d), horder]
        simp
      obtain ⟨hrebinds, hn₁⟩ := hrun s hs n n₁ hn h₁
      have horder' : d.order body = (l ++ [s]) ++ r := by simp [horder]
      have hl' : Stmt.RebindAll d (l ++ [s]) m.frame n₁.frame :=
        Stmt.rebindAll_append.mpr ⟨n.frame, hl, n₁.frame, hrebinds, rfl⟩
      obtain ⟨extra, hframe⟩ := hbody.bindings_eq horder' hl' hm.nodup_names
      have hbn₁ : n₁.frame.lookup? x = some b := by
        rw [hframe, Frame.lookup?, Datum.field?_append, ← Frame.lookup?, hb]
        rfl
      exact (hspares s hs n n₁ hn hbn hbn₁ h₁).trans (ih _ n₁ horder' hn₁ hl' hbn₁ h₂)
  exact hrest _ [] m rfl hm rfl hb h

theorem spares_repeatUntil {last : Expr} {body : Nat → Execution Unit}
    (hbody : ∀ i m m', m.Ordered → m.frame.lookup? x = some b → body i m = .ok () m' →
      m.Spares x b m' ∧ m'.Ordered) {fuel i : Nat}
    (hm : m.Ordered) (hb : m.frame.lookup? x = some b)
    (h : repeatUntil (test lib last) body fuel i m = .ok () m') : m.Spares x b m' := by
  induction fuel generalizing i m with
  | zero => cases h
  | succ fuel ih =>
    rcases repeatUntil_succ_eq_ok.mp h with ⟨-, rfl⟩ | ⟨-, m₁, h₁, h₂⟩
    · exact ⟨hb, fun _ _ => rfl⟩
    · obtain ⟨hspares, hordered⟩ := hbody _ m m₁ hm hb h₁
      exact hspares.trans (ih hordered hspares.lookup h₂)

end Compound

/-- **A statement leaves alone what it does not name as modified**, in both directions: a name that
stands for the same slots before and after it. -/
theorem spares_exec (hlib : lib.WellScoped) {fuel : Nat} {d : Direction} {s : Stmt}
    (hs : lib.Holds s) (hmod : x ∉ s.touched) (hm : m.Ordered)
    (hb : m.frame.lookup? x = some b) (hb' : m'.frame.lookup? x = some b)
    (h : exec lib fuel d s m = .ok () m') : m.Spares x b m' := by
  induction fuel generalizing d s m m' with
  | zero => cases h
  | succ fuel ih =>
    rw [exec_succ_eq_ok] at h
    have hordered : (traced s m).Ordered :=
      (Machine.Safe.of_eq (heap_traced s m) (frame_traced s m)).ordered hm
    rw [← frame_traced s m] at hb
    -- the smaller runs of the statement, one block after the other
    have hblock : ∀ body ∈ s.bodies, ∀ n n' : Machine, n.Ordered → n.frame.lookup? x = some b →
        block (exec lib fuel d) d body n = .ok () n' → n.Spares x b n' ∧ n'.Ordered := by
      intro body hbody n n' hn hbn hrun
      have hheld : ∀ u ∈ body, lib.Holds u := fun u hu => hs.of_bodies hbody hu
      refine ⟨spares_block ((hlib.stmt s hs).bodies body hbody) (fun u hu k k' hk hu' => ?_)
        (fun u hu k k' hk hbk hbk' hu' => ?_) hn hbn hrun,
        ((careful_block (careful_exec lib fuel d) d body).ok hrun).ordered hn⟩
      · exact ⟨rebinds_exec hlib (hheld u hu) hk hu',
          ((careful_exec lib fuel d u k).ok hu').ordered hk⟩
      · refine ih (hheld u hu) (fun hxu => hmod ?_) hk hbk hbk' hu'
        exact Stmt.touchedIn_subset hbody (Stmt.touched_subset hu hxu)
    suffices hspares : (traced s m).Spares x b m' by
      exact ⟨hspares.lookup, fun u hu => (hspares.cells u hu).trans (by rw [heap_traced])⟩
    cases s with
    | assign loc target op value =>
      refine spares_assign hordered hb (fun htarget => hmod ?_) h
      simp [Stmt.touched, Stmt.modified, htarget]
    | swap loc left right =>
      refine spares_swap hordered hb (fun hl => hmod ?_) (fun hr => hmod ?_) h
      · simp [Stmt.touched, Stmt.modified, hl]
      · simp [Stmt.touched, Stmt.modified, hr]
    | call loc callee args uncall =>
      exact spares_call (careful_exec lib fuel) hordered hb hmod h
    | declare loc name value =>
      cases d with
      | forward => exact spares_introduce hordered hb h
      | backward => exact spares_remove hordered hb hb' h
    | discard loc name value =>
      cases d with
      | forward => exact spares_remove hordered hb hb' h
      | backward => exact spares_introduce hordered hb h
    | branch loc guard thenBody elseBody assertion =>
      obtain ⟨c, -, hc, -⟩ := branch_eq_ok.mp h
      exact (hblock _ (by cases c <;> simp [Stmt.bodies]) _ _ hordered hb hc).1
    | block loc body => exact (hblock body (by simp [Stmt.bodies]) _ _ hordered hb h).1
    | loop loc entry doBody loopBody exit =>
      have hdo := hblock doBody (by simp [Stmt.bodies])
      have hloop := hblock loopBody (by simp [Stmt.bodies])
      obtain ⟨-, m₁, h₁, h₂⟩ := loop_eq_ok.mp h
      obtain ⟨hspares₁, hordered₁⟩ := hdo _ _ hordered hb h₁
      refine hspares₁.trans (spares_repeatUntil (fun i n n' hn hbn hagain => ?_) hordered₁
        hspares₁.lookup h₂)
      obtain ⟨n₁, hn₁, -, hn'⟩ := again_eq_ok.mp hagain
      obtain ⟨hspares₂, hordered₂⟩ := hloop _ _ hn hbn hn₁
      obtain ⟨hspares₃, hordered₃⟩ := hdo _ _ hordered₂ hspares₂.lookup hn'
      exact ⟨hspares₂.trans hspares₃, hordered₃⟩
    | hole loc => cases h

/-- A balanced block of a library leaves alone the names that it does not modify. -/
theorem spares_of_balanced (hlib : lib.WellScoped) {fuel : Nat} {d : Direction} {body : List Stmt}
    (hbody : Stmt.Balanced [] body) (hheld : ∀ s ∈ body, lib.Holds s)
    (hmod : x ∉ Stmt.touchedIn body) (hm : m.Ordered) (hb : m.frame.lookup? x = some b)
    (h : block (exec lib fuel d) d body m = .ok () m') : m.Spares x b m' := by
  refine spares_block hbody (fun s hs n n' hn hrun => ?_) (fun s hs n n' hn hbn hbn' hrun => ?_)
    hm hb h
  · exact ⟨rebinds_exec hlib (hheld s hs) hn hrun,
      ((careful_exec lib fuel d s n).ok hrun).ordered hn⟩
  · exact spares_exec hlib (hheld s hs) (fun hx => hmod (Stmt.touched_subset hs hx)) hn hbn hbn'
      hrun

end Execution

end Retrace
