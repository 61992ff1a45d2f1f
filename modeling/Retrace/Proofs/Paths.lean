import Retrace.Proofs.Following
import Retrace.Proofs.Growth
import Retrace.Proofs.Termination

/-!
# Paths leave out no run

An analysis that follows a block follows every run of the block (`follows_runs`). Where a
conditional splits the path, the run takes one branch only, and the other one uses up unknowns that
the run has no use for. At the join the formula that says which branch was taken holds or fails as
the guard did in the run, so every name denotes what it denotes at the end of the branch that was
taken, and the constraints of this branch hold.

The induction is on the fuel of the run. A body is followed with the names that are bound around it:
these are known at the end of a branch if they were known at its beginning.
-/

namespace Retrace

open Actions

namespace Frame

variable {f : Frame} {h : Heap} {x : String}

theorem mem_names_of_lookup? {b : Binding} (hb : f.lookup? x = some b) : x ∈ f.names :=
  has_iff_mem_names.mp (by rw [has_eq, hb]; rfl)

theorem mem_names_of_view {c : Content} (hc : f.view h x = some c) : x ∈ f.names := by
  obtain ⟨b, hb, -⟩ := Option.map_eq_some_iff.mp hc
  exact mem_names_of_lookup? hb

end Frame

/-! ## Joins -/

/-- Two symbolic values of one sort that denote the same. -/
inductive SymValue.Agrees (M : Model) : SymValue → SymValue → Prop
  | int {s t : IntTerm} : s.value M = t.value M → Agrees M (.int s) (.int t)
  | array {s t : ArrayTerm} : s.value M = t.value M → Agrees M (.array s) (.array t)

namespace SymValue.Agrees

variable {type : IntType} {M : Model} {u v : SymValue}

theorem mirrors (h : u.Agrees M v) {c : Content} (hv : v.Mirrors M c) : u.Mirrors M c := by
  cases h with
  | int h =>
    cases c with
    | one n => exact h.trans hv
    | many f => nofun
  | array h =>
    cases c with
    | one n => exact h.trans hv
    | many f =>
      rintro _ ⟨⟩
      exact h.trans (hv _ rfl)

theorem bounded (h : u.Agrees M v) (hv : v.Bounded type M) : u.Bounded type M := by
  cases h with
  | int h => exact bounded_int _
  | array h =>
    rintro _ ⟨⟩ i
    rw [h]
    exact hv _ rfl i

end SymValue.Agrees

theorem Model.Pictures.of_samePath {type : IntType} {M : Model} {a a' : Analysis} {V : View}
    (h : M.Pictures type a V) (hpath : a.SamePath a') : M.Pictures type a' V := by
  refine ⟨?_, ?_, ?_⟩
  · rw [hpath.constraints]
    exact h.constraints
  · rw [hpath.vars]
    exact h.bounded
  · rw [hpath.vars]
    exact h.mirrors

namespace Analyzing

variable {type : IntType} {M : Model} {guard : BoolTerm} {b : Bool}

/-- What is chosen denotes what the value for the branch that is taken denotes. -/
theorem agrees_of_choose {v w u : SymValue} {a a' : Analysis} (h : choose guard v w a = .ok u a')
    (hguard : guard.Holds M ↔ b = true) : u.Agrees M (if b then v else w) := by
  obtain ⟨-, ⟨l, r, rfl, rfl, rfl⟩ | ⟨l, r, rfl, rfl, rfl⟩⟩ := choose_eq_ok h
  · cases b with
    | true => exact .array (ArrayTerm.value_ite_pos (hguard.mpr rfl) l r)
    | false => exact .array (ArrayTerm.value_ite_neg (by simp [hguard]) l r)
  · cases b with
    | true => exact .int (IntTerm.value_ite_pos (hguard.mpr rfl) l r)
    | false => exact .int (IntTerm.value_ite_neg (by simp [hguard]) l r)

/-- The join pictures what the end of the branch that was taken pictures. -/
theorem pictures_join {start thenEnd elseEnd a a' : Analysis} {V V' : View}
    (hok : join start thenEnd elseEnd guard a = .ok () a') (hguard : guard.Holds M ↔ b = true)
    (hstart : M.Pictures type start V)
    (hend : M.Pictures type (if b then thenEnd else elseEnd) V')
    (hknown : ∀ x c, V' x = some c → start.Knows x → (if b then thenEnd else elseEnd).Knows x) :
    M.Pictures type a' V' := by
  obtain ⟨vars, hvars, rfl⟩ := join_eq_ok hok
  have hjoined : ∀ x u, Datum.field? x vars = some u →
      ∃ v, Datum.field? x (if b then thenEnd else elseEnd).vars = some v ∧ u.Agrees M v := by
    intro x u hu
    rcases (joinVars_eq_ok hvars).2 x with ⟨v, w, u', hv, hw, hchoose, hu'⟩ | ⟨-, hnone⟩
    · obtain rfl := Option.some.inj (hu'.symm.trans hu)
      refine ⟨if b then v else w, ?_, agrees_of_choose hchoose hguard⟩
      cases b with
      | true => exact hv
      | false => exact hw
    · rw [hnone] at hu
      cases hu
  -- a name of the join has one of its two values, or only the beginning knows it
  have hcases : ∀ x u, Datum.field? x ((start.vars.filter fun entry =>
      !(Datum.field? entry.1 thenEnd.vars).isSome &&
        !(Datum.field? entry.1 elseEnd.vars).isSome) ++ vars) = some u →
      (∃ v, Datum.field? x (if b then thenEnd else elseEnd).vars = some v ∧ u.Agrees M v) ∨
        (Datum.field? x start.vars = some u ∧ ¬(if b then thenEnd else elseEnd).Knows x) := by
    intro x u hu
    rw [Datum.field?_append, Datum.field?_filter fun name =>
      !(Datum.field? name thenEnd.vars).isSome && !(Datum.field? name elseEnd.vars).isSome] at hu
    split at hu
    · rename_i hneither
      cases hx : Datum.field? x start.vars with
      | none =>
        rw [hx, Option.none_or] at hu
        exact Or.inl (hjoined x u hu)
      | some v =>
        rw [hx, Option.some_or] at hu
        refine Or.inr ⟨hu, ?_⟩
        cases b <;> simp_all [Analysis.Knows]
    · rw [Option.none_or] at hu
      exact Or.inl (hjoined x u hu)
  refine ⟨fun c hc => ?_, fun x u hu => ?_, fun x u hu c hc => ?_⟩
  · rcases List.mem_append.mp hc with hc | hc
    · exact hstart.constraints c hc
    · rw [List.mem_singleton.mp hc, BoolTerm.holds_any]
      refine ⟨.all ((if b then thenEnd else elseEnd).constraints.drop start.constraints.length),
        by cases b <;> simp, BoolTerm.holds_all.mpr fun d hd => ?_⟩
      exact hend.constraints d (List.mem_of_mem_drop hd)
  · rcases hcases x u hu with ⟨v, hv, hagrees⟩ | ⟨hu, -⟩
    · exact hagrees.bounded (hend.bounded x v hv)
    · exact hstart.bounded x u hu
  · rcases hcases x u hu with ⟨v, hv, hagrees⟩ | ⟨hu, hunknown⟩
    · exact hagrees.mirrors (hend.mirrors x v hv c hc)
    · exact absurd (hknown x c hc (Option.isSome_iff_exists.mpr ⟨u, hu⟩)) hunknown

/-! ## Branches -/

section Branches

variable {s : Subject} {P : Model → Prop} {lib : Library} {m m' : Machine}

theorem holds_taken {chosen : BoolTerm} (h : chosen.Holds M ↔ b = true) :
    (if b then chosen else .not chosen).Holds M := by
  cases b with
  | true => exact h.mpr rfl
  | false => simp [BoolTerm.Holds, h]

/-- The branch that the run takes is followed up to the assertion, which confirms it. -/
theorem follows_side {V : View} {chosen : BoolTerm} {body : List Stmt} {assertion : Expr}
    (hchosen : ∀ M, P M → (chosen.Holds M ↔ b = true))
    (hbody : ∀ P, Follows s.intType P (followAll s body) V m'.view fun _ _ => True)
    (hsuits' : (m'.scope lib).Suits s) (hguarded : assertion.isGuarded = true)
    (htest : (m'.scope lib).test assertion = .ok b) :
    Follows s.intType P (side s chosen b body assertion) V m'.view fun c M => c.Holds M := by
  refine (follows_assume fun M hM => holds_taken (hchosen M hM)).bind fun _ => ?_
  refine (hbody _).bind fun _ => (follows_tested hsuits' hguarded htest).bind fun c => ?_
  exact .pure fun M hM => holds_taken hM.2

theorem follows_branch {loc : Option Location} {guard assertion : Expr}
    {thenBody elseBody : List Stmt} {bound : List String} (hsuits : (m.scope lib).Suits s)
    (hsuits' : (m'.scope lib).Suits s) (hguard : guard.isGuarded = true)
    (hassertion : assertion.isGuarded = true) (htest : (m.scope lib).test guard = .ok b)
    (htest' : (m'.scope lib).test assertion = .ok b)
    (hbody : ∀ P, Follows s.intType P (followAll s (if b then thenBody else elseBody)) m.view
      m'.view fun _ _ => True)
    (hthen : Growing bound (followAll s thenBody)) (helse : Growing bound (followAll s elseBody))
    (hbound : m'.frame.names ⊆ bound) :
    Follows s.intType P (follow s (.branch loc guard thenBody elseBody assertion)) m.view m'.view
      fun _ _ => True := by
  intro σ a hσ _ a' hok
  rw [follow_branch] at hok
  obtain ⟨chosen, start, hchosen, hok⟩ := bind_eq_ok.mp hok
  obtain ⟨_, _, hget, hok⟩ := bind_eq_ok.mp hok
  obtain ⟨rfl, rfl⟩ := EStateM.Result.ok.inj hget
  obtain ⟨c₁, a₂, h₂, hok⟩ := bind_eq_ok.mp hok
  obtain ⟨_, thenEnd, h₃, hok⟩ := bind_eq_ok.mp hok
  obtain ⟨_, _, hget, hok⟩ := bind_eq_ok.mp hok
  obtain ⟨rfl, rfl⟩ := EStateM.Result.ok.inj hget
  obtain ⟨_, a₄, h₄, hok⟩ := bind_eq_ok.mp hok
  obtain rfl := (EStateM.Result.ok.inj h₄).2
  obtain ⟨c₂, a₅, h₅, hok⟩ := bind_eq_ok.mp hok
  obtain ⟨_, elseEnd, h₆, hok⟩ := bind_eq_ok.mp hok
  obtain ⟨_, _, hget, hok⟩ := bind_eq_ok.mp hok
  obtain ⟨rfl, rfl⟩ := EStateM.Result.ok.inj hget
  obtain ⟨τ, hτ⟩ := follows_tested hsuits hguard htest σ a hσ chosen start hchosen
  have hgrow₁ := (growing_side hthen chosen true assertion start).ok h₂
  have hpath₁ := (samePath_examine s _ assertion .thenBranch c₁ a₂).ok h₃
  have hgrow₂ := (growing_side helse chosen false assertion _).ok h₅
  have hpath₂ := (samePath_examine s _ assertion .elseBranch c₂ a₅).ok h₆
  have hfresh : a'.fresh = elseEnd.fresh := by
    obtain ⟨vars, -, rfl⟩ := join_eq_ok hok
    rfl
  have hle₁ : start.fresh ≤ thenEnd.fresh := hpath₁.fresh ▸ hgrow₁.fresh
  have hle₂ : thenEnd.fresh ≤ a₅.fresh := hgrow₂.fresh
  have hle₃ : elseEnd.fresh = a₅.fresh := hpath₂.fresh
  cases b with
  | true =>
    obtain ⟨ρ, hρ⟩ := follows_side (fun _ h => h) hbody hsuits' hassertion htest' τ start
      (fun M hM => ⟨(hτ M hM).2.2, (hτ M hM).2.1⟩) c₁ a₂ h₂
    refine ⟨ρ, fun M hM => ?_⟩
    have hle : a₂.fresh ≤ a'.fresh := by
      have hsame := hpath₁.fresh
      omega
    obtain ⟨hstart, hend, -⟩ := hρ M (Model.before_subset hle hM)
    obtain ⟨ha, hbegin, hholds⟩ := hτ M hstart
    refine ⟨ha, pictures_join hok hholds hbegin (hend.of_samePath hpath₁) ?_, trivial⟩
    exact fun x c hc => (hgrow₁.trans hpath₁.grows).known x (hbound (Frame.mem_names_of_view hc))
  | false =>
    -- the unknowns of the first branch have no part in the run
    obtain ⟨ρ, hρ⟩ := follows_side (fun _ h => h) hbody hsuits' hassertion htest' τ _
      (fun M hM => by
        have hbegin := hτ M (Model.before_subset hle₁ hM)
        exact ⟨hbegin.2.2, hbegin.2.1.constraints, hbegin.2.1.bounded, hbegin.2.1.mirrors⟩)
      c₂ a₅ h₅
    refine ⟨ρ, fun M hM => ?_⟩
    have hle : a₅.fresh ≤ a'.fresh := by omega
    obtain ⟨hstart, hend, -⟩ := hρ M (Model.before_subset hle hM)
    obtain ⟨ha, hbegin, hholds⟩ := hτ M (Model.before_subset hle₁ hstart)
    refine ⟨ha, pictures_join hok hholds hbegin (hend.of_samePath hpath₂) ?_, trivial⟩
    exact fun x c hc => (hgrow₂.trans hpath₂.grows).known x (hbound (Frame.mem_names_of_view hc))

end Branches

end Analyzing

/-! ## Blocks that can be followed -/

namespace Stmt

/-- The expressions that a statement evaluates by itself. -/
def expressions : Stmt → List Expr
  | .assign _ target _ value => [target, value]
  | .branch _ guard _ _ assertion => [guard, assertion]
  | .call _ _ args _ => args
  | .declare _ _ value => [value]
  | .discard _ _ value => [value]
  | .loop _ entry _ _ exit => [entry, exit]
  | .swap _ left right => [left, right]
  | .block .. => []
  | .hole _ => []

/-- No right operand of `&&` or `||` has a division or a shift in it, at any depth. -/
def Guarded (s : Stmt) : Prop := ∀ u ∈ s.nested, ∀ e ∈ u.expressions, e.isGuarded = true

theorem Guarded.own {s : Stmt} (hs : s.Guarded) : ∀ e ∈ s.expressions, e.isGuarded = true :=
  hs s s.mem_nested_self

theorem Guarded.bodies {s : Stmt} (hs : s.Guarded) {body : List Stmt} (hbody : body ∈ s.bodies) :
    ∀ u ∈ body, u.Guarded := fun _ hu v hv =>
  hs v (mem_nested.mpr (Or.inr ⟨body, hbody, mem_nestedAll.mpr ⟨_, hu, hv⟩⟩))

/-- The rest of a block of the library that an analysis can follow. -/
structure Followable (lib : Library) (bound pending : List String) (body : List Stmt) : Prop where
  scopes : ScopedBlock bound pending body
  held : ∀ u ∈ body, lib.Holds u
  guarded : ∀ u ∈ body, u.Guarded

namespace Followable

variable {lib : Library} {bound pending : List String} {u : Stmt} {rest : List Stmt}

theorem bodies (h : Followable lib bound pending (u :: rest)) {body : List Stmt}
    (hbody : body ∈ u.bodies) : Followable lib (bound ++ pending) [] body := by
  refine ⟨?_, fun v hv => (h.held u List.mem_cons_self).of_bodies hbody hv,
    (h.guarded u List.mem_cons_self).bodies hbody⟩
  have hscoped := h.scopes
  cases u with
  | declare | discard => simp [Stmt.bodies] at hbody
  | _ =>
    simp only [ScopedBlock] at hscoped
    exact hscoped.1.bodies hbody

/-- What is left after the first statement, and which names may be bound there. -/
theorem tail (h : Followable lib bound pending (u :: rest)) :
    ∃ pending', Followable lib bound pending' rest ∧ ∀ f f' : Frame, u.Rebinds .forward f f' →
      f.names ⊆ bound ++ pending → f'.names ⊆ bound ++ pending' := by
  have hheld := fun v hv => h.held v (List.mem_cons_of_mem u hv)
  have hguarded := fun v hv => h.guarded v (List.mem_cons_of_mem u hv)
  have hscoped := h.scopes
  cases u with
  | declare loc name value =>
    rw [ScopedBlock] at hscoped
    refine ⟨pending ++ [name], ⟨hscoped.2.2, hheld, hguarded⟩, ?_⟩
    rintro f _ ⟨-, b, rfl⟩ hf x hx
    simp only [Frame.names, Frame.push, List.map_append, List.mem_append] at hx
    rw [← List.append_assoc, List.mem_append]
    exact hx.imp (fun hx => hf hx) fun hx => by simpa using hx
  | discard loc name value =>
    rw [ScopedBlock] at hscoped
    refine ⟨pending.erase name, ⟨hscoped.2, hheld, hguarded⟩, ?_⟩
    rintro f _ rfl hf x hx
    obtain ⟨entry, hentry, rfl⟩ := List.mem_map.mp hx
    obtain ⟨hmem, hne⟩ := List.mem_filter.mp hentry
    have hx' : entry.1 ∈ bound ++ pending := hf (List.mem_map_of_mem hmem)
    rw [List.mem_append] at hx' ⊢
    exact hx'.imp_right fun hx' => (List.mem_erase_of_ne (by simpa using hne)).mpr hx'
  | _ =>
    simp only [ScopedBlock] at hscoped
    refine ⟨pending, ⟨hscoped.2, hheld, hguarded⟩, ?_⟩
    rintro f _ rfl hf
    exact hf

theorem growing {body : List Stmt} (h : Followable lib bound [] body) {s : Subject} :
    Analyzing.Growing bound (Analyzing.followAll s body) :=
  Analyzing.growing_followAll (inside_of_scopedBlock h.scopes (.nil bound))

end Followable

end Stmt

/-! ## Runs -/

namespace Execution

variable {lib : Library} {m m' : Machine}

theorem test_of_repeatUntil {last : Expr} {body : Nat → Execution Unit} {fuel i : Nat}
    (h : repeatUntil (test lib last) body fuel i m = .ok () m') :
    (m'.scope lib).test last = .ok true := by
  induction fuel generalizing i m with
  | zero => cases h
  | succ fuel ih =>
    rcases repeatUntil_succ_eq_ok.mp h with ⟨htest, rfl⟩ | ⟨-, m₁, -, hrest⟩
    · exact htest
    · exact ih hrest

theorem test_of_exec_loop {fuel : Nat} {loc : Option Location} {entry exit : Expr}
    {doBody loopBody : List Stmt}
    (h : exec lib (fuel + 1) .forward (.loop loc entry doBody loopBody exit) m = .ok () m') :
    (m'.scope lib).test exit = .ok true := by
  rw [exec_succ_eq_ok, step] at h
  obtain ⟨-, m₁, -, hrest⟩ := loop_eq_ok.mp h
  exact test_of_repeatUntil hrest

theorem exec_branch_eq_ok {fuel : Nat} {loc : Option Location} {guard assertion : Expr}
    {thenBody elseBody : List Stmt} :
    exec lib (fuel + 1) .forward (.branch loc guard thenBody elseBody assertion) m = .ok () m' ↔
      ∃ b, ((traced (.branch loc guard thenBody elseBody assertion) m).scope lib).test guard =
          .ok b ∧
        block (exec lib fuel .forward) .forward (if b then thenBody else elseBody)
          (traced (.branch loc guard thenBody elseBody assertion) m) = .ok () m' ∧
        (m'.scope lib).test assertion = .ok b := by
  rw [exec_succ_eq_ok, step, branch_eq_ok]
  simp only [Library.Checks, true_or, forall_const, Direction.pick]

theorem uniform_exec (hlib : lib.WellScoped) {type : IntType} {fuel : Nat} {u : Stmt}
    (hu : lib.Holds u) (hm : m.Uniform type) (h : exec lib fuel .forward u m = .ok () m') :
    m'.Uniform type := by
  have hrebinds := rebinds_exec hlib hu hm.sound.ordered h
  have hsafe := (careful_exec lib fuel .forward u m).ok h
  cases fuel with
  | zero => cases h
  | succ fuel =>
    cases u with
    | declare loc name value => exact (hm.traced _).introduce (exec_succ_eq_ok.mp h)
    | discard loc name value => exact (hm.traced _).remove (exec_succ_eq_ok.mp h)
    | _ => exact hm.of_frame_eq hsafe hrebinds

end Execution

theorem Library.Runs.uniform {lib : Library} (hlib : lib.WellScoped) {type : IntType}
    {body : List Stmt} (hheld : ∀ u ∈ body, lib.Holds u) {m m' : Machine}
    (h : lib.Runs .forward body m m') (hm : m.Uniform type) : m'.Uniform type := by
  obtain ⟨fuel, h⟩ := h
  induction body generalizing m with
  | nil =>
    rw [Execution.forM_nil_eq_ok.mp h]
    exact hm
  | cons u rest ih =>
    obtain ⟨m₁, h₁, h₂⟩ := Execution.forM_cons_eq_ok.mp h
    refine ih (fun v hv => hheld v (List.mem_cons_of_mem u hv)) ?_ h₂
    exact Execution.uniform_exec hlib (hheld u List.mem_cons_self) hm h₁

namespace Analyzing

open Execution

variable {s : Subject} {lib : Library} {m m' : Machine} {P : Model → Prop}

/-- The run of a block is followed if the runs of its statements are. -/
theorem follows_block_of_exec (hlib : lib.WellScoped) {fuel : Nat}
    (hexec : ∀ {u : Stmt} {bound : List String} {m m' : Machine} {P : Model → Prop},
      lib.Holds u → u.Guarded → (∀ body ∈ u.bodies, Stmt.Followable lib bound [] body) →
      m.frame.names ⊆ bound → m.Uniform s.intType → exec lib fuel .forward u m = .ok () m' →
      Follows s.intType P (follow s u) m.view m'.view fun _ _ => True)
    {bound pending : List String} {body : List Stmt}
    (hbody : Stmt.Followable lib bound pending body) (hnames : m.frame.names ⊆ bound ++ pending)
    (hm : m.Uniform s.intType) (h : body.forM (exec lib fuel .forward) m = .ok () m') :
    Follows s.intType P (followAll s body) m.view m'.view fun _ _ => True := by
  induction body generalizing m pending P with
  | nil =>
    rw [forM_nil_eq_ok.mp h, followAll]
    exact .pure fun _ _ => trivial
  | cons u rest ih =>
    obtain ⟨m₁, h₁, h₂⟩ := forM_cons_eq_ok.mp h
    have hu := hbody.held u List.mem_cons_self
    obtain ⟨pending', hrest, hrebinds⟩ := hbody.tail
    have hnames' := hrebinds _ _ (rebinds_exec hlib hu hm.sound.ordered h₁) hnames
    rw [followAll]
    refine (hexec hu (hbody.guarded u List.mem_cons_self) (fun _ hinner => hbody.bodies hinner)
      hnames hm h₁).bind fun _ => ?_
    exact ih hrest hnames' (uniform_exec hlib hu hm h₁) h₂

/-- An analysis that follows a statement follows every run of it that completes. -/
theorem follows_exec (hlib : lib.WellScoped) (hk : KeepsBuiltins lib.functions) {fuel : Nat}
    {u : Stmt} {bound : List String} (hu : lib.Holds u) (hguarded : u.Guarded)
    (hbodies : ∀ body ∈ u.bodies, Stmt.Followable lib bound [] body)
    (hnames : m.frame.names ⊆ bound) (hm : m.Uniform s.intType)
    (h : exec lib fuel .forward u m = .ok () m') :
    Follows s.intType P (follow s u) m.view m'.view fun _ _ => True := by
  induction fuel generalizing u bound m m' P with
  | zero => cases h
  | succ fuel ih =>
    have hm' := uniform_exec hlib hu hm h
    have hframe := rebinds_exec hlib hu hm.sound.ordered h
    have hown := hguarded.own
    have htraced := hm.traced u
    rw [← Machine.view_traced u m]
    cases u with
    | assign loc target op value =>
      rw [exec_succ_eq_ok] at h
      exact follows_assign htraced hk (hown target (by simp [Stmt.expressions]))
        (hown value (by simp [Stmt.expressions])) h
    | swap loc left right =>
      rw [exec_succ_eq_ok] at h
      exact follows_swap htraced hk (hown left (by simp [Stmt.expressions]))
        (hown right (by simp [Stmt.expressions])) h
    | call loc callee args uncall =>
      rw [exec_succ_eq_ok] at h
      exact follows_call htraced hk (careful_exec lib fuel) hown h
    | declare loc name value =>
      rw [exec_succ_eq_ok] at h
      exact follows_declare htraced hk (hown value (by simp [Stmt.expressions])) h
    | discard loc name value =>
      rw [exec_succ_eq_ok] at h
      exact follows_discard htraced hk (hown value (by simp [Stmt.expressions])) h
    | branch loc guard thenBody elseBody assertion =>
      obtain ⟨b, htest, hrun, hconfirm⟩ := exec_branch_eq_ok.mp h
      have hbody : Stmt.Followable lib bound [] (if b then thenBody else elseBody) :=
        hbodies _ (by cases b <;> simp [Stmt.bodies])
      have hgrowing : ∀ body ∈ [thenBody, elseBody], Growing bound (followAll s body) :=
        fun body hmem => (hbodies body hmem).growing
      refine follows_branch (htraced.suits hk) (hm'.suits hk)
        (hown guard (by simp [Stmt.expressions])) (hown assertion (by simp [Stmt.expressions]))
        htest hconfirm (fun P => ?_) (hgrowing thenBody (by simp))
        (hgrowing elseBody (by simp)) ?_
      · refine follows_block_of_exec hlib ih hbody ?_ htraced hrun
        rwa [frame_traced, List.append_nil]
      · rwa [show m'.frame = m.frame from hframe]
    | block loc body =>
      rw [exec_succ_eq_ok] at h
      rw [follow]
      refine follows_block_of_exec hlib ih (hbodies body (by simp [Stmt.bodies])) ?_ htraced h
      rwa [frame_traced, List.append_nil]
    | loop loc entry doBody loopBody exit =>
      refine follows_loop hm' hk (hown exit (by simp [Stmt.expressions])) (fun x hx => ?_) ?_
      · rw [Machine.view_traced, Machine.view, Machine.view, show m'.frame = m.frame from hframe]
        refine Frame.view_congr fun b hb w hw => Heap.held_congr ?_
        have hb' : m'.frame.lookup? x = some b := by rwa [show m'.frame = m.frame from hframe]
        exact (spares_exec hlib hu hx hm.sound.ordered hb hb' h).cells w hw
      · exact test_of_exec_loop h
    | hole loc =>
      rw [exec_succ_eq_ok] at h
      cases h

/-- **Following a block.** An analysis that follows a block follows every run of it that completes:
whatever the run does, there are values for the unknowns such that the constraints hold and the
names denote what they stand for at the end of the run. -/
theorem follows_runs (hlib : lib.WellScoped) (hk : KeepsBuiltins lib.functions)
    {bound pending : List String} {body : List Stmt}
    (hbody : Stmt.Followable lib bound pending body) (hnames : m.frame.names ⊆ bound ++ pending)
    (hm : m.Uniform s.intType) (h : lib.Runs .forward body m m') :
    Follows s.intType P (followAll s body) m.view m'.view fun _ _ => True := by
  obtain ⟨fuel, h⟩ := h
  exact follows_block_of_exec hlib (follows_exec hlib hk) hbody hnames hm h

end Analyzing

end Retrace
