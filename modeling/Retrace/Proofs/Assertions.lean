import Retrace.Proofs.Paths

/-!
# Assertions that a run confirms

The analysis of a procedure asks the solver at the end of each branch whether the assertion of the
conditional can confirm the branch. This module says that a branch which some run confirms is never
reported.

A `Site` is a place of a conditional in a block, outside of loops. Two recursions over a site say
what happens there: `Site.Confirmed` that a run from a machine takes a branch of the conditional and
completes it with an assertion that confirms it, and `Site.reach` how the analysis gets to the
question about this branch. If a run confirms a branch, the constraints of the question are
satisfiable (`follows_reach`): the analysis follows the run up to there. If the analysis reports a
branch, it did so at a site whose question the solver answered with no (`reports_followAll`).
-/

namespace Retrace

open Actions

/-! ## Sites -/

/-- A conditional in a block, outside of loops. -/
inductive Site : List Stmt → Type
  | here (loc : Option Location) (guard : Expr) (thenBody elseBody : List Stmt) (assertion : Expr)
      (rest : List Stmt) : Site (.branch loc guard thenBody elseBody assertion :: rest)
  | inBranch (loc : Option Location) (guard : Expr) (thenBody elseBody : List Stmt)
      (assertion : Expr) (rest : List Stmt) (side : Bool) :
      Site (if side then thenBody else elseBody) →
        Site (.branch loc guard thenBody elseBody assertion :: rest)
  | inBlock (loc : Option Location) (body rest : List Stmt) :
      Site body → Site (.block loc body :: rest)
  | later (s : Stmt) (rest : List Stmt) : Site rest → Site (s :: rest)

namespace Site

/-- A forward run from the machine takes the branch `b` of the conditional, and the assertion
confirms the branch at its end. -/
def Confirmed (lib : Library) (b : Bool) : {body : List Stmt} → Site body → Machine → Prop
  | _, .here loc guard thenBody elseBody assertion _, m =>
    let n := Execution.traced (.branch loc guard thenBody elseBody assertion) m
    (n.scope lib).test guard = .ok b ∧
      ∃ m', lib.Runs .forward (if b then thenBody else elseBody) n m' ∧
        (m'.scope lib).test assertion = .ok b
  | _, .inBranch loc guard thenBody elseBody assertion _ side site, m =>
    let n := Execution.traced (.branch loc guard thenBody elseBody assertion) m
    (n.scope lib).test guard = .ok side ∧ site.Confirmed lib b n
  | _, .inBlock loc body _ site, m => site.Confirmed lib b (Execution.traced (.block loc body) m)
  | _, .later s _ site, m => ∃ m', lib.Runs .forward [s] m m' ∧ site.Confirmed lib b m'

/-- What is reported if the assertion cannot confirm the branch `b` of the conditional. -/
def finding (b : Bool) : {body : List Stmt} → Site body → Finding
  | _, .here loc guard thenBody elseBody assertion _ =>
    ⟨.unconfirmable assertion.text (Branch.of b).name,
      some (.branch loc guard thenBody elseBody assertion), assertion.loc.or loc⟩
  | _, .inBranch _ _ _ _ _ _ _ site => site.finding b
  | _, .inBlock _ _ _ site => site.finding b
  | _, .later _ _ site => site.finding b

end Site

namespace Analyzing

/-- Follows a branch of a conditional and asks about its assertion. -/
def examined (s : Subject) (stmt : Stmt) (chosen : BoolTerm) (b : Bool) (body : List Stmt)
    (assertion : Expr) : Analyzing Unit :=
  side s chosen b body assertion >>= examine s stmt assertion (Branch.of b)

/-- Follows something, and goes back to where it began. -/
def aside (x : Analyzing Unit) : Analyzing Unit :=
  get >>= fun start => x >>= fun _ => restore start

/-- Gets to the branch `b` of a conditional: the second one comes after the first. -/
def turn (s : Subject) (stmt : Stmt) (chosen : BoolTerm) (b : Bool) (thenBody : List Stmt)
    (assertion : Expr) : Analyzing Unit :=
  if b then pure () else aside (examined s stmt chosen true thenBody assertion)

/-- The constraints of the path. -/
def path : Analyzing (List BoolTerm) := Analysis.constraints <$> get

end Analyzing

open Analyzing

/-- Follows a block up to the question whether the assertion at the site can confirm the branch `b`.
Gives the constraints of the path, and the formula that says that it does. -/
def Site.reach (s : Subject) (b : Bool) : {body : List Stmt} → Site body →
    Analyzing (List BoolTerm × BoolTerm)
  | _, .here loc guard thenBody elseBody assertion _ => do
    let chosen ← encode s guard >>= condition
    turn s (.branch loc guard thenBody elseBody assertion) chosen b thenBody assertion
    let confirms ← side s chosen b (if b then thenBody else elseBody) assertion
    return (← path, confirms)
  | _, .inBranch loc guard thenBody elseBody assertion _ side site => do
    let chosen ← encode s guard >>= condition
    turn s (.branch loc guard thenBody elseBody assertion) chosen side thenBody assertion
    assume (if side then chosen else .not chosen)
    site.reach s b
  | _, .inBlock _ _ _ site => site.reach s b
  | _, .later stmt _ site => do
    follow s stmt
    site.reach s b

/-! ## Runs that confirm a branch -/

namespace Analyzing

variable {s : Subject} {P : Model → Prop}

/-- What was gone back on has no part in the run. -/
theorem follows_aside {type : IntType} {V : View} {bound : List String} {x : Analyzing Unit}
    (hx : Growing bound x) :
    Follows type P (aside x) V V fun _ _ => True := by
  intro σ a hσ _ a' hok
  obtain ⟨start, _, hget, hok⟩ := bind_eq_ok.mp hok
  obtain ⟨rfl, rfl⟩ := EStateM.Result.ok.inj hget
  obtain ⟨_, a₁, h₁, hok⟩ := bind_eq_ok.mp hok
  obtain rfl := (EStateM.Result.ok.inj hok).2
  refine ⟨σ, fun M hM => ?_⟩
  have hbefore : M ∈ σ.before a.fresh := Model.before_subset ((hx a).ok h₁).fresh hM
  have hpicture := (hσ M hbefore).2
  exact ⟨hbefore, ⟨hpicture.constraints, hpicture.bounded, hpicture.mirrors⟩, trivial⟩

theorem growing_examined {bound : List String} {body : List Stmt}
    (hbody : Growing bound (followAll s body)) (stmt : Stmt) (chosen : BoolTerm) (b : Bool)
    (assertion : Expr) : Growing bound (examined s stmt chosen b body assertion) :=
  (growing_side hbody chosen b assertion).bind fun c a =>
    (samePath_examine s stmt assertion (Branch.of b) c a).grows

theorem follows_turn {V : View} {bound : List String} {thenBody : List Stmt}
    (hthen : Growing bound (followAll s thenBody)) (stmt : Stmt) (chosen : BoolTerm) (b : Bool)
    (assertion : Expr) :
    Follows s.intType P (turn s stmt chosen b thenBody assertion) V V fun _ _ => True := by
  cases b with
  | true => exact .pure fun _ _ => trivial
  | false => exact follows_aside (growing_examined hthen stmt chosen true assertion)

theorem follows_path {type : IntType} {V : View} :
    Follows type P path V V fun cs M => ∀ c ∈ cs, c.Holds M := by
  intro σ a hσ cs a' hok
  obtain ⟨rfl, rfl⟩ := EStateM.Result.ok.inj hok
  exact ⟨σ, fun M hM => ⟨hM, (hσ M hM).2, (hσ M hM).2.constraints⟩⟩

/-- **Questions about a branch that a run confirms.** The analysis follows the run up to the
question, so there are values for the unknowns that satisfy its constraints. -/
theorem follows_reach {lib : Library} (hlib : lib.WellScoped) (hk : KeepsBuiltins lib.functions)
    {b : Bool} {body : List Stmt} (site : Site body) {bound pending : List String}
    (hbody : Stmt.Followable lib bound pending body) {m : Machine}
    (hnames : m.frame.names ⊆ bound ++ pending) (hm : m.Uniform s.intType)
    (h : site.Confirmed lib b m) :
    ∃ V', ∀ P, Follows s.intType P (site.reach s b) m.view V' fun r M =>
      (∀ c ∈ r.1, c.Holds M) ∧ r.2.Holds M := by
  induction site generalizing bound pending m with
  | here loc guard thenBody elseBody assertion rest =>
    obtain ⟨htest, m', hrun, htest'⟩ := h
    have hown := (hbody.guarded _ List.mem_cons_self).own
    have hthen : Stmt.Followable lib (bound ++ pending) [] thenBody :=
      hbody.bodies (by simp [Stmt.bodies])
    have hinner : Stmt.Followable lib (bound ++ pending) [] (if b then thenBody else elseBody) :=
      hbody.bodies (by cases b <;> simp [Stmt.bodies])
    have hn := hm.traced (.branch loc guard thenBody elseBody assertion)
    have hnames' : (Execution.traced (.branch loc guard thenBody elseBody assertion) m).frame.names ⊆
        (bound ++ pending) ++ [] := by
      rwa [Execution.frame_traced, List.append_nil]
    have hm' := hrun.uniform hlib hinner.held hn
    refine ⟨m'.view, fun P => ?_⟩
    rw [← Machine.view_traced (.branch loc guard thenBody elseBody assertion) m]
    refine (follows_tested (hn.suits hk) (hown guard (by simp [Stmt.expressions])) htest).bind
      fun chosen => (follows_turn hthen.growing _ chosen b assertion).bind fun _ => ?_
    refine (follows_side (fun M hM => hM.1.2) (fun P => follows_runs hlib hk hinner hnames' hn hrun)
      (hm'.suits hk) (hown assertion (by simp [Stmt.expressions])) htest').bind fun confirms => ?_
    exact follows_path.bind fun cs => .pure fun M hM => ⟨hM.2, hM.1.2⟩
  | inBranch loc guard thenBody elseBody assertion rest side site ih =>
    obtain ⟨htest, hsite⟩ := h
    have hown := (hbody.guarded _ List.mem_cons_self).own
    have hthen : Stmt.Followable lib (bound ++ pending) [] thenBody :=
      hbody.bodies (by simp [Stmt.bodies])
    have hinner : Stmt.Followable lib (bound ++ pending) []
        (if side then thenBody else elseBody) :=
      hbody.bodies (by cases side <;> simp [Stmt.bodies])
    have hn := hm.traced (.branch loc guard thenBody elseBody assertion)
    obtain ⟨V', hV'⟩ := ih hinner (by rwa [Execution.frame_traced, List.append_nil]) hn hsite
    refine ⟨V', fun P => ?_⟩
    rw [← Machine.view_traced (.branch loc guard thenBody elseBody assertion) m]
    refine (follows_tested (hn.suits hk) (hown guard (by simp [Stmt.expressions])) htest).bind
      fun chosen => (follows_turn hthen.growing _ chosen side assertion).bind fun _ => ?_
    exact (follows_assume fun M hM => holds_taken hM.1.2).bind fun _ => hV' _
  | inBlock loc body rest site ih =>
    have hinner : Stmt.Followable lib (bound ++ pending) [] body :=
      hbody.bodies (by simp [Stmt.bodies])
    obtain ⟨V', hV'⟩ := ih hinner (by rwa [Execution.frame_traced, List.append_nil])
      (hm.traced (.block loc body)) h
    refine ⟨V', fun P => ?_⟩
    rw [← Machine.view_traced (.block loc body) m]
    exact hV' P
  | later u rest site ih =>
    obtain ⟨m₁, ⟨fuel, hrun⟩, hsite⟩ := h
    obtain ⟨_, hexec, hnil⟩ := Execution.forM_cons_eq_ok.mp hrun
    obtain rfl := Execution.forM_nil_eq_ok.mp hnil
    have hu := hbody.held u List.mem_cons_self
    obtain ⟨pending', hrest, hrebinds⟩ := hbody.tail
    obtain ⟨V', hV'⟩ := ih hrest
      (hrebinds _ _ (Execution.rebinds_exec hlib hu hm.sound.ordered hexec) hnames)
      (Execution.uniform_exec hlib hu hm hexec) hsite
    refine ⟨V', fun P => ?_⟩
    exact (follows_exec hlib hk hu (hbody.guarded u List.mem_cons_self)
      (fun _ hinner => hbody.bodies hinner) hnames hm hexec).bind fun _ => hV' _

end Analyzing

/-! ## Branches that are reported -/

/-- All findings so far have a property. -/
def Analysis.Reports (Q : Finding → Prop) (a : Analysis) : Prop := ∀ f ∈ a.findings, Q f

namespace Analyzing

variable {s : Subject} {Q : Finding → Prop} {a : Analysis}

theorem Extending.reports {α : Type} {x : Analyzing α} (hx : Extending x) (ha : a.Reports Q) :
    Analysis.Reports Q (after x a) := fun f hf => ha f ((hx a).findings ▸ hf)

/-- A finding is added only if the solver said that the assertion cannot confirm the branch. -/
theorem reports_examine {stmt : Stmt} {assertion : Expr} {branch : Branch} {confirms : BoolTerm}
    (ha : a.Reports Q)
    (hnew : ∀ n, s.solver n (a.constraints ++ [confirms]) = .unsat →
      Q ⟨.unconfirmable assertion.text branch.name, some stmt, assertion.loc.or stmt.loc⟩) :
    Analysis.Reports Q (after (examine s stmt assertion branch confirms) a) := by
  refine after_bind ha fun _ _ hget => ?_
  obtain ⟨rfl, rfl⟩ := EStateM.Result.ok.inj hget
  refine after_bind ha fun v a₁ hask => ?_
  obtain ⟨rfl, rfl⟩ := EStateM.Result.ok.inj hask
  split
  · exact ha
  · exact ha
  · refine after_bind ha fun v a₂ hask => ?_
    obtain ⟨rfl, rfl⟩ := EStateM.Result.ok.inj hask
    split
    · rename_i hunsat
      intro f hf
      rcases List.mem_append.mp hf with hf | hf
      · exact ha f hf
      · rw [List.mem_singleton.mp hf]
        exact hnew _ hunsat
    all_goals
      refine after_bind ha fun v a₃ hask => ?_
      obtain ⟨rfl, rfl⟩ := EStateM.Result.ok.inj hask
      split <;> exact ha

/-- The finding is one about a branch of the block, and the solver said no to the question that the
analysis comes to from the state. -/
def Explains (s : Subject) (body : List Stmt) (a : Analysis) (f : Finding) : Prop :=
  ∃ (site : Site body) (b : Bool) (r : List BoolTerm × BoolTerm) (a' : Analysis),
    f = site.finding b ∧ site.reach s b a = .ok r a' ∧ ∃ n, s.solver n (r.1 ++ [r.2]) = .unsat

section Branch

variable {loc : Option Location} {guard assertion : Expr} {thenBody elseBody rest : List Stmt}
  {chosen : BoolTerm} {start a₁ a₂ : Analysis} {b : Bool}

theorem explains_here (hchosen : (encode s guard >>= condition) a = .ok chosen start)
    (hturn : turn s (.branch loc guard thenBody elseBody assertion) chosen b thenBody assertion
      start = .ok () a₁) {confirms : BoolTerm}
    (hside : side s chosen b (if b then thenBody else elseBody) assertion a₁ = .ok confirms a₂)
    {n : Nat} (hunsat : s.solver n (a₂.constraints ++ [confirms]) = .unsat) :
    Explains s (.branch loc guard thenBody elseBody assertion :: rest) a
      ⟨.unconfirmable assertion.text (Branch.of b).name,
        some (.branch loc guard thenBody elseBody assertion), assertion.loc.or loc⟩ := by
  refine ⟨.here loc guard thenBody elseBody assertion rest, b, (a₂.constraints, confirms), a₂, rfl,
    ?_, n, hunsat⟩
  rw [Site.reach]
  exact bind_eq_ok.mpr ⟨chosen, start, hchosen, bind_eq_ok.mpr ⟨(), a₁, hturn,
    bind_eq_ok.mpr ⟨confirms, a₂, hside, rfl⟩⟩⟩

theorem explains_inBranch (hchosen : (encode s guard >>= condition) a = .ok chosen start)
    (hturn : turn s (.branch loc guard thenBody elseBody assertion) chosen b thenBody assertion
      start = .ok () a₁)
    (hassume : assume (if b then chosen else .not chosen) a₁ = .ok () a₂) {f : Finding}
    (hf : Explains s (if b then thenBody else elseBody) a₂ f) :
    Explains s (.branch loc guard thenBody elseBody assertion :: rest) a f := by
  obtain ⟨site, side, r, a', hfinding, hreach, hunsat⟩ := hf
  refine ⟨.inBranch loc guard thenBody elseBody assertion rest b site, side, r, a', hfinding, ?_,
    hunsat⟩
  rw [Site.reach]
  exact bind_eq_ok.mpr ⟨chosen, start, hchosen, bind_eq_ok.mpr ⟨(), a₁, hturn,
    bind_eq_ok.mpr ⟨(), a₂, hassume, hreach⟩⟩⟩

theorem reports_side {body : List Stmt} (ha : a.Reports Q)
    (hbody : ∀ a₀, assume (if b then chosen else .not chosen) a = .ok () a₀ → a₀.Reports Q →
      Analysis.Reports Q (after (followAll s body) a₀)) :
    Analysis.Reports Q (after (side s chosen b body assertion) a) := by
  refine after_bind ((extending.assume _).reports ha) fun _ a₀ h₀ => ?_
  have ha₀ := hbody a₀ h₀ (after_of_ok h₀ ▸ (extending.assume _).reports ha)
  refine after_bind ha₀ fun _ a₁ h₁ => ?_
  exact ((extending_test s assertion).bind fun _ => .pure _).reports (after_of_ok h₁ ▸ ha₀)

theorem reports_branch
    (hthen : ∀ {a : Analysis} {Q : Finding → Prop}, a.Reports Q →
      (∀ f, Explains s thenBody a f → Q f) → Analysis.Reports Q (after (followAll s thenBody) a))
    (helse : ∀ {a : Analysis} {Q : Finding → Prop}, a.Reports Q →
      (∀ f, Explains s elseBody a f → Q f) → Analysis.Reports Q (after (followAll s elseBody) a))
    (ha : a.Reports Q)
    (hnew : ∀ f, Explains s (.branch loc guard thenBody elseBody assertion :: rest) a f → Q f) :
    Analysis.Reports Q
      (after (follow s (.branch loc guard thenBody elseBody assertion)) a) := by
  rw [follow_branch]
  have hguard := (extending_test s guard).reports ha
  refine after_bind hguard fun chosen start hchosen => ?_
  have hstart : start.Reports Q := after_of_ok hchosen ▸ hguard
  refine after_bind hstart fun _ _ hget => ?_
  obtain ⟨rfl, rfl⟩ := EStateM.Result.ok.inj hget
  have hside₁ : Analysis.Reports Q (after (side s chosen true thenBody assertion) start) :=
    reports_side hstart fun a₀ h₀ ha₀ => hthen ha₀ fun f hf =>
      hnew f (explains_inBranch hchosen rfl h₀ hf)
  refine after_bind hside₁ fun c₁ a₂ h₂ => ?_
  have hexamine₁ : Analysis.Reports Q (after (examine s
      (.branch loc guard thenBody elseBody assertion) assertion .thenBranch c₁) a₂) :=
    reports_examine (after_of_ok h₂ ▸ hside₁) fun n hunsat =>
      hnew _ (explains_here (b := true) hchosen rfl h₂ hunsat)
  refine after_bind hexamine₁ fun _ thenEnd h₃ => ?_
  have hthenEnd : thenEnd.Reports Q := after_of_ok h₃ ▸ hexamine₁
  refine after_bind hthenEnd fun _ _ hget => ?_
  obtain ⟨rfl, rfl⟩ := EStateM.Result.ok.inj hget
  refine after_bind hthenEnd fun _ a₄ h₄ => ?_
  -- this is how the analysis gets to the second branch
  have hturn : turn s (.branch loc guard thenBody elseBody assertion) chosen false thenBody
      assertion start = .ok () a₄ :=
    bind_eq_ok.mpr ⟨start, start, rfl, bind_eq_ok.mpr ⟨(), thenEnd,
      bind_eq_ok.mpr ⟨c₁, a₂, h₂, h₃⟩, h₄⟩⟩
  have ha₄ : a₄.Reports Q := (EStateM.Result.ok.inj h₄).2 ▸ hthenEnd
  have hside₂ : Analysis.Reports Q (after (side s chosen false elseBody assertion) a₄) :=
    reports_side ha₄ fun a₀ h₀ ha₀ => helse ha₀ fun f hf =>
      hnew f (explains_inBranch hchosen hturn h₀ hf)
  refine after_bind hside₂ fun c₂ a₅ h₅ => ?_
  have hexamine₂ : Analysis.Reports Q (after (examine s
      (.branch loc guard thenBody elseBody assertion) assertion .elseBranch c₂) a₅) :=
    reports_examine (after_of_ok h₅ ▸ hside₂) fun n hunsat =>
      hnew _ (explains_here (b := false) hchosen hturn h₅ hunsat)
  refine after_bind hexamine₂ fun _ elseEnd h₆ => ?_
  have helseEnd : elseEnd.Reports Q := after_of_ok h₆ ▸ hexamine₂
  refine after_bind helseEnd fun _ _ hget => ?_
  obtain ⟨rfl, rfl⟩ := EStateM.Result.ok.inj hget
  refine after_bind ?_ fun vars a₇ hvars => ?_
  · rw [after_joinVars]
    exact helseEnd
  · obtain ⟨rfl, -⟩ := joinVars_eq_ok hvars
    exact helseEnd

end Branch

mutual

theorem reports_follow : ∀ {u : Stmt} {rest : List Stmt} {a : Analysis} {Q : Finding → Prop},
    a.Reports Q → (∀ f, Explains s (u :: rest) a f → Q f) →
      Analysis.Reports Q (after (follow s u) a)
  | .assign loc target op value, _, _, _, ha, _ =>
    (extending_assign s loc target op value).reports ha
  | .swap loc left right, _, _, _, ha, _ => (extending_swap s loc left right).reports ha
  | .declare loc name value, _, _, _, ha, _ => (extending_declare s loc name value).reports ha
  | .discard loc name value, _, _, _, ha, _ => by
    obtain ⟨x, hx, hfollow⟩ := follow_discard s loc name value
    rw [hfollow]
    refine after_bind (hx.reports ha) fun _ a₁ h₁ => ?_
    exact (after_of_ok h₁ ▸ hx.reports ha : a₁.Reports _)
  | .call loc callee args uncall, _, _, _, ha, _ =>
    (extending_call s loc callee args uncall).reports ha
  | .loop loc entry doBody loopBody exit, _, _, _, ha, _ =>
    (extending_loop s loc entry doBody loopBody exit).reports ha
  | .block loc body, rest, _, _, ha, hnew => by
    rw [follow]
    refine reports_followAll ha fun f hf => hnew f ?_
    obtain ⟨site, b, r, a', hfinding, hreach, hunsat⟩ := hf
    exact ⟨.inBlock loc body rest site, b, r, a', hfinding, hreach, hunsat⟩
  | .branch loc guard thenBody elseBody assertion, _, _, _, ha, hnew =>
    reports_branch reports_followAll reports_followAll ha hnew
  | .hole loc, _, _, _, ha, _ => (extending_hole s loc).reports ha

/-- Every finding about a block is explained by a site of the block. -/
theorem reports_followAll : ∀ {body : List Stmt} {a : Analysis} {Q : Finding → Prop},
    a.Reports Q → (∀ f, Explains s body a f → Q f) → Analysis.Reports Q (after (followAll s body) a)
  | [], _, _, ha, _ => by
    rw [followAll]
    exact ha
  | u :: rest, _, _, ha, hnew => by
    rw [followAll]
    have hfirst := reports_follow ha hnew
    refine after_bind hfirst fun _ a₁ h₁ => ?_
    refine reports_followAll (after_of_ok h₁ ▸ hfirst) fun f hf => hnew f ?_
    obtain ⟨site, b, r, a', hfinding, hreach, hunsat⟩ := hf
    refine ⟨.later u rest site, b, r, a', hfinding, ?_, hunsat⟩
    rw [Site.reach]
    exact bind_eq_ok.mpr ⟨(), a₁, h₁, hreach⟩

end

end Analyzing

end Retrace
