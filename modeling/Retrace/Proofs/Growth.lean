import Retrace.Proofs.Footprint
import Retrace.Proofs.Stepwise
import Retrace.Symbolic.Verify

/-!
# What an analysis keeps

Following a statement uses up numbers for unknowns and never goes back to a smaller one, and a name
that is bound around the statement and that the analysis knows before it is known after it, too.
This holds of every statement, whether a run gets there or not, and also if the analysis is given up
on the way. Encodings leave the findings alone.

The names matter where two branches are joined: a name that neither of their ends knows keeps what
it stood for in the beginning, so it must not be one that a run still uses.
-/

namespace Retrace

open Actions

/-! ## Encodings -/

/-- The analysis knows what the name stands for. -/
def Analysis.Knows (a : Analysis) (x : String) : Prop := (Datum.field? x a.vars).isSome = true

/-- An analysis after some steps without a question. -/
structure Analysis.Extends (a a' : Analysis) : Prop where
  fresh : a.fresh ≤ a'.fresh
  known : ∀ x, a.Knows x → a'.Knows x
  findings : a'.findings = a.findings

theorem Analysis.Extends.refl (a : Analysis) : a.Extends a := ⟨Nat.le_refl _, fun _ h => h, rfl⟩

theorem Analysis.Extends.trans {a b c : Analysis} (h₁ : a.Extends b) (h₂ : b.Extends c) :
    a.Extends c :=
  ⟨Nat.le_trans h₁.fresh h₂.fresh, fun x hx => h₂.known x (h₁.known x hx),
    h₂.findings.trans h₁.findings⟩

theorem Analysis.extends_of_eq {a a' : Analysis} (hfresh : a'.fresh = a.fresh)
    (hvars : a'.vars = a.vars) (hfindings : a'.findings = a.findings) : a.Extends a' := by
  refine ⟨Nat.le_of_eq hfresh.symm, fun x hx => ?_, hfindings⟩
  rwa [Analysis.Knows, hvars]

namespace Analyzing

/-- The steps of an action ask no question and forget no name. -/
def Extending {α : Type} (x : Analyzing α) : Prop := ∀ a, Moves Analysis.Extends x a

namespace Extending

variable {α β : Type} {x : Analyzing α} {f : α → Analyzing β}

theorem pure (v : α) : Extending (pure v) := fun a => .refl a

theorem throw (e : Refusal) : Extending (throw e : Analyzing α) := fun a => .refl a

theorem bind (hx : Extending x) (hf : ∀ v, Extending (f v)) : Extending (x >>= f) := fun a =>
  (hx a).bind (fun h₁ h₂ => h₁.trans h₂) fun v a' _ => hf v a'

theorem forM {l : List α} {g : α → Analyzing Unit} (hg : ∀ v, Extending (g v)) :
    Extending (l.forM g) := by
  induction l with
  | nil => exact pure ()
  | cons v rest ih => exact (hg v).bind fun _ => ih

end Extending

theorem extends_setVar (name : String) (v : SymValue) (a : Analysis) :
    a.Extends { a with vars := Datum.setField name v a.vars } := by
  refine ⟨Nat.le_refl _, fun x hx => ?_, rfl⟩
  by_cases hname : x = name
  · subst hname
    exact Option.isSome_iff_exists.mpr ⟨v, Datum.field?_setField_self ..⟩
  · exact (congrArg Option.isSome (Datum.field?_setField_of_ne hname ..)).trans hx

/-- Encodings ask no question and forget no name. -/
theorem extending : Stepwise Extending where
  pure v := .pure v
  throw e := .throw e
  bind hx hf := hx.bind hf
  var name _ hf := fun a => (Analysis.Extends.refl a).trans (hf (Datum.field? name a.vars) a)
  assume _ := fun _ => Analysis.extends_of_eq rfl rfl rfl
  setVar name v := extends_setVar name v
  freshName _ := fun a => ⟨Nat.le_succ a.fresh, fun _ hx => hx, rfl⟩

theorem extending_write (s : Subject) (ref : Expr) (v : SymValue) : Extending (write s ref v) := by
  refine (extending.assumeInRange s v.asNumber).bind fun _ => ?_
  split
  · refine (extending.lookup s _).bind fun a => (extending.encode s _).bind fun i => ?_
    refine (extending.arrayOf a).bind fun _ => (extending.indexOf _).bind fun _ => ?_
    exact (extending.plain _).bind fun _ => extending.setVar _ _
  · exact extending.setVar _ _
  · exact .pure _

theorem extending_forget (s : Subject) (ref : Expr) : Extending (forget s ref) := by
  unfold forget
  split
  · exact (extending.freshName _).bind fun _ => extending_write _ _ _
  · refine (extending.freshValue s _).bind fun v => (extending.setVar _ v).bind fun _ => ?_
    split
    · exact extending.assumeInRange s v
    · exact .pure _
  · exact .pure _

theorem extending_forgetInLoop (s : Subject) (ref : Expr) : Extending (forgetInLoop s ref) := by
  unfold forgetInLoop
  split
  · exact (extending.freshValue s _).bind fun v => extending.setVar _ v
  · exact extending_forget s ref

theorem extending_updated (s : Subject) (op : String) (current operand : SymValue) :
    Extending (updated s op current operand) := by
  unfold updated
  split
  · exact (extending.pair _ _).bind fun _ => .pure _
  · exact (extending.pair _ _).bind fun _ => .pure _
  · exact extending.bitwise _ _ _ _

end Analyzing

/-! ## Questions -/

/-- An analysis at the same point of a path: only questions and what was found are new. -/
structure Analysis.SamePath (a a' : Analysis) : Prop where
  fresh : a'.fresh = a.fresh
  vars : a'.vars = a.vars
  constraints : a'.constraints = a.constraints

theorem Analysis.SamePath.refl (a : Analysis) : a.SamePath a := ⟨rfl, rfl, rfl⟩

theorem Analysis.SamePath.trans {a b c : Analysis} (h₁ : a.SamePath b) (h₂ : b.SamePath c) :
    a.SamePath c :=
  ⟨h₂.fresh.trans h₁.fresh, h₂.vars.trans h₁.vars, h₂.constraints.trans h₁.constraints⟩

namespace Analyzing

theorem samePath_examine (s : Subject) (stmt : Stmt) (assertion : Expr) (branch : Branch)
    (confirms : BoolTerm) (a : Analysis) :
    Moves Analysis.SamePath (examine s stmt assertion branch confirms) a := by
  have hask : ∀ constraints a, Moves Analysis.SamePath (ask s constraints) a :=
    fun _ _ => ⟨rfl, rfl, rfl⟩
  have hbind : ∀ {constraints : List BoolTerm} {f : Verdict → Analyzing Unit} {a : Analysis},
      (∀ v a, Moves Analysis.SamePath (f v) a) →
        Moves Analysis.SamePath (ask s constraints >>= f) a := fun hf =>
    (hask _ _).bind (fun h₁ h₂ => h₁.trans h₂) fun v a' _ => hf v a'
  refine Moves.bind (fun h₁ h₂ => h₁.trans h₂) (.refl a) fun path a' _ => hbind fun v a => ?_
  split
  · exact .refl _
  · exact .refl _
  · refine hbind fun v a => ?_
    split
    · exact ⟨rfl, rfl, rfl⟩
    all_goals
      refine hbind fun v a => ?_
      split
      · exact .refl _
      · exact .refl _
      · exact ⟨rfl, rfl, rfl⟩

/-! ## Joins -/

variable {guard : BoolTerm} {a a' : Analysis}

theorem choose_eq_ok {v w u : SymValue} (h : choose guard v w a = .ok u a') :
    a' = a ∧ ((∃ l r, v = .array l ∧ w = .array r ∧ u = .array (.ite guard l r)) ∨
      ∃ l r, v = .int l ∧ w = .int r ∧ u = .int (.ite guard l r)) := by
  unfold choose at h
  split at h
  · obtain ⟨rfl, rfl⟩ := pure_eq_ok.mp h
    exact ⟨rfl, Or.inl ⟨_, _, rfl, rfl, rfl⟩⟩
  · obtain ⟨rfl, rfl⟩ := pure_eq_ok.mp h
    exact ⟨rfl, Or.inr ⟨_, _, rfl, rfl, rfl⟩⟩
  · exact absurd h throw_ne_ok

theorem joinVars_cons_some {name : String} {v w : SymValue} {rest E : List (String × SymValue)}
    (hw : Datum.field? name E = some w) :
    joinVars guard ((name, v) :: rest) E =
      choose guard v w >>= fun u => joinVars guard rest E >>= fun us => pure ((name, u) :: us) := by
  unfold joinVars
  rw [List.filterMapM_cons]
  simp only [hw, bind_assoc, pure_bind]

theorem joinVars_cons_none {name : String} {v : SymValue} {rest E : List (String × SymValue)}
    (hw : Datum.field? name E = none) :
    joinVars guard ((name, v) :: rest) E = joinVars guard rest E := by
  unfold joinVars
  rw [List.filterMapM_cons]
  simp only [hw, pure_bind]

/-- A name is known after a join if both ends know it, and then it is one of its two values. -/
theorem joinVars_eq_ok {T E vars : List (String × SymValue)}
    (h : joinVars guard T E a = .ok vars a') :
    a' = a ∧ ∀ x, (∃ v w u, Datum.field? x T = some v ∧ Datum.field? x E = some w ∧
      choose guard v w a = .ok u a ∧ Datum.field? x vars = some u) ∨
      ((Datum.field? x T = none ∨ Datum.field? x E = none) ∧ Datum.field? x vars = none) := by
  induction T generalizing vars a' with
  | nil =>
    obtain ⟨rfl, rfl⟩ := pure_eq_ok.mp (show (pure [] : Analyzing _) a = .ok vars a' from h)
    exact ⟨rfl, fun x => Or.inr ⟨Or.inl rfl, rfl⟩⟩
  | cons entry rest ih =>
    obtain ⟨name, v⟩ := entry
    cases hw : Datum.field? name E with
    | none =>
      rw [joinVars_cons_none hw] at h
      obtain ⟨rfl, hrest⟩ := ih h
      refine ⟨rfl, fun x => ?_⟩
      by_cases hx : name = x
      · subst hx
        refine Or.inr ⟨Or.inr hw, ?_⟩
        rcases hrest name with ⟨_, w, _, -, hw', -, -⟩ | ⟨-, hnone⟩
        · rw [hw] at hw'
          cases hw'
        · exact hnone
      · simpa [Datum.field?, hx] using hrest x
    | some w =>
      rw [joinVars_cons_some hw] at h
      obtain ⟨u, a₁, hu, h₁⟩ := bind_eq_ok.mp h
      obtain ⟨rfl, -⟩ := choose_eq_ok hu
      obtain ⟨us, a₂, hus, h₂⟩ := bind_eq_ok.mp h₁
      obtain ⟨rfl, hrest⟩ := ih hus
      obtain ⟨rfl, rfl⟩ := pure_eq_ok.mp h₂
      refine ⟨rfl, fun x => ?_⟩
      by_cases hx : name = x
      · subst hx
        exact Or.inl ⟨v, w, u, by simp [Datum.field?], hw, hu, by simp [Datum.field?]⟩
      · simpa [Datum.field?, hx] using hrest x

/-- A join that is refused changes nothing. -/
theorem after_joinVars (T E : List (String × SymValue)) : after (joinVars guard T E) a = a := by
  have hchoose : ∀ v w a, Moves (fun a b => b = a) (choose guard v w) a := by
    intro v w a
    unfold choose
    split <;> rfl
  induction T with
  | nil => rfl
  | cons entry rest ih =>
    obtain ⟨name, v⟩ := entry
    cases hw : Datum.field? name E with
    | none => rw [joinVars_cons_none hw, ih]
    | some w =>
      rw [joinVars_cons_some hw]
      refine (hchoose v w a).bind (fun h₁ h₂ => h₂.trans h₁) fun u a₁ hu => ?_
      obtain ⟨rfl, -⟩ := choose_eq_ok hu
      exact Moves.bind (fun h₁ h₂ => h₂.trans h₁) ih fun _ _ _ => rfl

/-- The ends of two branches are joined to a state that knows what both ends know, and what the
beginning knows and neither of them does. -/
theorem join_eq_ok {start thenEnd elseEnd : Analysis}
    (h : join start thenEnd elseEnd guard a = .ok () a') :
    ∃ vars, joinVars guard thenEnd.vars elseEnd.vars a = .ok vars a ∧
      a' = { a with
        vars := (start.vars.filter fun entry => !(Datum.field? entry.1 thenEnd.vars).isSome &&
          !(Datum.field? entry.1 elseEnd.vars).isSome) ++ vars
        constraints := start.constraints ++
          [.any [.all (thenEnd.constraints.drop start.constraints.length),
            .all (elseEnd.constraints.drop start.constraints.length)]] } := by
  obtain ⟨vars, a₁, hvars, h₁⟩ := bind_eq_ok.mp h
  obtain ⟨rfl, -⟩ := joinVars_eq_ok hvars
  exact ⟨vars, hvars, ((EStateM.Result.ok.inj h₁).2).symm⟩

/-! ## Branches -/

/-- Follows one branch of a conditional up to the assertion, and gives the formula that says that
the assertion confirms the branch. -/
def side (s : Subject) (chosen : BoolTerm) (b : Bool) (body : List Stmt) (assertion : Expr) :
    Analyzing BoolTerm := do
  assume (if b then chosen else .not chosen)
  followAll s body
  let c ← encode s assertion >>= condition
  return if b then c else .not c

/-- Goes back to the beginning of a branch. The numbers of unknowns go on. -/
def restore (start : Analysis) : Analyzing Unit :=
  modify fun a => { a with vars := start.vars, constraints := start.constraints }

theorem follow_branch (s : Subject) (loc : Option Location) (guard : Expr)
    (thenBody elseBody : List Stmt) (assertion : Expr) :
    follow s (.branch loc guard thenBody elseBody assertion) = (do
      let chosen ← encode s guard >>= condition
      let start ← get
      let confirms ← side s chosen true thenBody assertion
      examine s (.branch loc guard thenBody elseBody assertion) assertion .thenBranch confirms
      let thenEnd ← get
      restore start
      let confirms ← side s chosen false elseBody assertion
      examine s (.branch loc guard thenBody elseBody assertion) assertion .elseBranch confirms
      let elseEnd ← get
      join start thenEnd elseEnd chosen) := by
  rw [follow]
  simp only [side, restore, bind_assoc, pure_bind, if_true, Bool.false_eq_true, if_false]

end Analyzing

/-! ## Statements -/

/-- An analysis after some statements around which the names of `bound` are bound. -/
structure Analysis.Grows (bound : List String) (a a' : Analysis) : Prop where
  fresh : a.fresh ≤ a'.fresh
  known : ∀ x ∈ bound, a.Knows x → a'.Knows x

namespace Analysis

variable {bound : List String} {a b c : Analysis}

theorem Grows.trans (h₁ : a.Grows bound b) (h₂ : b.Grows bound c) : a.Grows bound c :=
  ⟨Nat.le_trans h₁.fresh h₂.fresh, fun x hx hknown => h₂.known x hx (h₁.known x hx hknown)⟩

theorem Extends.grows (h : a.Extends b) : a.Grows bound b := ⟨h.fresh, fun x _ => h.known x⟩

theorem SamePath.grows (h : a.SamePath b) : a.Grows bound b := by
  refine ⟨Nat.le_of_eq h.fresh.symm, fun x _ hx => ?_⟩
  rwa [Knows, h.vars]

end Analysis

namespace Analyzing

/-- Following an action keeps the names of `bound`. -/
def Growing {α : Type} (bound : List String) (x : Analyzing α) : Prop :=
  ∀ a, Moves (Analysis.Grows bound) x a

variable {s : Subject} {bound : List String}

theorem Extending.growing {α : Type} {x : Analyzing α} (hx : Extending x) : Growing bound x :=
  fun a => Analysis.Extends.grows (hx a)

theorem Growing.bind {α β : Type} {x : Analyzing α} {f : α → Analyzing β} (hx : Growing bound x)
    (hf : ∀ v, Growing bound (f v)) : Growing bound (x >>= f) := fun a =>
  (hx a).bind (fun h₁ h₂ => h₁.trans h₂) fun v a' _ => hf v a'

theorem growing_erase {name : String} (hname : name ∉ bound) :
    Growing bound (modify fun a =>
      { a with vars := a.vars.filter fun entry => entry.1 ≠ name } : Analyzing Unit) := by
  refine fun a => ⟨Nat.le_refl _, fun x hx hknown => ?_⟩
  have hne : x ≠ name := fun he => hname (he ▸ hx)
  exact (congrArg Option.isSome ((Datum.field?_filter_decide_ne ..).trans (if_neg hne))).trans hknown

theorem extending_test (s : Subject) (e : Expr) : Extending (encode s e >>= condition) :=
  (extending.encode s e).bind extending.condition

theorem growing_side {body : List Stmt} (hbody : Growing bound (followAll s body))
    (chosen : BoolTerm) (b : Bool) (assertion : Expr) :
    Growing bound (side s chosen b body assertion) := by
  refine (extending.assume _).growing.bind fun _ => hbody.bind fun _ => ?_
  exact ((extending_test s assertion).bind fun c => .pure _).growing

/-- A name that both branches keep is known where they are joined. -/
theorem grows_join {start thenEnd elseEnd a : Analysis} {guard : BoolTerm}
    (hthen : start.Grows bound thenEnd) (helse : start.Grows bound elseEnd)
    (ha : start.Grows bound a) :
    start.Grows bound (after (join start thenEnd elseEnd guard) a) := by
  refine after_bind ?_ fun vars a' hvars => ⟨?_, fun x hx hknown => ?_⟩
  · rw [after_joinVars]
    exact ha
  · obtain ⟨rfl, -⟩ := joinVars_eq_ok hvars
    exact ha.fresh
  · obtain ⟨v, hv⟩ := Option.isSome_iff_exists.mp (hthen.known x hx hknown)
    obtain ⟨w, hw⟩ := Option.isSome_iff_exists.mp (helse.known x hx hknown)
    rcases (joinVars_eq_ok hvars).2 x with ⟨_, _, u, -, -, -, hu⟩ | ⟨hnone | hnone, -⟩
    · have hfield := Datum.field?_append x (start.vars.filter fun entry =>
        !(Datum.field? entry.1 thenEnd.vars).isSome &&
          !(Datum.field? entry.1 elseEnd.vars).isSome) vars
      rw [hu] at hfield
      exact (congrArg Option.isSome hfield).trans (by simp)
    · rw [hv] at hnone
      cases hnone
    · rw [hw] at hnone
      cases hnone

theorem growing_branch {loc : Option Location} {guard assertion : Expr}
    {thenBody elseBody : List Stmt} (hthen : Growing bound (followAll s thenBody))
    (helse : Growing bound (followAll s elseBody)) :
    Growing bound (follow s (.branch loc guard thenBody elseBody assertion)) := by
  intro a
  rw [follow_branch]
  refine ((extending_test s guard).growing a).bind (fun h₁ h₂ => h₁.trans h₂) fun chosen a₁ _ => ?_
  refine after_bind (Analysis.Extends.refl a₁).grows fun _ _ hget => ?_
  obtain ⟨rfl, rfl⟩ := EStateM.Result.ok.inj hget
  have hside₁ := growing_side hthen chosen true assertion a₁
  refine after_bind hside₁ fun c₁ a₂ h₂ => ?_
  have hexamine₁ := samePath_examine s (.branch loc guard thenBody elseBody assertion) assertion
    .thenBranch c₁ a₂
  refine after_bind ((hside₁.ok h₂).trans hexamine₁.grows) fun _ a₃ h₃ => ?_
  have hthenEnd := (hside₁.ok h₂).trans (hexamine₁.ok h₃).grows
  refine after_bind hthenEnd fun _ _ hget => ?_
  obtain ⟨rfl, rfl⟩ := EStateM.Result.ok.inj hget
  -- the names that are known are those of the beginning again
  have hrestored : a₁.Grows bound { a₃ with vars := a₁.vars, constraints := a₁.constraints } :=
    ⟨hthenEnd.fresh, fun _ _ hknown => hknown⟩
  refine after_bind hrestored fun _ a₄ h₄ => ?_
  obtain rfl := (EStateM.Result.ok.inj h₄).2
  have hside₂ := growing_side helse chosen false assertion
    { a₃ with vars := a₁.vars, constraints := a₁.constraints }
  refine after_bind (hrestored.trans hside₂) fun c₂ a₅ h₅ => ?_
  have hexamine₂ := samePath_examine s (.branch loc guard thenBody elseBody assertion) assertion
    .elseBranch c₂ a₅
  have hgrown := hrestored.trans (hside₂.ok h₅)
  refine after_bind (hgrown.trans hexamine₂.grows) fun _ a₆ h₆ => ?_
  have helseEnd := hgrown.trans (hexamine₂.ok h₆).grows
  refine after_bind helseEnd fun _ _ hget => ?_
  obtain ⟨rfl, rfl⟩ := EStateM.Result.ok.inj hget
  exact grows_join hthenEnd helseEnd helseEnd

/-! ### Single statements -/

section Single

variable (s : Subject) (loc : Option Location)

theorem extending_assign (target : Expr) (op : String) (value : Expr) :
    Extending (follow s (.assign loc target op value)) := by
  rw [follow]
  refine (extending.encode s value).bind fun _ => (extending.encode s target).bind fun _ => ?_
  exact (extending_updated s op _ _).bind fun _ => extending_write s target _

theorem extending_swap (left right : Expr) : Extending (follow s (.swap loc left right)) := by
  rw [follow]
  refine (extending.encode s left).bind fun l => (extending.encode s right).bind fun r => ?_
  exact (extending_write s left r).bind fun _ => extending_write s right l

theorem extending_declare (name : String) (value : Expr) :
    Extending (follow s (.declare loc name value)) := by
  rw [follow]
  refine (extending.encode s value).bind fun _ => ?_
  exact (extending.assumeInRange s _).bind fun _ => extending.setVar name _

theorem extending_call (callee : String) (args : List Expr) (uncall : Bool) :
    Extending (follow s (.call loc callee args uncall)) := by
  rw [follow]
  exact .forM fun e => extending_forget s e

theorem extending_loop (entry : Expr) (doBody loopBody : List Stmt) (exit : Expr) :
    Extending (follow s (.loop loc entry doBody loopBody exit)) := by
  rw [follow]
  refine (Extending.forM fun e => extending_forgetInLoop s e).bind fun _ => ?_
  exact (extending.encode s exit).bind fun v => (extending.condition v).bind extending.assume

theorem extending_hole : Extending (follow s (.hole loc)) := by
  rw [follow]
  exact .pure ()

/-- The end of a local is met with an equation, before its name is forgotten. -/
theorem follow_discard (name : String) (value : Expr) :
    ∃ x : Analyzing Unit, Extending x ∧ follow s (.discard loc name value) =
      x >>= fun _ => modify fun a =>
        { a with vars := a.vars.filter fun entry => entry.1 ≠ name } := by
  refine ⟨lookup s name >>= fun current => encode s value >>= fun v =>
    equal current v.asNumber >>= assume, ?_, ?_⟩
  · refine (extending.lookup s name).bind fun current => (extending.encode s value).bind fun v => ?_
    exact (extending.equal current _).bind extending.assume
  · rw [follow]
    simp only [bind_assoc]

end Single

mutual

theorem growing_follow : ∀ {u : Stmt}, u.Inside bound → Growing bound (follow s u)
  | .assign loc target op value, _ => (extending_assign s loc target op value).growing
  | .swap loc left right, _ => (extending_swap s loc left right).growing
  | .declare loc name value, _ => (extending_declare s loc name value).growing
  | .discard loc name value, hu => by
    have hname : name ∉ bound := by
      cases hu with
      | discard hname => exact hname
      | compound _ hu => simp [Stmt.Scoped] at hu
    obtain ⟨x, hx, hfollow⟩ := follow_discard s loc name value
    rw [hfollow]
    exact hx.growing.bind fun _ => growing_erase hname
  | .call loc callee args uncall, _ => (extending_call s loc callee args uncall).growing
  | .loop loc entry doBody loopBody exit, _ =>
    (extending_loop s loc entry doBody loopBody exit).growing
  | .block _ body, hu => by
    rw [follow]
    exact growing_followAll (hu.bodies (by simp [Stmt.bodies]))
  | .branch _ guard thenBody elseBody assertion, hu =>
    growing_branch (growing_followAll (hu.bodies (by simp [Stmt.bodies])))
      (growing_followAll (hu.bodies (by simp [Stmt.bodies])))
  | .hole loc, _ => (extending_hole s loc).growing

theorem growing_followAll : ∀ {body : List Stmt}, (∀ u ∈ body, u.Inside bound) →
    Growing bound (followAll s body)
  | [], _ => by
    rw [followAll]
    exact (Extending.pure ()).growing
  | u :: rest, hbody => by
    rw [followAll]
    refine (growing_follow (hbody u List.mem_cons_self)).bind fun _ => ?_
    exact growing_followAll fun v hv => hbody v (List.mem_cons_of_mem u hv)

end

end Analyzing

end Retrace
