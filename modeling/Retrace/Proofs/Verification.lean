import Retrace.Proofs.Assertions

/-!
# Reported branches are never confirmed

The analysis of a procedure starts from parameters about which nothing is known. So it follows every
run of the procedure, whatever its arguments hold, as long as they are slots of its integer type and
no array holds a slot twice.

The main statement is `Library.reported_never_confirmed`. A branch that some run confirms has a
question with satisfiable constraints. Hence a branch that is reported is one that no run confirms,
if the solver is right where it says that constraints cannot be satisfied. Without its conditions on
arrays and on the names of parameters it fails (`confirmed_though_unsatisfiable`).
-/

namespace Retrace

open Actions

/-! ## The beginning of a path -/

namespace Analyzing

variable {s : Subject} {P : Model → Prop} {V : View}

theorem extending_beginPath (s : Subject) (names : List String) : Extending (beginPath s names) := by
  induction names with
  | nil => exact .pure ()
  | cons name rest ih =>
    have hnext : ∀ v, Extending (do
        setVar name v
        if name ∉ s.arrays then assumeInRange s v
        beginPath s rest) := by
      refine fun v => (extending.setVar name v).bind fun _ => ?_
      split
      · exact (extending.assumeInRange s v).bind fun _ => ih
      · exact ih
    rw [beginPath]
    split
    · exact (extending.freshValue s name).bind hnext
    · exact hnext _

/-- Parameters stand for unknowns that can be what the parameters stand for in the run. -/
theorem follows_beginPath (hrange : V.InRange s.intType) {names : List String}
    (hP : ∀ M, P M → ∀ x ∈ names, (s.unknownFor x x).Fits s.intType M (V x)) :
    Follows s.intType P (beginPath s names) V V fun _ _ => True := by
  induction names generalizing P with
  | nil => exact .pure fun _ _ => trivial
  | cons name rest ih =>
    have hnext : ∀ v {P' : Model → Prop}, (∀ M, P' M → P M ∧ v.Fits s.intType M (V name)) →
        Follows s.intType P' (do
          setVar name v
          if name ∉ s.arrays then assumeInRange s v
          beginPath s rest) V V fun _ _ => True := by
      intro v P' hP'
      refine follows_setVarInRange (fun _ _ => rfl) (fun M hM => (hP' M hM).2) (ih ?_)
      exact fun M hM x hx => hP M (hP' M hM).1 x (List.mem_cons_of_mem name hx)
    rw [beginPath]
    split
    · exact (follows_freshValue name (V name) (hrange name)).bind fun v => hnext v fun M hM => hM
    · exact hnext _ fun M hM => ⟨hM, hP M hM name List.mem_cons_self⟩

/-- There is a model in which unknowns that are named like parameters denote what these stand for. -/
theorem exists_initial (s : Subject) (hrange : V.InRange s.intType) :
    ∃ σ : Model, ∀ (M : Model) (x : String), M.ints x = σ.ints x ∧ M.arrays x = σ.arrays x →
      (s.unknownFor x x).Fits s.intType M (V x) := by
  choose n f hvalue using fun x => exists_unknownFor (s := s) x (V x) (hrange x)
  exact ⟨⟨n, f, fun _ => 0⟩, fun M x h => hvalue x M x h⟩

end Analyzing

/-! ## Procedures -/

namespace Procedure

/-- What the analysis of a procedure is about. -/
def subject (p : Procedure) (intType : IntType) (toolkit : Toolkit) : Subject :=
  { toolkit with
    procedure := p.name
    intType
    arrays := Stmt.arrayNamesOfBlock p.body
    numbers := p.paramNames.eraseDups.filter fun name => name ∉ Stmt.arrayNamesOfBlock p.body }

/-- The analysis of a procedure comes to the question whether the assertion at the site can confirm
the branch `b`, and puts it with the given constraints. -/
def Asks (p : Procedure) (intType : IntType) (toolkit : Toolkit) (inquiry : Inquiry)
    (site : Site p.body) (b : Bool) (constraints : List BoolTerm) : Prop :=
  ∃ path confirms a,
    (Analyzing.beginPath (p.subject intType toolkit) p.paramNames >>= fun _ =>
      site.reach (p.subject intType toolkit) b)
        { fresh := inquiry.fresh, queries := inquiry.queries } = .ok (path, confirms) a ∧
      constraints = path ++ [confirms]

/-- The parameters can stand for the arguments, each for its own slots of stores of the type, and no
array holds a slot twice. -/
structure Admits (p : Procedure) (type : IntType) (args : List Binding) (mem : Memory) : Prop where
  apart : (p.paramNames.zip args).Pairwise Frame.Apart
  inRange : mem.heap.InRange
  placed : ∀ u, Binding.Among args u →
    u.store < mem.heap.size ∧ (mem.heap.store u.store).intType = type
  nodup : ∀ slots, Binding.array slots ∈ args → slots.Nodup

theorem Admits.uniform {p : Procedure} {lib : Library} {args : List Binding} {mem : Memory}
    (h : p.Admits lib.intType args mem) (d : Direction) (depth : Int) :
    (lib.entered p args d depth mem).Uniform lib.intType := by
  refine ⟨Library.sound_entered h.inRange (fun u hu => (h.placed u hu).1) h.apart, rfl, ?_,
    fun u hu => ?_, fun x slots hx => ?_⟩
  · simp [Library.entered, Library.frameOf, Heap.store_push]
  · obtain ⟨hlt, htype⟩ := h.placed u (Library.among_of_covers hu)
    rw [Library.entered, Heap.store_push, if_neg (Nat.ne_of_lt hlt), htype]
  · exact h.nodup slots (List.of_mem_zip (Datum.mem_of_field? hx)).2

end Procedure

namespace Library

open Analyzing

variable {lib : Library} {p : Procedure}

theorem Checked.followable (hlib : lib.Checked) (hp : p ∈ lib.procedures)
    (hguarded : ∀ u ∈ p.body, u.Guarded) : Stmt.Followable lib p.paramNames [] p.body := by
  obtain ⟨t, ht⟩ := hlib p hp
  exact ⟨Legality.scopedBlock_of_findings ht, fun u hu => holds_of_body hp hu, hguarded⟩

/-- What the analysis asks about a branch that a run confirms can be satisfied. -/
theorem satisfiable_of_asks (hlib : lib.WellScoped) (hk : KeepsBuiltins lib.functions)
    (hbody : Stmt.Followable lib p.paramNames [] p.body)
    (hmark : ∀ x ∈ p.paramNames, '!' ∉ x.toList) {args : List Binding} {mem : Memory} {depth : Int}
    (hargs : p.Admits lib.intType args mem) {site : Site p.body} {b : Bool}
    (hconfirmed : site.Confirmed lib b (lib.entered p args .forward depth mem)) {toolkit : Toolkit}
    {inquiry : Inquiry} {constraints : List BoolTerm}
    (hasks : p.Asks lib.intType toolkit inquiry site b constraints) : Satisfiable constraints := by
  obtain ⟨path, confirms, a, hok, rfl⟩ := hasks
  have hm := hargs.uniform .forward depth
  have hnames : (lib.entered p args .forward depth mem).frame.names ⊆ p.paramNames ++ [] := by
    intro x hx
    obtain ⟨entry, hentry, rfl⟩ := List.mem_map.mp hx
    rw [List.append_nil]
    exact (List.of_mem_zip hentry).1
  obtain ⟨σ, hσ⟩ := exists_initial (p.subject lib.intType toolkit) hm.inRange_view
  obtain ⟨V', hreach⟩ := follows_reach (s := p.subject lib.intType toolkit) hlib hk site hbody
    hnames hm hconfirmed
  -- the models that give the parameters the values of the arguments
  have hbegin : Follows lib.intType (fun M => ∀ x ∈ p.paramNames,
      M.ints x = σ.ints x ∧ M.arrays x = σ.arrays x)
      (beginPath (p.subject lib.intType toolkit) p.paramNames)
      (lib.entered p args .forward depth mem).view (lib.entered p args .forward depth mem).view
      fun _ _ => True :=
    follows_beginPath (s := p.subject lib.intType toolkit) hm.inRange_view
      fun M hM x hx => hσ M x (hM x hx)
  have hfollows := hbegin.bind fun _ => hreach _
  obtain ⟨τ, hτ⟩ := hfollows σ { fresh := inquiry.fresh, queries := inquiry.queries }
    (fun M hM => ⟨fun x hx => hM x (not_upcoming (hmark x hx) _), nofun, nofun, nofun⟩)
    (path, confirms) a hok
  obtain ⟨-, -, hpath, hconfirms⟩ := hτ τ (Model.mem_before_self τ a.fresh)
  refine ⟨τ, fun c hc => ?_⟩
  rcases List.mem_append.mp hc with hc | hc
  · exact hpath c hc
  · rw [List.mem_singleton.mp hc]
    exact hconfirms

/-- A report records what was found, also if the analysis was given up. -/
theorem records_of_verify {intType : IntType} {toolkit : Toolkit} {inquiry inquiry' : Inquiry}
    {report : Report} (h : p.verify intType toolkit inquiry = .ok report inquiry') :
    report.records = (after (beginPath (p.subject intType toolkit) p.paramNames >>=
      fun _ => followAll (p.subject intType toolkit) p.body)
      { fresh := inquiry.fresh, queries := inquiry.queries }).findings.map
        (Finding.record p.name) := by
  unfold Procedure.verify at h
  dsimp only at h
  split at h
  · rename_i hwork
    rw [← (EStateM.Result.ok.inj h).1]
    exact congrArg (fun a => a.findings.map (Finding.record p.name)) (after_of_ok hwork).symm
  · rename_i hwork
    split at h
    · rw [← (EStateM.Result.ok.inj h).1]
      exact congrArg (fun a => a.findings.map (Finding.record p.name)) (after_of_error hwork).symm
    · cases h

theorem reports_verify {intType : IntType} {toolkit : Toolkit} {inquiry : Inquiry}
    {Q : Finding → Prop}
    (hnew : ∀ (site : Site p.body) (b : Bool) constraints n,
      p.Asks intType toolkit inquiry site b constraints → toolkit.solver n constraints = .unsat →
        Q (site.finding b)) :
    Analysis.Reports Q (after (beginPath (p.subject intType toolkit) p.paramNames >>=
      fun _ => followAll (p.subject intType toolkit) p.body)
      { fresh := inquiry.fresh, queries := inquiry.queries }) := by
  have hbegin : Analysis.Reports Q (after (beginPath (p.subject intType toolkit) p.paramNames)
      { fresh := inquiry.fresh, queries := inquiry.queries }) :=
    (extending_beginPath _ _).reports nofun
  refine after_bind hbegin fun _ a₁ h₁ => ?_
  refine reports_followAll (after_of_ok h₁ ▸ hbegin) fun f hf => ?_
  obtain ⟨site, b, ⟨path, confirms⟩, a', rfl, hreach, n, hunsat⟩ := hf
  exact hnew site b (path ++ [confirms]) n
    ⟨path, confirms, a', bind_eq_ok.mpr ⟨(), a₁, h₁, hreach⟩, rfl⟩ hunsat

/-- **A branch that is reported is never confirmed.** In a library of legal procedures, let no right
operand of `&&` or `||` in the procedure have a division or a shift in it, and no parameter the mark
of numbered unknowns. A question about a branch that a run confirms has constraints that can be
satisfied. So if the solver says that constraints cannot be satisfied only where this is true, every
record of a report is about a branch of a conditional that no run of the procedure confirms. -/
theorem reported_never_confirmed (hlib : lib.Checked) (hk : KeepsBuiltins lib.functions)
    (hp : p ∈ lib.procedures) (hguarded : ∀ u ∈ p.body, u.Guarded)
    (hmark : ∀ x ∈ p.paramNames, '!' ∉ x.toList) (toolkit : Toolkit) (inquiry : Inquiry) :
    (∀ args mem depth, p.Admits lib.intType args mem → ∀ (site : Site p.body) (b : Bool),
      site.Confirmed lib b (lib.entered p args .forward depth mem) → ∀ constraints,
        p.Asks lib.intType toolkit inquiry site b constraints → Satisfiable constraints) ∧
    ((∀ n constraints, toolkit.solver n constraints = .unsat → ¬Satisfiable constraints) →
      ∀ report inquiry', p.verify lib.intType toolkit inquiry = .ok report inquiry' →
        ∀ r ∈ report.records, ∃ (site : Site p.body) (b : Bool),
          r = (site.finding b).record p.name ∧
            ∀ args mem depth, p.Admits lib.intType args mem →
              ¬site.Confirmed lib b (lib.entered p args .forward depth mem)) := by
  have hbody := hlib.followable hp hguarded
  have hsatisfiable : ∀ args mem depth, p.Admits lib.intType args mem →
      ∀ (site : Site p.body) (b : Bool),
        site.Confirmed lib b (lib.entered p args .forward depth mem) → ∀ constraints,
          p.Asks lib.intType toolkit inquiry site b constraints → Satisfiable constraints :=
    fun args mem depth hargs site b hconfirmed constraints hasks =>
      satisfiable_of_asks hlib.wellScoped hk hbody hmark hargs hconfirmed hasks
  refine ⟨hsatisfiable, fun hsolver report inquiry' hverify r hr => ?_⟩
  rw [records_of_verify hverify] at hr
  obtain ⟨f, hf, rfl⟩ := List.mem_map.mp hr
  have hreports : Analysis.Reports (fun f => ∃ (site : Site p.body) (b : Bool),
      f = site.finding b ∧ ∀ args mem depth, p.Admits lib.intType args mem →
        ¬site.Confirmed lib b (lib.entered p args .forward depth mem)) _ :=
    reports_verify fun site b constraints n hasks hunsat => ⟨site, b, rfl,
      fun args mem depth hargs hconfirmed => hsolver n constraints hunsat
        (hsatisfiable args mem depth hargs site b hconfirmed constraints hasks)⟩
  obtain ⟨site, b, hfinding, hnever⟩ := hreports f hf
  exact ⟨site, b, congrArg (Finding.record p.name) hfinding, hnever⟩

end Library

namespace Sample

/-- `nudge(a)` adds one to the first element, and expects to see that in the second one. -/
def nudge : Procedure :=
  { name := "nudge"
    params := [⟨"a", none⟩]
    body :=
      [.branch none (.binary none "==" (.elem none "a" (.int none 1)) (.int none 0))
        [.assign none (.elem none "a" (.int none 0)) "+=" (.int none 1)] []
        (.binary none "==" (.elem none "a" (.int none 1)) (.int none 1))] }

/-- The conditional of `nudge`. -/
def nudgeSite : Site nudge.body := .here _ _ _ _ _ _

def nudges : Library := { usual with procedures := [nudge] }

theorem accepted_nudges : nudges.Accepted := by
  have hempty : Library.empty {} [] = .ok usual := rfl
  have hregister : usual.register default [nudge] {} =
      .ok nudges { log := [.registered nudge] } := rfl
  exact .register (.empty hempty) hregister

theorem keepsBuiltins_usual : Analyzing.KeepsBuiltins usual.functions := by
  intro name hname f hf
  fin_cases hname <;> exact hf

theorem guarded_nudge : ∀ u ∈ nudge.body, u.Guarded := by
  simp [nudge, Stmt.Guarded, Stmt.nested, Stmt.nestedAll, Stmt.expressions, Expr.isGuarded,
    BinaryOp.ofSymbol?, BinaryOp.all, BinaryOp.symbol, BinaryOp.isConnective]

/-- The second element of `a` after the first one was changed. -/
def nudgedTerm : IntTerm :=
  .select (.store (.var "a") (.const 0) (.add (.select (.var "a") (.const 0)) (.const 1)))
    (.const 1)

/-- The question whether the first branch of `nudge` can be confirmed. -/
def nudgeQuestion : List BoolTerm :=
  [(IntTerm.select (.var "a") (.const 1)).inRange .word,
    .eq (.select (.var "a") (.const 1)) (.const 0),
    (IntTerm.select (.var "a") (.const 0)).inRange .word,
    (IntTerm.add (.select (.var "a") (.const 0)) (.const 1)).inRange .word,
    nudgedTerm.inRange .word] ++ [.eq nudgedTerm (.const 1)]

theorem not_satisfiable_nudgeQuestion : ¬Satisfiable nudgeQuestion := by
  rintro ⟨M, hM⟩
  simp only [nudgeQuestion, nudgedTerm, List.mem_append, List.mem_cons, List.not_mem_nil,
    or_false, or_imp, forall_and, forall_eq] at hM
  obtain ⟨⟨-, hguard, -⟩, hassertion⟩ := hM
  simp [BoolTerm.Holds, IntTerm.value, ArrayTerm.value] at hguard hassertion
  omega

/-- A solver that knows one contradiction. -/
def nudgeSolver : Solver
  | _, [_, .eq (.select (.var "a") (.const 1)) (.const 0), _, _, _,
      .eq (.select (.store (.var "a") (.const 0) _) (.const 1)) (.const 1)] => .unsat
  | _, _ => .sat fun _ => "0"

theorem nudgeSolver_right (n : Nat) (constraints : List BoolTerm)
    (h : nudgeSolver n constraints = .unsat) : ¬Satisfiable constraints := by
  unfold nudgeSolver at h
  split at h
  · rintro ⟨M, hM⟩
    simp [BoolTerm.Holds, IntTerm.value, ArrayTerm.value] at hM
    omega
  · cases h

/-- One store with two slots. -/
def pairMemory : Memory := { heap := ⟨#[{ cells := #[some 0, some 2] }]⟩ }

theorem admits_pair : nudge.Admits .word [.array [⟨0, 0⟩, ⟨0, 1⟩]] pairMemory where
  apart := by simp [nudge, Procedure.paramNames]
  inRange := Heap.inRange_of_all (by decide)
  placed := by
    simp [Binding.Among, Binding.slots, pairMemory, Heap.size, Heap.store]
  nodup := by simp

end Sample

/-- The second branch of `nudge` is confirmed by a run, so the question about it can be satisfied.
The first one is reported, so no run confirms it. -/
theorem nudge_reported : Sample.nudges.Accepted ∧
    (∃ constraints,
      Sample.nudgeSite.Confirmed Sample.nudges false (Sample.nudges.entered Sample.nudge
        [.array [⟨0, 0⟩, ⟨0, 1⟩]] .forward 0 Sample.pairMemory) ∧
      Sample.nudge.Asks .word Sample.nudgeSolver {} Sample.nudgeSite false constraints ∧
      Satisfiable constraints) ∧
    ∃ report inquiry', Sample.nudge.verify .word Sample.nudgeSolver {} = .ok report inquiry' ∧
      report.records = [(Sample.nudgeSite.finding true).record "nudge"] ∧
      ∀ r ∈ report.records, ∃ (site : Site Sample.nudge.body) (b : Bool),
        r = (site.finding b).record "nudge" ∧
          ∀ args mem depth, Sample.nudge.Admits .word args mem →
            ¬site.Confirmed Sample.nudges b
              (Sample.nudges.entered Sample.nudge args .forward depth mem) := by
  have hlaw := Library.reported_never_confirmed Sample.accepted_nudges.checked
    Sample.keepsBuiltins_usual (List.mem_singleton_self Sample.nudge) Sample.guarded_nudge
    (by simp [Sample.nudge, Procedure.paramNames]) Sample.nudgeSolver {}
  have hconfirmed : Sample.nudgeSite.Confirmed Sample.nudges false (Sample.nudges.entered
      Sample.nudge [.array [⟨0, 0⟩, ⟨0, 1⟩]] .forward 0 Sample.pairMemory) :=
    ⟨rfl, _, ⟨5, rfl⟩, rfl⟩
  have hasks : ∃ constraints,
      Sample.nudge.Asks .word Sample.nudgeSolver {} Sample.nudgeSite false constraints :=
    ⟨_, _, _, _, rfl, rfl⟩
  obtain ⟨constraints, hasks⟩ := hasks
  refine ⟨Sample.accepted_nudges, ⟨constraints, hconfirmed, hasks, ?_⟩, ?_⟩
  · exact hlaw.1 _ _ 0 Sample.admits_pair Sample.nudgeSite false hconfirmed constraints hasks
  · exact ⟨_, _, rfl, rfl, hlaw.2 Sample.nudgeSolver_right _ _ rfl⟩

/-! ## Storage and names that the analysis takes apart

The analysis takes the elements of an array for different storage, and the label of a numbered
unknown for a name that no parameter has. Neither is checked when a procedure is entered, and there
are runs for which it is not so. -/

/-- The analysis of a legal procedure comes to a question that cannot be satisfied, though a run
confirms the branch that it is about. The arguments are slots of stores of the right type, and names
that are used with an index stand for arrays. -/
structure Library.Misjudges (lib : Library) (p : Procedure) (args : List Binding) (mem : Memory)
    (site : Site p.body) (b : Bool) : Prop where
  accepted : lib.Accepted
  builtins : Analyzing.KeepsBuiltins lib.functions
  registered : p ∈ lib.procedures
  guarded : ∀ u ∈ p.body, u.Guarded
  apart : (p.paramNames.zip args).Pairwise Frame.Apart
  inRange : mem.heap.InRange
  placed : ∀ u, Binding.Among args u →
    u.store < mem.heap.size ∧ (mem.heap.store u.store).intType = lib.intType
  arrays : ∀ entry ∈ p.paramNames.zip args, entry.1 ∈ Stmt.arrayNamesOfBlock p.body →
    ∃ slots, entry.2 = .array slots
  confirmed : site.Confirmed lib b (lib.entered p args .forward 0 mem)
  asks : ∀ toolkit, ∃ constraints, p.Asks lib.intType toolkit {} site b constraints ∧
    ¬Satisfiable constraints

namespace Sample

/-- `idle(x)` does nothing. -/
def idle : Procedure := { name := "idle", params := [⟨"x", none⟩], body := [] }

/-- `mark(x, x!0)` has a parameter that is named like the first unknown for `x`. -/
def mark : Procedure :=
  { name := "mark"
    params := [⟨"x", none⟩, ⟨"x!0", none⟩]
    body :=
      [.branch none (.bool none true) [.call none "idle" [.var none "x"] false] []
        (.binary none "!=" (.var none "x") (.var none "x!0"))] }

def markSite : Site mark.body := .here _ _ _ _ _ _

def marks : Library := { usual with procedures := [idle, mark] }

theorem accepted_marks : marks.Accepted := by
  have hempty : Library.empty {} [] = .ok usual := rfl
  have hregister : usual.register default [idle, mark] {} =
      .ok marks { log := [.registered mark, .registered idle] } := rfl
  exact .register (.empty hempty) hregister

/-- The question whether the first branch of `mark` can be confirmed. -/
def markQuestion : List BoolTerm :=
  [(IntTerm.var "x").inRange .word, (IntTerm.var "x!0").inRange .word, .const true,
    (IntTerm.var (unknownLabel "x" 0)).inRange .word] ++
      [.ne (.var (unknownLabel "x" 0)) (.var "x!0")]

theorem not_satisfiable_markQuestion : ¬Satisfiable markQuestion := by
  rintro ⟨M, hM⟩
  have hlabel : unknownLabel "x" 0 = "x!0" := by decide
  have hne := hM (.ne (.var (unknownLabel "x" 0)) (.var "x!0")) (by simp [markQuestion])
  simp [BoolTerm.Holds, hlabel] at hne

theorem guarded_mark : ∀ u ∈ mark.body, u.Guarded := by
  simp [mark, Stmt.Guarded, Stmt.nested, Stmt.nestedAll, Stmt.expressions, Expr.isGuarded,
    BinaryOp.ofSymbol?, BinaryOp.all, BinaryOp.symbol, BinaryOp.isConnective]

end Sample

/-- A run of `nudge` on an array that holds one slot twice confirms the branch that is reported. So
does a run of `mark`, whose second parameter is taken for the unknown that stands for the first one
after a call. -/
theorem confirmed_though_unsatisfiable :
    Sample.nudges.Misjudges Sample.nudge [.array [⟨0, 0⟩, ⟨0, 0⟩]] Sample.pairMemory
        Sample.nudgeSite true ∧
      Sample.marks.Misjudges Sample.mark [.scalar ⟨0, 1⟩, .scalar ⟨0, 0⟩] Sample.pairMemory
        Sample.markSite true := by
  have hrange : Sample.pairMemory.heap.InRange := Heap.inRange_of_all (by decide)
  constructor
  · refine ⟨Sample.accepted_nudges, Sample.keepsBuiltins_usual, List.mem_singleton_self _,
      Sample.guarded_nudge, ?_, hrange, ?_, ?_, ⟨rfl, _, ⟨5, rfl⟩, rfl⟩, fun toolkit => ?_⟩
    · simp [Sample.nudge, Procedure.paramNames]
    · simp [Binding.Among, Binding.slots, Sample.pairMemory, Heap.size, Heap.store, Sample.nudges,
        Sample.usual]
    · simp [Sample.nudge, Procedure.paramNames]
    · exact ⟨Sample.nudgeQuestion, ⟨_, _, _, rfl, rfl⟩, Sample.not_satisfiable_nudgeQuestion⟩
  · refine ⟨Sample.accepted_marks, Sample.keepsBuiltins_usual, by simp [Sample.marks],
      Sample.guarded_mark, ?_, hrange, ?_, ?_, ⟨rfl, _, ⟨5, rfl⟩, rfl⟩, fun toolkit => ?_⟩
    · simp [Sample.mark, Procedure.paramNames, Frame.Apart, Binding.slots]
    · simp [Binding.Among, Binding.slots, Sample.pairMemory, Heap.size, Heap.store, Sample.marks,
        Sample.usual]
    · simp [Sample.mark, Procedure.paramNames, Stmt.arrayNamesOfBlock, Stmt.arrayNames,
        Expr.arrayNames, Expr.arrayNamesOfList]
    · exact ⟨Sample.markQuestion, ⟨_, _, _, rfl, rfl⟩, Sample.not_satisfiable_markQuestion⟩

end Retrace
