import Retrace.Proofs.Evaluation
import Retrace.Proofs.Heap
import Retrace.Run.Invocation

/-!
# When statements complete

For every form of statement, the exact condition under which it completes and the machine that it
then leaves (`assign_eq_ok`, `swap_eq_ok`, `introduce_eq_ok`, `remove_eq_ok`, `branch_eq_ok`,
`loop_eq_ok`, `call_eq_ok`), and the same for procedures and invocations. The forms that are made of
others are described relative to the runs of their parts, so that nothing here depends on the fuel
of a run.

Where a failure matters too, there is an equation for the form as a whole: `assign_eq`, `branch_eq`
and `loop_eq` take a statement apart into steps in which the direction shows only once, and
`runProcedure_apply` and `runNamed_apply` give the outcome of a procedure and of an invocation.

`Direction.pick` gives the two conditions of a conditional or a loop in the order in which a run of
a direction meets them.
-/

namespace Retrace

open Actions

/-! ## Broken rules -/

/-- The fault is a failure of the class of the given rule. -/
def Fault.Breaks (f : Fault) (rule : RunRule) : Prop :=
  ∃ g : Failure, f = .failure g ∧ g.kind = .run (some rule)

theorem Violation.breaks_iff {v : Violation} {procedure : Option String} {rule : RunRule} :
    (v.fault procedure).Breaks rule ↔ v.rule = rule := by
  simp [Fault.Breaks, fault]

/-! ## Storage that overlaps -/

namespace Overlap

/-- The slots of some bindings, in order. -/
def slotsOf (bindings : List (String × Binding)) : List Slot :=
  bindings.flatMap fun entry => entry.2.slots

theorem slotsOf_cons (entry : String × Binding) (rest : List (String × Binding)) :
    slotsOf (entry :: rest) = entry.2.slots ++ slotsOf rest := rfl

theorem map_snd_labelled (bindings : List (String × Binding)) :
    (labelled bindings).map Prod.snd = slotsOf bindings := by
  simp [labelled, slotsOf, List.map_flatMap, Function.comp_def]

theorem label?_eq_none {s : Slot} {operands : List (String × Slot)} :
    label? s operands = none ↔ s ∉ operands.map Prod.snd := by
  simp only [label?, Option.map_eq_none_iff, List.find?_eq_none, decide_eq_true_eq, List.mem_map,
    not_exists, not_and]

theorem ofUpdate_eq_none {s : Slot} {reads : List Slot} {name : String} :
    ofUpdate s reads name = none ↔ s ∉ reads := by
  simp [ofUpdate]

theorem firstRepeat_eq_none {seen rest : List (String × Slot)} :
    firstRepeat seen rest = none ↔
      (rest.map Prod.snd).Nodup ∧ ∀ s ∈ rest.map Prod.snd, s ∉ seen.map Prod.snd := by
  induction rest generalizing seen with
  | nil => simp [firstRepeat]
  | cons entry rest ih =>
    obtain ⟨label, s⟩ := entry
    rw [firstRepeat]
    cases hl : label? s seen with
    | none =>
      rw [label?_eq_none] at hl
      simp only [ih, List.map_cons, List.nodup_cons, List.mem_cons, forall_eq_or_imp, hl,
        not_false_eq_true, true_and, not_or]
      constructor
      · rintro ⟨hnodup, hseen⟩
        exact ⟨⟨fun hs => (hseen s hs).1 rfl, hnodup⟩, fun t ht => (hseen t ht).2⟩
      · rintro ⟨⟨hs, hnodup⟩, hseen⟩
        exact ⟨hnodup, fun t ht => ⟨fun he => hs (he ▸ ht), hseen t ht⟩⟩
    | some other =>
      have hs : s ∈ seen.map Prod.snd := by
        by_contra hs
        rw [label?_eq_none.mpr hs] at hl
        cases hl
      simp only [reduceCtorEq, false_iff]
      exact fun h => h.2 s (by simp) hs

/-- Operands do not overlap if no slot is among them twice. -/
theorem ofOperands_eq_none {bindings : List (String × Binding)} :
    ofOperands bindings = none ↔ (slotsOf bindings).Nodup := by
  rw [ofOperands, firstRepeat_eq_none, map_snd_labelled]
  simp

/-- Nothing locates an operand of its own if no slot that was read is an operand. -/
theorem ofIndices_eq_none {bindings : List (String × Binding)}
    {reads : List (String × List Slot)} :
    ofIndices bindings reads = none ↔
      ∀ entry ∈ reads, ∀ s ∈ entry.2, s ∉ slotsOf bindings := by
  simp only [ofIndices, List.findSome?_eq_none_iff, Option.map_eq_none_iff, label?_eq_none,
    map_snd_labelled]

end Overlap

/-! ## Directions -/

/-- Of two things, the one that a run of the direction meets first. -/
def Direction.pick {α : Type} : Direction → α → α → α
  | .forward, a, _ => a
  | .backward, _, b => b

@[simp] theorem Direction.pick_flip {α : Type} (d : Direction) (a b : α) :
    d.flip.pick a b = d.pick b a := by
  cases d <;> rfl

@[simp] theorem Direction.mem_order {α : Type} {d : Direction} {body : List α} {a : α} :
    a ∈ d.order body ↔ a ∈ body := by
  cases d <;> simp [order]

/-- The operator that an update applies in a direction. -/
def Update.directed (u : Update) (d : Direction) : Update := d.pick u u.inverse

@[simp] theorem Update.directed_flip (u : Update) (d : Direction) :
    u.directed d.flip = (u.directed d).inverse := by
  cases d <;> simp [directed, Direction.pick, Direction.flip]

/-- Whether a conditional that is run in the direction checks its second condition. -/
def Library.Checks (lib : Library) (d : Direction) : Prop :=
  d = .forward ∨ lib.settings.checkGuardOnBackward = true

/-! ## Expressions inside a run -/

/-- Where the expressions of a procedure look up their names. -/
def Machine.scope (m : Machine) (lib : Library) : Scope := ⟨lib.functions, m.frame, m.heap⟩

namespace Execution

variable {lib : Library} {m m' : Machine} {e : Expr}

theorem ofExcept_eq_ok {α : Type} {r : Except Fault α} {a : α} :
    ofExcept r m = .ok a m' ↔ r = .ok a ∧ m' = m := by
  unfold ofExcept
  cases r <;> simp [eq_comm]

theorem refuse_eq_ok {v : Option Violation} {a : Unit} :
    refuse v m = .ok a m' ↔ v = none ∧ m' = m := by
  unfold refuse
  cases v with
  | none => simp [eq_comm]
  | some v => simp [violate, bind_apply]

theorem reading_apply {α : Type} (lib : Library) (before : List Slot) (work : Scope → Reading α)
    (m : Machine) :
    reading lib before work m = match work (m.scope lib) before with
      | .ok a reads => .ok (a, reads) m
      | .error f _ => .error (.fault f) m := by
  unfold reading
  change (match work (m.scope lib) before with
    | .ok a reads => (pure (a, reads) : Execution (α × List Slot))
    | .error f _ => throw (Stop.fault f)) m = _
  cases work (m.scope lib) before <;> rfl

theorem reading_eq_ok {α : Type} {before : List Slot} {work : Scope → Reading α}
    {p : α × List Slot} :
    reading lib before work m = .ok p m' ↔ work (m.scope lib) before = .ok p.1 p.2 ∧ m' = m := by
  rw [reading_apply]
  cases work (m.scope lib) before with
  | ok a reads => simp [Prod.ext_iff, eq_comm]
  | error f reads => simp

theorem number_eq_ok {n : Int} :
    number lib e m = .ok n m' ↔ ∃ v, (m.scope lib).value e = .ok v ∧ v.toInt = n ∧ m' = m := by
  change (ofExcept ((m.scope lib).value e) >>= fun v => pure v.toInt) m = .ok n m' ↔ _
  simp only [bind_eq_ok, ofExcept_eq_ok, pure_eq_ok]
  constructor
  · rintro ⟨v, t, ⟨hv, rfl⟩, rfl, rfl⟩
    exact ⟨v, hv, rfl, rfl⟩
  · rintro ⟨v, hv, rfl, rfl⟩
    exact ⟨v, _, ⟨hv, rfl⟩, rfl, rfl⟩

theorem test_eq_ok {b : Bool} :
    test lib e m = .ok b m' ↔ (m.scope lib).test e = .ok b ∧ m' = m :=
  ofExcept_eq_ok

theorem readSlot_eq_ok {s : Slot} {n : Int} :
    readSlot s m = .ok n m' ↔ m.heap.cell? s = some n ∧ m' = m := by
  change ofExcept (m.heap.read s) m = .ok n m' ↔ _
  rw [ofExcept_eq_ok, Heap.read]
  cases m.heap.cell? s <;> simp

theorem writeSlot_apply (s : Slot) (n : Int) (m : Machine) :
    writeSlot s n m = match m.heap.cell? s with
      | none => .error (.fault ((Violation.released s.index).fault none)) m
      | some _ =>
        if (m.heap.store s.store).intType.contains n then
          .ok () { m with heap := m.heap.put s (some n) }
        else
          .error (.fault ((Violation.overflow n (m.heap.store s.store).intType).fault none)) m := by
  unfold writeSlot onHeap
  rw [Heap.write_eq]
  cases m.heap.cell? s with
  | none => rfl
  | some c => by_cases hn : (m.heap.store s.store).intType.contains n = true <;> simp [hn]

theorem writeSlot_eq_ok {s : Slot} {n : Int} {a : Unit} :
    writeSlot s n m = .ok a m' ↔
      (∃ c, m.heap.cell? s = some c) ∧ (m.heap.store s.store).intType.contains n = true ∧
        m' = { m with heap := m.heap.put s (some n) } := by
  rw [writeSlot_apply]
  cases m.heap.cell? s with
  | none => simp
  | some c => by_cases hn : (m.heap.store s.store).intType.contains n = true <;> simp [hn, eq_comm]

/-! ## Single statements -/

/-- Updates a slot by an operator. -/
def update (lib : Library) (u : Update) (target value : Expr) : Execution Unit := do
  let (s, reads) ← reading lib [] fun scope => scope.locate target
  let (v, reads) ← reading lib reads fun scope => scope.eval value
  refuse (Overlap.ofUpdate s reads (target.refName?.getD ""))
  writeSlot s (u.apply (← readSlot s) v.toInt)

theorem assign_eq (lib : Library) (d : Direction) (target value : Expr) (op : String) :
    assign lib d target op value = (do
      let u ← ofExcept (Update.ofSymbol op)
      update lib (u.directed d) target value) := by
  cases d <;> rfl

theorem assign_eq_ok {d : Direction} {target value : Expr} {op : String} :
    assign lib d target op value m = .ok () m' ↔
      ∃ u s r₁ v r₂ c, Update.ofSymbol op = .ok u ∧
        (m.scope lib).locate target [] = .ok s r₁ ∧ (m.scope lib).eval value r₁ = .ok v r₂ ∧
        s ∉ r₂ ∧ m.heap.cell? s = some c ∧
        (m.heap.store s.store).intType.contains ((u.directed d).apply c v.toInt) = true ∧
        m' = { m with heap := m.heap.put s (some ((u.directed d).apply c v.toInt)) } := by
  rw [assign_eq]
  unfold update
  simp only [bind_eq_ok, ofExcept_eq_ok, reading_eq_ok, refuse_eq_ok, readSlot_eq_ok,
    writeSlot_eq_ok, Overlap.ofUpdate_eq_none, Prod.exists]
  constructor
  · rintro ⟨u, _, ⟨hu, rfl⟩, s, r₁, _, ⟨hs, rfl⟩, v, r₂, _, ⟨hv, rfl⟩, _, _, ⟨hr, rfl⟩, c, _,
      ⟨hc, rfl⟩, -, ht, rfl⟩
    exact ⟨u, s, r₁, v, r₂, c, hu, hs, hv, hr, hc, ht, rfl⟩
  · rintro ⟨u, s, r₁, v, r₂, c, hu, hs, hv, hr, hc, ht, rfl⟩
    exact ⟨u, m, ⟨hu, rfl⟩, s, r₁, m, ⟨hs, rfl⟩, v, r₂, m, ⟨hv, rfl⟩, (), m, ⟨hr, rfl⟩, c, m,
      ⟨hc, rfl⟩, ⟨c, hc⟩, ht, rfl⟩

theorem swap_eq_ok {left right : Expr} :
    swap lib left right m = .ok () m' ↔
      ∃ s r₁ t r₂ a b, (m.scope lib).locate left [] = .ok s r₁ ∧
        (m.scope lib).locate right [] = .ok t r₂ ∧ s ≠ t ∧ (∀ u ∈ r₁ ++ r₂, u ≠ s ∧ u ≠ t) ∧
        m.heap.cell? s = some a ∧ m.heap.cell? t = some b ∧
        (m.heap.store s.store).intType.contains b = true ∧
        (m.heap.store t.store).intType.contains a = true ∧
        m' = { m with heap := (m.heap.put s (some b)).put t (some a) } := by
  unfold swap
  simp only [bind_eq_ok, reading_eq_ok, refuse_eq_ok, readSlot_eq_ok, writeSlot_eq_ok,
    Overlap.ofOperands_eq_none, Overlap.ofIndices_eq_none, Prod.exists]
  constructor
  · rintro ⟨s, r₁, _, ⟨hs, rfl⟩, t, r₂, _, ⟨ht, rfl⟩, _, _, ⟨hne, rfl⟩, _, _, ⟨hr, rfl⟩, a, _,
      ⟨ha, rfl⟩, b, _, ⟨hb, rfl⟩, _, _, ⟨-, hbs, rfl⟩, -, hat, rfl⟩
    rw [Heap.intType_put] at hat
    refine ⟨s, r₁, t, r₂, a, b, hs, ht, ?_, fun u hu => ?_, ha, hb, hbs, hat, rfl⟩
    · simpa [Overlap.slotsOf, Binding.slots] using hne
    · rcases List.mem_append.mp hu with hu | hu
      · simpa [Overlap.slotsOf, Binding.slots] using hr (left.text, r₁) (by simp) u hu
      · simpa [Overlap.slotsOf, Binding.slots] using hr (right.text, r₂) (by simp) u hu
  · rintro ⟨s, r₁, t, r₂, a, b, hs, ht, hne, hr, ha, hb, hbs, hat, rfl⟩
    refine ⟨s, r₁, m, ⟨hs, rfl⟩, t, r₂, m, ⟨ht, rfl⟩, (), m, ⟨?_, rfl⟩, (), m, ⟨?_, rfl⟩,
      a, m, ⟨ha, rfl⟩, b, m, ⟨hb, rfl⟩, (), _, ⟨⟨a, ha⟩, hbs, rfl⟩, ⟨b, ?_⟩, ?_, rfl⟩
    · simpa [Overlap.slotsOf, Binding.slots] using hne
    · simp only [List.mem_cons, List.not_mem_nil, or_false, forall_eq_or_imp, forall_eq]
      constructor <;> intro u hu <;>
        simpa [Overlap.slotsOf, Binding.slots] using hr u (by simp [hu])
    · rw [Heap.cell?_put ha, if_neg hne.symm, hb]
    · rwa [Heap.intType_put]

theorem violate_ne_ok {α : Type} (v : Violation) :
    ∀ (m : Machine) (a : α) (m' : Machine), violate v m ≠ .ok a m' :=
  nofun

theorem onHeap_alloc_apply (id : Nat) (n : Int) (m : Machine) :
    onHeap (Heap.within id (Store.alloc n)) m =
      if (m.heap.store id).intType.contains n then
        .ok (m.heap.fresh id).index { m with heap := m.heap.grow id n }
      else .error (.fault ((Violation.overflow n (m.heap.store id).intType).fault none)) m := by
  unfold onHeap
  rw [Heap.within_alloc_eq]
  by_cases ht : (m.heap.store id).intType.contains n = true <;> simp [ht]

theorem onHeap_alloc_eq_ok {id : Nat} {n i : Int} :
    onHeap (Heap.within id (Store.alloc n)) m = .ok i m' ↔
      (m.heap.store id).intType.contains n = true ∧ i = (m.heap.fresh id).index ∧
        m' = { m with heap := m.heap.grow id n } := by
  rw [onHeap_alloc_apply]
  by_cases ht : (m.heap.store id).intType.contains n = true
  · simp only [ht, if_true, EStateM.Result.ok.injEq, true_and]
    exact and_congr eq_comm eq_comm
  · simp [ht]

theorem onHeap_free_apply (s : Slot) (m : Machine) :
    onHeap (Heap.within s.store (Store.free s.index)) m = match m.heap.cell? s with
      | none => .error (.fault ((Violation.released s.index).fault none)) m
      | some n => .ok n { m with heap := m.heap.put s none } := by
  unfold onHeap
  rw [Heap.within_free_eq]
  cases m.heap.cell? s <;> rfl

theorem onHeap_free_eq_ok {s : Slot} {n : Int} :
    onHeap (Heap.within s.store (Store.free s.index)) m = .ok n m' ↔
      m.heap.cell? s = some n ∧ m' = { m with heap := m.heap.put s none } := by
  rw [onHeap_free_apply]
  cases m.heap.cell? s with
  | none => simp
  | some c =>
    simp only [EStateM.Result.ok.injEq, Option.some.injEq]
    exact and_congr Iff.rfl eq_comm

theorem introduce_eq_ok {name : String} :
    introduce lib name e m = .ok () m' ↔
      ∃ v, (m.scope lib).value e = .ok v ∧ m.frame.has name = false ∧
        (m.heap.store m.frame.locals).intType.contains v.toInt = true ∧
        m' = ⟨{ m.toMemory with heap := m.heap.grow m.frame.locals v.toInt },
          m.frame.push name (.scalar (m.heap.fresh m.frame.locals))⟩ := by
  unfold introduce bind
  simp only [bind_eq_ok, number_eq_ok, get_apply, ite_error_eq_ok (fun _ _ _ => throw_ne_ok),
    onHeap_alloc_eq_ok, modify_apply, pure_eq_ok, EStateM.Result.ok.injEq, Bool.not_eq_true]
  constructor
  · rintro ⟨_, _, ⟨v, hv, rfl, rfl⟩, _, _, ⟨_, _, ⟨rfl, rfl⟩, hn, i, _, ⟨ht, rfl, rfl⟩, _, _,
      ⟨-, rfl⟩, -, rfl⟩, -, rfl⟩
    exact ⟨v, hv, hn, ht, rfl⟩
  · rintro ⟨v, hv, hn, ht, rfl⟩
    exact ⟨_, m, ⟨v, hv, rfl, rfl⟩, _, _, ⟨m, m, ⟨rfl, rfl⟩, hn, _, _, ⟨ht, rfl, rfl⟩, (), _,
      ⟨trivial, rfl⟩, rfl, rfl⟩, trivial, rfl⟩

theorem remove_eq_ok {name : String} :
    remove lib name e m = .ok () m' ↔
      ∃ v s, (m.scope lib).value e = .ok v ∧ m.frame.lookup? name = some (.scalar s) ∧
        m.heap.cell? s = some v.toInt ∧ s.store = m.frame.locals ∧
        m' = ⟨{ m.toMemory with heap := m.heap.put s none }, m.frame.erase name⟩ := by
  unfold remove unbind
  simp only [bind_eq_ok, number_eq_ok, get_apply, ofExcept_eq_ok, readSlot_eq_ok,
    ite_error_eq_ok (violate_ne_ok _), ite_error_eq_ok (fun _ _ _ => throw_ne_ok), modify_apply,
    onHeap_free_eq_ok, pure_eq_ok, EStateM.Result.ok.injEq, not_not, Frame.slot_eq_ok]
  constructor
  · rintro ⟨_, _, ⟨v, hv, rfl, rfl⟩, _, _, ⟨rfl, rfl⟩, s, _, ⟨hs, rfl⟩, _, _, ⟨hc, rfl⟩, rfl, _, _,
      ⟨_, _, ⟨rfl, rfl⟩, t, _, ⟨ht, rfl⟩, hl, _, _, ⟨-, rfl⟩, -, rfl⟩, -, rfl⟩
    obtain rfl : s = t := by simpa [hs] using ht
    exact ⟨v, s, hv, hs, hc, hl, rfl⟩
  · rintro ⟨v, s, hv, hs, hc, hl, rfl⟩
    exact ⟨_, m, ⟨v, hv, rfl, rfl⟩, m, m, ⟨rfl, rfl⟩, s, m, ⟨hs, rfl⟩, _, m, ⟨hc, rfl⟩, rfl, _, _,
      ⟨m, m, ⟨rfl, rfl⟩, s, m, ⟨hs, rfl⟩, hl, (), _, ⟨trivial, rfl⟩, hc, rfl⟩, trivial,
      rfl⟩

/-! ## Arguments -/

/-- The arguments of a call, and the slots read to find them, are covered by the frame. -/
theorem covers_of_arguments {args : List Expr}
    {p : List (String × Binding) × List (String × List Slot)}
    (h : arguments lib args m = .ok p m') :
    m' = m ∧ (∀ s ∈ Overlap.slotsOf p.1, m.frame.Covers s) ∧
      ∀ entry ∈ p.2, ∀ s ∈ entry.2, m.frame.Covers s := by
  induction args generalizing p with
  | nil =>
    obtain ⟨rfl, rfl⟩ := pure_eq_ok.mp h
    simp [Overlap.slotsOf]
  | cons arg rest ih =>
    obtain ⟨⟨b, reads⟩, _, hb', h₁⟩ := bind_eq_ok.mp h
    obtain ⟨hb, rfl⟩ := reading_eq_ok.mp hb'
    obtain ⟨⟨bindings, allReads⟩, _, hrest, h₂⟩ := bind_eq_ok.mp h₁
    obtain ⟨rfl, rfl⟩ := pure_eq_ok.mp h₂
    obtain ⟨rfl, hslots, hreads⟩ := ih hrest
    obtain ⟨hcov, new, hnew, hcovnew⟩ := Scope.covers_of_argument hb
    rw [List.nil_append] at hnew
    refine ⟨rfl, ?_, ?_⟩
    · intro s hs
      rw [Overlap.slotsOf_cons, List.mem_append] at hs
      exact hs.elim (hcov s) (hslots s)
    · intro entry he s hs
      rcases List.mem_cons.mp he with rfl | he
      · exact hcovnew s (hnew ▸ hs)
      · exact hreads entry he s hs

/-- Arguments elsewhere stand for the corresponding slots, if the slots read to find them hold the
same. -/
theorem arguments_of_extends {ρ : Slot → Slot} {n : Machine} {args : List Expr}
    {p : List (String × Binding) × List (String × List Slot)}
    (hx : (m.scope lib).Extends ρ (Expr.namesOfList args) (n.scope lib))
    (h : arguments lib args m = .ok p m)
    (hc : ∀ entry ∈ p.2, ∀ s ∈ entry.2, m.frame.Covers s →
      n.heap.cell? (ρ s) = m.heap.cell? s) :
    arguments lib args n = .ok (p.1.map fun entry => (entry.1, entry.2.rename ρ),
      p.2.map fun entry => (entry.1, entry.2.map ρ)) n := by
  induction args generalizing p with
  | nil =>
    obtain ⟨rfl, -⟩ := pure_eq_ok.mp h
    rfl
  | cons arg rest ih =>
    obtain ⟨⟨b, reads⟩, _, hb', h₁⟩ := bind_eq_ok.mp h
    obtain ⟨hb, rfl⟩ := reading_eq_ok.mp hb'
    obtain ⟨⟨bindings, allReads⟩, _, hrest, h₂⟩ := bind_eq_ok.mp h₁
    obtain ⟨rfl, rfl⟩ := pure_eq_ok.mp h₂
    have harg := Scope.argument_of_extends (hx.mono (by simp [Expr.namesOfList]; tauto)) hb
      (hc (arg.text, reads) (by simp))
    have hargs := ih (hx.mono (by simp [Expr.namesOfList]; tauto)) hrest fun entry he =>
      hc entry (List.mem_cons_of_mem _ he)
    exact bind_eq_ok.mpr ⟨(b.rename ρ, reads.map ρ), n, reading_eq_ok.mpr ⟨harg, rfl⟩,
      bind_eq_ok.mpr ⟨_, n, hargs, rfl⟩⟩

/-! ## Statements made of others -/

section Compound

variable {run : Stmt → Execution Unit}

theorem forM_nil_eq_ok : ([] : List Stmt).forM run m = .ok () m' ↔ m' = m := by
  simp [List.forM, eq_comm]

theorem forM_cons_eq_ok {s : Stmt} {rest : List Stmt} :
    (s :: rest).forM run m = .ok () m' ↔
      ∃ m₁, run s m = .ok () m₁ ∧ rest.forM run m₁ = .ok () m' := by
  rw [List.forM_eq_forM, List.forM_cons, bind_eq_ok]
  exact ⟨fun ⟨_, m₁, h⟩ => ⟨m₁, h⟩, fun ⟨m₁, h⟩ => ⟨(), m₁, h⟩⟩

theorem forM_append_eq_ok {l r : List Stmt} :
    (l ++ r).forM run m = .ok () m' ↔
      ∃ m₁, l.forM run m = .ok () m₁ ∧ r.forM run m₁ = .ok () m' := by
  induction l generalizing m with
  | nil => simp
  | cons s l ih =>
    simp only [List.cons_append, forM_cons_eq_ok, ih]
    constructor
    · rintro ⟨m₁, h₁, m₂, h₂, h₃⟩
      exact ⟨m₂, ⟨m₁, h₁, h₂⟩, h₃⟩
    · rintro ⟨m₂, ⟨m₁, h₁, h₂⟩, h₃⟩
      exact ⟨m₁, h₁, m₂, h₂, h₃⟩

/-- Checks that a condition selects a branch. -/
def check (lib : Library) (e : Expr) (b : Bool) (v : Violation) : Execution Unit := do
  if Branch.of (← test lib e) ≠ Branch.of b then violate v

theorem check_eq_ok {b : Bool} {v : Violation} :
    check lib e b v m = .ok () m' ↔ (m.scope lib).test e = .ok b ∧ m' = m := by
  have hof : ∀ b c, Branch.of b = Branch.of c ↔ b = c := by decide
  unfold check
  simp only [bind_eq_ok, test_eq_ok, ne_eq, hof]
  constructor
  · rintro ⟨c, _, ⟨hc, rfl⟩, h⟩
    by_cases hcb : c = b
    · rw [if_neg (not_not.mpr hcb)] at h
      exact ⟨hcb ▸ hc, (pure_eq_ok.mp h).2.symm⟩
    · rw [if_pos hcb] at h
      exact absurd h (violate_ne_ok v _ _ _)
  · rintro ⟨hb, rfl⟩
    exact ⟨b, m', ⟨hb, rfl⟩, by simp⟩

/-- What a conditional checks when its branch has run. -/
def confirm (lib : Library) (d : Direction) (guard assertion : Expr) (b : Bool) : Execution Unit :=
  match d with
  | .forward => check lib assertion b (.unconfirmed assertion.text (Branch.of b).name)
  | .backward =>
    if lib.settings.checkGuardOnBackward then
      check lib guard b (.unselected guard.text (Branch.of b).name)
    else pure ()

theorem branch_eq (lib : Library) (run : Stmt → Execution Unit) (d : Direction)
    (guard assertion : Expr) (thenBody elseBody : List Stmt) :
    branch lib run d guard thenBody elseBody assertion = (do
      let b ← test lib (d.pick guard assertion)
      block run d (if b then thenBody else elseBody)
      confirm lib d guard assertion b) := by
  have hbody : ∀ b, (Branch.of b).body thenBody elseBody = if b then thenBody else elseBody := by
    intro b
    cases b <;> rfl
  cases d <;> simp only [branch, hbody] <;> rfl

theorem confirm_eq_ok {d : Direction} {guard assertion : Expr} {b : Bool} :
    confirm lib d guard assertion b m = .ok () m' ↔
      (lib.Checks d → (m.scope lib).test (d.pick assertion guard) = .ok b) ∧ m' = m := by
  cases d with
  | forward => simp [confirm, check_eq_ok, Library.Checks, Direction.pick]
  | backward =>
    by_cases hflag : lib.settings.checkGuardOnBackward = true
    · simp [confirm, check_eq_ok, Library.Checks, Direction.pick, hflag]
    · simp [confirm, Library.Checks, hflag, eq_comm]

theorem branch_eq_ok {d : Direction} {guard assertion : Expr} {thenBody elseBody : List Stmt} :
    branch lib run d guard thenBody elseBody assertion m = .ok () m' ↔
      ∃ b, (m.scope lib).test (d.pick guard assertion) = .ok b ∧
        block run d (if b then thenBody else elseBody) m = .ok () m' ∧
        (lib.Checks d → (m'.scope lib).test (d.pick assertion guard) = .ok b) := by
  rw [branch_eq]
  simp only [bind_eq_ok, test_eq_ok, confirm_eq_ok]
  constructor
  · rintro ⟨b, _, ⟨hb, rfl⟩, _, _, hblock, hc, rfl⟩
    exact ⟨b, hb, hblock, hc⟩
  · rintro ⟨b, hb, hblock, hc⟩
    exact ⟨b, m, ⟨hb, rfl⟩, (), m', hblock, hc, rfl⟩

/-- What a loop does again until its last condition holds. -/
def again (lib : Library) (run : Stmt → Execution Unit) (d : Direction) (first : Expr)
    (doBody loopBody : List Stmt) (iteration : Nat) : Execution Unit := do
  block run d loopBody
  if ← test lib first then violate (.loopReentered first.text iteration)
  block run d doBody

theorem again_eq_ok {d : Direction} {first : Expr} {doBody loopBody : List Stmt} {i : Nat} :
    again lib run d first doBody loopBody i m = .ok () m' ↔
      ∃ m₁, block run d loopBody m = .ok () m₁ ∧ (m₁.scope lib).test first = .ok false ∧
        block run d doBody m₁ = .ok () m' := by
  unfold again
  simp only [bind_eq_ok, test_eq_ok, ite_error_eq_ok (violate_ne_ok _), Bool.not_eq_true]
  constructor
  · rintro ⟨_, _, h₁, _, m₁, ⟨ht, rfl⟩, rfl, h₂⟩
    exact ⟨m₁, h₁, ht, h₂⟩
  · rintro ⟨m₁, h₁, ht, h₂⟩
    exact ⟨(), m₁, h₁, false, m₁, ⟨ht, rfl⟩, rfl, h₂⟩

theorem repeatUntil_succ_apply (last : Expr) (body : Nat → Execution Unit) (fuel i : Nat)
    (m : Machine) :
    repeatUntil (test lib last) body (fuel + 1) i m = match (m.scope lib).test last with
      | .error f => .error (.fault f) m
      | .ok true => .ok () m
      | .ok false =>
        (body (i + 1) >>= fun _ => repeatUntil (test lib last) body fuel (i + 1)) m := by
  rw [repeatUntil]
  change (ofExcept ((m.scope lib).test last) >>= _) m = _
  cases (m.scope lib).test last with
  | error f => rfl
  | ok b => cases b <;> rfl

theorem repeatUntil_succ_eq_ok {last : Expr} {body : Nat → Execution Unit} {fuel i : Nat} :
    repeatUntil (test lib last) body (fuel + 1) i m = .ok () m' ↔
      ((m.scope lib).test last = .ok true ∧ m' = m) ∨
        ((m.scope lib).test last = .ok false ∧ ∃ m₁, body (i + 1) m = .ok () m₁ ∧
          repeatUntil (test lib last) body fuel (i + 1) m₁ = .ok () m') := by
  rw [repeatUntil]
  simp only [bind_eq_ok, test_eq_ok]
  constructor
  · rintro ⟨b, _, ⟨hb, rfl⟩, h⟩
    cases b with
    | true =>
      obtain ⟨-, rfl⟩ := pure_eq_ok.mp h
      exact Or.inl ⟨hb, rfl⟩
    | false =>
      obtain ⟨_, m₁, h₁, h₂⟩ := bind_eq_ok.mp h
      exact Or.inr ⟨hb, m₁, h₁, h₂⟩
  · rintro (⟨hb, rfl⟩ | ⟨hb, m₁, h₁, h₂⟩)
    · exact ⟨true, m', ⟨hb, rfl⟩, rfl⟩
    · exact ⟨false, m, ⟨hb, rfl⟩, bind_eq_ok.mpr ⟨(), m₁, h₁, h₂⟩⟩

theorem loop_eq (lib : Library) (run : Stmt → Execution Unit) (fuel : Nat) (d : Direction)
    (entry exit : Expr) (doBody loopBody : List Stmt) :
    loop lib run fuel d entry doBody loopBody exit = (do
      if !(← test lib (d.pick entry exit)) then
        violate (.loopNotEntered (d.pick entry exit).text)
      block run d doBody
      repeatUntil (test lib (d.pick exit entry))
        (again lib run d (d.pick entry exit) doBody loopBody) fuel 0) := by
  cases d <;> rfl

theorem loop_eq_ok {fuel : Nat} {d : Direction} {entry exit : Expr} {doBody loopBody : List Stmt} :
    loop lib run fuel d entry doBody loopBody exit m = .ok () m' ↔
      (m.scope lib).test (d.pick entry exit) = .ok true ∧
        ∃ m₁, block run d doBody m = .ok () m₁ ∧
          repeatUntil (test lib (d.pick exit entry))
            (again lib run d (d.pick entry exit) doBody loopBody) fuel 0 m₁ = .ok () m' := by
  rw [loop_eq]
  simp only [bind_eq_ok, test_eq_ok, ite_error_eq_ok (violate_ne_ok _), Bool.not_eq_true',
    Bool.not_eq_false]
  constructor
  · rintro ⟨_, _, ⟨ht, rfl⟩, rfl, _, m₁, h₁, h₂⟩
    exact ⟨ht, m₁, h₁, h₂⟩
  · rintro ⟨ht, m₁, h₁, h₂⟩
    exact ⟨true, m, ⟨ht, rfl⟩, rfl, (), m₁, h₁, h₂⟩

end Compound

end Execution

/-! ## Procedures -/

/-- The frame of a procedure before its parameters are bound. -/
def Library.frameOf (lib : Library) (p : Procedure) (depth : Int) (mem : Memory) : Frame :=
  { procedure := p.name, intType := lib.intType, depth := depth, locals := mem.heap.size }

/-- The machine in which the body of a procedure starts. -/
def Library.entered (lib : Library) (p : Procedure) (args : List Binding) (d : Direction)
    (depth : Int) (mem : Memory) : Machine where
  heap := mem.heap.push { intType := lib.intType }
  log := .entering depth d p.name :: mem.log
  frame := { lib.frameOf p depth mem with bindings := p.paramNames.zip args }

/-- The memory that is left when a procedure has ended. -/
def Machine.left (m : Machine) : Memory := { m.toMemory with heap := m.heap.pop }

namespace Execution

variable {lib : Library} {run : Direction → Stmt → Execution Unit} {d : Direction}

theorem inFrame_apply (procedure : String) (intType : IntType) (depth : Int)
    (work : Execution Unit) (mem : Memory) :
    MemoryAction.inFrame procedure intType depth work mem =
      embed Machine.left (work ⟨{ mem with heap := mem.heap.push { intType } },
        { procedure, intType, depth, locals := mem.heap.size }⟩) := by
  simp only [MemoryAction.inFrame]
  cases work ⟨{ mem with heap := mem.heap.push { intType } },
    { procedure, intType, depth, locals := mem.heap.size }⟩ <;> rfl

/-- Running a procedure is running its body in a frame of its own, once its parameters are bound. -/
theorem runProcedure_apply (p : Procedure) (args : List Binding) (depth : Int) (mem : Memory) :
    runProcedure lib run p args d depth mem =
      if depth > lib.settings.maxCallDepth then
        .error (.fault ((Violation.tooDeep depth lib.settings.maxCallDepth).fault (some p.name)))
          mem
      else if args.length ≠ p.params.length then
        .error (.fault (.argumentCount p.name p.params.length args.length)) mem
      else match (lib.frameOf p depth mem).attachAll (p.paramNames.zip args) with
        | .error f => .error (.fault f) mem
        | .ok _ =>
          embed Machine.left (block (run d) d p.body (lib.entered p args d depth mem)) := by
  unfold runProcedure
  by_cases hdepth : depth > lib.settings.maxCallDepth
  · simp only [hdepth, if_true, bind_apply, throw_apply]
  by_cases hcount : args.length ≠ p.params.length
  · simp only [hdepth, hcount, if_true, if_false, bind_apply, throw_apply, ne_eq,
      not_false_eq_true]
  simp only [hdepth, hcount, if_false, inFrame_apply, bind_apply, get_apply]
  cases hattach : (lib.frameOf p depth mem).attachAll (p.paramNames.zip args) with
  | error f =>
    unfold Library.frameOf at hattach
    simp only [hattach, ofExcept, throw_apply, embed_error, Machine.left, Heap.pop_push]
  | ok frame =>
    obtain ⟨hframe, -, -⟩ := Frame.attachAll_eq_ok.mp hattach
    unfold Library.frameOf at hattach
    simp only [hattach, ofExcept, pure_apply, modify_apply, record, hframe]
    rfl

theorem runProcedure_eq_ok {p : Procedure} {args : List Binding} {depth : Int}
    {mem mem' : Memory} :
    runProcedure lib run p args d depth mem = .ok () mem' ↔
      depth ≤ lib.settings.maxCallDepth ∧ args.length = p.params.length ∧
        (p.paramNames.zip args).Pairwise Frame.Apart ∧
        ∃ m', block (run d) d p.body (lib.entered p args d depth mem) = .ok () m' ∧
          mem' = m'.left := by
  rw [runProcedure_apply]
  by_cases hdepth : depth > lib.settings.maxCallDepth
  · simp only [hdepth, if_true, reduceCtorEq, false_iff]
    exact fun h => absurd h.1 (Int.not_le.mpr hdepth)
  by_cases hcount : args.length ≠ p.params.length
  · simp [hdepth, hcount]
  rw [if_neg hdepth, if_neg hcount]
  simp only [Int.not_lt.mp hdepth, not_not.mp hcount, true_and]
  cases hattach : (lib.frameOf p depth mem).attachAll (p.paramNames.zip args) with
  | error f =>
    simp only [reduceCtorEq, false_iff]
    rintro ⟨happart, -⟩
    rw [Frame.attachAll_eq_ok.mpr ⟨rfl, happart, by simp [Library.frameOf]⟩] at hattach
    cases hattach
  | ok frame =>
    obtain ⟨-, happart, -⟩ := Frame.attachAll_eq_ok.mp hattach
    simp only [happart, true_and, embed_eq_ok]

theorem onMemory_apply {α : Type} (work : MemoryAction α) (m : Machine) :
    onMemory work m = embed (fun mem => ⟨mem, m.frame⟩) (work m.toMemory) := by
  unfold onMemory
  cases work m.toMemory <;> rfl

theorem after_onMemory {α : Type} (work : MemoryAction α) (m : Machine) :
    after (onMemory work) m = ⟨after work m.toMemory, m.frame⟩ := by
  unfold after
  rw [onMemory_apply]
  cases work m.toMemory <;> rfl

theorem call_eq_ok {m m' : Machine} {callee : String} {args : List Expr} {uncall : Bool} :
    call lib run d callee args uncall m = .ok () m' ↔
      ∃ p bindings reads mem', lib.get callee = .ok p ∧
        arguments lib args m = .ok (bindings, reads) m ∧ (Overlap.slotsOf bindings).Nodup ∧
        (∀ entry ∈ reads, ∀ s ∈ entry.2, s ∉ Overlap.slotsOf bindings) ∧
        runProcedure lib run p (bindings.map Prod.snd) (if uncall then d.flip else d)
          (m.frame.depth + 1) m.toMemory = .ok () mem' ∧
        m' = ⟨mem', m.frame⟩ := by
  have hmem : ∀ {work : MemoryAction Unit} {a : Unit} {m m' : Machine},
      onMemory work m = .ok a m' ↔
        ∃ mem', work m.toMemory = .ok () mem' ∧ m' = ⟨mem', m.frame⟩ := by
    intro work a m m'
    rw [onMemory_apply, embed_eq_ok]
  unfold call
  simp only [bind_eq_ok, ofExcept_eq_ok, refuse_eq_ok, Overlap.ofOperands_eq_none,
    Overlap.ofIndices_eq_none, get_apply, EStateM.Result.ok.injEq, hmem, Prod.exists]
  constructor
  · rintro ⟨p, _, ⟨hp, rfl⟩, bindings, reads, _, hargs, _, _, ⟨hnodup, rfl⟩, _, _, ⟨hreads, rfl⟩,
      _, _, ⟨rfl, rfl⟩, mem', hrun, rfl⟩
    obtain ⟨rfl, -, -⟩ := covers_of_arguments hargs
    exact ⟨p, bindings, reads, mem', hp, hargs, hnodup, hreads, hrun, rfl⟩
  · rintro ⟨p, bindings, reads, mem', hp, hargs, hnodup, hreads, hrun, rfl⟩
    exact ⟨p, m, ⟨hp, rfl⟩, bindings, reads, m, hargs, (), m, ⟨hnodup, rfl⟩, (), m, ⟨hreads, rfl⟩,
      m, m, ⟨rfl, rfl⟩, mem', hrun, rfl⟩

/-! ## All statements -/

/-- The machine after a statement was logged. -/
def traced (s : Stmt) (m : Machine) : Machine :=
  if s.isBlock then m
  else ⟨m.toMemory.record (.executing m.frame.depth m.frame.procedure s), m.frame⟩

@[simp] theorem heap_traced (s : Stmt) (m : Machine) : (traced s m).heap = m.heap := by
  unfold traced
  split <;> rfl

@[simp] theorem frame_traced (s : Stmt) (m : Machine) : (traced s m).frame = m.frame := by
  unfold traced
  split <;> rfl

theorem trace_apply (s : Stmt) (m : Machine) : trace s m = .ok () (traced s m) := by
  unfold trace traced
  cases s.isBlock <;> simp [bind_apply, record]

theorem annotated_eq_ok {s : Stmt} {work : Execution Unit} {m m' : Machine} :
    annotated s work m = .ok () m' ↔ work m = .ok () m' := by
  unfold annotated
  split <;> simp_all

theorem annotated_eq_exhausted {s : Stmt} {work : Execution Unit} {m m' : Machine} :
    annotated s work m = .error .exhausted m' ↔ work m = .error .exhausted m' := by
  unfold annotated
  split <;> simp_all

theorem after_annotated (s : Stmt) (work : Execution Unit) (m : Machine) :
    after (annotated s work) m = after work m := by
  unfold after annotated
  cases hwork : work m with
  | ok a m' => rfl
  | error stop m' =>
    cases stop with
    | exhausted => rfl
    | fault f => cases f <;> rfl

theorem exec_succ_eq_ok {fuel : Nat} {s : Stmt} {m m' : Machine} :
    exec lib (fuel + 1) d s m = .ok () m' ↔
      step lib (exec lib fuel) fuel d s (traced s m) = .ok () m' := by
  rw [exec, bind_apply, trace_apply]
  exact annotated_eq_ok

theorem exec_zero_ne_ok {s : Stmt} {m m' : Machine} : exec lib 0 d s m ≠ .ok () m' :=
  nofun

end Execution

/-! ## Invocations -/

namespace Library

variable {lib : Library} {fuel : Nat} {args : List Binding} {d : Direction} {mem mem' : Memory}

/-- The outcome of an invocation, from that of its run. Stores are poisoned where it failed. -/
def concluded (p : Procedure) (args : List Binding) (d : Direction) :
    EStateM.Result Stop Memory Unit → EStateM.Result Stop Memory Unit
  | .ok _ m => .ok () m
  | .error .exhausted m => .error .exhausted m
  | .error (.fault f) m =>
    .error (.fault f) { heap := m.heap.poison (Binding.storesOf args)
                        log := .failed d p.name (Invocation.reason f) :: m.log }

theorem concluded_eq_ok {p : Procedure} {r : EStateM.Result Stop Memory Unit} :
    concluded p args d r = .ok () mem ↔ r = .ok () mem := by
  cases r with
  | ok a m => rfl
  | error stop m => cases stop <;> simp [concluded]

theorem concluded_eq_exhausted {p : Procedure} {r : EStateM.Result Stop Memory Unit} :
    concluded p args d r = .error .exhausted mem ↔ r = .error .exhausted mem := by
  cases r with
  | ok a m => simp [concluded]
  | error stop m => cases stop <;> simp [concluded]

/-- Running a procedure by its name, step by step. -/
theorem runNamed_apply (lib : Library) (fuel : Nat) (name : String) (args : List Binding)
    (d : Direction) (mem : Memory) :
    lib.runNamed fuel name args d mem = match lib.get name with
      | .error f => .error (.fault f) mem
      | .ok p =>
        if (Binding.storesOf args).any fun id => (mem.heap.store id).poisoned then
          .error (.fault (Violation.poisoned.fault (some p.name))) mem
        else concluded p args d (lib.run fuel p args d 0 mem) := by
  cases hget : lib.get name with
  | error f => simp only [runNamed, invoke, hget, bind, Except.bind]
  | ok p =>
    have hinvoke : lib.invoke name args d = .ok { procedure := p, args, direction := d } := by
      simp only [invoke, hget, bind, Except.bind, pure, Except.pure]
    simp only [runNamed, hinvoke, Invocation.run, Invocation.stores, ne_eq, not_true_eq_false,
      if_false]
    by_cases hpoison : ((Binding.storesOf args).any fun id => (mem.heap.store id).poisoned) = true
    · simp only [hpoison, if_true]
    · simp only [hpoison, if_false, Bool.false_eq_true]
      cases lib.run fuel p args d 0 mem with
      | ok a m => rfl
      | error stop m => cases stop <;> rfl

theorem runNamed_eq_ok {name : String} :
    lib.runNamed fuel name args d mem = .ok () mem' ↔
      ∃ p, lib.get name = .ok p ∧
        (∀ id ∈ Binding.storesOf args, (mem.heap.store id).poisoned = false) ∧
        lib.run fuel p args d 0 mem = .ok () mem' := by
  rw [runNamed_apply]
  cases lib.get name with
  | error f => simp
  | ok p =>
    simp only [Except.ok.injEq, exists_eq_left']
    by_cases hpoison : ((Binding.storesOf args).any fun id => (mem.heap.store id).poisoned) = true
    · rw [if_pos hpoison]
      obtain ⟨id, hid, htrue⟩ := List.any_eq_true.mp hpoison
      refine ⟨nofun, fun h => ?_⟩
      rw [h.1 id hid] at htrue
      cases htrue
    · rw [if_neg hpoison]
      have hclean : ∀ id ∈ Binding.storesOf args, (mem.heap.store id).poisoned = false := by
        simpa using hpoison
      rw [and_iff_right hclean, concluded_eq_ok]

end Library

end Retrace
