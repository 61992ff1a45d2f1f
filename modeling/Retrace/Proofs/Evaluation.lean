import Retrace.Eval.Expr
import Retrace.Proofs.Actions
import Retrace.Proofs.Frame

/-!
# Evaluation under other names of slots

What an expression comes to depends on the values of the slots that it reads, and not on where
these slots are. `eval_of_extends` says so for two scopes in which the same names stand for
corresponding slots: if `ρ` takes the slots of the one to those of the other, and the slots that
were read hold the same, the value is the same, and the slots that are read correspond.

The second scope may know more names than the first one. So this also covers a local that begins
between two evaluations; and, for an expression that does not name it, one that ends.
-/

namespace Retrace

open Actions

/-! ## How evaluation can fail -/

/-- If the result is a fault, it has the property. -/
def Fault.Only {α : Type} (P : Fault → Prop) (r : Except Fault α) : Prop := ∀ f, r = .error f → P f

namespace Fault.Only

variable {α β : Type} {P : Fault → Prop}

theorem ok (a : α) : Fault.Only P (.ok a : Except Fault α) := nofun

theorem error {f : Fault} (h : P f) : Fault.Only P (.error f : Except Fault α) := by
  intro g hg
  cases hg
  exact h

theorem bind {r : Except Fault α} {k : α → Except Fault β} (h : Fault.Only P r)
    (hk : ∀ a, Fault.Only P (k a)) : Fault.Only P (r >>= k) := by
  cases r with
  | ok a => exact hk a
  | error f => exact .error (h f rfl)

theorem ite {c : Prop} [Decidable c] {r r' : Except Fault α} (h : c → Fault.Only P r)
    (h' : ¬c → Fault.Only P r') : Fault.Only P (if c then r else r') := by
  split
  · exact h ‹_›
  · exact h' ‹_›

end Fault.Only

/-- The property holds for every violation but those of overlapping storage. -/
def Fault.Spans (P : Fault → Prop) : Prop :=
  ∀ (v : Violation) procedure, v.rule ≠ .aliasViolation → P (v.fault procedure)

/-- The property holds for every violation in the procedure of the frame, but those of overlapping
storage, of calls that nest too deep and of numbers that do not fit. -/
def Frame.Spans (f : Frame) (P : Fault → Prop) : Prop :=
  ∀ v : Violation, v.rule ≠ .aliasViolation → v.rule ≠ .callDepthExceeded →
    v.rule ≠ .arithmeticOverflow → P (f.fault v)

section Only

variable {P : Fault → Prop} {f : Frame}

theorem Fault.Spans.frame (hP : Fault.Spans P) (f : Frame) : f.Spans P := fun v hv _ _ => hP v _ hv

theorem Heap.only_read (hP : ∀ i, P ((Violation.released i).fault none)) (h : Heap) (s : Slot) :
    Fault.Only P (h.read s) := by
  unfold Heap.read
  cases h.cell? s with
  | some value => exact .ok value
  | none => exact .error (hP _)

theorem Frame.only_lookup (hP : f.Spans P) (name : String) : Fault.Only P (f.lookup name) := by
  unfold lookup
  cases f.lookup? name with
  | some b => exact .ok b
  | none => exact .error (hP _ nofun nofun nofun)

theorem Frame.only_slot (hP : f.Spans P) (name : String) : Fault.Only P (f.slot name) := by
  refine (f.only_lookup hP name).bind fun b => ?_
  cases b with
  | scalar s => exact .ok s
  | array slots => exact .error (hP _ nofun nofun nofun)

theorem Frame.only_element (hP : f.Spans P) (name : String) (i : Int) :
    Fault.Only P (f.element name i) := by
  have harray : Fault.Only P (f.array name) := by
    refine (f.only_lookup hP name).bind fun b => ?_
    cases b with
    | scalar s => exact .error (hP _ nofun nofun nofun)
    | array slots => exact .ok slots
  refine harray.bind fun slots => .ite (fun _ => ?_) fun _ => .error (hP _ nofun nofun nofun)
  cases slots[i.toNat]? with
  | some s => exact .ok s
  | none => exact .error (hP _ nofun nofun nofun)

theorem BinaryOp.only_apply (hP : f.Spans P) (op : BinaryOp) (l r : Int) :
    Fault.Only P (op.apply f l r) := by
  cases op with
  | div | rem => exact .ite (fun _ => .error (hP _ nofun nofun nofun)) fun _ => .ok _
  | shiftLeft | shiftRight => exact .ite (fun _ => .ok _) fun _ => .error (hP _ nofun nofun nofun)
  | _ => exact .ok _

end Only

namespace BinaryOp

theorem apply_of_ok {op : BinaryOp} {f g : Frame} (hw : f.intType.bits ≤ g.intType.bits)
    {l r : Int} {v : Value} (h : op.apply f l r = .ok v) : op.apply g l r = .ok v := by
  cases op with
  | div | rem =>
    simp only [apply] at h ⊢
    by_cases hr : r = 0
    · simp [hr] at h
    · simpa [hr] using h
  | shiftLeft | shiftRight =>
    simp only [apply] at h ⊢
    by_cases hr : 0 ≤ r ∧ r < f.intType.bits
    · rw [if_pos hr] at h
      rw [if_pos ⟨hr.1, by omega⟩]
      exact h
    · rw [if_neg hr] at h
      cases h
  | _ => exact h

/-- What the left side decides alone. -/
def settled? : BinaryOp → Bool → Option Bool
  | .both, false => some false
  | .either, true => some true
  | _, _ => none

end BinaryOp

namespace Scope

/-- Whatever `s` sees under the given names, `t` sees it too, with `ρ s` in the place of `s`; and
shifts may count as far in `t`. -/
structure Extends (ρ : Slot → Slot) (names : List String) (s t : Scope) : Prop where
  functions : t.functions = s.functions
  width : s.frame.intType.bits ≤ t.frame.intType.bits
  lookup : ∀ x ∈ names, ∀ b, s.frame.lookup? x = some b → t.frame.lookup? x = some (b.rename ρ)

namespace Extends

variable {ρ : Slot → Slot} {names names' : List String} {s t : Scope}

theorem mono (h : s.Extends ρ names t) (hsub : ∀ x ∈ names', x ∈ names) : s.Extends ρ names' t :=
  ⟨h.functions, h.width, fun x hx => h.lookup x (hsub x hx)⟩

theorem slot (h : s.Extends ρ names t) {x : String} (hx : x ∈ names) {u : Slot}
    (hu : s.frame.slot x = .ok u) : t.frame.slot x = .ok (ρ u) :=
  Frame.slot_eq_ok.mpr (h.lookup x hx _ (Frame.slot_eq_ok.mp hu))

theorem element (h : s.Extends ρ names t) {x : String} (hx : x ∈ names) {i : Int} {u : Slot}
    (hu : s.frame.element x i = .ok u) : t.frame.element x i = .ok (ρ u) := by
  obtain ⟨slots, hl, hi, hs⟩ := Frame.element_eq_ok.mp hu
  exact Frame.element_eq_ok.mpr ⟨slots.map ρ, h.lookup x hx _ hl, hi, by simp [hs]⟩

end Extends

/-! ## Reading -/

theorem readSlot_eq_ok {s : Scope} {u : Slot} {reads reads' : List Slot} {n : Int} :
    s.readSlot u reads = .ok n reads' ↔ s.heap.cell? u = some n ∧ reads' = reads ++ [u] := by
  unfold readSlot Heap.read
  rw [bind_apply, modify_apply]
  cases s.heap.cell? u <;> simp [eq_comm]

theorem eval_binary (s : Scope) (loc : Option Location) (op : String) (left right : Expr) :
    s.eval (.binary loc op left right) = (do
      let l ← s.eval left
      match BinaryOp.ofSymbol? op with
      | none => do
        let _ ← s.eval right
        throw (.unknownBinary op)
      | some o =>
        match o.settled? l.holds with
        | some b => pure (.bool b)
        | none => do
          let r ← s.eval right
          MonadExcept.ofExcept (o.apply s.frame l.toInt r.toInt)) := by
  rw [eval]
  congr 1
  funext l
  cases BinaryOp.ofSymbol? op with
  | none => rfl
  | some o => cases o <;> cases l.holds <;> rfl

/-- An operator has a value if the left side decides it, or if both sides have one that it joins. -/
theorem eval_binary_eq_ok {s : Scope} {loc : Option Location} {op : String} {left right : Expr}
    {reads reads' : List Slot} {v : Value} :
    s.eval (.binary loc op left right) reads = .ok v reads' ↔
      ∃ o l r₁, BinaryOp.ofSymbol? op = some o ∧ s.eval left reads = .ok l r₁ ∧
        ((∃ b, o.settled? l.holds = some b ∧ v = .bool b ∧ reads' = r₁) ∨
          (o.settled? l.holds = none ∧ ∃ r, s.eval right r₁ = .ok r reads' ∧
            o.apply s.frame l.toInt r.toInt = .ok v)) := by
  rw [eval_binary, bind_eq_ok]
  cases ho : BinaryOp.ofSymbol? op with
  | none =>
    simp only [bind_eq_ok, throw_ne_ok, and_false, exists_const, reduceCtorEq, false_and]
  | some o =>
    constructor
    · rintro ⟨l, r₁, hl, h⟩
      refine ⟨o, l, r₁, rfl, hl, ?_⟩
      cases hs : o.settled? l.holds with
      | some b =>
        simp only [hs] at h
        obtain ⟨rfl, rfl⟩ := pure_eq_ok.mp h
        exact Or.inl ⟨b, rfl, rfl, rfl⟩
      | none =>
        simp only [hs] at h
        obtain ⟨r, r₂, hr, h⟩ := bind_eq_ok.mp h
        obtain ⟨ha, rfl⟩ := ofExcept_eq_ok.mp h
        exact Or.inr ⟨rfl, r, hr, ha⟩
    · rintro ⟨o', l, r₁, ho', hl, h⟩
      obtain rfl := Option.some.inj ho'
      refine ⟨l, r₁, hl, ?_⟩
      rcases h with ⟨b, hs, rfl, rfl⟩ | ⟨hs, r, hr, ha⟩
      · simp only [hs]
        rfl
      · simp only [hs]
        exact bind_eq_ok.mpr ⟨r, reads', hr, ofExcept_eq_ok.mpr ⟨ha, rfl⟩⟩

mutual

/-- An evaluation adds slots that the frame covers to those read before. -/
theorem reads_of_eval {s : Scope} : ∀ {e : Expr} {reads reads' : List Slot} {v : Value},
    s.eval e reads = .ok v reads' → ∃ new, reads' = reads ++ new ∧ ∀ u ∈ new, s.frame.Covers u
  | .int _ n, reads, reads', v, h => by
    rw [eval] at h
    obtain ⟨-, rfl⟩ := pure_eq_ok.mp h
    exact ⟨[], by simp, by simp⟩
  | .bool _ b, reads, reads', v, h => by
    rw [eval] at h
    obtain ⟨-, rfl⟩ := pure_eq_ok.mp h
    exact ⟨[], by simp, by simp⟩
  | .var _ x, reads, reads', v, h => by
    rw [eval] at h
    obtain ⟨u, _, hu', h⟩ := bind_eq_ok.mp h
    obtain ⟨hu, rfl⟩ := ofExcept_eq_ok.mp hu'
    obtain ⟨n, _, hn, h⟩ := bind_eq_ok.mp h
    obtain ⟨-, rfl⟩ := pure_eq_ok.mp h
    obtain ⟨-, rfl⟩ := readSlot_eq_ok.mp hn
    exact ⟨[u], rfl, by simpa using Frame.covers_of_slot hu⟩
  | .elem _ x index, reads, reads', v, h => by
    rw [eval] at h
    obtain ⟨i, r₁, hi, h⟩ := bind_eq_ok.mp h
    obtain ⟨new, rfl, hnew⟩ := reads_of_eval hi
    obtain ⟨u, _, hu', h⟩ := bind_eq_ok.mp h
    obtain ⟨hu, rfl⟩ := ofExcept_eq_ok.mp hu'
    obtain ⟨n, _, hn, h⟩ := bind_eq_ok.mp h
    obtain ⟨-, rfl⟩ := pure_eq_ok.mp h
    obtain ⟨-, rfl⟩ := readSlot_eq_ok.mp hn
    refine ⟨new ++ [u], by simp, fun w hw => ?_⟩
    rcases List.mem_append.mp hw with hw | hw
    · exact hnew w hw
    · rw [List.mem_singleton.mp hw]
      exact Frame.covers_of_element hu
  | .binary _ op left right, reads, reads', v, h => by
    obtain ⟨o, l, r₁, -, hl, h⟩ := eval_binary_eq_ok.mp h
    obtain ⟨new₁, rfl, hnew₁⟩ := reads_of_eval hl
    rcases h with ⟨b, -, -, rfl⟩ | ⟨-, r, hr, -⟩
    · exact ⟨new₁, rfl, hnew₁⟩
    · obtain ⟨new₂, rfl, hnew₂⟩ := reads_of_eval hr
      refine ⟨new₁ ++ new₂, by simp, fun u hu => ?_⟩
      exact (List.mem_append.mp hu).elim (hnew₁ u) (hnew₂ u)
  | .unary _ op operand, reads, reads', v, h => by
    rw [eval] at h
    obtain ⟨w, r₁, hw, h⟩ := bind_eq_ok.mp h
    obtain ⟨new, rfl, hnew⟩ := reads_of_eval hw
    cases ho : UnaryOp.ofSymbol? op with
    | none =>
      rw [ho] at h
      cases h
    | some o =>
      rw [ho] at h
      obtain ⟨-, rfl⟩ := pure_eq_ok.mp h
      exact ⟨new, rfl, hnew⟩
  | .call _ name args, reads, reads', v, h => by
    rw [eval] at h
    cases hf : Datum.field? name s.functions with
    | none =>
      rw [hf] at h
      cases h
    | some f =>
      rw [hf] at h
      obtain ⟨values, r₁, hvs, h⟩ := bind_eq_ok.mp h
      obtain ⟨new, rfl, hnew⟩ := reads_of_evalAll hvs
      obtain ⟨n, r₂, hn, h⟩ := bind_eq_ok.mp h
      obtain ⟨-, rfl⟩ := ofExcept_eq_ok.mp hn
      obtain ⟨-, rfl⟩ := pure_eq_ok.mp h
      exact ⟨new, rfl, hnew⟩
  | .update .., reads, reads', v, h => by
    rw [eval] at h
    cases h
  | .hole _, reads, reads', v, h => by
    rw [eval] at h
    cases h

theorem reads_of_evalAll {s : Scope} : ∀ {es : List Expr} {reads reads' : List Slot}
    {values : List Int}, s.evalAll es reads = .ok values reads' →
      ∃ new, reads' = reads ++ new ∧ ∀ u ∈ new, s.frame.Covers u
  | [], reads, reads', values, h => by
    rw [evalAll] at h
    obtain ⟨-, rfl⟩ := pure_eq_ok.mp h
    exact ⟨[], by simp, by simp⟩
  | e :: es, reads, reads', values, h => by
    rw [evalAll] at h
    obtain ⟨v, r₁, hv, h⟩ := bind_eq_ok.mp h
    obtain ⟨new₁, rfl, hnew₁⟩ := reads_of_eval hv
    obtain ⟨vs, r₂, hvs, h⟩ := bind_eq_ok.mp h
    obtain ⟨new₂, rfl, hnew₂⟩ := reads_of_evalAll hvs
    obtain ⟨-, rfl⟩ := pure_eq_ok.mp h
    refine ⟨new₁ ++ new₂, by simp, fun u hu => ?_⟩
    exact (List.mem_append.mp hu).elim (hnew₁ u) (hnew₂ u)

end

/-! ## The same evaluation elsewhere -/

section Transfer

variable {ρ : Slot → Slot} {s t : Scope}

/-- A slot that holds the same elsewhere is read with the same result there. -/
theorem readSlot_transfer {u : Slot} {reads reads' : List Slot} {n : Int}
    (h : s.readSlot u reads = .ok n reads') (hu : t.heap.cell? (ρ u) = s.heap.cell? u) :
    t.readSlot (ρ u) (reads.map ρ) = .ok n (reads'.map ρ) := by
  obtain ⟨hn, rfl⟩ := readSlot_eq_ok.mp h
  exact readSlot_eq_ok.mpr ⟨hu.trans hn, by simp⟩

mutual

/-- **An expression comes to the same in a scope that extends the first one** and holds the same in
the slots that were read. -/
theorem eval_of_extends : ∀ {e : Expr} {reads reads' : List Slot} {v : Value},
    s.Extends ρ e.names t → s.eval e reads = .ok v reads' →
      (∀ u ∈ reads', s.frame.Covers u → t.heap.cell? (ρ u) = s.heap.cell? u) →
        t.eval e (reads.map ρ) = .ok v (reads'.map ρ)
  | .int _ n, reads, reads', v, _, h, _ => by
    rw [eval] at h ⊢
    obtain ⟨rfl, rfl⟩ := pure_eq_ok.mp h
    rfl
  | .bool _ b, reads, reads', v, _, h, _ => by
    rw [eval] at h ⊢
    obtain ⟨rfl, rfl⟩ := pure_eq_ok.mp h
    rfl
  | .var _ x, reads, reads', v, hx, h, hc => by
    rw [eval] at h ⊢
    obtain ⟨u, _, hu', h⟩ := bind_eq_ok.mp h
    obtain ⟨hu, rfl⟩ := ofExcept_eq_ok.mp hu'
    obtain ⟨n, r, hn, h⟩ := bind_eq_ok.mp h
    obtain ⟨rfl, rfl⟩ := pure_eq_ok.mp h
    have hmem : u ∈ r := by
      rw [(readSlot_eq_ok.mp hn).2]
      simp
    have hn' := readSlot_transfer hn (hc u hmem (Frame.covers_of_slot hu))
    exact bind_eq_ok.mpr ⟨ρ u, _, ofExcept_eq_ok.mpr ⟨hx.slot (by simp [Expr.names]) hu, rfl⟩,
      bind_eq_ok.mpr ⟨n, _, hn', rfl⟩⟩
  | .elem _ x index, reads, reads', v, hx, h, hc => by
    rw [eval] at h ⊢
    obtain ⟨i, r₁, hi, h⟩ := bind_eq_ok.mp h
    obtain ⟨u, _, hu', h⟩ := bind_eq_ok.mp h
    obtain ⟨hu, rfl⟩ := ofExcept_eq_ok.mp hu'
    obtain ⟨n, r, hn, h⟩ := bind_eq_ok.mp h
    obtain ⟨rfl, rfl⟩ := pure_eq_ok.mp h
    have hr : r = r₁ ++ [u] := (readSlot_eq_ok.mp hn).2
    have hi' := eval_of_extends (hx.mono (by simp [Expr.names]; tauto)) hi fun w hw =>
      hc w (by simp [hr, hw])
    have hn' := readSlot_transfer hn (hc u (by simp [hr]) (Frame.covers_of_element hu))
    exact bind_eq_ok.mpr ⟨i, _, hi', bind_eq_ok.mpr ⟨ρ u, _,
      ofExcept_eq_ok.mpr ⟨hx.element (by simp [Expr.names]) hu, rfl⟩,
      bind_eq_ok.mpr ⟨n, _, hn', rfl⟩⟩⟩
  | .binary _ op left right, reads, reads', v, hx, h, hc => by
    obtain ⟨o, l, r₁, ho, hl, h⟩ := eval_binary_eq_ok.mp h
    have hxl : s.Extends ρ left.names t := hx.mono (by simp [Expr.names]; tauto)
    have hxr : s.Extends ρ right.names t := hx.mono (by simp [Expr.names]; tauto)
    refine eval_binary_eq_ok.mpr ⟨o, l, r₁.map ρ, ho, ?_, ?_⟩
    · refine eval_of_extends hxl hl fun u hu => hc u ?_
      rcases h with ⟨b, -, -, rfl⟩ | ⟨-, r, hr, -⟩
      · exact hu
      · obtain ⟨new, rfl, -⟩ := reads_of_eval hr
        exact List.mem_append_left _ hu
    · rcases h with ⟨b, hs, rfl, rfl⟩ | ⟨hs, r, hr, ha⟩
      · exact Or.inl ⟨b, hs, rfl, rfl⟩
      · exact Or.inr ⟨hs, r, eval_of_extends hxr hr hc, BinaryOp.apply_of_ok hx.width ha⟩
  | .unary _ op operand, reads, reads', v, hx, h, hc => by
    rw [eval] at h ⊢
    obtain ⟨w, r₁, hw, h⟩ := bind_eq_ok.mp h
    cases ho : UnaryOp.ofSymbol? op with
    | none =>
      rw [ho] at h
      cases h
    | some o =>
      rw [ho] at h
      obtain ⟨rfl, rfl⟩ := pure_eq_ok.mp h
      exact bind_eq_ok.mpr ⟨w, _, eval_of_extends (hx.mono (by simp [Expr.names])) hw hc, rfl⟩
  | .call _ name args, reads, reads', v, hx, h, hc => by
    rw [eval] at h ⊢
    rw [hx.functions]
    cases hf : Datum.field? name s.functions with
    | none =>
      rw [hf] at h
      cases h
    | some f =>
      rw [hf] at h
      obtain ⟨values, r₁, hvs, h⟩ := bind_eq_ok.mp h
      obtain ⟨n, _, hn', h⟩ := bind_eq_ok.mp h
      obtain ⟨hn, rfl⟩ := ofExcept_eq_ok.mp hn'
      obtain ⟨rfl, rfl⟩ := pure_eq_ok.mp h
      exact bind_eq_ok.mpr ⟨values, _,
        evalAll_of_extends (hx.mono (by simp [Expr.names])) hvs hc,
        bind_eq_ok.mpr ⟨n, _, ofExcept_eq_ok.mpr ⟨hn, rfl⟩, rfl⟩⟩
  | .update .., reads, reads', v, _, h, _ => by
    rw [eval] at h
    cases h
  | .hole _, reads, reads', v, _, h, _ => by
    rw [eval] at h
    cases h

theorem evalAll_of_extends : ∀ {es : List Expr} {reads reads' : List Slot} {values : List Int},
    s.Extends ρ (Expr.namesOfList es) t → s.evalAll es reads = .ok values reads' →
      (∀ u ∈ reads', s.frame.Covers u → t.heap.cell? (ρ u) = s.heap.cell? u) →
        t.evalAll es (reads.map ρ) = .ok values (reads'.map ρ)
  | [], reads, reads', values, _, h, _ => by
    rw [evalAll] at h ⊢
    obtain ⟨rfl, rfl⟩ := pure_eq_ok.mp h
    rfl
  | e :: es, reads, reads', values, hx, h, hc => by
    rw [evalAll] at h ⊢
    obtain ⟨v, r₁, hv, h⟩ := bind_eq_ok.mp h
    obtain ⟨vs, r₂, hvs, h⟩ := bind_eq_ok.mp h
    obtain ⟨rfl, rfl⟩ := pure_eq_ok.mp h
    obtain ⟨new, rfl, -⟩ := reads_of_evalAll hvs
    have hv' := eval_of_extends (hx.mono (by simp [Expr.namesOfList]; tauto)) hv fun u hu =>
      hc u (List.mem_append_left _ hu)
    have hvs' := evalAll_of_extends (hx.mono (by simp [Expr.namesOfList]; tauto)) hvs hc
    exact bind_eq_ok.mpr ⟨v, _, hv', bind_eq_ok.mpr ⟨vs, _, hvs', rfl⟩⟩

end

end Transfer

/-! ## Values, conditions and references -/

theorem value_eq_ok {s : Scope} {e : Expr} {v : Value} :
    s.value e = .ok v ↔ ∃ reads, s.eval e [] = .ok v reads := by
  unfold value
  cases s.eval e [] <;> simp

theorem test_eq_ok {s : Scope} {e : Expr} {b : Bool} :
    s.test e = .ok b ↔ ∃ v, s.value e = .ok v ∧ v.holds = b := by
  unfold test
  cases s.value e <;> simp [bind, Except.bind, pure, Except.pure]

/-- A reference names a slot that the frame covers; so are the slots read to find it. -/
theorem covers_of_locate {s : Scope} {e : Expr} {reads reads' : List Slot} {u : Slot}
    (h : s.locate e reads = .ok u reads') :
    s.frame.Covers u ∧ ∃ new, reads' = reads ++ new ∧ ∀ w ∈ new, s.frame.Covers w := by
  cases e with
  | elem loc x index =>
    obtain ⟨i, r, hi, h⟩ := bind_eq_ok.mp h
    obtain ⟨hu, rfl⟩ := ofExcept_eq_ok.mp h
    exact ⟨Frame.covers_of_element hu, reads_of_eval hi⟩
  | var loc x =>
    obtain ⟨hu, rfl⟩ := ofExcept_eq_ok.mp h
    exact ⟨Frame.covers_of_slot hu, [], by simp, by simp⟩
  | _ => cases h

/-- An argument stands for slots that the frame covers; so are the slots read to find it. -/
theorem covers_of_argument {s : Scope} {e : Expr} {reads reads' : List Slot} {b : Binding}
    (h : s.argument e reads = .ok b reads') :
    (∀ u ∈ b.slots, s.frame.Covers u) ∧
      ∃ new, reads' = reads ++ new ∧ ∀ w ∈ new, s.frame.Covers w := by
  cases e with
  | var loc x =>
    obtain ⟨hb, rfl⟩ := ofExcept_eq_ok.mp h
    exact ⟨fun u hu => ⟨x, b, Frame.lookup_eq_ok.mp hb, hu⟩, [], by simp, by simp⟩
  | _ =>
    obtain ⟨u, r, hu, h⟩ := bind_eq_ok.mp h
    obtain ⟨rfl, rfl⟩ := pure_eq_ok.mp h
    obtain ⟨hc, hr⟩ := covers_of_locate hu
    exact ⟨by simpa [Binding.slots] using hc, hr⟩

section Transfer

variable {ρ : Slot → Slot} {s t : Scope} {e : Expr}

theorem value_of_extends (hx : s.Extends ρ e.names t) {v : Value} (h : s.value e = .ok v)
    (hc : ∀ u, s.frame.Covers u → t.heap.cell? (ρ u) = s.heap.cell? u) : t.value e = .ok v := by
  obtain ⟨reads, h⟩ := value_eq_ok.mp h
  exact value_eq_ok.mpr ⟨_, eval_of_extends hx h fun u _ => hc u⟩

theorem test_of_extends (hx : s.Extends ρ e.names t) {b : Bool} (h : s.test e = .ok b)
    (hc : ∀ u, s.frame.Covers u → t.heap.cell? (ρ u) = s.heap.cell? u) : t.test e = .ok b := by
  obtain ⟨v, hv, hb⟩ := test_eq_ok.mp h
  exact test_eq_ok.mpr ⟨v, value_of_extends hx hv hc, hb⟩

theorem locate_of_extends (hx : s.Extends ρ e.names t) {reads reads' : List Slot} {u : Slot}
    (h : s.locate e reads = .ok u reads')
    (hc : ∀ w ∈ reads', s.frame.Covers w → t.heap.cell? (ρ w) = s.heap.cell? w) :
    t.locate e (reads.map ρ) = .ok (ρ u) (reads'.map ρ) := by
  cases e with
  | elem loc x index =>
    obtain ⟨i, r, hi, h⟩ := bind_eq_ok.mp h
    obtain ⟨hu, rfl⟩ := ofExcept_eq_ok.mp h
    exact bind_eq_ok.mpr ⟨i, _, eval_of_extends (hx.mono (by simp [Expr.names]; tauto)) hi hc,
      ofExcept_eq_ok.mpr ⟨hx.element (by simp [Expr.names]) hu, rfl⟩⟩
  | var loc x =>
    obtain ⟨hu, rfl⟩ := ofExcept_eq_ok.mp h
    exact ofExcept_eq_ok.mpr ⟨hx.slot (by simp [Expr.names]) hu, rfl⟩
  | _ => cases h

theorem argument_of_extends (hx : s.Extends ρ e.names t) {reads reads' : List Slot} {b : Binding}
    (h : s.argument e reads = .ok b reads')
    (hc : ∀ w ∈ reads', s.frame.Covers w → t.heap.cell? (ρ w) = s.heap.cell? w) :
    t.argument e (reads.map ρ) = .ok (b.rename ρ) (reads'.map ρ) := by
  cases e with
  | var loc x =>
    obtain ⟨hb, rfl⟩ := ofExcept_eq_ok.mp h
    refine ofExcept_eq_ok.mpr ⟨Frame.lookup_eq_ok.mpr ?_, rfl⟩
    exact hx.lookup x (by simp [Expr.names]) b (Frame.lookup_eq_ok.mp hb)
  | _ =>
    obtain ⟨u, r, hu, h⟩ := bind_eq_ok.mp h
    obtain ⟨rfl, rfl⟩ := pure_eq_ok.mp h
    exact bind_eq_ok.mpr ⟨ρ u, _, locate_of_extends hx hu hc, rfl⟩

end Transfer

end Scope

end Retrace
