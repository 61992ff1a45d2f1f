import Retrace.Proofs.Evaluation
import Retrace.Proofs.Models
import Retrace.Symbolic.Encode

/-!
# Encodings leave out no run

An analysis holds constraints and symbolic values for names; a run holds numbers in slots. A model
*pictures* the run at some point of the analysis if all constraints hold in it and every name that
stands for something in the run has a symbolic value that denotes just this.

The analysis asks for fresh unknowns as it goes on, and whether a constraint holds may depend on
what they are. So one model is not enough: `Analyzing.Follows` speaks of all models that agree on
the unknowns so far. A step of the analysis *follows* a step of the run if, whenever all these
models picture the run before it, values for the new unknowns can be found such that all models with
these values picture the run after it.

The main statement of this module is `follows_encode_of_passes`: encoding an expression follows its
evaluation, and the symbolic value denotes the value. An encoding also has the facts of operands
that the evaluation leaves out, which are about divisors and shift counts. So the statement asks for
these to be in order everywhere in the expression (`Scope.Passes`). They are if no division and no
shift stands on the right side of `&&` or `||` (`follows_encode`).
-/

namespace Retrace

open Actions

/-! ## What names stand for in a run -/

/-- What a name stands for: a number, or an array of numbers. -/
inductive Content where
  | one (n : Int)
  | many (f : Int → Int)

/-- The numbers of a content are numbers of the type. -/
def Content.InRange (type : IntType) : Content → Prop
  | .one n => type.contains n = true
  | .many f => ∀ i, type.contains (f i) = true

/-- What names stand for. -/
abbrev View := String → Option Content

/-- All contents of a view are in range. -/
def View.InRange (type : IntType) (V : View) : Prop := ∀ name c, V name = some c → c.InRange type

/-- The number in a slot; a slot that was released counts as zero. -/
def Heap.held (h : Heap) (u : Slot) : Int := (h.cell? u).getD 0

theorem Heap.held_of_cell? {h : Heap} {u : Slot} {n : Int} (hu : h.cell? u = some n) :
    h.held u = n := by
  rw [held, hu, Option.getD_some]

/-- The number of an array at an index; there are zeros outside its bounds. -/
def Heap.heldAt (h : Heap) (slots : List Slot) (i : Int) : Int :=
  if 0 ≤ i then (slots[i.toNat]?).elim 0 h.held else 0

/-- What the slots of a binding hold. -/
def Binding.content (h : Heap) : Binding → Content
  | .scalar u => .one (h.held u)
  | .array slots => .many (h.heldAt slots)

/-- What the names of a frame stand for. -/
def Frame.view (f : Frame) (h : Heap) : View := fun name => (f.lookup? name).map (·.content h)

theorem Frame.view_of_lookup? {f : Frame} {h : Heap} {name : String} {b : Binding}
    (hb : f.lookup? name = some b) : f.view h name = some (b.content h) := by
  rw [view, hb, Option.map_some]

/-! ## What symbolic values denote -/

namespace SymValue

/-- A symbolic value denotes a number. Truth values are numbers, and an array that is used as a
number is the same everywhere. -/
def Denotes (M : Model) : SymValue → Int → Prop
  | .int t, n => t.value M = n
  | .bool c, n => (c.Holds M ∧ n = 1) ∨ (¬c.Holds M ∧ n = 0)
  | .array a, n => a.value M = fun _ => n

/-- A symbolic value denotes what a name stands for. Nothing is said of a number that stands for an
array: no run evaluates it. -/
def Mirrors (M : Model) (v : SymValue) : Content → Prop
  | .one n => v.Denotes M n
  | .many f => ∀ a, v = .array a → a.value M = f

/-- All elements of an array are numbers of the type. -/
def Bounded (type : IntType) (M : Model) (v : SymValue) : Prop :=
  ∀ a, v = .array a → ∀ i, type.contains (a.value M i) = true

variable {M : Model} {v : SymValue} {n : Int}

theorem bounded_int {type : IntType} (t : IntTerm) : (SymValue.int t).Bounded type M := nofun

theorem Denotes.asNumber (h : v.Denotes M n) : v.asNumber.Denotes M n := by
  cases v with
  | int t => exact h
  | array a => exact h
  | bool c =>
    rcases h with ⟨hc, rfl⟩ | ⟨hc, rfl⟩
    · exact (IntTerm.value_ite_pos hc _ _).trans (by rw [IntTerm.value])
    · exact (IntTerm.value_ite_neg hc _ _).trans (by rw [IntTerm.value])

theorem denotes_bool {c : BoolTerm} {b : Bool} (h : c.Holds M ↔ b = true) :
    (SymValue.bool c).Denotes M (Value.bool b).toInt := by
  cases b with
  | true => exact Or.inl ⟨h.mpr rfl, rfl⟩
  | false => exact Or.inr ⟨fun hc => Bool.noConfusion (h.mp hc), rfl⟩

/-- Two formulas agree exactly if they denote the same number. -/
theorem same_iff {a b : BoolTerm} {m n : Int} (hm : (SymValue.bool a).Denotes M m)
    (hn : (SymValue.bool b).Denotes M n) : (BoolTerm.same a b).Holds M ↔ m = n := by
  rw [BoolTerm.Holds]
  rcases hm with ⟨ha, rfl⟩ | ⟨ha, rfl⟩ <;> rcases hn with ⟨hb, rfl⟩ | ⟨hb, rfl⟩ <;> simp [ha, hb]

theorem differ_iff {a b : BoolTerm} {m n : Int} (hm : (SymValue.bool a).Denotes M m)
    (hn : (SymValue.bool b).Denotes M n) : (BoolTerm.differ a b).Holds M ↔ m ≠ n := by
  rw [BoolTerm.Holds, ne_eq, ← same_iff hm hn, BoolTerm.Holds]

end SymValue

/-- A symbolic value in range for a name that stands for the content, if it stands for one. -/
structure SymValue.Fits (type : IntType) (M : Model) (v : SymValue) (o : Option Content) :
    Prop where
  bounded : v.Bounded type M
  mirrors : ∀ c, o = some c → v.Mirrors M c
  inRange : ∀ t, v = .int t → type.contains (t.value M) = true

/-! ## Steps of the analysis that follow steps of the run -/

/-- The constraints hold in the model, and the names that stand for something symbolically denote
what they stand for in the run. -/
structure Model.Pictures (M : Model) (type : IntType) (a : Analysis) (V : View) : Prop where
  constraints : ∀ c ∈ a.constraints, c.Holds M
  bounded : ∀ name v, Datum.field? name a.vars = some v → v.Bounded type M
  mirrors : ∀ name v, Datum.field? name a.vars = some v → ∀ c, V name = some c → v.Mirrors M c

namespace Analyzing

/-- A step of the analysis follows the run from `V` to `V'`: where `P` holds before it, `Q` holds
after it. -/
def Follows {α : Type} (type : IntType) (P : Model → Prop) (x : Analyzing α) (V V' : View)
    (Q : α → Model → Prop) : Prop :=
  ∀ (σ : Model) (a : Analysis), (∀ M ∈ σ.before a.fresh, P M ∧ M.Pictures type a V) →
    ∀ v a', x a = .ok v a' →
      ∃ τ : Model, ∀ M ∈ τ.before a'.fresh,
        M ∈ σ.before a.fresh ∧ M.Pictures type a' V' ∧ Q v M

namespace Follows

variable {α β : Type} {type : IntType} {P P' : Model → Prop} {x : Analyzing α}
  {f : α → Analyzing β} {V V' V'' : View} {Q Q' : α → Model → Prop} {R : β → Model → Prop}

theorem pure {v : α} (h : ∀ M, P M → Q v M) : Follows type P (pure v) V V Q := by
  intro σ a hσ w a' hok
  obtain ⟨rfl, rfl⟩ := pure_eq_ok.mp hok
  exact ⟨σ, fun M hM => ⟨hM, (hσ M hM).2, h M (hσ M hM).1⟩⟩

theorem throw {e : Refusal} : Follows type P (throw e) V V' Q :=
  fun _ _ _ _ _ hok => absurd hok throw_ne_ok

/-- What held before a step still holds after it. -/
theorem bind (hx : Follows type P x V V' Q)
    (hf : ∀ v, Follows type (fun M => P M ∧ Q v M) (f v) V' V'' R) :
    Follows type P (x >>= f) V V'' R := by
  intro σ a hσ w a' hok
  obtain ⟨v, a₁, hx', hf'⟩ := bind_eq_ok.mp hok
  obtain ⟨τ, hτ⟩ := hx σ a hσ v a₁ hx'
  obtain ⟨ρ, hρ⟩ := hf v τ a₁
    (fun M hM => ⟨⟨(hσ M (hτ M hM).1).1, (hτ M hM).2.2⟩, (hτ M hM).2.1⟩) w a' hf'
  exact ⟨ρ, fun M hM => ⟨(hτ M (hρ M hM).1).1, (hρ M hM).2⟩⟩

theorem mono (hx : Follows type P x V V' Q) (hpre : ∀ M, P' M → P M)
    (hpost : ∀ v M, P' M → Q v M → Q' v M) : Follows type P' x V V' Q' := by
  intro σ a hσ v a' hok
  obtain ⟨τ, hτ⟩ := hx σ a (fun M hM => ⟨hpre M (hσ M hM).1, (hσ M hM).2⟩) v a' hok
  exact ⟨τ, fun M hM =>
    ⟨(hτ M hM).1, (hτ M hM).2.1, hpost v M (hσ M (hτ M hM).1).1 (hτ M hM).2.2⟩⟩

theorem weaken (hx : Follows type P x V V' Q) (hpost : ∀ v M, P M → Q v M → Q' v M) :
    Follows type P x V V' Q' :=
  hx.mono (fun _ h => h) hpost

end Follows

section Steps

variable {type : IntType} {P : Model → Prop} {V V' : View}

theorem follows_assume {c : BoolTerm} (h : ∀ M, P M → c.Holds M) :
    Follows type P (assume c) V V fun _ _ => True := by
  intro σ a hσ v a' hok
  obtain rfl := (EStateM.Result.ok.inj hok).2
  refine ⟨σ, fun M hM => ⟨hM, ⟨fun d hd => ?_, (hσ M hM).2.bounded, (hσ M hM).2.mirrors⟩, trivial⟩⟩
  rcases List.mem_append.mp hd with hd | hd
  · exact (hσ M hM).2.constraints d hd
  · rw [List.mem_singleton.mp hd]
    exact h M (hσ M hM).1

/-- A fresh unknown can have any value. -/
theorem follows_freshName (stem : String) (n : Int) (f : Int → Int) :
    Follows type P (freshName stem) V V fun x M => M.ints x = n ∧ M.arrays x = f := by
  intro σ a hσ x a' hok
  obtain ⟨rfl, rfl⟩ := EStateM.Result.ok.inj hok
  refine ⟨σ.assign (unknownLabel stem a.fresh) n f, fun M hM => ?_⟩
  obtain ⟨hbefore, hvalue⟩ := Model.mem_before_assign hM
  have hpicture := (hσ M hbefore).2
  exact ⟨hbefore, ⟨hpicture.constraints, hpicture.bounded, hpicture.mirrors⟩, hvalue⟩

/-- A name gets a new symbolic value where it stands for something else in the run. -/
theorem follows_setVar {name : String} {v : SymValue} (hothers : ∀ x, x ≠ name → V' x = V x)
    (hv : ∀ M, P M → v.Bounded type M ∧ ∀ c, V' name = some c → v.Mirrors M c) :
    Follows type P (setVar name v) V V' fun _ _ => True := by
  intro σ a hσ w a' hok
  obtain rfl := (EStateM.Result.ok.inj hok).2
  refine ⟨σ, fun M hM => ⟨hM, ⟨(hσ M hM).2.constraints, fun x u hu => ?_, fun x u hu c hc => ?_⟩,
    trivial⟩⟩
  · by_cases hx : x = name
    · subst hx
      rw [Datum.field?_setField_self] at hu
      rw [← Option.some.inj hu]
      exact (hv M (hσ M hM).1).1
    · rw [Datum.field?_setField_of_ne hx] at hu
      exact (hσ M hM).2.bounded x u hu
  · by_cases hx : x = name
    · subst hx
      rw [Datum.field?_setField_self] at hu
      rw [← Option.some.inj hu]
      exact (hv M (hσ M hM).1).2 c hc
    · rw [Datum.field?_setField_of_ne hx] at hu
      exact (hσ M hM).2.mirrors x u hu c (hothers x hx ▸ hc)

theorem follows_unknown (n : Int) : Follows type P unknown V V fun v M => v.Denotes M n := by
  refine (follows_freshName "unknown" n fun _ => n).bind fun x => .pure fun M h => ?_
  rw [SymValue.Denotes, IntTerm.value]
  exact h.2.1

end Steps

section Names

variable {s : Subject} {P : Model → Prop} {V V' : View}

/-- An unknown with the right values denotes what a name stands for. -/
theorem exists_unknownFor (name : String) (o : Option Content)
    (ho : ∀ c, o = some c → c.InRange s.intType) :
    ∃ (n : Int) (f : Int → Int), ∀ (M : Model) (x : String), M.ints x = n ∧ M.arrays x = f →
      (s.unknownFor name x).Fits s.intType M o := by
  -- a number is also taken as an array that is the same everywhere, an array also as a zero
  obtain ⟨n, f, hn, hf, hone, hmany⟩ : ∃ (n : Int) (f : Int → Int),
      s.intType.contains n = true ∧ (∀ i, s.intType.contains (f i) = true) ∧
        (∀ m, o = some (.one m) → n = m ∧ f = fun _ => m) ∧ ∀ g, o = some (.many g) → f = g := by
    have hzero := s.intType.contains_zero
    cases o with
    | none => exact ⟨0, fun _ => 0, hzero, fun _ => hzero, by rintro _ ⟨⟩, by rintro _ ⟨⟩⟩
    | some c =>
      have hc := ho c rfl
      cases c with
      | one m =>
        exact ⟨m, fun _ => m, hc, fun _ => hc, by rintro _ ⟨⟩; exact ⟨rfl, rfl⟩, by rintro _ ⟨⟩⟩
      | many g => exact ⟨0, g, hzero, hc, by rintro _ ⟨⟩, by rintro _ ⟨⟩; rfl⟩
  refine ⟨n, f, ?_⟩
  rintro M x ⟨hint, harray⟩
  unfold Subject.unknownFor
  split
  · have hvalue : (ArrayTerm.var x).value M = f := by
      rw [ArrayTerm.value]
      exact harray
    refine ⟨?_, ?_, by rintro _ ⟨⟩⟩
    · rintro a ⟨⟩ i
      rw [hvalue]
      exact hf i
    · intro c hc
      cases c with
      | one m => exact hvalue.trans (hone m hc).2
      | many g =>
        rintro a ⟨⟩
        exact hvalue.trans (hmany g hc)
  · have hvalue : (IntTerm.var x).value M = n := by
      rw [IntTerm.value]
      exact hint
    refine ⟨SymValue.bounded_int _, ?_, by rintro t ⟨⟩; exact hvalue ▸ hn⟩
    intro c hc
    cases c with
    | one m => exact hvalue.trans (hone m hc).1
    | many g => rintro a ⟨⟩

/-- A fresh unknown for a name can denote whatever the name stands for. -/
theorem follows_freshValue (name : String) (o : Option Content)
    (ho : ∀ c, o = some c → c.InRange s.intType) :
    Follows s.intType P (freshValue s name) V V fun v M => v.Fits s.intType M o := by
  obtain ⟨n, f, hvalue⟩ := exists_unknownFor name o ho
  exact (follows_freshName name n f).bind fun x => .pure fun M hM => hvalue M x hM.2

theorem follows_assumeInRange {v : SymValue}
    (h : ∀ M, P M → ∀ t, v = .int t → s.intType.contains (t.value M) = true) :
    Follows s.intType P (assumeInRange s v) V V fun _ _ => ∃ t, v = .int t := by
  cases v with
  | int t =>
    refine (follows_assume fun M hM => ?_).weaken fun _ _ _ _ => ⟨t, rfl⟩
    exact IntTerm.holds_inRange.mpr (h M hM t rfl)
  | bool | array => exact .throw

/-- A name gets a new symbolic value, which is in range if it is a number. -/
theorem follows_setVarInRange {α : Type} {name : String} {v : SymValue} {k : Analyzing α}
    {V'' : View} {Q : α → Model → Prop} (hothers : ∀ x, x ≠ name → V' x = V x)
    (hv : ∀ M, P M → v.Fits s.intType M (V' name)) (hk : Follows s.intType P k V' V'' Q) :
    Follows s.intType P (do
      setVar name v
      if name ∉ s.arrays then assumeInRange s v
      k) V V'' Q := by
  refine (follows_setVar hothers fun M hM => ⟨(hv M hM).bounded, (hv M hM).mirrors⟩).bind
    fun _ => ?_
  split
  · refine (follows_assumeInRange fun M hM => (hv M hM.1).inRange).bind fun _ => ?_
    exact hk.mono (fun M hM => hM.1.1) fun _ _ _ h => h
  · exact hk.mono (fun M hM => hM.1) fun _ _ _ h => h

/-- A name that is met for the first time stands for an unknown, which can be what the name stands
for in the run. -/
theorem follows_lookup (name : String) (hrange : V.InRange s.intType) :
    Follows s.intType P (lookup s name) V V fun v M =>
      v.Bounded s.intType M ∧ ∀ c, V name = some c → v.Mirrors M c := by
  intro σ a hσ v a' hok
  unfold lookup at hok
  rw [bind_apply, get_apply] at hok
  cases hfield : Datum.field? name a.vars with
  | some u =>
    simp only [hfield] at hok
    obtain ⟨rfl, rfl⟩ := pure_eq_ok.mp hok
    exact ⟨σ, fun M hM => ⟨hM, (hσ M hM).2, (hσ M hM).2.bounded name u hfield,
      (hσ M hM).2.mirrors name u hfield⟩⟩
  | none =>
    simp only [hfield] at hok
    have hfirst : Follows s.intType P (do
        let w ← freshValue s name
        setVar name w
        if name ∉ s.arrays then assumeInRange s w
        return w) V V fun v M => v.Bounded s.intType M ∧ ∀ c, V name = some c → v.Mirrors M c :=
      (follows_freshValue name (V name) (hrange name)).bind fun w =>
        follows_setVarInRange (fun _ _ => rfl) (fun M hM => hM.2)
          (.pure fun M hM => ⟨hM.2.bounded, hM.2.mirrors⟩)
    exact hfirst σ a hσ v a' hok

end Names

end Analyzing

/-! ## Operators -/

/-- Whether an operator refuses some numbers. -/
def BinaryOp.isPartial : BinaryOp → Bool
  | .div | .rem | .shiftLeft | .shiftRight => true
  | _ => false

/-- The operator does not refuse the number on its right side. -/
def BinaryOp.Accepts (type : IntType) (n : Int) : BinaryOp → Prop
  | .div | .rem => n ≠ 0
  | .shiftLeft | .shiftRight => 0 ≤ n ∧ n < type.bits
  | _ => True

theorem BinaryOp.accepts_of_apply {op : BinaryOp} {f : Frame} {m n : Int} {w : Value}
    (h : op.apply f m n = .ok w) : op.Accepts f.intType n := by
  cases op with
  | div | rem =>
    rintro rfl
    simp [apply] at h
  | shiftLeft | shiftRight =>
    by_contra hn
    simp only [Accepts] at hn
    simp [apply, hn] at h
  | _ => trivial

namespace Analyzing

section Operators

variable {type : IntType} {s : Subject} {P : Model → Prop} {V : View}

theorem follows_condition (v : SymValue) :
    Follows type P (condition v) V V fun c M => ∀ n, v.Denotes M n → (c.Holds M ↔ n ≠ 0) := by
  cases v with
  | bool t =>
    refine .pure fun M _ n hn => ?_
    rcases hn with ⟨ht, rfl⟩ | ⟨ht, rfl⟩ <;> simp [ht]
  | int t =>
    refine .pure fun M _ n hn => ?_
    rw [← show t.value M = n from hn, BoolTerm.Holds, IntTerm.value]
  | array a => exact .throw

theorem follows_plain (v : SymValue) :
    Follows type P (plain v) V V fun t M => ∀ n, v.Denotes M n → t.value M = n := by
  cases v with
  | int t => exact .pure fun M _ n hn => hn
  | bool c => exact .pure fun M _ n hn => hn.asNumber
  | array a => exact .throw

theorem follows_indexOf (v : SymValue) :
    Follows type P (indexOf v) V V fun t M => ∀ n, v.Denotes M n → t.value M = n := by
  cases v with
  | int t => exact .pure fun M _ n hn => hn
  | bool c => exact .pure fun M _ n hn => hn.asNumber
  | array a => exact .throw

theorem follows_arrayOf (v : SymValue) :
    Follows type P (arrayOf v) V V fun a _ => v = .array a := by
  cases v with
  | array a => exact .pure fun _ _ => rfl
  | int | bool => exact .throw

/-- Two terms denote what two symbolic values denote. -/
def Both (M : Model) (l r : SymValue) (p : IntTerm × IntTerm) : Prop :=
  (∀ n, l.Denotes M n → p.1.value M = n) ∧ ∀ n, r.Denotes M n → p.2.value M = n

theorem follows_pair (l r : SymValue) :
    Follows type P (pair l r) V V fun p M => Both M l r p := by
  unfold pair
  split
  · rename_i a b hl hr
    refine .pure fun M _ => ⟨fun n hn => ?_, fun n hn => ?_⟩
    · have hnumber := hn.asNumber
      rwa [hl] at hnumber
    · have hnumber := hn.asNumber
      rwa [hr] at hnumber
  · exact .throw

theorem follows_words (l r : SymValue) :
    Follows type P (words l r) V V fun p M => Both M l r p := by
  unfold words
  split
  · exact .pure fun M _ => ⟨fun n hn => hn, fun n hn => hn⟩
  · exact .throw

/-- Arrays that are the same everywhere are compared like numbers. -/
theorem const_eq_const {m n : Int} : ((fun _ : Int => m) = fun _ => n) ↔ m = n :=
  ⟨fun h => congrFun h 0, fun h => by rw [h]⟩

theorem follows_equal (l r : SymValue) :
    Follows type P (equal l r) V V fun c M =>
      ∀ m n, l.Denotes M m → r.Denotes M n → (c.Holds M ↔ m = n) := by
  unfold equal
  split
  · refine .pure fun M _ m n hm hn => ?_
    rw [BoolTerm.Holds, show _ = _ from hm, show _ = _ from hn, const_eq_const]
  · refine (follows_pair l r).bind fun p => .pure fun M hM m n hm hn => ?_
    rw [BoolTerm.Holds, hM.2.1 m hm, hM.2.2 n hn]

theorem follows_unequal (l r : SymValue) :
    Follows type P (unequal l r) V V fun c M =>
      ∀ m n, l.Denotes M m → r.Denotes M n → (c.Holds M ↔ m ≠ n) := by
  unfold unequal
  split
  · refine .pure fun M _ m n hm hn => ?_
    rw [BoolTerm.Holds, show _ = _ from hm, show _ = _ from hn, ne_eq, const_eq_const]
  · refine (follows_pair l r).bind fun p => .pure fun M hM m n hm hn => ?_
    rw [BoolTerm.Holds, hM.2.1 m hm, hM.2.2 n hn]

variable {l r : SymValue} {m n : Int}

/-- The run has not gone on past a divisor of zero. -/
theorem follows_division (m : Int) (hr : ∀ M, P M → r.Denotes M n) (hn : n ≠ 0) :
    Follows type P (division l r) V V fun q M => l.Denotes M m →
      q.1.value M = m ∧ q.2.1.value M = n ∧ q.2.2.value M = m.tdiv n := by
  refine (follows_condition r).bind fun c => ?_
  refine (follows_assume fun M hM => (hM.2 n (hr M hM.1)).mpr hn).bind fun _ => ?_
  refine (follows_plain l).bind fun a => (follows_plain r).bind fun b => .pure fun M hM hm => ?_
  have ha : a.value M = m := hM.1.2 m hm
  have hb : b.value M = n := hM.2 n (hr M hM.1.1.1.1)
  refine ⟨ha, hb, ?_⟩
  rw [IntTerm.value_quotient (hb ▸ hn), ha, hb]

/-- What the host computes is exact. -/
theorem follows_factor (k : Int) :
    Follows type P (factor s k) V V fun f _ => f = Bits.weight k.toNat := by
  unfold factor
  split
  · exact .throw
  · split
    · exact .throw
    · exact .pure fun _ _ => rfl

/-- The run has not gone on past a count that is out of bounds. -/
theorem follows_shift (left : Bool) (m : Int) (hr : ∀ M, P M → r.Denotes M n)
    (hn : 0 ≤ n ∧ n < s.intType.bits) :
    Follows type P (shift s left l r) V V fun v M => l.Denotes M m → v.Denotes M
      (if left then Bits.shiftLeft m n.toNat else Bits.shiftRight m n.toNat) := by
  unfold shift
  refine (follows_plain r).bind fun count => ?_
  refine (follows_assume fun M hM => ?_).bind fun _ => ?_
  · have hcount : count.value M = n := hM.2 n (hr M hM.1)
    rw [BoolTerm.holds_all]
    simpa [BoolTerm.Holds, IntTerm.value, hcount] using hn
  · cases hliteral : s.literal? count with
    | none => exact (follows_unknown _).weaken fun _ _ _ hv _ => hv
    | some k =>
      obtain rfl := s.eq_const hliteral
      refine (follows_factor k).bind fun f => ?_
      refine (follows_plain l).bind fun a => .pure fun M hM hm => ?_
      have ha : a.value M = m := hM.2 m hm
      have hf : f = Bits.weight k.toNat := hM.1.2
      have hk : k = n := by
        have hcount := hM.1.1.1.2 n (hr M hM.1.1.1.1)
        rwa [IntTerm.value] at hcount
      have hweight : Bits.weight n.toNat ≠ 0 := Nat.ne_of_gt (Bits.weight_pos _)
      subst hk hf
      cases left with
      | true => simp [SymValue.Denotes, IntTerm.value, ha, Bits.shiftLeft]
      | false => simp [SymValue.Denotes, IntTerm.value, ha, Bits.shiftRight, hweight]

/-- Numbers that do not fit their type give an unknown, which can be the right one. -/
theorem follows_bitwise (op : BitOp) (l r : SymValue) (m n : Int) :
    Follows type P (bitwise s op l r) V V fun v M =>
      l.Denotes M m → r.Denotes M n → v.Denotes M (op.onInts m n) := by
  unfold bitwise
  refine (follows_words l r).bind fun p => ?_
  obtain ⟨a, b⟩ := p
  simp only
  split
  · rename_i i j hi hj
    obtain rfl := s.eq_const hi
    obtain rfl := s.eq_const hj
    refine .pure fun M hM hm hn => ?_
    have hi : i = m := by
      have hvalue := hM.2.1 m hm
      rwa [IntTerm.value] at hvalue
    have hj : j = n := by
      have hvalue := hM.2.2 n hn
      rwa [IntTerm.value] at hvalue
    subst hi hj
    cases op <;> rw [SymValue.Denotes, IntTerm.value] <;> rfl
  · refine (follows_freshName "unknown" (op.onInts m n) fun _ => 0).bind fun x => ?_
    refine .pure fun M hM hm hn => ?_
    have ha : a.value M = m := hM.1.2.1 m hm
    have hb : b.value M = n := hM.1.2.2 n hn
    rw [SymValue.Denotes]
    by_cases hc : (BoolTerm.all [a.inRange s.intType, b.inRange s.intType]).Holds M
    · rw [IntTerm.value_ite_pos hc]
      rw [BoolTerm.holds_all] at hc
      rw [IntTerm.value_bits op (IntTerm.holds_inRange.mp (hc _ (by simp)))
        (IntTerm.holds_inRange.mp (hc _ (by simp))), ha, hb]
    · rw [IntTerm.value_ite_neg hc, IntTerm.value]
      exact hM.2.1

/-- The left side alone decides. -/
theorem follows_settled {op : BinaryOp} {b : Bool} (h : op.settled? (m != 0) = some b) :
    Follows type P (binary s op l r) V V fun v M =>
      l.Denotes M m → v.Denotes M (Value.bool b).toInt := by
  cases op with
  | both =>
    refine (follows_condition l).bind fun c => (follows_condition r).bind fun d => ?_
    refine .pure fun M hM hm => SymValue.denotes_bool ?_
    have hc : c.Holds M ↔ m ≠ 0 := hM.1.2 m hm
    rw [BoolTerm.holds_all]
    cases hz : m != 0 with
    | true =>
      rw [hz] at h
      cases h
    | false =>
      rw [hz] at h
      obtain rfl := Option.some.inj h
      simp_all
  | either =>
    refine (follows_condition l).bind fun c => (follows_condition r).bind fun d => ?_
    refine .pure fun M hM hm => SymValue.denotes_bool ?_
    have hc : c.Holds M ↔ m ≠ 0 := hM.1.2 m hm
    rw [BoolTerm.holds_any]
    cases hz : m != 0 with
    | true =>
      rw [hz] at h
      obtain rfl := Option.some.inj h
      simp_all
    | false =>
      rw [hz] at h
      cases h
  | _ => cases h

/-- Two numbers that are compared. -/
theorem follows_compare (rel : IntTerm → IntTerm → BoolTerm) (test : Int → Int → Bool)
    (h : ∀ M a b, (rel a b).Holds M ↔ test (a.value M) (b.value M) = true) :
    Follows type P (pair l.asNumber r.asNumber >>= fun p => pure (SymValue.bool (rel p.1 p.2))) V V
      fun v M => l.Denotes M m → r.Denotes M n →
        ∀ w, (.ok (.bool (test m n)) : Except Fault Value) = .ok w → v.Denotes M w.toInt := by
  refine (follows_pair _ _).bind fun p => .pure fun M hM hm hn w hw => ?_
  obtain rfl := Except.ok.inj hw
  refine SymValue.denotes_bool ?_
  rw [h, hM.2.1 m hm.asNumber, hM.2.2 n hn.asNumber]

/-- Two numbers that are combined to a number. -/
theorem follows_combine (term : IntTerm → IntTerm → IntTerm) (f : Int → Int → Int)
    (h : ∀ M a b, (term a b).value M = f (a.value M) (b.value M)) :
    Follows type P (pair l.asNumber r.asNumber >>= fun p => pure (SymValue.int (term p.1 p.2))) V V
      fun v M => l.Denotes M m → r.Denotes M n →
        ∀ w, (.ok (.int (f m n)) : Except Fault Value) = .ok w → v.Denotes M w.toInt := by
  refine (follows_pair _ _).bind fun p => .pure fun M hM hm hn w hw => ?_
  obtain rfl := Except.ok.inj hw
  rw [SymValue.Denotes, h, hM.2.1 m hm.asNumber, hM.2.2 n hn.asNumber, Value.toInt]

/-- Two words that are combined. -/
theorem follows_bits (op : BitOp) :
    Follows type P (bitwise s op l.asNumber r.asNumber) V V
      fun v M => l.Denotes M m → r.Denotes M n →
        ∀ w, (.ok (.int (op.onInts m n)) : Except Fault Value) = .ok w → v.Denotes M w.toInt := by
  refine (follows_bitwise op _ _ m n).weaken fun v M _ hv hm hn w hw => ?_
  obtain rfl := Except.ok.inj hw
  exact hv hm.asNumber hn.asNumber

/-- The outcome of a comparison as a value. -/
theorem follows_verdict {x : Analyzing BoolTerm} {test : Bool}
    (hx : Follows type P x V V fun c M =>
      l.Denotes M m → r.Denotes M n → (c.Holds M ↔ test = true)) :
    Follows type P (x >>= fun c => pure (SymValue.bool c)) V V fun v M =>
      l.Denotes M m → r.Denotes M n →
        ∀ w, (.ok (.bool test) : Except Fault Value) = .ok w → v.Denotes M w.toInt := by
  refine hx.bind fun c => .pure fun M hM hm hn w hw => ?_
  obtain rfl := Except.ok.inj hw
  exact SymValue.denotes_bool (hM.2 hm hn)

theorem follows_eq :
    Follows type P (binary s .eq l r) V V fun v M => l.Denotes M m → r.Denotes M n →
      ∀ w, (.ok (.bool (m = n)) : Except Fault Value) = .ok w → v.Denotes M w.toInt := by
  have hnumbers : Follows type P (equal l.asNumber r.asNumber) V V fun c M =>
      l.Denotes M m → r.Denotes M n → (c.Holds M ↔ decide (m = n) = true) :=
    (follows_equal _ _).weaken fun c M _ hc hm hn => by
      rw [hc m n hm.asNumber hn.asNumber, decide_eq_true_iff]
  cases l with
  | bool a =>
    cases r with
    | bool b =>
      -- two truth values are compared as formulas
      refine .pure fun M _ hm hn w hw => ?_
      obtain rfl := Except.ok.inj hw
      exact SymValue.denotes_bool ((SymValue.same_iff hm hn).trans decide_eq_true_iff.symm)
    | int | array => exact follows_verdict hnumbers
  | int | array => exact follows_verdict hnumbers

theorem follows_ne :
    Follows type P (binary s .ne l r) V V fun v M => l.Denotes M m → r.Denotes M n →
      ∀ w, (.ok (.bool (m ≠ n)) : Except Fault Value) = .ok w → v.Denotes M w.toInt := by
  have hnumbers : Follows type P (unequal l.asNumber r.asNumber) V V fun c M =>
      l.Denotes M m → r.Denotes M n → (c.Holds M ↔ decide (m ≠ n) = true) :=
    (follows_unequal _ _).weaken fun c M _ hc hm hn => by
      rw [hc m n hm.asNumber hn.asNumber, decide_eq_true_iff]
  cases l with
  | bool a =>
    cases r with
    | bool b =>
      refine .pure fun M _ hm hn w hw => ?_
      obtain rfl := Except.ok.inj hw
      exact SymValue.denotes_bool ((SymValue.differ_iff hm hn).trans decide_eq_true_iff.symm)
    | int | array => exact follows_verdict hnumbers
  | int | array => exact follows_verdict hnumbers

/-- An operator between two values; one that refuses some numbers does not refuse the right one. -/
theorem follows_binary (op : BinaryOp) (f : Frame) (hf : f.intType = s.intType) (m n : Int)
    (hpartial : op.isPartial = true → op.Accepts s.intType n ∧ ∀ M, P M → r.Denotes M n) :
    Follows type P (binary s op l r) V V fun v M =>
      l.Denotes M m → r.Denotes M n → ∀ w, op.apply f m n = .ok w → v.Denotes M w.toInt := by
  cases op with
  | add => exact follows_combine .add (· + ·) fun M a b => by rw [IntTerm.value]
  | sub => exact follows_combine .sub (· - ·) fun M a b => by rw [IntTerm.value]
  | mul => exact follows_combine .mul (· * ·) fun M a b => by rw [IntTerm.value]
  | lt => exact follows_compare .lt (fun i j => i < j) fun M a b => by simp [BoolTerm.Holds]
  | le => exact follows_compare .le (fun i j => i ≤ j) fun M a b => by simp [BoolTerm.Holds]
  | gt =>
    exact follows_compare (fun a b => .lt b a) (fun i j => i > j) fun M a b => by
      simp [BoolTerm.Holds]
  | ge =>
    exact follows_compare (fun a b => .le b a) (fun i j => i ≥ j) fun M a b => by
      simp [BoolTerm.Holds]
  | bitAnd => exact follows_bits .and
  | bitOr => exact follows_bits .or
  | bitXor => exact follows_bits .xor
  | eq => exact follows_eq
  | ne => exact follows_ne
  | both | either =>
    refine (follows_condition l).bind fun c => (follows_condition r).bind fun d => ?_
    refine .pure fun M hM hm hn w hw => ?_
    obtain rfl := Except.ok.inj hw
    have hc : c.Holds M ↔ m ≠ 0 := hM.1.2 m hm
    have hd : d.Holds M ↔ n ≠ 0 := hM.2 n hn
    refine SymValue.denotes_bool ?_
    simp [BoolTerm.holds_all, BoolTerm.holds_any, hc, hd]
  | div | rem =>
    obtain ⟨hn, hr⟩ := hpartial rfl
    replace hn : n ≠ 0 := hn
    refine (follows_division m (fun M hM => (hr M hM).asNumber) hn).bind fun q =>
      .pure fun M hM hm _ w hw => ?_
    have hq := hM.2 hm.asNumber
    simp only [BinaryOp.apply, hn, if_false, Except.ok.injEq] at hw
    subst hw
    simp [SymValue.Denotes, IntTerm.value, hq, Value.toInt, Int.tmod_def]
  | shiftLeft | shiftRight =>
    obtain ⟨hn, hr⟩ := hpartial rfl
    replace hn : 0 ≤ n ∧ n < s.intType.bits := hn
    refine (follows_shift _ m (fun M hM => (hr M hM).asNumber) hn).weaken
      fun v M _ hv hm _ w hw => ?_
    rw [← hf] at hn
    simp only [BinaryOp.apply, hn, and_self, if_true, Except.ok.injEq] at hw
    subst hw
    exact hv hm.asNumber

/-- A negated condition. -/
theorem follows_not (v : SymValue) :
    Follows type P (condition v >>= fun c => pure (SymValue.bool (.not c))) V V fun u M =>
      ∀ k : Value, v.Denotes M k.toInt → u.Denotes M (UnaryOp.not.apply k).toInt := by
  refine (follows_condition v).bind fun c => .pure fun M hM k hk => SymValue.denotes_bool ?_
  rw [BoolTerm.Holds, hM.2 _ hk]
  simp [Value.holds]

theorem follows_neg (v : SymValue) :
    Follows type P (plain v >>= fun a => pure (SymValue.int (.neg a))) V V fun u M =>
      ∀ k : Value, v.Denotes M k.toInt → u.Denotes M (UnaryOp.neg.apply k).toInt := by
  refine (follows_plain v).bind fun a => .pure fun M hM k hk => ?_
  rw [SymValue.Denotes, IntTerm.value, hM.2 _ hk, UnaryOp.apply, Value.toInt]

theorem follows_complement (v : SymValue) :
    Follows type P (plain v >>= fun a => pure (SymValue.int (.sub (.neg a) (.const 1)))) V V
      fun u M =>
        ∀ k : Value, v.Denotes M k.toInt → u.Denotes M (UnaryOp.complement.apply k).toInt := by
  refine (follows_plain v).bind fun a => .pure fun M hM k hk => ?_
  rw [SymValue.Denotes, IntTerm.value, IntTerm.value, IntTerm.value, hM.2 _ hk, UnaryOp.apply,
    Value.toInt, Bits.complement]

/-- The lesser or the greater one of two numbers. -/
theorem value_better (least : Bool) (a b : IntTerm) (M : Model) :
    (IntTerm.ite (if least then .lt a b else .lt b a) a b).value M =
      (if least then min else max) (b.value M) (a.value M) := by
  cases least with
  | true =>
    by_cases h : a.value M < b.value M
    · rw [IntTerm.value_ite_pos (by simpa [BoolTerm.Holds] using h)]
      simp only [if_true]
      omega
    · rw [IntTerm.value_ite_neg (by simpa [BoolTerm.Holds] using h)]
      simp only [if_true]
      omega
  | false =>
    by_cases h : b.value M < a.value M
    · rw [IntTerm.value_ite_pos (by simpa [BoolTerm.Holds] using h)]
      simp only [Bool.false_eq_true, if_false]
      omega
    · rw [IntTerm.value_ite_neg (by simpa [BoolTerm.Holds] using h)]
      simp only [Bool.false_eq_true, if_false]
      omega

/-- The least or the greatest of some numbers. -/
theorem follows_extreme (least : Bool) (best : SymValue) (args : List SymValue) (m : Int)
    (ns : List Int) :
    Follows type P (extreme least best args) V V fun v M =>
      best.Denotes M m → List.Forall₂ (fun v n => v.Denotes M n) args ns →
        v.Denotes M (ns.foldl (if least then min else max) m) := by
  induction args generalizing P best m ns with
  | nil =>
    refine .pure fun M _ hm hns => ?_
    cases hns
    exact hm
  | cons v rest ih =>
    rw [extreme]
    refine (follows_pair v best).bind fun p => ?_
    obtain ⟨a, b⟩ := p
    cases ns with
    | nil => exact (ih _ m []).weaken fun w M _ _ _ hns => nomatch hns
    | cons n ns =>
      refine (ih _ ((if least then min else max) m n) ns).weaken fun w M hM hw hm hns => ?_
      cases hns with
      | cons hn hrest =>
        refine hw ?_ hrest
        rw [SymValue.Denotes, value_better, hM.2.1 n hn, hM.2.2 m hm]

/-- The built-in functions have their own meaning among the given ones. -/
def KeepsBuiltins (functions : List (String × HostFunction)) : Prop :=
  ∀ name ∈ HostFunction.builtinNames, ∀ f, Datum.field? name functions = some f →
    Datum.field? name HostFunction.builtins = some f

theorem eq_of_joining {name : String} {f : Int → Int → Int} {k n : Int} {ks : List Int}
    (h : HostFunction.joining name f (k :: ks) = .ok n) : ks.foldl f k = n := by
  cases ks with
  | nil => cases h
  | cons _ _ => exact Except.ok.inj h

/-- A function applied to numbers. -/
theorem follows_application {functions : List (String × HostFunction)}
    (hbuiltins : KeepsBuiltins functions) (name : String) (args : List SymValue) (ns : List Int)
    (n : Int) :
    Follows type P (application name args) V V fun v M =>
      List.Forall₂ (fun v n => v.Denotes M n) args ns →
        ∀ f, Datum.field? name functions = some f → f ns = .ok n → v.Denotes M n := by
  unfold application
  split
  · rename_i v
    refine (follows_plain v).bind fun t => .pure fun M hM hns f hf hn => ?_
    obtain rfl := Option.some.inj (hbuiltins "abs" (by decide) f hf)
    cases hns with
    | cons hk hnil =>
      cases hnil
      obtain rfl := Except.ok.inj hn
      rw [SymValue.Denotes, IntTerm.value_abs, hM.2 _ hk]
  · rename_i v rest
    cases ns with
    | nil => exact (follows_extreme true v rest 0 []).weaken fun _ _ _ _ hns => nomatch hns
    | cons k ks =>
      refine (follows_extreme true v rest k ks).weaken fun w M _ hw hns f hf hn => ?_
      obtain rfl := Option.some.inj (hbuiltins "min" (by decide) f hf)
      cases hns with
      | cons hk hks => exact eq_of_joining hn ▸ hw hk hks
  · rename_i v rest
    cases ns with
    | nil => exact (follows_extreme false v rest 0 []).weaken fun _ _ _ _ hns => nomatch hns
    | cons k ks =>
      refine (follows_extreme false v rest k ks).weaken fun w M _ hw hns f hf hn => ?_
      obtain rfl := Option.some.inj (hbuiltins "max" (by decide) f hf)
      cases hns with
      | cons hk hks => exact eq_of_joining hn ▸ hw hk hks
  · exact (follows_unknown n).weaken fun v M _ hv _ _ _ _ => hv

end Operators

end Analyzing

/-! ## Expressions -/

/-- Whether an operator may leave out its right side. -/
def BinaryOp.isConnective : BinaryOp → Bool
  | .both | .either => true
  | _ => false

theorem BinaryOp.isConnective_of_settled? {op : BinaryOp} {l b : Bool}
    (h : op.settled? l = some b) : op.isConnective = true := by
  cases op with
  | both | either => rfl
  | _ => cases h

namespace Expr

mutual

/-- Whether no division, remainder or shift stands in an expression. -/
def isTotal : Expr → Bool
  | .elem _ _ index => isTotal index
  | .binary _ op left right =>
    (BinaryOp.ofSymbol? op).all (fun o => !o.isPartial) && isTotal left && isTotal right
  | .unary _ _ operand => isTotal operand
  | .call _ _ args => allTotal args
  | .int .. | .bool .. | .var .. | .update .. | .hole _ => true

def allTotal : List Expr → Bool
  | [] => true
  | e :: rest => isTotal e && allTotal rest

end

mutual

/-- Whether no division, remainder or shift stands on the right side of `&&` or `||`. -/
def isGuarded : Expr → Bool
  | .elem _ _ index => isGuarded index
  | .binary _ op left right =>
    (BinaryOp.ofSymbol? op).all (fun o => !o.isConnective || right.isTotal) && isGuarded left &&
      isGuarded right
  | .unary _ _ operand => isGuarded operand
  | .call _ _ args => allGuarded args
  | .int .. | .bool .. | .var .. | .update .. | .hole _ => true

def allGuarded : List Expr → Bool
  | [] => true
  | e :: rest => isGuarded e && allGuarded rest

end

end Expr

namespace Scope

variable {t : Scope} {w : Value} {loc : Option Location}

/-- An evaluation of the expression gives the value. -/
def Gives (t : Scope) (e : Expr) (w : Value) : Prop :=
  ∃ reads reads', t.eval e reads = .ok w reads'

/-- An evaluation of the expressions gives the numbers. -/
def GivesAll (t : Scope) (es : List Expr) (ns : List Int) : Prop :=
  ∃ reads reads', t.evalAll es reads = .ok ns reads'

theorem gives_of_value {e : Expr} (h : t.value e = .ok w) : t.Gives e w := by
  obtain ⟨reads, h⟩ := value_eq_ok.mp h
  exact ⟨[], reads, h⟩

theorem gives_var {x : String} (h : t.Gives (.var loc x) w) :
    ∃ u n, t.frame.lookup? x = some (.scalar u) ∧ t.heap.cell? u = some n ∧ w = .int n := by
  obtain ⟨reads, reads', h⟩ := h
  rw [eval] at h
  obtain ⟨u, _, hu, h⟩ := bind_eq_ok.mp h
  obtain ⟨n, _, hn, h⟩ := bind_eq_ok.mp h
  obtain ⟨rfl, -⟩ := pure_eq_ok.mp h
  exact ⟨u, n, Frame.slot_eq_ok.mp (ofExcept_eq_ok.mp hu).1, (readSlot_eq_ok.mp hn).1, rfl⟩

theorem gives_elem {x : String} {index : Expr} (h : t.Gives (.elem loc x index) w) :
    ∃ i u n, t.Gives index i ∧ t.frame.element x i.toInt = .ok u ∧ t.heap.cell? u = some n ∧
      w = .int n := by
  obtain ⟨reads, reads', h⟩ := h
  rw [eval] at h
  obtain ⟨i, r, hi, h⟩ := bind_eq_ok.mp h
  obtain ⟨u, _, hu, h⟩ := bind_eq_ok.mp h
  obtain ⟨n, _, hn, h⟩ := bind_eq_ok.mp h
  obtain ⟨rfl, -⟩ := pure_eq_ok.mp h
  exact ⟨i, u, n, ⟨reads, r, hi⟩, (ofExcept_eq_ok.mp hu).1, (readSlot_eq_ok.mp hn).1, rfl⟩

theorem gives_binary {op : String} {left right : Expr} (h : t.Gives (.binary loc op left right) w) :
    ∃ o l, BinaryOp.ofSymbol? op = some o ∧ t.Gives left l ∧
      ((∃ b, o.settled? l.holds = some b ∧ w = .bool b) ∨
        ∃ r, t.Gives right r ∧ o.apply t.frame l.toInt r.toInt = .ok w) := by
  obtain ⟨reads, reads', h⟩ := h
  obtain ⟨o, l, r₁, ho, hl, h⟩ := eval_binary_eq_ok.mp h
  refine ⟨o, l, ho, ⟨reads, r₁, hl⟩, ?_⟩
  rcases h with ⟨b, hb, hw, -⟩ | ⟨-, r, hr, hw⟩
  · exact Or.inl ⟨b, hb, hw⟩
  · exact Or.inr ⟨r, ⟨r₁, reads', hr⟩, hw⟩

theorem gives_unary {op : String} {operand : Expr} (h : t.Gives (.unary loc op operand) w) :
    ∃ o v, UnaryOp.ofSymbol? op = some o ∧ t.Gives operand v ∧ w = o.apply v := by
  obtain ⟨reads, reads', h⟩ := h
  rw [eval] at h
  obtain ⟨v, r, hv, h⟩ := bind_eq_ok.mp h
  cases ho : UnaryOp.ofSymbol? op with
  | none =>
    rw [ho] at h
    cases h
  | some o =>
    rw [ho] at h
    exact ⟨o, v, rfl, ⟨reads, r, hv⟩, (pure_eq_ok.mp h).1.symm⟩

theorem gives_call {name : String} {args : List Expr} (h : t.Gives (.call loc name args) w) :
    ∃ f ns n, Datum.field? name t.functions = some f ∧ t.GivesAll args ns ∧ f ns = .ok n ∧
      w = .int n := by
  obtain ⟨reads, reads', h⟩ := h
  rw [eval] at h
  cases hf : Datum.field? name t.functions with
  | none =>
    rw [hf] at h
    cases h
  | some f =>
    rw [hf] at h
    obtain ⟨ns, r, hns, h⟩ := bind_eq_ok.mp h
    obtain ⟨n, _, hn, h⟩ := bind_eq_ok.mp h
    exact ⟨f, ns, n, rfl, ⟨reads, r, hns⟩, (ofExcept_eq_ok.mp hn).1, (pure_eq_ok.mp h).1.symm⟩

theorem givesAll_nil {ns : List Int} (h : t.GivesAll [] ns) : ns = [] := by
  obtain ⟨reads, reads', h⟩ := h
  rw [evalAll] at h
  exact (pure_eq_ok.mp h).1.symm

theorem givesAll_cons {e : Expr} {rest : List Expr} {ns : List Int}
    (h : t.GivesAll (e :: rest) ns) :
    ∃ v ms, t.Gives e v ∧ t.GivesAll rest ms ∧ ns = v.toInt :: ms := by
  obtain ⟨reads, reads', h⟩ := h
  rw [evalAll] at h
  obtain ⟨v, r, hv, h⟩ := bind_eq_ok.mp h
  obtain ⟨ms, r', hms, h⟩ := bind_eq_ok.mp h
  exact ⟨v, ms, ⟨reads, r, hv⟩, ⟨r, r', hms⟩, (pure_eq_ok.mp h).1.symm⟩

mutual

/-- Every divisor and every shift count in an expression, whether an evaluation gets there or not,
has a value that its operator accepts. -/
def Passes (t : Scope) : Expr → Prop
  | .elem _ _ index => Passes t index
  | .binary _ op left right =>
    (∀ o, BinaryOp.ofSymbol? op = some o → o.isPartial = true →
      ∃ n, t.Gives right n ∧ o.Accepts t.frame.intType n.toInt) ∧ Passes t left ∧ Passes t right
  | .unary _ _ operand => Passes t operand
  | .call _ _ args => PassesAll t args
  | .int .. | .bool .. | .var .. | .update .. | .hole _ => True

def PassesAll (t : Scope) : List Expr → Prop
  | [] => True
  | e :: rest => Passes t e ∧ PassesAll t rest

end

mutual

theorem passes_of_isTotal : ∀ {e : Expr}, e.isTotal = true → t.Passes e
  | .elem _ _ index, h => passes_of_isTotal (e := index) h
  | .binary _ op left right, h => by
    simp only [Expr.isTotal, Bool.and_eq_true] at h
    refine ⟨fun o ho hpartial => ?_, passes_of_isTotal h.1.2, passes_of_isTotal h.2⟩
    simp [ho, hpartial] at h
  | .unary _ _ operand, h => passes_of_isTotal (e := operand) h
  | .call _ _ args, h => by
    rw [Expr.isTotal] at h
    exact passesAll_of_allTotal h
  | .int .., _ | .bool .., _ | .var .., _ | .update .., _ | .hole _, _ => trivial

theorem passesAll_of_allTotal : ∀ {es : List Expr}, Expr.allTotal es = true → t.PassesAll es
  | [], _ => trivial
  | e :: rest, h => by
    rw [Expr.allTotal, Bool.and_eq_true] at h
    exact ⟨passes_of_isTotal h.1, passesAll_of_allTotal h.2⟩

end

mutual

/-- An evaluation that gives a value has passed all divisors and shift counts but those that stand
on the right side of a connective. -/
theorem passes_of_gives : ∀ {e : Expr} {w : Value}, e.isGuarded = true → t.Gives e w → t.Passes e
  | .elem _ _ index, _, hg, hw => by
    obtain ⟨_, _, _, hi, -⟩ := gives_elem hw
    exact passes_of_gives (e := index) hg hi
  | .binary _ op left right, _, hg, hw => by
    obtain ⟨o, l, ho, hl, h⟩ := gives_binary hw
    simp only [Expr.isGuarded, ho, Option.all_some, Bool.and_eq_true, Bool.or_eq_true,
      Bool.not_eq_true'] at hg
    refine ⟨fun o' ho' hpartial => ?_, passes_of_gives hg.1.2 hl, ?_⟩
    · obtain rfl : o = o' := Option.some.inj (ho.symm.trans ho')
      rcases h with ⟨c, hc, -⟩ | ⟨r, hr, happly⟩
      · -- no operator that refuses a number leaves out its right side
        have hconnective := BinaryOp.isConnective_of_settled? hc
        cases o <;> cases hconnective <;> cases hpartial
      · exact ⟨r, hr, BinaryOp.accepts_of_apply happly⟩
    · rcases h with ⟨c, hc, -⟩ | ⟨r, hr, -⟩
      · rcases hg.1.1 with hnot | htotal
        · rw [BinaryOp.isConnective_of_settled? hc] at hnot
          cases hnot
        · exact passes_of_isTotal htotal
      · exact passes_of_gives hg.2 hr
  | .unary _ _ operand, _, hg, hw => by
    obtain ⟨_, _, -, hv, -⟩ := gives_unary hw
    exact passes_of_gives (e := operand) hg hv
  | .call _ _ args, _, hg, hw => by
    obtain ⟨_, _, _, -, hns, -⟩ := gives_call hw
    rw [Expr.isGuarded] at hg
    exact passesAll_of_givesAll hg hns
  | .int .., _, _, _ | .bool .., _, _, _ | .var .., _, _, _ | .update .., _, _, _
  | .hole _, _, _, _ => trivial

theorem passesAll_of_givesAll : ∀ {es : List Expr} {ns : List Int}, Expr.allGuarded es = true →
    t.GivesAll es ns → t.PassesAll es
  | [], _, _, _ => trivial
  | e :: rest, _, hg, hns => by
    obtain ⟨_, _, hv, hms, -⟩ := givesAll_cons hns
    rw [Expr.allGuarded, Bool.and_eq_true] at hg
    exact ⟨passes_of_gives hg.1 hv, passesAll_of_givesAll hg.2 hms⟩

end

/-- What is known of an expression that is encoded: its value, or nothing. -/
def Knows (t : Scope) (e : Expr) (o : Option Value) : Prop := ∀ w, o = some w → t.Gives e w

/-- The same for expressions in a row. -/
def KnowsAll (t : Scope) (es : List Expr) (o : Option (List Int)) : Prop :=
  ∀ ns, o = some ns → t.GivesAll es ns

theorem knows_some {e : Expr} (h : t.Gives e w) : t.Knows e (some w) := by
  rintro _ ⟨⟩
  exact h

theorem knowsAll_some {es : List Expr} {ns : List Int} (h : t.GivesAll es ns) :
    t.KnowsAll es (some ns) := by
  rintro _ ⟨⟩
  exact h

theorem knows_none (t : Scope) (e : Expr) : t.Knows e none := nofun

theorem knowsAll_none (t : Scope) (es : List Expr) : t.KnowsAll es none := nofun

/-- The operands of an operator. The right side is known if the operator refuses some numbers. -/
theorem Knows.binary {op : String} {left right : Expr} {o : Option Value}
    (h : t.Knows (.binary loc op left right) o) (hp : t.Passes (.binary loc op left right)) :
    ∃ l r, t.Knows left l ∧ t.Knows right r ∧ ∀ b, BinaryOp.ofSymbol? op = some b →
      (b.isPartial = true → ∃ n, r = some n ∧ b.Accepts t.frame.intType n.toInt) ∧
      ∀ w, o = some w → ∃ m, l = some m ∧ ((∃ c, b.settled? m.holds = some c ∧ w = .bool c) ∨
        ∃ n, r = some n ∧ b.apply t.frame m.toInt n.toInt = .ok w) := by
  cases o with
  | some w =>
    obtain ⟨b, l, hb, hl, hvalue⟩ := gives_binary (h w rfl)
    rcases hvalue with ⟨c, hc, rfl⟩ | ⟨r, hr, happly⟩
    · refine ⟨some l, none, knows_some hl, knows_none t right, fun b' hb' => ?_⟩
      obtain rfl : b = b' := Option.some.inj (hb.symm.trans hb')
      refine ⟨fun hpartial => ?_, fun w hw => ⟨l, rfl, Or.inl ⟨c, hc, (Option.some.inj hw).symm⟩⟩⟩
      have hconnective := BinaryOp.isConnective_of_settled? hc
      cases b <;> cases hconnective <;> cases hpartial
    · refine ⟨some l, some r, knows_some hl, knows_some hr, fun b' hb' => ?_⟩
      obtain rfl : b = b' := Option.some.inj (hb.symm.trans hb')
      refine ⟨fun _ => ⟨r, rfl, BinaryOp.accepts_of_apply happly⟩,
        fun w' hw' => ⟨l, rfl, Or.inr ⟨r, rfl, ?_⟩⟩⟩
      rw [← Option.some.inj hw']
      exact happly
  | none =>
    by_cases hpartial : ∃ b, BinaryOp.ofSymbol? op = some b ∧ b.isPartial = true
    · obtain ⟨b, hb, hpartial⟩ := hpartial
      obtain ⟨n, hn, haccepts⟩ := hp.1 b hb hpartial
      refine ⟨none, some n, knows_none t left, knows_some hn, fun b' hb' => ⟨fun _ => ?_, nofun⟩⟩
      obtain rfl : b = b' := Option.some.inj (hb.symm.trans hb')
      exact ⟨n, rfl, haccepts⟩
    · refine ⟨none, none, knows_none t left, knows_none t right, fun b hb => ⟨fun h => ?_, nofun⟩⟩
      exact absurd ⟨b, hb, h⟩ hpartial

theorem Knows.elem {x : String} {index : Expr} {o : Option Value}
    (h : t.Knows (.elem loc x index) o) :
    ∃ i, t.Knows index i ∧ ∀ w, o = some w → ∃ k u n, i = some k ∧
      t.frame.element x k.toInt = .ok u ∧ t.heap.cell? u = some n ∧ w = .int n := by
  cases o with
  | some w =>
    obtain ⟨k, u, n, hk, hu, hn, rfl⟩ := gives_elem (h w rfl)
    exact ⟨some k, knows_some hk, fun w hw => ⟨k, u, n, rfl, hu, hn, (Option.some.inj hw).symm⟩⟩
  | none => exact ⟨none, knows_none t index, nofun⟩

theorem Knows.unary {op : String} {operand : Expr} {o : Option Value}
    (h : t.Knows (.unary loc op operand) o) :
    ∃ i, t.Knows operand i ∧ ∀ w, o = some w → ∃ u k, UnaryOp.ofSymbol? op = some u ∧
      i = some k ∧ w = u.apply k := by
  cases o with
  | some w =>
    obtain ⟨u, k, hu, hk, rfl⟩ := gives_unary (h w rfl)
    exact ⟨some k, knows_some hk, fun w hw => ⟨u, k, hu, rfl, (Option.some.inj hw).symm⟩⟩
  | none => exact ⟨none, knows_none t operand, nofun⟩

theorem Knows.call {name : String} {args : List Expr} {o : Option Value}
    (h : t.Knows (.call loc name args) o) :
    ∃ i, t.KnowsAll args i ∧ ∀ w, o = some w → ∃ f ns n, Datum.field? name t.functions = some f ∧
      i = some ns ∧ f ns = .ok n ∧ w = .int n := by
  cases o with
  | some w =>
    obtain ⟨f, ns, n, hf, hns, hn, rfl⟩ := gives_call (h w rfl)
    exact ⟨some ns, knowsAll_some hns, fun w hw =>
      ⟨f, ns, n, hf, rfl, hn, (Option.some.inj hw).symm⟩⟩
  | none => exact ⟨none, knowsAll_none t args, nofun⟩

theorem KnowsAll.cons {e : Expr} {rest : List Expr} {o : Option (List Int)}
    (h : t.KnowsAll (e :: rest) o) :
    ∃ i j, t.Knows e i ∧ t.KnowsAll rest j ∧ ∀ ns, o = some ns → ∃ v ms, i = some v ∧
      j = some ms ∧ ns = v.toInt :: ms := by
  cases o with
  | some ns =>
    obtain ⟨v, ms, hv, hms, rfl⟩ := givesAll_cons (h ns rfl)
    exact ⟨some v, some ms, knows_some hv, knowsAll_some hms, fun ns hns =>
      ⟨v, ms, rfl, rfl, (Option.some.inj hns).symm⟩⟩
  | none => exact ⟨none, none, knows_none t e, knowsAll_none t rest, nofun⟩

end Scope

/-- A scope in which the subject of an analysis is evaluated: numbers have the type that the
analysis takes them to have, and the built-in functions their meaning. -/
structure Scope.Suits (t : Scope) (s : Subject) : Prop where
  intType : t.frame.intType = s.intType
  builtins : Analyzing.KeepsBuiltins t.functions
  inRange : (t.frame.view t.heap).InRange s.intType

namespace Analyzing

variable {s : Subject} {t : Scope}

/-- The element of an array is the number that the run finds in its slot. -/
theorem mirrors_element {M : Model} {v : SymValue} {a : ArrayTerm} {x : String} {k n : Int}
    {u : Slot} (hv : ∀ c, t.frame.view t.heap x = some c → v.Mirrors M c) (ha : v = .array a)
    (hu : t.frame.element x k = .ok u) (hn : t.heap.cell? u = some n) : a.value M k = n := by
  obtain ⟨slots, hslots, hk, hslot⟩ := Frame.element_eq_ok.mp hu
  have hmany : a.value M = t.heap.heldAt slots := hv _ (Frame.view_of_lookup? hslots) a ha
  rw [hmany, Heap.heldAt, if_pos hk, hslot, Option.elim_some, Heap.held_of_cell? hn]

mutual

/-- **Encoding an expression follows its evaluation.** -/
theorem follows_encode_of_passes (ht : t.Suits s) : ∀ {e : Expr} {P : Model → Prop}
    {o : Option Value}, t.Passes e → t.Knows e o →
    Follows s.intType P (encode s e) (t.frame.view t.heap) (t.frame.view t.heap) fun v M =>
      ∀ w, o = some w → v.Denotes M w.toInt
  | .int loc n, P, o, _, ho => by
    rw [encode]
    refine .pure fun M _ w hw => ?_
    obtain ⟨_, _, hw⟩ := ho w hw
    rw [Scope.eval] at hw
    obtain ⟨rfl, -⟩ := pure_eq_ok.mp hw
    rw [SymValue.Denotes, IntTerm.value, Value.toInt]
  | .bool loc b, P, o, _, ho => by
    rw [encode]
    refine .pure fun M _ w hw => ?_
    obtain ⟨_, _, hw⟩ := ho w hw
    rw [Scope.eval] at hw
    obtain ⟨rfl, -⟩ := pure_eq_ok.mp hw
    exact SymValue.denotes_bool (by rw [BoolTerm.Holds])
  | .var loc x, P, o, _, ho => by
    rw [encode]
    refine (follows_lookup x ht.inRange).weaken fun v M _ hv w hw => ?_
    obtain ⟨u, n, hu, hn, rfl⟩ := Scope.gives_var (ho w hw)
    have hone := hv.2 _ (Frame.view_of_lookup? hu)
    rwa [Binding.content, Heap.held_of_cell? hn] at hone
  | .elem loc x index, P, o, hp, ho => by
    obtain ⟨i, hi, ho⟩ := ho.elem
    rw [Scope.Passes] at hp
    rw [encode]
    refine (follows_lookup x ht.inRange).bind fun v => ?_
    refine (follows_encode_of_passes ht hp hi).bind fun iv => ?_
    refine (follows_arrayOf v).bind fun a => (follows_indexOf iv.asNumber).bind fun k => ?_
    refine (follows_assume fun M hM => ?_).bind fun _ => .pure fun M hM w hw => ?_
    · obtain ⟨⟨⟨⟨-, hv⟩, -⟩, ha⟩, -⟩ := hM
      rw [IntTerm.holds_inRange, IntTerm.value]
      exact hv.1 a ha _
    · obtain ⟨⟨⟨⟨⟨-, hv⟩, hiv⟩, ha⟩, hk⟩, -⟩ := hM
      obtain ⟨j, u, n, rfl, hu, hn, rfl⟩ := ho w hw
      have hj : k.value M = j.toInt := hk _ (hiv j rfl).asNumber
      rw [SymValue.Denotes, IntTerm.value, hj]
      exact mirrors_element hv.2 ha hu hn
  | .binary loc op left right, P, o, hp, ho => by
    obtain ⟨l, r, hl, hr, hop⟩ := ho.binary hp
    rw [Scope.Passes] at hp
    rw [encode]
    refine (follows_encode_of_passes ht hp.2.1 hl).bind fun lv => ?_
    refine (follows_encode_of_passes ht hp.2.2 hr).bind fun rv => ?_
    cases hb : BinaryOp.ofSymbol? op with
    | none => exact .throw
    | some b =>
      obtain ⟨hpartial, hvalue⟩ := hop b hb
      -- operands of which nothing is known are of no account
      have hgeneral : Follows s.intType (fun M => (P M ∧ ∀ w, l = some w → lv.Denotes M w.toInt) ∧
          ∀ w, r = some w → rv.Denotes M w.toInt) (binary s b lv rv) (t.frame.view t.heap)
          (t.frame.view t.heap) _ :=
        follows_binary b t.frame ht.intType (l.elim 0 Value.toInt) (r.elim 0 Value.toInt)
          fun hb => by
            obtain ⟨n, rfl, haccepts⟩ := hpartial hb
            exact ⟨ht.intType ▸ haccepts, fun M hM => hM.2 n rfl⟩
      cases o with
      | none => exact hgeneral.weaken fun v M _ _ w hw => nomatch hw
      | some w =>
        obtain ⟨m, rfl, ⟨c, hc, rfl⟩ | ⟨n, rfl, happly⟩⟩ := hvalue w rfl
        · refine (follows_settled hc).weaken fun v M hM hv w hw => ?_
          rw [← Option.some.inj hw]
          exact hv (hM.1.2 m rfl)
        · refine hgeneral.weaken fun v M hM hv w hw => ?_
          rw [← Option.some.inj hw]
          exact hv (hM.1.2 m rfl) (hM.2 n rfl) _ happly
  | .unary loc op operand, P, o, hp, ho => by
    obtain ⟨i, hi, ho⟩ := ho.unary
    rw [Scope.Passes] at hp
    rw [encode]
    refine (follows_encode_of_passes ht hp hi).bind fun v => ?_
    cases hu : UnaryOp.ofSymbol? op with
    | none =>
      refine (follows_unknown 0).weaken fun u M _ _ w hw => ?_
      obtain ⟨b, k, hb, -, -⟩ := ho w hw
      rw [hu] at hb
      cases hb
    | some b =>
      have hvalue : ∀ (u : SymValue) (M : Model),
          (P M ∧ ∀ w, i = some w → v.Denotes M w.toInt) →
            (∀ k : Value, v.Denotes M k.toInt → u.Denotes M (b.apply k).toInt) →
              ∀ w, o = some w → u.Denotes M w.toInt := by
        intro u M hM happly w hw
        obtain ⟨b', k, hb', rfl, rfl⟩ := ho w hw
        obtain rfl : b = b' := Option.some.inj (hu.symm.trans hb')
        exact happly k (hM.2 k rfl)
      cases b with
      | not => exact (follows_not v).weaken hvalue
      | neg => exact (follows_neg v).weaken hvalue
      | complement => exact (follows_complement v).weaken hvalue
  | .call loc name args, P, o, hp, ho => by
    obtain ⟨i, hi, ho⟩ := ho.call
    rw [Scope.Passes] at hp
    rw [encode]
    refine (follows_encodeAll_of_passesAll ht hp hi).bind fun vs => ?_
    refine (follows_application ht.builtins name vs (i.getD []) (o.elim 0 Value.toInt)).weaken
      fun v M hM hv w hw => ?_
    obtain ⟨f, ns, n, hf, rfl, hn, rfl⟩ := ho w hw
    subst hw
    exact hv (hM.2 ns rfl) f hf hn
  | .update .., P, o, _, _ => by
    rw [encode]
    exact .throw
  | .hole loc, P, o, _, ho => by
    rw [encode]
    refine (follows_unknown 0).weaken fun v M _ _ w hw => ?_
    obtain ⟨_, _, hw⟩ := ho w hw
    rw [Scope.eval] at hw
    cases hw

theorem follows_encodeAll_of_passesAll (ht : t.Suits s) : ∀ {es : List Expr} {P : Model → Prop}
    {o : Option (List Int)}, t.PassesAll es → t.KnowsAll es o →
    Follows s.intType P (encodeAll s es) (t.frame.view t.heap) (t.frame.view t.heap) fun vs M =>
      ∀ ns, o = some ns → List.Forall₂ (fun v n => v.Denotes M n) vs ns
  | [], P, o, _, ho => by
    rw [encodeAll]
    refine .pure fun M _ ns hns => ?_
    rw [Scope.givesAll_nil (ho ns hns)]
    exact .nil
  | e :: rest, P, o, hp, ho => by
    obtain ⟨i, j, hi, hj, ho⟩ := ho.cons
    rw [Scope.PassesAll] at hp
    rw [encodeAll]
    refine (follows_encode_of_passes ht hp.1 hi).bind fun v => ?_
    refine (follows_encodeAll_of_passesAll ht hp.2 hj).bind fun vs => .pure fun M hM ns hns => ?_
    obtain ⟨w, ms, rfl, rfl, rfl⟩ := ho ns hns
    exact .cons (hM.1.2 w rfl).asNumber (hM.2 ms rfl)

end

/-- Where no division and no shift is left out, the evaluation itself has passed all of them. -/
theorem follows_encode (ht : t.Suits s) {e : Expr} {P : Model → Prop} {w : Value}
    (hguarded : e.isGuarded = true) (hw : t.Gives e w) :
    Follows s.intType P (encode s e) (t.frame.view t.heap) (t.frame.view t.heap) fun v M =>
      v.Denotes M w.toInt :=
  (follows_encode_of_passes ht (Scope.passes_of_gives hguarded hw) (Scope.knows_some hw)).weaken
    fun _ _ _ hv => hv w rfl

end Analyzing

end Retrace
