import Retrace.Proofs.Verification

/-!
# Procedures that can be encoded

The analysis of a procedure is given up where values do not fit together. The library of terms then
has an objection, which goes into the log, or it fails. The analysis also fails at a shift whose
count is written out, if the count is negative or the result is too large a number. None of this is
against the static rules.

Two conditions on the text of a procedure rule it out. A procedure is well sorted if every name is
used with an index everywhere or nowhere (`Procedure.wellSorted`): then all values fit. Its shifts
are sound if no shift count can come out as a literal that is negative or too large
(`Procedure.soundShifts`). Literals travel through names, so the condition is about all values that
names are given; `loose` is whether these may be such literals.

`Procedure.analyzed` says how an analysis ends, whatever the toolkit: with a report, or it fails for
one of the two reasons, and the condition that rules it out does not hold.
-/

namespace Retrace

/-! ## Checks of expressions -/

/-- Whether a number is not negative and has at most so many bits. -/
def Bits.isCount (bits : Nat) (n : Int) : Bool := 0 ≤ n && n.toNat < weight bits

namespace BinaryOp

/-- Whether an operator is a shift. -/
def isShift (op : BinaryOp) : Bool := op = .shiftLeft || op = .shiftRight

/-- Whether an operator works bit by bit. -/
def isBitwise (op : BinaryOp) : Bool := op = .bitAnd || op = .bitOr || op = .bitXor

end BinaryOp

/-- Whether an update adds its operand or takes it away. -/
def Update.isSum (op : Update) : Bool := op = .add || op = .sub

namespace Expr

mutual

/-- Whether all parts of an expression pass a check. -/
def every (check : Expr → Bool) : Expr → Bool
  | .elem loc name index => check (.elem loc name index) && every check index
  | .binary loc op left right =>
    check (.binary loc op left right) && every check left && every check right
  | .unary loc op operand => check (.unary loc op operand) && every check operand
  | .call loc name args => check (.call loc name args) && everyOf check args
  | e => check e

/-- `every`, for several expressions. -/
def everyOf (check : Expr → Bool) : List Expr → Bool
  | [] => true
  | e :: rest => every check e && everyOf check rest

end

/-- Whether a name stands here for what it is used as elsewhere. -/
def sortedAt (arrays : List String) : Expr → Bool
  | .var _ name => name ∉ arrays
  | .elem _ name _ => name ∈ arrays
  | _ => true

mutual

/-- Whether an expression may be encoded as a literal that is no count of so many bits. Operators on
bits compute with literals, and the least of one number is that number. -/
def mayExceed (bits : Nat) (loose : Bool) : Expr → Bool
  | .int _ n => !Bits.isCount bits n
  | .var .. => loose
  | .binary _ op left right =>
    (BinaryOp.ofSymbol? op).any BinaryOp.isBitwise &&
      (mayExceed bits loose left || mayExceed bits loose right)
  | .call _ name args => (name = "min" || name = "max") && soleMayExceed bits loose args
  | .bool .. | .elem .. | .unary .. | .update .. | .hole _ => false

/-- `mayExceed`, for the only one of some expressions. -/
def soleMayExceed (bits : Nat) (loose : Bool) : List Expr → Bool
  | [] => false
  | e :: rest => rest.isEmpty && mayExceed bits loose e

end

/-- Whether a shift here has a count that is no literal or one of so many bits. -/
def countedAt (bits : Nat) (loose : Bool) : Expr → Bool
  | .binary _ op _ right =>
    !((BinaryOp.ofSymbol? op).any BinaryOp.isShift && right.mayExceed bits loose)
  | _ => true

/-- Whether a name may be given the value of an expression. -/
def settled (bits : Nat) (loose : Bool) (e : Expr) : Bool := loose || !e.mayExceed bits loose

theorem le_of_settled {bits : Nat} {loose : Bool} {e : Expr} (h : e.settled bits loose = true)
    (hexceeds : e.mayExceed bits loose = true) : loose = true := by
  simpa [settled, hexceeds] using h

/-- Whether an argument of a call is well sorted. It may be a whole array. -/
def passable (arrays : List String) : Expr → Bool
  | .var .. => true
  | e => e.every (sortedAt arrays)

end Expr

/-! ## Checks of statements -/

namespace Stmt

mutual

/-- Whether all statements that an analysis follows pass a check. It does not follow the bodies of
loops. -/
def followed (check : Stmt → Bool) : Stmt → Bool
  | .branch loc guard thenBody elseBody assertion =>
    check (.branch loc guard thenBody elseBody assertion) && allFollowed check thenBody &&
      allFollowed check elseBody
  | .block _ body => allFollowed check body
  | s => check s

/-- `followed`, for a block. -/
def allFollowed (check : Stmt → Bool) : List Stmt → Bool
  | [] => true
  | s :: rest => followed check s && allFollowed check rest

end

/-- Whether the names in a statement stand for what they are used as elsewhere. -/
def sortedAt (arrays : List String) : Stmt → Bool
  | .assign _ target _ value =>
    target.isRef && target.every (Expr.sortedAt arrays) && value.every (Expr.sortedAt arrays)
  | .swap _ left right =>
    left.every (Expr.sortedAt arrays) && right.every (Expr.sortedAt arrays)
  | .declare _ name value | .discard _ name value =>
    name ∉ arrays && value.every (Expr.sortedAt arrays)
  | .call _ _ args _ => args.all (Expr.passable arrays)
  | .branch _ guard _ _ assertion =>
    guard.every (Expr.sortedAt arrays) && assertion.every (Expr.sortedAt arrays)
  | .loop _ _ _ _ exit => exit.every (Expr.sortedAt arrays)
  | .block .. | .hole _ => true

/-- Whether the shifts in a statement have sound counts, and names are given values that they may
be given. -/
def countedAt (bits : Nat) (loose : Bool) : Stmt → Bool
  | .assign _ target op value =>
    target.every (Expr.countedAt bits loose) && value.every (Expr.countedAt bits loose) &&
      ((Update.ofSymbol? op).any Update.isSum || value.settled bits loose)
  | .swap _ left right =>
    left.every (Expr.countedAt bits loose) && right.every (Expr.countedAt bits loose) &&
      left.settled bits loose && right.settled bits loose
  | .declare _ _ value => value.every (Expr.countedAt bits loose) && value.settled bits loose
  | .discard _ _ value => value.every (Expr.countedAt bits loose)
  | .call _ _ args _ => args.all (Expr.every (Expr.countedAt bits loose))
  | .branch _ guard _ _ assertion =>
    guard.every (Expr.countedAt bits loose) && assertion.every (Expr.countedAt bits loose)
  | .loop _ _ _ _ exit => exit.every (Expr.countedAt bits loose)
  | .block .. | .hole _ => true

end Stmt

namespace Procedure

/-- Whether every name that an analysis of a procedure meets is used with an index everywhere or
nowhere. Only calls may pass on an array as a whole. -/
def wellSorted (p : Procedure) : Bool :=
  Stmt.allFollowed (Stmt.sortedAt (Stmt.arrayNamesOfBlock p.body)) p.body

/-- Whether every literal shift count of a procedure is a count of so many bits, with or without
other literals in its names. -/
def soundShifts (p : Procedure) (bits : Nat) : Bool :=
  [false, true].any fun loose => Stmt.allFollowed (Stmt.countedAt bits loose) p.body

end Procedure

/-! ## What is taken for granted -/

/-- What is taken for granted of a procedure. -/
structure Premise where
  /-- it is well sorted -/
  sorts : Prop
  /-- its shifts are sound -/
  counts : Prop

/-- Two checks are passed, as far as this is taken for granted. -/
structure Premise.Grants (A : Premise) (sorted counted : Bool) : Prop where
  sorted : A.sorts → sorted = true
  counted : A.counts → counted = true

namespace Premise.Grants

variable {A : Premise} {p p' q q' : Bool}

theorem left (h : A.Grants (p && p') (q && q')) : A.Grants p q where
  sorted hA := (Bool.and_eq_true_iff.mp (h.sorted hA)).1
  counted hA := (Bool.and_eq_true_iff.mp (h.counted hA)).1

theorem right (h : A.Grants (p && p') (q && q')) : A.Grants p' q' where
  sorted hA := (Bool.and_eq_true_iff.mp (h.sorted hA)).2
  counted hA := (Bool.and_eq_true_iff.mp (h.counted hA)).2

end Premise.Grants

/-- An expression passes the checks, as far as this is taken for granted. -/
abbrev Expr.Meets (A : Premise) (s : Subject) (loose : Bool) (e : Expr) : Prop :=
  A.Grants (e.every (Expr.sortedAt s.arrays)) (e.every (Expr.countedAt s.capacity loose))

/-- `Expr.Meets`, for several expressions. -/
abbrev Expr.AllMeet (A : Premise) (s : Subject) (loose : Bool) (es : List Expr) : Prop :=
  A.Grants (Expr.everyOf (Expr.sortedAt s.arrays) es)
    (Expr.everyOf (Expr.countedAt s.capacity loose) es)

/-- A statement passes the checks, as far as this is taken for granted. -/
abbrev Stmt.Meets (A : Premise) (s : Subject) (loose : Bool) (stmt : Stmt) : Prop :=
  A.Grants (stmt.followed (Stmt.sortedAt s.arrays))
    (stmt.followed (Stmt.countedAt s.capacity loose))

/-- `Stmt.Meets`, for a block. -/
abbrev Stmt.AllMeet (A : Premise) (s : Subject) (loose : Bool) (body : List Stmt) : Prop :=
  A.Grants (Stmt.allFollowed (Stmt.sortedAt s.arrays) body)
    (Stmt.allFollowed (Stmt.countedAt s.capacity loose) body)

section Meets

variable {A : Premise} {s : Subject} {loose : Bool} {loc : Option Location} {name op : String}
  {i l r e : Expr} {es : List Expr} {stmt : Stmt} {body : List Stmt}

namespace Expr

theorem Meets.notMem_arrays (h : (Expr.var loc name).Meets A s loose) (hA : A.sorts) :
    name ∉ s.arrays := by
  simpa [every, sortedAt] using h.sorted hA

theorem Meets.mem_arrays (h : (Expr.elem loc name i).Meets A s loose) (hA : A.sorts) :
    name ∈ s.arrays :=
  of_decide_eq_true (h.left.sorted hA)

theorem Meets.index (h : (Expr.elem loc name i).Meets A s loose) : i.Meets A s loose := h.right

theorem Meets.first (h : (Expr.binary loc op l r).Meets A s loose) : l.Meets A s loose :=
  h.left.right

theorem Meets.second (h : (Expr.binary loc op l r).Meets A s loose) : r.Meets A s loose := h.right

/-- The count of a shift. -/
theorem Meets.shift (h : (Expr.binary loc op l r).Meets A s loose) (hA : A.counts)
    (hop : (BinaryOp.ofSymbol? op).any BinaryOp.isShift = true) :
    r.mayExceed s.capacity loose = false := by
  simpa [countedAt, hop] using h.left.left.counted hA

theorem Meets.operand (h : (Expr.unary loc op e).Meets A s loose) : e.Meets A s loose := h.right

theorem Meets.args (h : (Expr.call loc name es).Meets A s loose) : AllMeet A s loose es := h.right

theorem AllMeet.head (h : AllMeet A s loose (e :: es)) : e.Meets A s loose := h.left

theorem AllMeet.tail (h : AllMeet A s loose (e :: es)) : AllMeet A s loose es := h.right

end Expr

namespace Stmt.AllMeet

theorem head (h : Stmt.AllMeet A s loose (stmt :: body)) : stmt.Meets A s loose := h.left

theorem tail (h : Stmt.AllMeet A s loose (stmt :: body)) : Stmt.AllMeet A s loose body := h.right

end Stmt.AllMeet

namespace Stmt.Meets

variable {target value exit guard assertion : Expr}
  {thenBody elseBody doBody loopBody : List Stmt}

theorem assign (h : (Stmt.assign loc target op value).Meets A s loose) :
    target.Meets A s loose ∧ value.Meets A s loose ∧ (A.sorts → target.isRef = true) ∧
      (A.counts → (Update.ofSymbol? op).any Update.isSum = true ∨
        value.settled s.capacity loose = true) := by
  have hsorted := h.sorted
  have hcounted := h.counted
  simp only [followed, sortedAt, countedAt, Bool.and_eq_true, Bool.or_eq_true] at hsorted hcounted
  exact ⟨⟨fun hA => (hsorted hA).1.2, fun hA => (hcounted hA).1.1⟩,
    ⟨fun hA => (hsorted hA).2, fun hA => (hcounted hA).1.2⟩, fun hA => (hsorted hA).1.1,
    fun hA => (hcounted hA).2⟩

theorem swap (h : (Stmt.swap loc l r).Meets A s loose) :
    l.Meets A s loose ∧ r.Meets A s loose ∧
      (A.counts → l.settled s.capacity loose = true) ∧
        (A.counts → r.settled s.capacity loose = true) := by
  have hsorted := h.sorted
  have hcounted := h.counted
  simp only [followed, sortedAt, countedAt, Bool.and_eq_true] at hsorted hcounted
  exact ⟨⟨fun hA => (hsorted hA).1, fun hA => (hcounted hA).1.1.1⟩,
    ⟨fun hA => (hsorted hA).2, fun hA => (hcounted hA).1.1.2⟩, fun hA => (hcounted hA).1.2,
    fun hA => (hcounted hA).2⟩

theorem declare (h : (Stmt.declare loc name value).Meets A s loose) :
    value.Meets A s loose ∧ (A.sorts → name ∉ s.arrays) ∧
      (A.counts → value.settled s.capacity loose = true) := by
  have hsorted := h.sorted
  have hcounted := h.counted
  simp only [followed, sortedAt, countedAt, Bool.and_eq_true, decide_eq_true_eq] at hsorted hcounted
  exact ⟨⟨fun hA => (hsorted hA).2, fun hA => (hcounted hA).1⟩, fun hA => (hsorted hA).1,
    fun hA => (hcounted hA).2⟩

theorem discard (h : (Stmt.discard loc name value).Meets A s loose) :
    value.Meets A s loose ∧ (A.sorts → name ∉ s.arrays) := by
  have hsorted := h.sorted
  simp only [followed, sortedAt, Bool.and_eq_true, decide_eq_true_eq] at hsorted
  exact ⟨⟨fun hA => (hsorted hA).2, h.counted⟩, fun hA => (hsorted hA).1⟩

/-- An argument of a call is a name, which may stand for an array, or it passes the checks. -/
theorem call {uncall : Bool} (h : (Stmt.call loc name es uncall).Meets A s loose) {arg : Expr}
    (harg : arg ∈ es) : (∃ loc x, arg = .var loc x) ∨ arg.Meets A s loose := by
  have hsorted := fun hA => List.all_eq_true.mp (h.sorted hA) arg harg
  have hcounted := fun hA => List.all_eq_true.mp (h.counted hA) arg harg
  cases arg with
  | var loc x => exact .inl ⟨loc, x, rfl⟩
  | _ => exact .inr ⟨hsorted, hcounted⟩

theorem branch (h : (Stmt.branch loc guard thenBody elseBody assertion).Meets A s loose) :
    guard.Meets A s loose ∧ assertion.Meets A s loose ∧ Stmt.AllMeet A s loose thenBody ∧
      Stmt.AllMeet A s loose elseBody := by
  have hsorted := h.sorted
  have hcounted := h.counted
  simp only [followed, sortedAt, countedAt, Bool.and_eq_true] at hsorted hcounted
  exact ⟨⟨fun hA => (hsorted hA).1.1.1, fun hA => (hcounted hA).1.1.1⟩,
    ⟨fun hA => (hsorted hA).1.1.2, fun hA => (hcounted hA).1.1.2⟩,
    ⟨fun hA => (hsorted hA).1.2, fun hA => (hcounted hA).1.2⟩,
    ⟨fun hA => (hsorted hA).2, fun hA => (hcounted hA).2⟩⟩

theorem loop (h : (Stmt.loop loc guard doBody loopBody exit).Meets A s loose) :
    exit.Meets A s loose :=
  ⟨h.sorted, h.counted⟩

theorem block (h : (Stmt.block loc body).Meets A s loose) : Stmt.AllMeet A s loose body :=
  ⟨h.sorted, h.counted⟩

end Stmt.Meets

end Meets

/-! ## Values -/

/-- The mistakes that the host can make in a shift. -/
def Toolkit.OfShift (k : Toolkit) (m : Mistake) : Prop :=
  m = .negativeShift ∨ ∃ n, k.excess? n = some m

theorem BitOp.isCount_onInts (op : BitOp) {bits : Nat} {m n : Int}
    (hm : Bits.isCount bits m = true) (hn : Bits.isCount bits n = true) :
    Bits.isCount bits (op.onInts m n) = true := by
  have hweight := IntType.weight_cast bits
  simp only [Bits.isCount, Bool.and_eq_true, decide_eq_true_eq] at hm hn ⊢
  have hnonneg := op.onInts_nonneg hm.1 hn.1
  have hbounds := op.onInts_bounds (k := bits) (l := m) (r := n) (by omega) (by omega)
  omega

/-- A value that is a literal and no count of so many bits only if `large` says so. -/
def SymValue.Counted (bits : Nat) (large : Bool) (v : SymValue) : Prop :=
  ∀ t n, v.asNumber = .int t → t.literal? = some n → Bits.isCount bits n = false → large = true

/-- A value that is a number, and a literal that is no count only if `large` says so, as far as this
is taken for granted. -/
structure SymValue.IsNumber (A : Premise) (s : Subject) (large : Bool) (v : SymValue) : Prop where
  sort : A.sorts → ∃ t, v.asNumber = .int t
  count : A.counts → v.Counted s.capacity large

/-- What a name may stand for: an array if the name is used as one, a number if not, and a literal
that is no count only if names may stand for these. -/
structure SymValue.Stands (A : Premise) (s : Subject) (loose : Bool) (name : String)
    (v : SymValue) : Prop where
  array : A.sorts → name ∈ s.arrays → ∃ t, v = .array t
  number : A.sorts → name ∉ s.arrays → ∃ t, v = .int t
  count : A.counts → v.Counted s.capacity loose

section Values

variable {A : Premise} {s : Subject} {loose large : Bool} {name : String} {v : SymValue}

namespace SymValue.IsNumber

theorem of_literal_none {t : IntTerm} (h : t.literal? = none) :
    (SymValue.int t).IsNumber A s large where
  sort _ := ⟨t, rfl⟩
  count _ t' n ht hn _ := by
    cases ht
    rw [h] at hn
    cases hn

theorem bool (t : BoolTerm) : (SymValue.bool t).IsNumber A s large :=
  ⟨fun _ => ⟨_, rfl⟩, fun _ t' n ht hn _ => by
    cases ht
    cases hn⟩

theorem mono {wider : Bool} (h : v.IsNumber A s large)
    (hle : A.counts → large = true → wider = true) : v.IsNumber A s wider :=
  ⟨h.sort, fun hA t n ht hn hcount => hle hA (h.count hA t n ht hn hcount)⟩

theorem any (h : v.IsNumber A s large) : v.IsNumber A s true := h.mono fun _ _ => rfl

theorem asNumber_asNumber (v : SymValue) : v.asNumber.asNumber = v.asNumber := by
  cases v <;> rfl

theorem asNumber (h : v.IsNumber A s large) : v.asNumber.IsNumber A s large := by
  refine ⟨?_, fun hA => ?_⟩
  · rw [asNumber_asNumber]
    exact h.sort
  · rw [SymValue.Counted, asNumber_asNumber]
    exact h.count hA

/-- A number that a name may be given. -/
theorem stands (h : v.IsNumber A s loose) (hname : A.sorts → name ∉ s.arrays) :
    v.asNumber.Stands A s loose name where
  array hA hmem := absurd hmem (hname hA)
  number hA _ := h.sort hA
  count := h.asNumber.count

end SymValue.IsNumber

namespace SymValue.Stands

theorem isNumber (h : v.Stands A s loose name) (hname : A.sorts → name ∉ s.arrays) :
    v.IsNumber A s loose where
  sort hA := by
    obtain ⟨t, rfl⟩ := h.number hA (hname hA)
    exact ⟨t, rfl⟩
  count := h.count

theorem of_array {t : ArrayTerm} (hname : A.sorts → name ∈ s.arrays) :
    (SymValue.array t).Stands A s loose name where
  array _ _ := ⟨t, rfl⟩
  number hA hmem := absurd (hname hA) hmem
  count _ _ _ h := by cases h

theorem of_unknownFor (label : String) : (s.unknownFor name label).Stands A s loose name := by
  unfold Subject.unknownFor
  split
  · exact of_array fun _ => by assumption
  · rename_i hname
    exact ⟨fun _ hmem => absurd hmem hname, fun _ _ => ⟨_, rfl⟩,
      (IsNumber.of_literal_none rfl).count⟩

end SymValue.Stands

end Values

/-- Names stand for what they may stand for. -/
def Analysis.Sane (A : Premise) (s : Subject) (loose : Bool) (a : Analysis) : Prop :=
  ∀ entry ∈ a.vars, entry.2.Stands A s loose entry.1

/-- Why an analysis may be given up: for a reason that is a matter of the language, or because
values do not fit or a shift fails, if this is not ruled out. -/
inductive Refusal.Expected (A : Premise) (s : Subject) : Refusal → Prop
  | rejected (reason : String) : Expected A s (.rejected reason)
  | misfit (m : Misfit) (h : ¬A.sorts) : Expected A s (.misfit m)
  | mistake {m : Mistake} (hm : s.OfShift m) (h : ¬A.counts) : Expected A s (.mistake m)

namespace Analyzing

/-- An action that is given up for an expected reason only. Otherwise it leaves a sane analysis
behind, and a result for which `Q` holds. -/
structure Tame {α : Type} (A : Premise) (s : Subject) (loose : Bool) (x : Analyzing α)
    (Q : α → Prop) : Prop where
  ok : ∀ {a v a'}, a.Sane A s loose → x a = .ok v a' → a'.Sane A s loose ∧ Q v
  error : ∀ {a e a'}, a.Sane A s loose → x a = .error e a' → e.Expected A s

variable {α β : Type} {A : Premise} {s : Subject} {loose : Bool} {Q : α → Prop} {R : β → Prop}

namespace Tame

variable {x : Analyzing α}

theorem pure {v : α} (hv : Q v) : Tame A s loose (pure v) Q where
  ok ha h := by
    cases h
    exact ⟨ha, hv⟩
  error _ h := nomatch h

theorem bind {f : α → Analyzing β} (hx : Tame A s loose x Q)
    (hf : ∀ v, Q v → Tame A s loose (f v) R) : Tame A s loose (x >>= f) R where
  ok ha h := by
    obtain ⟨v, a₁, h₁, h₂⟩ := Actions.bind_eq_ok.mp h
    obtain ⟨ha₁, hv⟩ := hx.ok ha h₁
    exact (hf v hv).ok ha₁ h₂
  error ha h := by
    obtain h₁ | ⟨v, a₁, h₁, h₂⟩ := Actions.bind_eq_error.mp h
    · exact hx.error ha h₁
    · obtain ⟨ha₁, hv⟩ := hx.ok ha h₁
      exact (hf v hv).error ha₁ h₂

theorem mono {Q' : α → Prop} (hx : Tame A s loose x Q) (hQ : ∀ v, Q v → Q' v) :
    Tame A s loose x Q' where
  ok ha h := ⟨(hx.ok ha h).1, hQ _ (hx.ok ha h).2⟩
  error ha h := hx.error ha h

theorem throw {e : Refusal} (he : e.Expected A s) : Tame A s loose (throw e) Q where
  ok _ h := nomatch h
  error _ h := by
    cases h
    exact he

theorem rejected (reason : String) : Tame A s loose (MonadExcept.throw (.rejected reason)) Q :=
  throw (.rejected reason)

theorem misfit {m : Misfit} (h : ¬A.sorts) :
    Tame A s loose (MonadExcept.throw (.misfit m)) Q :=
  throw (.misfit m h)

theorem get : Tame A s loose get fun a => a.Sane A s loose where
  ok ha h := by
    cases h
    exact ⟨ha, ha⟩
  error _ h := nomatch h

theorem modify {f : Analysis → Analysis} (hf : ∀ a, a.Sane A s loose → (f a).Sane A s loose) :
    Tame A s loose (modify f) fun _ => True where
  ok ha h := by
    cases h
    exact ⟨hf _ ha, trivial⟩
  error _ h := nomatch h

theorem forM {l : List α} {f : α → Analyzing Unit}
    (h : ∀ a ∈ l, Tame A s loose (f a) fun _ => True) :
    Tame A s loose (l.forM f) fun _ => True := by
  induction l with
  | nil => exact .pure trivial
  | cons a l ih =>
    rw [List.forall_mem_cons] at h
    exact h.1.bind fun _ _ => ih h.2

end Tame

/-! ## Steps of an encoding -/

theorem tame_assume (c : BoolTerm) : Tame A s loose (assume c) fun _ => True :=
  .modify fun _ ha => ha

theorem mem_setField {key : String} {v : SymValue} {fields : List (String × SymValue)}
    {entry : String × SymValue} (h : entry ∈ Datum.setField key v fields) :
    entry = (key, v) ∨ entry ∈ fields := by
  induction fields with
  | nil => exact .inl (by simpa [Datum.setField] using h)
  | cons first rest ih =>
    obtain ⟨k, w⟩ := first
    rw [Datum.setField] at h
    split at h
    · rename_i hk
      rcases List.mem_cons.mp h with rfl | h
      · exact .inl (by rw [hk])
      · exact .inr (List.mem_cons_of_mem _ h)
    · rcases List.mem_cons.mp h with rfl | h
      · exact .inr List.mem_cons_self
      · exact (ih h).imp_right (List.mem_cons_of_mem _)

theorem tame_setVar {name : String} {v : SymValue} (hv : v.Stands A s loose name) :
    Tame A s loose (setVar name v) fun _ => True := by
  refine .modify fun a ha entry hentry => ?_
  rcases mem_setField hentry with rfl | hentry
  · exact hv
  · exact ha entry hentry

theorem tame_freshName (stem : String) : Tame A s loose (freshName stem) fun _ => True where
  ok ha h := by
    cases h
    exact ⟨ha, trivial⟩
  error _ h := nomatch h

theorem tame_unknown {large : Bool} : Tame A s loose unknown fun v => v.IsNumber A s large :=
  (tame_freshName _).bind fun _ _ => .pure (.of_literal_none rfl)

theorem tame_freshValue (name : String) :
    Tame A s loose (freshValue s name) fun v => ∃ label, v = s.unknownFor name label :=
  (tame_freshName _).bind fun label _ => .pure ⟨label, rfl⟩

theorem tame_assumeInRange {v : SymValue} (hv : A.sorts → ∃ t, v = .int t) :
    Tame A s loose (assumeInRange s v) fun _ => True := by
  cases v with
  | int t => exact tame_assume _
  | bool | array =>
    refine .misfit fun hA => ?_
    obtain ⟨t, ht⟩ := hv hA
    cases ht

/-- An unknown number is assumed to be in range, and an array is not. -/
theorem tame_assumeUnknown {name label : String} {k : Analyzing α} (hk : Tame A s loose k Q) :
    Tame A s loose (do
      if name ∉ s.arrays then assumeInRange s (s.unknownFor name label)
      k) Q := by
  split
  · rename_i hname
    exact (tame_assumeInRange fun _ => ⟨_, if_neg hname⟩).bind fun _ _ => hk
  · exact hk

/-- A name comes to stand for an unknown. -/
theorem tame_introduce {name label : String} {k : Analyzing α} (hk : Tame A s loose k Q) :
    Tame A s loose (do
      setVar name (s.unknownFor name label)
      if name ∉ s.arrays then assumeInRange s (s.unknownFor name label)
      k) Q :=
  (tame_setVar (.of_unknownFor label)).bind fun _ _ => tame_assumeUnknown hk

theorem tame_lookup (name : String) :
    Tame A s loose (lookup s name) fun v => v.Stands A s loose name := by
  rw [lookup_eq]
  refine Tame.get.bind fun a ha => ?_
  cases hfield : Datum.field? name a.vars with
  | some v => exact .pure (ha (name, v) (Datum.mem_of_field? hfield))
  | none =>
    refine (tame_freshValue name).bind fun v hv => ?_
    obtain ⟨label, rfl⟩ := hv
    exact tame_introduce (.pure (.of_unknownFor label))

/-! ## Sorts -/

section Operators

variable {l r v : SymValue} {ln rn large : Bool}

theorem tame_condition (hv : v.IsNumber A s ln) :
    Tame A s loose (condition v) fun _ => True := by
  cases v with
  | bool | int => exact .pure trivial
  | array =>
    refine .misfit fun hA => ?_
    obtain ⟨t, ht⟩ := hv.sort hA
    cases ht

theorem tame_plain (hv : v.IsNumber A s ln) :
    Tame A s loose (plain v) fun t => v.asNumber = .int t := by
  unfold plain
  split
  · exact .pure (by assumption)
  · rename_i hother
    refine .misfit fun hA => ?_
    obtain ⟨t, ht⟩ := hv.sort hA
    exact hother t ht

theorem tame_pair (hl : l.IsNumber A s ln) (hr : r.IsNumber A s rn) :
    Tame A s loose (pair l r) fun _ => True := by
  unfold pair
  split
  · exact .pure trivial
  · rename_i hother
    refine .misfit fun hA => ?_
    obtain ⟨a, ha⟩ := hl.sort hA
    obtain ⟨b, hb⟩ := hr.sort hA
    exact hother a b ha hb

theorem tame_words (hl : A.sorts → ∃ t, l = .int t) (hr : A.sorts → ∃ t, r = .int t) :
    Tame A s loose (words l r) fun p => l = .int p.1 ∧ r = .int p.2 := by
  unfold words
  split
  · exact .pure ⟨rfl, rfl⟩
  · rename_i hother
    refine .misfit fun hA => ?_
    obtain ⟨a, rfl⟩ := hl hA
    obtain ⟨b, rfl⟩ := hr hA
    exact hother a b rfl rfl

theorem tame_equal (hl : l.IsNumber A s ln) (hr : r.IsNumber A s rn) :
    Tame A s loose (equal l r) fun _ => True := by
  unfold equal
  split
  · exact .pure trivial
  · exact (tame_pair hl hr).bind fun _ _ => .pure trivial

theorem tame_unequal (hl : l.IsNumber A s ln) (hr : r.IsNumber A s rn) :
    Tame A s loose (unequal l r) fun _ => True := by
  unfold unequal
  split
  · exact .pure trivial
  · exact (tame_pair hl hr).bind fun _ _ => .pure trivial

theorem tame_arrayOf (hv : A.sorts → ∃ t, v = .array t) :
    Tame A s loose (arrayOf v) fun _ => True := by
  unfold arrayOf
  split
  · exact .pure trivial
  · rename_i hother
    refine .misfit fun hA => ?_
    obtain ⟨t, rfl⟩ := hv hA
    exact hother t rfl

theorem tame_indexOf (hv : v.IsNumber A s ln) : Tame A s loose (indexOf v) fun _ => True := by
  unfold indexOf
  split
  · exact .pure trivial
  · rename_i hother
    refine .misfit fun hA => ?_
    obtain ⟨t, ht⟩ := hv.sort hA
    exact hother t ht

/-! ## Operators -/

theorem tame_division (hl : l.IsNumber A s ln) (hr : r.IsNumber A s rn) :
    Tame A s loose (division l r) fun p => p.2.2.literal? = none :=
  (tame_condition hr).bind fun _ _ => (tame_assume _).bind fun _ _ =>
    (tame_plain hl).bind fun _ _ => (tame_plain hr).bind fun _ _ => .pure rfl

/-- The host can shift by every count of as many bits as it has a capacity for. -/
theorem tame_factor {n : Int} (hn : A.counts → Bits.isCount s.capacity n = true) :
    Tame A s loose (factor s n) fun _ => True := by
  unfold factor
  split
  · rename_i hneg
    refine .throw (.mistake (.inl rfl) fun hA => ?_)
    have hcount := hn hA
    simp only [Bits.isCount, Bool.and_eq_true, decide_eq_true_eq] at hcount
    omega
  · split
    · rename_i m hexcess
      refine .throw (.mistake (.inr ⟨_, hexcess⟩) fun hA => ?_)
      have hcount := hn hA
      simp only [Bits.isCount, Bool.and_eq_true, decide_eq_true_eq] at hcount
      rw [s.excess?_eq_none hcount.2] at hexcess
      cases hexcess
    · exact .pure trivial

/-- Only a count that is written out can make a shift fail. -/
theorem tame_shift (left : Bool) (hl : l.IsNumber A s ln) (hr : r.IsNumber A s rn)
    (hcount : A.counts → rn = false) :
    Tame A s loose (shift s left l r) fun v => v.IsNumber A s large := by
  refine (tame_plain hr).bind fun count hnumber => (tame_assume _).bind fun _ _ => ?_
  split
  · exact tame_unknown
  · rename_i n hn
    have hliteral : count.literal? = some n := by rw [s.eq_const hn]; rfl
    refine Tame.bind (tame_factor fun hA => ?_) fun f _ =>
      (tame_plain hl).bind fun a _ => .pure (.of_literal_none ?_)
    · by_contra hnot
      have hlarge := hr.count hA count n hnumber hliteral (by simpa using hnot)
      rw [hcount hA] at hlarge
      cases hlarge
    · cases left <;> rfl

theorem tame_bitwise (op : BitOp) (hl : l.IsNumber A s ln) (hr : r.IsNumber A s rn)
    (hleft : A.sorts → ∃ t, l = .int t) (hright : A.sorts → ∃ t, r = .int t) :
    Tame A s loose (bitwise s op l r) fun v => v.IsNumber A s (ln || rn) := by
  refine (tame_words hleft hright).bind fun p hp => ?_
  obtain ⟨rfl, rfl⟩ := hp
  dsimp only
  split
  · rename_i m n hm hn
    refine .pure ⟨fun _ => ⟨_, rfl⟩, fun hA t k ht hk hcount => ?_⟩
    -- two literals that are counts make one that is a count
    have hresult : op.onInts m n = k := by
      cases ht
      cases op <;> simpa [IntTerm.literal?, BitOp.onInts] using hk
    have hleft := hl.count hA p.1 m rfl (by rw [s.eq_const hm]; rfl)
    have hright := hr.count hA p.2 n rfl (by rw [s.eq_const hn]; rfl)
    by_contra hboth
    rw [Bool.or_eq_true, not_or] at hboth
    have hm' : Bits.isCount s.capacity m = true := by
      by_contra hnot
      exact hboth.1 (hleft (by simpa using hnot))
    have hn' : Bits.isCount s.capacity n = true := by
      by_contra hnot
      exact hboth.2 (hright (by simpa using hnot))
    rw [← hresult, op.isCount_onInts hm' hn'] at hcount
    cases hcount
  · exact (tame_freshName _).bind fun _ _ => .pure (.of_literal_none rfl)

theorem tame_binary (op : BinaryOp) (hl : l.IsNumber A s ln) (hr : r.IsNumber A s rn)
    (hshift : A.counts → op.isShift = true → rn = false) :
    Tame A s loose (binary s op l r) fun v => v.IsNumber A s (op.isBitwise && (ln || rn)) := by
  have hl' := hl.asNumber
  have hr' := hr.asNumber
  unfold binary
  dsimp only
  split
  case h_1 | h_2 =>
    exact (tame_condition hl).bind fun _ _ => (tame_condition hr).bind fun _ _ => .pure (.bool _)
  case h_3 | h_4 => exact .pure (.bool _)
  case h_5 => exact (tame_equal hl' hr').bind fun _ _ => .pure (.bool _)
  case h_6 => exact (tame_unequal hl' hr').bind fun _ _ => .pure (.bool _)
  case h_7 => exact (tame_division hl' hr').bind fun _ hq => .pure (.of_literal_none hq)
  case h_8 => exact (tame_division hl' hr').bind fun _ _ => .pure (.of_literal_none rfl)
  case h_9 | h_10 => exact tame_shift _ hl' hr' fun hA => hshift hA rfl
  case h_11 | h_12 | h_13 => exact tame_bitwise _ hl' hr' hl.sort hr.sort
  case h_14 | h_15 | h_16 =>
    exact (tame_pair hl' hr').bind fun _ _ => .pure (.of_literal_none rfl)
  all_goals exact (tame_pair hl' hr').bind fun _ _ => .pure (.bool _)

/-- The least of one number is that number, and of several one of two terms. -/
theorem tame_extreme (least : Bool) {best : SymValue} {rest : List SymValue}
    (hbest : best.IsNumber A s true) (hrest : ∀ v ∈ rest, v.IsNumber A s true)
    (hsole : rest = [] → best.IsNumber A s ln) :
    Tame A s loose (extreme least best rest) fun v => v.IsNumber A s ln := by
  induction rest generalizing best with
  | nil => exact .pure (hsole rfl)
  | cons v rest ih =>
    rw [List.forall_mem_cons] at hrest
    exact (tame_pair hrest.1 hbest).bind fun p _ =>
      ih (.of_literal_none rfl) hrest.2 fun _ => .of_literal_none rfl

theorem tame_application (name : String) {args : List SymValue}
    (hargs : ∀ v ∈ args, v.IsNumber A s true) (hsole : ∀ v, args = [v] → v.IsNumber A s ln) :
    Tame A s loose (application name args) fun v =>
      v.IsNumber A s ((name = "min" || name = "max") && ln) := by
  have hbest {v : SymValue} {rest : List SymValue} (hvs : args = v :: rest) (least : Bool) :
      Tame A s loose (extreme least v rest) fun w => w.IsNumber A s ln := by
    rw [hvs, List.forall_mem_cons] at hargs
    exact tame_extreme least hargs.1 hargs.2 fun hrest => hsole v (by rw [hvs, hrest])
  unfold application
  split
  · exact (tame_plain (hargs _ List.mem_cons_self)).bind fun _ _ => .pure (.of_literal_none rfl)
  · exact (hbest rfl true).mono fun _ hv => by simpa using hv
  · exact (hbest rfl false).mono fun _ hv => by simpa using hv
  · exact tame_unknown

end Operators

/-! ## Expressions -/

/-- Elements of arrays are numbers, and never written out. -/
theorem tame_elem {loc : Option Location} {name : String} {index : Expr} {large : Bool}
    (hname : A.sorts → name ∈ s.arrays)
    (hindex : Tame A s loose (encode s index) fun v => v.IsNumber A s large) :
    Tame A s loose (encode s (.elem loc name index)) fun v =>
      ∃ t, v = .int t ∧ t.literal? = none := by
  refine (tame_lookup name).bind fun v hv => hindex.bind fun i hi => ?_
  refine (tame_arrayOf fun hA => hv.array hA (hname hA)).bind fun _ _ =>
    (tame_indexOf hi.asNumber).bind fun _ _ => ?_
  exact (tame_assume _).bind fun _ _ => .pure ⟨_, rfl, rfl⟩

mutual

/-- **Expressions that can be encoded.** Their encoding is given up for an expected reason only, and
it is a number. -/
theorem tame_encode : ∀ e : Expr, e.Meets A s loose →
    Tame A s loose (encode s e) fun v => v.IsNumber A s (e.mayExceed s.capacity loose)
  | .int _ n, _ => .pure ⟨fun _ => ⟨_, rfl⟩, fun _ t m ht hm hcount => by
      cases ht
      cases hm
      simp [Expr.mayExceed, hcount]⟩
  | .bool .., _ => .pure (.bool _)
  | .var _ name, h => (tame_lookup name).mono fun _ hv => hv.isNumber h.notMem_arrays
  | .elem _ _ index, h => (tame_elem h.mem_arrays (tame_encode index h.index)).mono fun v hv => by
      obtain ⟨t, rfl, ht⟩ := hv
      exact .of_literal_none ht
  | .binary _ op left right, h => by
    refine (tame_encode left h.first).bind fun l hl =>
      (tame_encode right h.second).bind fun r hr => ?_
    cases hop : BinaryOp.ofSymbol? op with
    | none => exact .rejected _
    | some op' =>
      refine (tame_binary op' hl hr fun hA hshift => ?_).mono fun v hv => ?_
      · exact h.shift hA (by simpa [hop] using hshift)
      · rwa [Expr.mayExceed, hop]
  | .unary _ op operand, h => by
    refine (tame_encode operand h.operand).bind fun v hv => ?_
    split
    · exact (tame_condition hv).bind fun _ _ => .pure (.bool _)
    · exact (tame_plain hv).bind fun _ _ => .pure (.of_literal_none rfl)
    · exact (tame_plain hv).bind fun _ _ => .pure (.of_literal_none rfl)
    · exact tame_unknown
  | .call _ name args, h => (tame_encodeAll args h.args).bind fun _ hvs =>
      tame_application name hvs.2.1 hvs.2.2
  | .update .., _ => .rejected _
  | .hole _, _ => tame_unknown

theorem tame_encodeAll : ∀ es : List Expr, Expr.AllMeet A s loose es →
    Tame A s loose (encodeAll s es) fun vs => vs.length = es.length ∧
      (∀ v ∈ vs, v.IsNumber A s true) ∧
        ∀ v, vs = [v] → v.IsNumber A s (Expr.soleMayExceed s.capacity loose es)
  | [], _ => .pure ⟨rfl, by simp, by simp⟩
  | e :: rest, h => by
    refine (tame_encode e h.head).bind fun v hv =>
      (tame_encodeAll rest h.tail).bind fun vs hvs => .pure ?_
    obtain ⟨hlength, hnumbers, -⟩ := hvs
    refine ⟨by rw [List.length_cons, List.length_cons, hlength],
      List.forall_mem_cons.mpr ⟨hv.asNumber.any, hnumbers⟩, fun w hw => ?_⟩
    obtain ⟨rfl, rfl⟩ := List.cons.inj hw
    obtain rfl : rest = [] := List.length_eq_zero_iff.mp hlength.symm
    simpa [Expr.soleMayExceed] using hv.asNumber

end

/-- References stand for numbers as they are. -/
theorem tame_encodeRef {e : Expr} (h : e.Meets A s loose) (href : A.sorts → e.isRef = true) :
    Tame A s loose (encode s e) fun v =>
      v.IsNumber A s (e.mayExceed s.capacity loose) ∧ (A.sorts → ∃ t, v = .int t) := by
  cases e with
  | var loc name =>
    exact (tame_lookup name).mono fun v hv =>
      ⟨hv.isNumber h.notMem_arrays, fun hA => hv.number hA (h.notMem_arrays hA)⟩
  | elem loc name index =>
    refine (tame_elem h.mem_arrays (tame_encode index h.index)).mono fun v hv => ?_
    obtain ⟨t, rfl, ht⟩ := hv
    exact ⟨.of_literal_none ht, fun _ => ⟨t, rfl⟩⟩
  | _ =>
    refine (tame_encode _ h).mono fun v hv => ⟨hv, fun hA => ?_⟩
    have hnot := href hA
    simp [Expr.isRef] at hnot

/-! ## Writing -/

/-- Writing a number. A name gets it as it is, so it must be one that names may stand for. -/
theorem tame_write {ref : Expr} {v : SymValue} (href : ref.Meets A s loose)
    (hv : v.IsNumber A s true) (hname : ∀ loc x, ref = .var loc x → v.IsNumber A s loose) :
    Tame A s loose (write s ref v) fun _ => True := by
  refine (tame_assumeInRange hv.sort).bind fun _ _ => ?_
  cases ref with
  | elem loc name index =>
    refine (tame_lookup name).bind fun a ha => (tame_encode index href.index).bind fun i hi => ?_
    refine (tame_arrayOf fun hA => ha.array hA (href.mem_arrays hA)).bind fun _ _ =>
      (tame_indexOf hi.asNumber).bind fun _ _ => (tame_plain hv.asNumber).bind fun _ _ => ?_
    exact tame_setVar (.of_array href.mem_arrays)
  | var loc name => exact tame_setVar ((hname loc name rfl).stands href.notMem_arrays)
  | _ => exact .pure trivial

theorem tame_forgetVar (loc : Option Location) (name : String) :
    Tame A s loose (forget s (.var loc name)) fun _ => True := by
  refine (tame_freshValue name).bind fun v hv => ?_
  obtain ⟨label, rfl⟩ := hv
  refine (tame_setVar (.of_unknownFor label)).bind fun _ _ => ?_
  split
  · rename_i hname
    exact tame_assumeInRange fun _ => ⟨_, if_neg hname⟩
  · exact .pure trivial

theorem tame_forget {ref : Expr} (href : ref.Meets A s loose) :
    Tame A s loose (forget s ref) fun _ => True := by
  cases ref with
  | elem loc name index =>
    refine (tame_freshName name).bind fun label _ => ?_
    refine tame_write href (.of_literal_none rfl) fun _ _ h => ?_
    cases h
  | var loc name => exact tame_forgetVar loc name
  | _ => exact .pure trivial

theorem tame_forgetInLoop (ref : Expr) : Tame A s loose (forgetInLoop s ref) fun _ => True := by
  cases ref with
  | elem loc name index =>
    refine (tame_freshValue name).bind fun v hv => ?_
    obtain ⟨label, rfl⟩ := hv
    exact tame_setVar (.of_unknownFor label)
  | var loc name => exact tame_forgetVar loc name
  | _ => exact .pure trivial

theorem tame_updated (op : String) {current operand : SymValue} {cn on : Bool}
    (hcurrent : current.IsNumber A s cn) (hoperand : operand.IsNumber A s on)
    (hleft : A.sorts → ∃ t, current = .int t) (hright : A.sorts → ∃ t, operand = .int t) :
    Tame A s loose (updated s op current operand) fun v =>
      v.IsNumber A s (!(Update.ofSymbol? op).any Update.isSum && (cn || on)) := by
  unfold updated
  split
  · exact (tame_pair hcurrent hoperand).bind fun _ _ => .pure (.of_literal_none rfl)
  · exact (tame_pair hcurrent hoperand).bind fun _ _ => .pure (.of_literal_none rfl)
  · rename_i hadd hsub
    have hsum : (Update.ofSymbol? op).any Update.isSum = false := by
      cases hop : Update.ofSymbol? op with
      | none => rfl
      | some u => cases u <;> simp_all [Update.isSum]
    rw [hsum]
    exact tame_bitwise .xor hcurrent hoperand hleft hright

/-! ## Questions and joins -/

theorem tame_ask (constraints : List BoolTerm) :
    Tame A s loose (ask s constraints) fun _ => True := by
  refine Tame.get.bind fun _ _ => Tame.bind (.modify fun _ ha => ?_) fun _ _ => .pure trivial
  exact ha

theorem tame_examine (stmt : Stmt) (assertion : Expr) (branch : Branch) (confirms : BoolTerm) :
    Tame A s loose (examine s stmt assertion branch confirms) fun _ => True := by
  unfold examine
  refine Tame.get.bind fun _ _ => (tame_ask _).bind fun _ _ => ?_
  split
  · exact .pure trivial
  · exact .pure trivial
  · refine (tame_ask _).bind fun _ _ => ?_
    split
    · exact .modify fun _ ha => ha
    all_goals
      refine (tame_ask _).bind fun _ _ => ?_
      split
      · exact .pure trivial
      · exact .pure trivial
      · exact .modify fun _ ha => ha

/-- What one name stands for at the ends of two branches is of one sort. -/
theorem tame_choose (c : BoolTerm) {name : String} {v w : SymValue}
    (hv : v.Stands A s loose name) (hw : w.Stands A s loose name) :
    Tame A s loose (choose c v w) fun u => u.Stands A s loose name := by
  unfold choose
  split
  · refine .pure (.of_array fun hA => ?_)
    by_contra hname
    obtain ⟨t, ht⟩ := hv.number hA hname
    cases ht
  · refine .pure ⟨fun hA hname => ?_, fun _ _ => ⟨_, rfl⟩,
      (SymValue.IsNumber.of_literal_none rfl).count⟩
    obtain ⟨t, ht⟩ := hv.array hA hname
    cases ht
  · rename_i harrays hints
    refine .misfit fun hA => ?_
    by_cases hname : name ∈ s.arrays
    · obtain ⟨t, rfl⟩ := hv.array hA hname
      obtain ⟨u, rfl⟩ := hw.array hA hname
      exact harrays t u rfl rfl
    · obtain ⟨t, rfl⟩ := hv.number hA hname
      obtain ⟨u, rfl⟩ := hw.number hA hname
      exact hints t u rfl rfl

theorem tame_joinVars (guard : BoolTerm) {T E : List (String × SymValue)}
    (hT : ∀ entry ∈ T, entry.2.Stands A s loose entry.1)
    (hE : ∀ entry ∈ E, entry.2.Stands A s loose entry.1) :
    Tame A s loose (joinVars guard T E) fun vars =>
      ∀ entry ∈ vars, entry.2.Stands A s loose entry.1 := by
  induction T with
  | nil => exact .pure fun _ h => absurd h List.not_mem_nil
  | cons entry rest ih =>
    obtain ⟨name, v⟩ := entry
    rw [List.forall_mem_cons] at hT
    cases hw : Datum.field? name E with
    | none =>
      rw [joinVars_cons_none hw]
      exact ih hT.2
    | some w =>
      rw [joinVars_cons_some hw]
      refine (tame_choose guard hT.1 (hE (name, w) (Datum.mem_of_field? hw))).bind fun u hu => ?_
      exact (ih hT.2).bind fun us hus => .pure (List.forall_mem_cons.mpr ⟨hu, hus⟩)

theorem tame_join (guard : BoolTerm) {start thenEnd elseEnd : Analysis}
    (hstart : start.Sane A s loose) (hthen : thenEnd.Sane A s loose)
    (helse : elseEnd.Sane A s loose) :
    Tame A s loose (join start thenEnd elseEnd guard) fun _ => True :=
  (tame_joinVars guard hthen helse).bind fun _ hvars => .modify fun _ _ entry hentry =>
    (List.mem_append.mp hentry).elim
      (fun h => hstart entry (List.mem_filter.mp h).1) (hvars entry)

/-! ## Statements -/

section Statements

variable {loc : Option Location} {op name : String} {target value left right guard assertion : Expr}
  {thenBody elseBody : List Stmt}

theorem tame_assign (h : (Stmt.assign loc target op value).Meets A s loose) :
    Tame A s loose (follow s (.assign loc target op value)) fun _ => True := by
  obtain ⟨htarget, hvalue, href, hsettled⟩ := h.assign
  refine (tame_encode value hvalue).bind fun v hv => ?_
  refine (tame_encodeRef htarget href).bind fun current hcurrent => ?_
  refine (tame_updated op hcurrent.1 hv.asNumber hcurrent.2 hv.sort).bind fun w hw => ?_
  refine tame_write htarget hw.any ?_
  rintro loc name rfl
  refine hw.mono fun hA hlarge => ?_
  have hsettled := hsettled hA
  simp only [Expr.settled, Expr.mayExceed] at hsettled hlarge
  grind

theorem tame_swap (h : (Stmt.swap loc left right).Meets A s loose) :
    Tame A s loose (follow s (.swap loc left right)) fun _ => True := by
  obtain ⟨hleft, hright, hleftSettled, hrightSettled⟩ := h.swap
  refine (tame_encode left hleft).bind fun l hl => (tame_encode right hright).bind fun r hr => ?_
  refine Tame.bind (tame_write hleft hr.any fun _ _ _ => ?_) fun _ _ =>
    tame_write hright hl.any fun _ _ _ => ?_
  · exact hr.mono fun hA => Expr.le_of_settled (hrightSettled hA)
  · exact hl.mono fun hA => Expr.le_of_settled (hleftSettled hA)

theorem tame_declare (h : (Stmt.declare loc name value).Meets A s loose) :
    Tame A s loose (follow s (.declare loc name value)) fun _ => True := by
  obtain ⟨hvalue, hname, hsettled⟩ := h.declare
  refine (tame_encode value hvalue).bind fun v hv => ?_
  have hloose := hv.mono fun hA => Expr.le_of_settled (hsettled hA)
  exact (tame_assumeInRange hv.sort).bind fun _ _ => tame_setVar (hloose.stands hname)

theorem tame_discard (h : (Stmt.discard loc name value).Meets A s loose) :
    Tame A s loose (follow s (.discard loc name value)) fun _ => True := by
  obtain ⟨hvalue, hname⟩ := h.discard
  refine (tame_lookup name).bind fun v hv => (tame_encode value hvalue).bind fun w hw => ?_
  refine (tame_equal (hv.isNumber hname) hw.asNumber).bind fun _ _ =>
    (tame_assume _).bind fun _ _ => .modify fun _ ha entry hentry => ?_
  exact ha entry (List.mem_filter.mp hentry).1

theorem tame_call {args : List Expr} {uncall : Bool}
    (h : (Stmt.call loc name args uncall).Meets A s loose) :
    Tame A s loose (follow s (.call loc name args uncall)) fun _ => True := by
  refine .forM fun arg harg => ?_
  obtain ⟨loc, x, rfl⟩ | harg := h.call harg
  · exact tame_forgetVar loc x
  · exact tame_forget harg

/-- The branches are followed one after the other, from the same beginning. -/
theorem tame_branch (h : (Stmt.branch loc guard thenBody elseBody assertion).Meets A s loose)
    (hthen : Tame A s loose (followAll s thenBody) fun _ => True)
    (helse : Tame A s loose (followAll s elseBody) fun _ => True) :
    Tame A s loose (follow s (.branch loc guard thenBody elseBody assertion)) fun _ => True := by
  obtain ⟨hguard, hassertion, -, -⟩ := h.branch
  refine (tame_encode guard hguard).bind fun g hg =>
    (tame_condition hg).bind fun chosen _ => Tame.get.bind fun start hstart => ?_
  refine (tame_assume _).bind fun _ _ => hthen.bind fun _ _ => ?_
  refine (tame_encode assertion hassertion).bind fun t ht =>
    (tame_condition ht).bind fun _ _ => (tame_examine _ _ _ _).bind fun _ _ => ?_
  refine Tame.get.bind fun thenEnd hthenEnd => Tame.bind (.modify fun _ _ => hstart) fun _ _ => ?_
  refine (tame_assume _).bind fun _ _ => helse.bind fun _ _ => ?_
  refine (tame_encode assertion hassertion).bind fun t ht =>
    (tame_condition ht).bind fun _ _ => (tame_examine _ _ _ _).bind fun _ _ => ?_
  exact Tame.get.bind fun elseEnd helseEnd => tame_join chosen hstart hthenEnd helseEnd

end Statements

mutual

/-- **Statements that can be encoded.** Following them is given up for an expected reason only. -/
theorem tame_follow : ∀ stmt : Stmt, stmt.Meets A s loose →
    Tame A s loose (follow s stmt) fun _ => True
  | .assign .., h => tame_assign h
  | .swap .., h => tame_swap h
  | .declare .., h => tame_declare h
  | .discard .., h => tame_discard h
  | .call .., h => tame_call h
  | .loop _ _ _ _ exit, h => (Tame.forM fun ref _ => tame_forgetInLoop ref).bind fun _ _ =>
      (tame_encode exit h.loop).bind fun _ hv => (tame_condition hv).bind fun _ _ => tame_assume _
  | .block _ body, h => tame_followAll body h.block
  | .branch _ _ thenBody elseBody _, h => tame_branch h (tame_followAll thenBody h.branch.2.2.1)
      (tame_followAll elseBody h.branch.2.2.2)
  | .hole _, _ => .pure trivial

theorem tame_followAll : ∀ body : List Stmt, Stmt.AllMeet A s loose body →
    Tame A s loose (followAll s body) fun _ => True
  | [], _ => .pure trivial
  | stmt :: rest, h => (tame_follow stmt h.head).bind fun _ _ => tame_followAll rest h.tail

end

theorem tame_beginPath (names : List String) :
    Tame A s loose (beginPath s names) fun _ => True := by
  induction names with
  | nil => exact .pure trivial
  | cons name rest ih =>
    rw [beginPath]
    split
    · refine (tame_freshValue name).bind fun v hv => ?_
      obtain ⟨label, rfl⟩ := hv
      exact tame_introduce ih
    · exact tame_introduce ih

end Analyzing

/-! ## Whole procedures -/

namespace Procedure

open Analyzing

/-- How the analysis of a procedure fails: values do not fit, or a shift is too much for the host.
Each has its reason in the text of the procedure. -/
inductive Fails (p : Procedure) (toolkit : Toolkit) : Fault → Prop
  | misfit {m : Misfit} {mistake : Mistake} (hm : toolkit.objection m = .error mistake)
      (hp : p.wellSorted = false) : Fails p toolkit mistake.fault
  | shift {mistake : Mistake} (hm : toolkit.OfShift mistake)
      (hp : p.soundShifts toolkit.capacity = false) : Fails p toolkit mistake.fault

/-- How the analysis of a procedure ends: with a report, which is in the log if the analysis was
given up, or it fails. -/
inductive Analyzed (p : Procedure) (toolkit : Toolkit) :
    EStateM.Result Fault Inquiry Report → Prop
  | reported {report : Report} {inquiry : Inquiry}
      (h : ∀ reason, report.rejected = some reason →
        Event.unverified p.name reason ∈ inquiry.log) : Analyzed p toolkit (.ok report inquiry)
  | failed {f : Fault} {inquiry : Inquiry} (hf : p.Fails toolkit f) :
      Analyzed p toolkit (.error f inquiry)

/-- What is taken for granted of a procedure is what can be read off its text. -/
def premise (p : Procedure) (toolkit : Toolkit) : Premise :=
  ⟨p.wellSorted = true, p.soundShifts toolkit.capacity = true⟩

theorem exists_allMeet (p : Procedure) (intType : IntType) (toolkit : Toolkit) :
    ∃ loose, Stmt.AllMeet (p.premise toolkit) (p.subject intType toolkit) loose p.body := by
  by_cases h : p.soundShifts toolkit.capacity = true
  · obtain ⟨loose, -, hloose⟩ := List.any_eq_true.mp h
    exact ⟨loose, fun hsorts => hsorts, fun _ => hloose⟩
  · exact ⟨false, fun hsorts => hsorts, fun hcounts => absurd hcounts h⟩

/-- **The analysis of a procedure**, with any toolkit. It never fails if the procedure is well
sorted and its shifts are sound. -/
theorem analyzed (p : Procedure) (intType : IntType) (toolkit : Toolkit) (inquiry : Inquiry) :
    p.Analyzed toolkit (p.verify intType toolkit inquiry) := by
  obtain ⟨loose, hbody⟩ := p.exists_allMeet intType toolkit
  have htame : Tame (p.premise toolkit) (p.subject intType toolkit) loose
      (beginPath (p.subject intType toolkit) p.paramNames >>=
        fun _ => followAll (p.subject intType toolkit) p.body) fun _ => True :=
    (tame_beginPath p.paramNames).bind fun _ _ => tame_followAll p.body hbody
  have hstart : Analysis.Sane (p.premise toolkit) (p.subject intType toolkit) loose
      { fresh := inquiry.fresh, queries := inquiry.queries } := fun _ h =>
    absurd h List.not_mem_nil
  unfold Procedure.verify
  dsimp only
  split
  · exact .reported fun _ hreason => by cases hreason
  · rename_i refusal a hwork
    have hexpected := htame.error hstart hwork
    split
    · refine .reported fun reason hreason => ?_
      cases hreason
      simp
    · rename_i mistake hmistake
      refine .failed ?_
      cases hexpected with
      | rejected reason => cases hmistake
      | misfit m h => exact .misfit hmistake (Bool.eq_false_iff.mpr h)
      | mistake hm h =>
        cases hmistake
        exact .shift hm (Bool.eq_false_iff.mpr h)

end Procedure

end Retrace
