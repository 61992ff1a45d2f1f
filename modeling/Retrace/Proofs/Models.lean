import Mathlib.Algebra.Ring.Int.Defs
import Mathlib.Algebra.Ring.Nat
import Mathlib.Data.Set.Basic
import Mathlib.Logic.Function.Basic
import Mathlib.Tactic.Common
import Retrace.Symbolic.Term

/-!
# Models of symbolic terms

A model gives a number to every unknown number and an array without bounds to every unknown array.
In a model a term denotes a number or an array, and a formula holds or not: integer arithmetic is
exact, division has a remainder that is not negative, and words wrap around. What a division by zero
gives is up to the model.

The terms that stand for operations of the language denote what these compute: `value_quotient` for
division, `value_bits` for bitwise operations on numbers that fit their type.

Unknowns are numbered in the order in which they come up. `Model.before` are the models that agree
with a given one on all unknowns before a number; the next unknown can be given any value in them
(`mem_before_assign`).
-/

namespace Retrace

/-! ## Words -/

namespace BitOp

/-- The operation on integers. -/
def onInts : BitOp → Int → Int → Int
  | .and => Bits.and
  | .or => Bits.or
  | .xor => Bits.xor

/-- The operation on words of a width. -/
def onWords {w : Nat} : BitOp → BitVec w → BitVec w → BitVec w
  | .and => fun l r => l &&& r
  | .or => fun l r => l ||| r
  | .xor => fun l r => l ^^^ r

/-- Cutting integers off at a width respects the operations. -/
theorem onWords_ofInt (op : BitOp) (w : Nat) (l r : Int) :
    op.onWords (BitVec.ofInt w l) (BitVec.ofInt w r) = BitVec.ofInt w (op.onInts l r) := by
  have hofNat : ∀ n : Nat, BitVec.ofInt w (Int.ofNat n) = BitVec.ofNat w n := fun n =>
    BitVec.ofInt_natCast w n
  cases op <;> cases l <;> cases r <;>
    simp only [onWords, onInts, Bits.and, Bits.or, Bits.xor, Bits.without, hofNat,
      BitVec.ofInt_negSucc_eq_not_ofNat] <;>
    ext i hi <;> simp <;> grind

theorem without_lt {m k : Nat} (hm : m < 2 ^ k) (n : Nat) : Bits.without m n < 2 ^ k := by
  have hand : m &&& n < 2 ^ k := by
    rw [Nat.and_comm]
    exact Nat.and_lt_two_pow n hm
  exact Nat.xor_lt_two_pow hm hand

/-- An operation makes no number longer: the bound is the same for numbers that are negative and
numbers that are not. -/
theorem onInts_bounds (op : BitOp) {k : Nat} {l r : Int} (hl : -2 ^ k ≤ l ∧ l < 2 ^ k)
    (hr : -2 ^ k ≤ r ∧ r < 2 ^ k) : -2 ^ k ≤ op.onInts l r ∧ op.onInts l r < 2 ^ k := by
  have hpow : ((2 ^ k : Nat) : Int) = 2 ^ k := by simp
  have hofNat : ∀ n : Nat, -2 ^ k ≤ Int.ofNat n ∧ Int.ofNat n < 2 ^ k ↔ n < 2 ^ k := by
    intro n
    rw [← hpow, Int.ofNat_eq_natCast]
    omega
  have hnegSucc : ∀ n : Nat, -2 ^ k ≤ Int.negSucc n ∧ Int.negSucc n < 2 ^ k ↔ n < 2 ^ k := by
    intro n
    rw [← hpow]
    omega
  have hand : ∀ m n : Nat, n < 2 ^ k → m &&& n < 2 ^ k := fun m n => Nat.and_lt_two_pow m
  cases op <;> cases l <;> cases r <;>
    simp only [onInts, Bits.and, Bits.or, Bits.xor, hofNat, hnegSucc] at hl hr ⊢
  all_goals first
    | exact Nat.or_lt_two_pow hl hr
    | exact Nat.xor_lt_two_pow hl hr
    | exact hand _ _ hr
    | exact without_lt hl _
    | exact without_lt hr _

/-- An operation on numbers that are not negative gives one. -/
theorem onInts_nonneg (op : BitOp) {l r : Int} (hl : 0 ≤ l) (hr : 0 ≤ r) : 0 ≤ op.onInts l r := by
  obtain ⟨m, rfl⟩ := Int.eq_ofNat_of_zero_le hl
  obtain ⟨n, rfl⟩ := Int.eq_ofNat_of_zero_le hr
  cases op <;> exact Int.natCast_nonneg _

end BitOp

namespace IntType

/-- A word of the width of a type, read as a number of the type. -/
def ofWord (type : IntType) (word : BitVec type.bits) : Int :=
  if type.signed then word.toInt else word.toNat

theorem weight_cast (n : Nat) : ((Bits.weight n : Nat) : Int) = 2 ^ n := by
  simp [Bits.weight]

theorem contains_zero (type : IntType) : type.contains 0 = true := by
  have hlow : 0 < Bits.weight (type.bits - 1) := Bits.weight_pos _
  have hhigh : 0 < Bits.weight type.bits := Bits.weight_pos _
  rw [contains_iff, minValue, maxValue]
  split <;> omega

/-- A number of a type is read back from its word. -/
theorem ofWord_ofInt {type : IntType} {n : Int} (h : type.contains n = true) :
    type.ofWord (BitVec.ofInt type.bits n) = n := by
  rw [contains_iff, minValue, maxValue, weight_cast, weight_cast] at h
  unfold ofWord
  by_cases hs : type.signed = true
  · simp only [hs, if_true] at h ⊢
    exact BitVec.toInt_ofInt_eq_self type.bits_pos h.1 (by omega)
  · simp only [hs, if_false, Bool.false_eq_true] at h ⊢
    rw [BitVec.toNat_ofInt, Int.emod_eq_of_lt h.1 (by simp; omega), Int.toNat_of_nonneg h.1]

/-- Bitwise operations stay inside a type. -/
theorem contains_onInts {type : IntType} (op : BitOp) {l r : Int} (hl : type.contains l = true)
    (hr : type.contains r = true) : type.contains (op.onInts l r) = true := by
  rw [contains_iff, minValue, maxValue, weight_cast, weight_cast] at hl hr ⊢
  by_cases hs : type.signed = true
  · simp only [hs, if_true] at hl hr ⊢
    have hbounds := op.onInts_bounds (k := type.bits - 1) ⟨hl.1, by omega⟩ ⟨hr.1, by omega⟩
    omega
  · simp only [hs, if_false, Bool.false_eq_true] at hl hr ⊢
    have hwide : ∀ n : Int, 0 ≤ n ∧ n ≤ 2 ^ type.bits - 1 → -2 ^ type.bits ≤ n ∧ n < 2 ^ type.bits :=
      fun n hn => by omega
    have hbounds := op.onInts_bounds (hwide l hl) (hwide r hr)
    have hnonneg := op.onInts_nonneg hl.1 hr.1
    omega

end IntType

/-! ## Models -/

/-- Values for unknown numbers and unknown arrays, and the quotients of a division by zero. -/
structure Model where
  ints : String → Int
  arrays : String → Int → Int
  byZero : Int → Int

open Classical in
mutual

/-- The number that a term denotes. -/
noncomputable def IntTerm.value (M : Model) : IntTerm → Int
  | .const n => n
  | .var x => M.ints x
  | .add l r => l.value M + r.value M
  | .sub l r => l.value M - r.value M
  | .mul l r => l.value M * r.value M
  | .neg t => -t.value M
  | .div l r => if r.value M = 0 then M.byZero (l.value M) else l.value M / r.value M
  | .ite c l r => if c.Holds M then l.value M else r.value M
  | .select a i => a.value M (i.value M)
  | .bits op type l r =>
    type.ofWord (op.onWords (BitVec.ofInt type.bits (l.value M))
      (BitVec.ofInt type.bits (r.value M)))

/-- Whether a formula holds. -/
noncomputable def BoolTerm.Holds (M : Model) : BoolTerm → Prop
  | .const b => b = true
  | .lt l r => l.value M < r.value M
  | .le l r => l.value M ≤ r.value M
  | .eq l r => l.value M = r.value M
  | .ne l r => l.value M ≠ r.value M
  | .same l r => l.Holds M ↔ r.Holds M
  | .differ l r => ¬(l.Holds M ↔ r.Holds M)
  | .sameArray l r => l.value M = r.value M
  | .differArray l r => l.value M ≠ r.value M
  | .not t => ¬t.Holds M
  | .all ts => BoolTerm.AllHold M ts
  | .any ts => BoolTerm.AnyHolds M ts

/-- The array that a term denotes. -/
noncomputable def ArrayTerm.value (M : Model) : ArrayTerm → Int → Int
  | .var x => M.arrays x
  | .store a i v => Function.update (a.value M) (i.value M) (v.value M)
  | .ite c l r => if c.Holds M then l.value M else r.value M

noncomputable def BoolTerm.AllHold (M : Model) : List BoolTerm → Prop
  | [] => True
  | t :: ts => t.Holds M ∧ BoolTerm.AllHold M ts

noncomputable def BoolTerm.AnyHolds (M : Model) : List BoolTerm → Prop
  | [] => False
  | t :: ts => t.Holds M ∨ BoolTerm.AnyHolds M ts

end

/-- Some model makes all constraints hold. -/
def Satisfiable (constraints : List BoolTerm) : Prop := ∃ M, ∀ c ∈ constraints, c.Holds M

namespace BoolTerm

variable {M : Model}

theorem holds_all {ts : List BoolTerm} : (all ts).Holds M ↔ ∀ t ∈ ts, t.Holds M := by
  rw [Holds]
  induction ts with
  | nil => simp [AllHold]
  | cons t ts ih => simp [AllHold, ih]

theorem holds_any {ts : List BoolTerm} : (any ts).Holds M ↔ ∃ t ∈ ts, t.Holds M := by
  rw [Holds]
  induction ts with
  | nil => simp [AnyHolds]
  | cons t ts ih => simp [AnyHolds, ih]

end BoolTerm

namespace IntTerm

variable {M : Model}

theorem holds_inRange {t : IntTerm} {type : IntType} :
    (t.inRange type).Holds M ↔ type.contains (t.value M) = true := by
  rw [inRange, BoolTerm.holds_all, IntType.contains_iff]
  simp [BoolTerm.Holds, value]

theorem value_ite_pos {c : BoolTerm} (hc : c.Holds M) (l r : IntTerm) :
    (ite c l r).value M = l.value M := by
  rw [value, if_pos hc]

theorem value_ite_neg {c : BoolTerm} (hc : ¬c.Holds M) (l r : IntTerm) :
    (ite c l r).value M = r.value M := by
  rw [value, if_neg hc]

theorem value_abs (t : IntTerm) : t.abs.value M = (t.value M).natAbs := by
  have hsign : (BoolTerm.le (.const 0) t).Holds M ↔ 0 ≤ t.value M := by
    simp only [BoolTerm.Holds, value]
  by_cases h : 0 ≤ t.value M
  · rw [abs, value_ite_pos (hsign.mpr h)]
    omega
  · rw [abs, value_ite_neg (hsign.not.mpr h), value]
    omega

/-- The quotient of two terms is rounded toward zero. -/
theorem value_quotient {l r : IntTerm} (hr : r.value M ≠ 0) :
    (l.quotient r).value M = (l.value M).tdiv (r.value M) := by
  have hdiv : (div l.abs r.abs).value M =
      ((l.value M).natAbs : Int).tdiv ((r.value M).natAbs : Int) := by
    rw [value, value_abs, value_abs, if_neg (by omega),
      Int.tdiv_eq_ediv_of_nonneg (Int.natCast_nonneg _)]
  have hsigns : (BoolTerm.same (.le (.const 0) l) (.le (.const 0) r)).Holds M ↔
      (0 ≤ l.value M ↔ 0 ≤ r.value M) := by
    simp only [BoolTerm.Holds, value]
  -- the sign of each operand is taken out of the quotient
  by_cases hs : 0 ≤ l.value M ↔ 0 ≤ r.value M
  · rw [quotient, value_ite_pos (hsigns.mpr hs), hdiv]
    by_cases hl : 0 ≤ l.value M
    · rw [Int.natAbs_of_nonneg hl, Int.natAbs_of_nonneg (hs.mp hl)]
    · rw [Int.ofNat_natAbs_of_nonpos (by omega), Int.ofNat_natAbs_of_nonpos (by omega),
        Int.neg_tdiv, Int.tdiv_neg, Int.neg_neg]
  · rw [quotient, value_ite_neg (hsigns.not.mpr hs), value, hdiv]
    by_cases hl : 0 ≤ l.value M
    · rw [Int.natAbs_of_nonneg hl, Int.ofNat_natAbs_of_nonpos (by omega), Int.tdiv_neg, Int.neg_neg]
    · rw [Int.ofNat_natAbs_of_nonpos (by omega), Int.natAbs_of_nonneg (by omega), Int.neg_tdiv,
        Int.neg_neg]

/-- Words of a type that are combined are numbers of the type that are combined. -/
theorem value_bits (op : BitOp) {type : IntType} {l r : IntTerm}
    (hl : type.contains (l.value M) = true) (hr : type.contains (r.value M) = true) :
    (bits op type l r).value M = op.onInts (l.value M) (r.value M) := by
  rw [value, BitOp.onWords_ofInt, IntType.ofWord_ofInt (IntType.contains_onInts op hl hr)]

end IntTerm

namespace ArrayTerm

variable {M : Model} {c : BoolTerm}

theorem value_ite_pos (hc : c.Holds M) (l r : ArrayTerm) : (ite c l r).value M = l.value M := by
  rw [value, if_pos hc]

theorem value_ite_neg (hc : ¬c.Holds M) (l r : ArrayTerm) : (ite c l r).value M = r.value M := by
  rw [value, if_neg hc]

end ArrayTerm

/-! ## Numbered unknowns -/

/-- The label of a numbered unknown. -/
def unknownLabel (stem : String) (n : Nat) : String := stem ++ "!" ++ toString n

theorem toList_unknownLabel (stem : String) (n : Nat) :
    (unknownLabel stem n).toList = stem.toList ++ '!' :: Nat.toDigits 10 n := by
  simp [unknownLabel]

/-- A label determines the number of its unknown. -/
theorem unknownLabel_number {stem stem' : String} {n n' : Nat}
    (h : unknownLabel stem n = unknownLabel stem' n') : n = n' := by
  have hmark : ∀ k : Nat, '!' ∉ Nat.toDigits 10 k := by
    intro k hk
    have hdigit := Nat.isDigit_of_mem_toDigits (by decide) (by decide) hk
    exact absurd hdigit (by decide)
  have hlast : ∀ (s : String) (k : Nat),
      ((unknownLabel s k).toList.reverse.takeWhile (· ≠ '!')).reverse = Nat.toDigits 10 k := by
    intro s k
    rw [toList_unknownLabel, List.reverse_append, List.reverse_cons, List.append_assoc,
      List.takeWhile_append_of_pos]
    · simp
    · intro c hc
      have hne : c ≠ '!' := fun he => hmark k (he ▸ List.mem_reverse.mp hc)
      simpa using hne
  have hdigits : Nat.toDigits 10 n = Nat.toDigits 10 n' := by
    rw [← hlast stem n, ← hlast stem' n', h]
  rw [← Nat.ofDigitChars_ten_toDigits (n := n), hdigits, Nat.ofDigitChars_ten_toDigits]

/-- The label of an unknown with the number `k` or a greater one. -/
def Upcoming (k : Nat) (x : String) : Prop := ∃ stem n, k ≤ n ∧ x = unknownLabel stem n

/-- A name without the mark of numbered unknowns is not the label of one. -/
theorem not_upcoming {x : String} (hx : '!' ∉ x.toList) (k : Nat) : ¬Upcoming k x := by
  rintro ⟨stem, n, -, rfl⟩
  rw [toList_unknownLabel] at hx
  simp at hx

namespace Model

/-- The models that agree with `σ` on all unknowns but those from the number `k` on. -/
def before (σ : Model) (k : Nat) : Set Model :=
  {M | ∀ x, ¬Upcoming k x → M.ints x = σ.ints x ∧ M.arrays x = σ.arrays x}

/-- A model with other values for one unknown. -/
def assign (σ : Model) (x : String) (n : Int) (f : Int → Int) : Model :=
  { σ with ints := Function.update σ.ints x n, arrays := Function.update σ.arrays x f }

variable {σ M : Model} {k : Nat}

theorem mem_before_self (σ : Model) (k : Nat) : σ ∈ σ.before k := fun _ _ => ⟨rfl, rfl⟩

theorem before_subset {k' : Nat} (h : k ≤ k') : σ.before k' ⊆ σ.before k := by
  intro M hM x hx
  refine hM x fun ⟨stem, n, hn, hlabel⟩ => hx ⟨stem, n, ?_, hlabel⟩
  omega

/-- The unknown with the number `k` can have any value. -/
theorem mem_before_assign {stem : String} {n : Int} {f : Int → Int}
    (hM : M ∈ (σ.assign (unknownLabel stem k) n f).before (k + 1)) :
    M ∈ σ.before k ∧ M.ints (unknownLabel stem k) = n ∧ M.arrays (unknownLabel stem k) = f := by
  have hnew : Upcoming k (unknownLabel stem k) := ⟨stem, k, Nat.le_refl k, rfl⟩
  have hpast : ¬Upcoming (k + 1) (unknownLabel stem k) := by
    rintro ⟨stem', n', hn', hlabel⟩
    have hnumber := unknownLabel_number hlabel
    omega
  refine ⟨fun x hx => ?_, ?_⟩
  · have hne : x ≠ unknownLabel stem k := fun he => hx (he ▸ hnew)
    have hlater : ¬Upcoming (k + 1) x := fun ⟨s, m, hm, hlabel⟩ => hx ⟨s, m, by omega, hlabel⟩
    simpa [assign, hne] using hM x hlater
  · simpa [assign] using hM _ hpast

end Model

end Retrace
