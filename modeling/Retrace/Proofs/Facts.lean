import Retrace.Proofs.Following
import Retrace.Proofs.Stepwise

/-!
# Facts that a run satisfies

The encoding of an expression comes with facts about the values in it, which are added to the path
as if every run past the expression satisfied them. `Analyzing.encode_admits` says when this is so.
If an evaluation gives a value, and every divisor and every shift count in the expression has a
value that its operator accepts, unknowns can be found such that the encoding denotes the value and
all facts hold. For a division that the evaluation gets to there is nothing to ask for. But an
operand that is left out by `&&` or `||` is encoded, too, and the facts about it are added without a
condition. So `shortcut_excluded` is an evaluation that no model of the facts agrees with.

What an encoding adds does not depend on the path that it is added to (`Analyzing.adding`).
-/

namespace Retrace

open Actions

namespace Analyzing

/-- The action adds the same facts to every path. -/
def Adding {α : Type} (x : Analyzing α) : Prop :=
  ∀ a v a', x a = .ok v a' → ∃ facts, a'.constraints = a.constraints ++ facts ∧
    ∀ path, x { a with constraints := path } = .ok v { a' with constraints := path ++ facts }

theorem Adding.bind {α β : Type} {x : Analyzing α} {f : α → Analyzing β} (hx : Adding x)
    (hf : ∀ v, Adding (f v)) : Adding (x >>= f) := by
  intro a w a' h
  obtain ⟨v, a₁, hx', hf'⟩ := bind_eq_ok.mp h
  obtain ⟨before, hbefore, hfirst⟩ := hx a v a₁ hx'
  obtain ⟨after, hafter, hsecond⟩ := hf v a₁ w a' hf'
  refine ⟨before ++ after, ?_, fun path => ?_⟩
  · rw [hafter, hbefore, List.append_assoc]
  · rw [← List.append_assoc]
    exact bind_eq_ok.mpr ⟨v, _, hfirst path, hsecond (path ++ before)⟩

/-- An action that leaves the path alone, and does not look at it. -/
theorem adding_of_same {α : Type} {x : Analyzing α}
    (h : ∀ a v a', x a = .ok v a' → a'.constraints = a.constraints ∧
      ∀ path, x { a with constraints := path } = .ok v { a' with constraints := path }) :
    Adding x := by
  intro a v a' hx
  obtain ⟨hsame, hany⟩ := h a v a' hx
  refine ⟨[], by rw [hsame, List.append_nil], fun path => ?_⟩
  rw [List.append_nil]
  exact hany path

/-- Encodings add the same facts to every path. -/
theorem adding : Stepwise Adding where
  pure v := adding_of_same fun a w a' h => by
    obtain ⟨rfl, rfl⟩ := pure_eq_ok.mp h
    exact ⟨rfl, fun _ => rfl⟩
  throw e := fun _ _ _ h => absurd h throw_ne_ok
  bind hx hf := hx.bind hf
  var name f hf := fun a => hf (Datum.field? name a.vars) a
  assume c := fun a v a' h => by
    obtain ⟨rfl, rfl⟩ := EStateM.Result.ok.inj h
    exact ⟨[c], rfl, fun _ => rfl⟩
  setVar name v := adding_of_same fun a w a' h => by
    obtain ⟨rfl, rfl⟩ := EStateM.Result.ok.inj h
    exact ⟨rfl, fun _ => rfl⟩
  freshName stem := adding_of_same fun a w a' h => by
    obtain ⟨rfl, rfl⟩ := EStateM.Result.ok.inj h
    exact ⟨rfl, fun _ => rfl⟩

end Analyzing

/-- In the model, the symbolic values of names denote what the names stand for in the run. -/
def Model.Reflects (M : Model) (type : IntType) (vars : List (String × SymValue)) (V : View) :
    Prop :=
  ∀ name v, Datum.field? name vars = some v →
    v.Bounded type M ∧ ∀ c, V name = some c → v.Mirrors M c

namespace Analyzing

/-- **Facts that a run satisfies.** Let the evaluation of an expression give a value, and let a
model give the symbolic values of names the values that the names have there, whatever the unknowns
to come are. If all divisors and shift counts in the expression pass, unknowns to come can be chosen
such that the encoding of the expression denotes its value and every fact that is added to the path
holds. They pass if no division and no shift stands on the right side of `&&` or `||`. -/
theorem encode_admits {s : Subject} {t : Scope} (ht : t.Suits s) {e : Expr} {w : Value}
    (hw : t.value e = .ok w) {σ : Model} {a : Analysis}
    (hσ : ∀ M ∈ σ.before a.fresh, M.Reflects s.intType a.vars (t.frame.view t.heap))
    {v : SymValue} {a' : Analysis} (h : encode s e a = .ok v a') :
    (e.isGuarded = true → t.Passes e) ∧
      (t.Passes e → ∃ facts, a'.constraints = a.constraints ++ facts ∧
        ∃ τ ∈ σ.before a.fresh, v.Denotes τ w.toInt ∧ ∀ c ∈ facts, c.Holds τ) := by
  have hgives := Scope.gives_of_value hw
  refine ⟨fun hguarded => Scope.passes_of_gives hguarded hgives, fun hpasses => ?_⟩
  obtain ⟨facts, hfacts, hany⟩ := adding.encode s e a v a' h
  -- the facts are followed on a path of their own
  have halone : encode s e { a with constraints := [] } = .ok v { a' with constraints := facts } :=
    hany []
  have hfollows : Follows s.intType (fun _ => True) (encode s e) (t.frame.view t.heap)
      (t.frame.view t.heap) fun v M => ∀ w', some w = some w' → v.Denotes M w'.toInt :=
    follows_encode_of_passes ht hpasses (Scope.knows_some hgives)
  obtain ⟨τ, hτ⟩ := hfollows σ { a with constraints := [] }
    (fun M hM => ⟨trivial, nofun, fun name u hu => (hσ M hM name u hu).1,
      fun name u hu => (hσ M hM name u hu).2⟩) v _ halone
  obtain ⟨hbefore, hpictures, hdenotes⟩ := hτ τ (Model.mem_before_self τ a'.fresh)
  exact ⟨facts, hfacts, τ, hbefore, hdenotes w rfl, hpictures.constraints⟩

end Analyzing

/-! ## An operand that is left out -/

namespace Sample

/-- `x == n || a[x] / x > 5`. -/
def shortcut (n : Int) : Expr :=
  .binary none "||" (.binary none "==" (.var none "x") (.int none n))
    (.binary none ">" (.binary none "/" (.elem none "a" (.var none "x")) (.var none "x"))
      (.int none 5))

/-- A variable `x` that holds the number, and an array `a` with two elements. -/
def indexing (n : Int) : Scope :=
  { functions := HostFunction.builtins
    frame := { bindings := [("x", .scalar ⟨0, 0⟩), ("a", .array [⟨0, 1⟩, ⟨0, 2⟩])] }
    heap := ⟨#[{ intType := .word, cells := #[some n, some 7, some 8] }]⟩ }

/-- An analysis in which `a` is used as an array. -/
def indexed : Subject :=
  { (default : Toolkit) with
    procedure := "p", intType := .word, arrays := ["a"], numbers := ["x"] }

/-- The start of the analysis, with an unknown for each of the names. -/
def beginning : Analysis := { vars := [("x", .int (.var "x")), ("a", .array (.var "a"))] }

/-- The unknowns have the values of the names that they are labelled with. -/
def valuation (n : Int) : Model :=
  { ints := fun _ => n
    arrays := fun _ => (indexing n).heap.heldAt [⟨0, 1⟩, ⟨0, 2⟩]
    byZero := fun _ => 0 }

theorem suits_indexing {n : Int} (hn : IntType.word.contains n = true) :
    (indexing n).Suits indexed := by
  refine ⟨rfl, fun _ _ _ hf => hf, fun name c hc => ?_⟩
  obtain ⟨b, hb, rfl⟩ := Option.map_eq_some_iff.mp hc
  refine Binding.inRange_content fun u hu => ?_
  have hmem := Datum.mem_of_field? hb
  simp only [indexing, List.mem_cons, List.not_mem_nil, or_false, Prod.mk.injEq] at hmem
  obtain ⟨-, rfl⟩ | ⟨-, rfl⟩ := hmem
  · rw [List.mem_singleton.mp hu]
    exact hn
  · simp only [Binding.slots, List.mem_cons, List.not_mem_nil, or_false] at hu
    rcases hu with rfl | rfl <;> rfl

/-- The unknowns of the names are not numbered, so no choice of numbered ones changes them. -/
theorem eq_of_mem_before {n : Int} {M : Model}
    (hM : M ∈ (valuation n).before beginning.fresh) :
    M.ints "x" = n ∧ M.arrays "a" = (indexing n).heap.heldAt [⟨0, 1⟩, ⟨0, 2⟩] :=
  ⟨(hM "x" (not_upcoming (by decide) _)).1, (hM "a" (not_upcoming (by decide) _)).2⟩

theorem reflects_valuation {n : Int} (hn : IntType.word.contains n = true) {M : Model}
    (hM : M ∈ (valuation n).before beginning.fresh) :
    M.Reflects indexed.intType beginning.vars ((indexing n).frame.view (indexing n).heap) := by
  obtain ⟨hx, ha⟩ := eq_of_mem_before hM
  have hfits : ∀ name c, (indexing n).frame.view (indexing n).heap name = some c →
      c.InRange .word := (suits_indexing hn).inRange
  intro name v hv
  have hmem := Datum.mem_of_field? hv
  simp only [beginning, List.mem_cons, List.not_mem_nil, or_false, Prod.mk.injEq] at hmem
  obtain ⟨rfl, rfl⟩ | ⟨rfl, rfl⟩ := hmem
  · refine ⟨SymValue.bounded_int _, fun c hc => ?_⟩
    obtain rfl : Content.one n = c := Option.some.inj hc
    rw [SymValue.Mirrors, SymValue.Denotes, IntTerm.value, hx]
  · have hvalue : (ArrayTerm.var "a").value M = (indexing n).heap.heldAt [⟨0, 1⟩, ⟨0, 2⟩] := by
      rw [ArrayTerm.value, ha]
    refine ⟨?_, fun c hc => ?_⟩
    · rintro _ ⟨⟩ i
      rw [hvalue]
      exact hfits "a" (.many _) rfl i
    · obtain rfl : Content.many _ = c := Option.some.inj hc
      rintro _ ⟨⟩
      exact hvalue

/-- The left operand decides, and the facts are about the right one. -/
theorem encode_shortcut (n : Int) : ∃ v a',
    Analyzing.encode indexed (shortcut n) beginning = .ok v a' ∧
      a'.constraints = [(IntTerm.select (.var "a") (.var "x")).inRange .word,
        .ne (.var "x") (.const 0)] :=
  ⟨_, _, rfl, rfl⟩

end Sample

/-- An element out of bounds and a quotient that are left out exclude nothing, as long as the
divisor is not zero. -/
theorem shortcut_admitted :
    (Sample.indexing 2).Suits Sample.indexed ∧
      (Sample.indexing 2).value (Sample.shortcut 2) = .ok (.bool true) ∧
      (Sample.indexing 2).Passes (Sample.shortcut 2) ∧
      ∃ v a', Analyzing.encode Sample.indexed (Sample.shortcut 2) Sample.beginning = .ok v a' ∧
        ∃ τ ∈ (Sample.valuation 2).before Sample.beginning.fresh,
          v.Denotes τ (Value.bool true).toInt ∧ ∀ c ∈ a'.constraints, c.Holds τ := by
  have hsuits : (Sample.indexing 2).Suits Sample.indexed := Sample.suits_indexing (by decide)
  have hvalue : (Sample.indexing 2).value (Sample.shortcut 2) = .ok (.bool true) := rfl
  have hpasses : (Sample.indexing 2).Passes (Sample.shortcut 2) := by
    refine ⟨fun o ho h => ?_, ⟨fun o ho h => ?_, trivial, trivial⟩, fun o ho h => ?_,
      ⟨fun o ho _ => ?_, trivial, trivial⟩, trivial⟩
    · obtain rfl : BinaryOp.either = o := Option.some.inj ho
      cases h
    · obtain rfl : BinaryOp.eq = o := Option.some.inj ho
      cases h
    · obtain rfl : BinaryOp.gt = o := Option.some.inj ho
      cases h
    · obtain rfl : BinaryOp.div = o := Option.some.inj ho
      exact ⟨.int 2, ⟨[], _, rfl⟩, (by decide : (2 : Int) ≠ 0)⟩
  obtain ⟨v, a', hencode, -⟩ := Sample.encode_shortcut 2
  obtain ⟨facts, hfacts, hadmits⟩ := (Analyzing.encode_admits hsuits hvalue
    (fun M hM => Sample.reflects_valuation (by decide) hM) hencode).2 hpasses
  refine ⟨hsuits, hvalue, hpasses, v, a', hencode, ?_⟩
  obtain rfl : a'.constraints = facts := hfacts
  exact hadmits

/-- Where the divisor that is left out is zero, no model of the facts agrees with the evaluation. -/
theorem shortcut_excluded :
    (Sample.indexing 0).Suits Sample.indexed ∧
      (Sample.indexing 0).value (Sample.shortcut 0) = .ok (.bool true) ∧
      (∀ M ∈ (Sample.valuation 0).before Sample.beginning.fresh,
        M.Reflects Sample.indexed.intType Sample.beginning.vars
          ((Sample.indexing 0).frame.view (Sample.indexing 0).heap)) ∧
      ∃ v a', Analyzing.encode Sample.indexed (Sample.shortcut 0) Sample.beginning = .ok v a' ∧
        ∀ τ ∈ (Sample.valuation 0).before Sample.beginning.fresh,
          ¬∀ c ∈ a'.constraints, c.Holds τ := by
  refine ⟨Sample.suits_indexing (by decide), rfl,
    fun M hM => Sample.reflects_valuation (by decide) hM, ?_⟩
  obtain ⟨v, a', hencode, hfacts⟩ := Sample.encode_shortcut 0
  refine ⟨v, a', hencode, fun τ hτ hall => ?_⟩
  have hdivisor : (BoolTerm.ne (.var "x") (.const 0)).Holds τ := hall _ (by simp [hfacts])
  rw [BoolTerm.Holds, IntTerm.value, IntTerm.value] at hdivisor
  exact hdivisor (Sample.eq_of_mem_before hτ).1

end Retrace
