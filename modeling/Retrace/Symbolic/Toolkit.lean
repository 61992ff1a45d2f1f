import Retrace.Fault
import Retrace.Number.Bits
import Retrace.Symbolic.Term

/-!
# What an analysis works with

An analysis builds its terms with a library, puts its questions to a solver, and computes with the
integers of its host. None of the three is part of the language, and a `Toolkit` says what an
analysis has to know of them: the answers of the solver, what the library of terms does with values
that do not fit together, which terms it takes for numbers that are written out, and which shifts
are too large for them.

`Toolkit.usual` is what they do as a rule. Nothing that is said about analyses depends on it.
-/

namespace Retrace

/-! ## Solvers -/

/-- The answer of a solver to a list of constraints: a model says what value it gives to a name. -/
inductive Verdict where
  | sat (model : String → String)
  | unsat
  | unknown
deriving Inhabited

/-- A solver answers a list of constraints; it is told how many questions came before. -/
abbrev Solver := Nat → List BoolTerm → Verdict

/-! ## Values that do not fit -/

/-- Values that do not fit what is to be made of them. -/
inductive Misfit where
  /-- a condition -/
  | condition (v : SymValue)
  /-- a comparison with the bounds of an integer type -/
  | range (v : SymValue)
  /-- an operation with plain numbers -/
  | operand (v : SymValue)
  /-- an operation on two numbers -/
  | operands (l r : SymValue)
  /-- an operation on two words -/
  | words (l r : SymValue)
  /-- one of the two, depending on a condition -/
  | choice (l r : SymValue)
  /-- an array, one element of which is looked at -/
  | array (v : SymValue)
  /-- an index -/
  | index (v : SymValue)
deriving Inhabited

/-- What a library of terms does with values that do not fit, as a rule: it has an objection to
those that it looks at, and all others are mistakes of their user. -/
def Misfit.objection : Misfit → Except Mistake String
  | .condition _ => .ok "Z3 expression expected"
  | .range _ | .operand _ => .error .arrayOperand
  | .operands (.array _) (.array _) => .error .arrayOperand
  | .operands .. | .words .. | .choice .. => .ok "sort mismatch"
  | .array _ => .ok "First argument must be a Z3 array expression"
  | .index _ => .error .arrayIndex

/-! ## Toolkits -/

/-- What an analysis takes from outside. -/
structure Toolkit where
  solver : Solver
  /-- what the library of terms does with values that do not fit: it objects, for a reason, or it
  fails -/
  objection : Misfit → Except Mistake String
  /-- the integer that a term is taken for, if it counts as written out -/
  literal? : IntTerm → Option Int
  /-- only what is written as a number counts as written out -/
  eq_const : ∀ {t : IntTerm} {n : Int}, literal? t = some n → t = .const n
  /-- the number of bits of counts that are never too large -/
  capacity : Nat
  /-- how a shift by so many places fails, if it or its result is too large -/
  excess? : Nat → Option Mistake
  excess?_eq_none : ∀ {n : Nat}, n < Bits.weight capacity → excess? n = none

namespace Toolkit

/-- The least count for which the result takes over 4300 decimal digits, too many for a term. -/
def textLimit : Nat := 14285

/-- The number of bits that there is room for. -/
def memoryLimit : Nat := Bits.weight 38

/-- The least count for which the result has too many digits, of thirty bits each, to count them. -/
def digitLimit : Nat := 30 * (Bits.weight 61 - 8) + 1

/-- The usual library of terms and the usual host. -/
def usual (solver : Solver) : Toolkit where
  solver
  objection := Misfit.objection
  literal? := IntTerm.literal?
  eq_const := IntTerm.eq_const_of_literal?
  capacity := 13
  excess? n :=
    if n < textLimit then none
    else if n < memoryLimit then some (.unusable .value)
    else if n < digitLimit then some (.unusable .memory)
    else some (.unusable .overflow)
  excess?_eq_none h := if_pos (Nat.lt_of_lt_of_le h (Nat.le_of_ble_eq_true rfl))

/-- A solver goes with the usual library and host. -/
instance : Coe Solver Toolkit := ⟨usual⟩

instance : Inhabited Toolkit := ⟨usual default⟩

end Toolkit

/-! ## Giving up -/

/-- Why an analysis was given up: it cannot go on, for a reason, or values do not fit, or the host
made a mistake. -/
inductive Refusal where
  | rejected (reason : String)
  | misfit (m : Misfit)
  | mistake (m : Mistake)
deriving Inhabited

/-- The reason for which an analysis is given up, unless it fails. -/
def Toolkit.reason (k : Toolkit) : Refusal → Except Mistake String
  | .rejected reason => .ok reason
  | .misfit m => k.objection m
  | .mistake m => .error m

end Retrace
