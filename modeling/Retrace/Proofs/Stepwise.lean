import Retrace.Symbolic.Encode

/-!
# Encodings, step by step

Encoding an expression is made of few kinds of steps: a constraint is added, a name gets a symbolic
value, a fresh unknown is named, and what the names stand for is read. A property of actions that
these steps have, and a sequence of actions if its parts have it, is a property of all encodings
(`Stepwise.encode`). The operators between them are gone through once, here.
-/

namespace Retrace.Analyzing

/-- The rest of `lookup`, from what was found. -/
def found (s : Subject) (name : String) : Option SymValue → Analyzing SymValue
  | some v => return v
  | none => do
    let v ← freshValue s name
    setVar name v
    if name ∉ s.arrays then assumeInRange s v
    return v

theorem lookup_eq (s : Subject) (name : String) :
    lookup s name = get >>= fun a => found s name (Datum.field? name a.vars) :=
  rfl

/-- A property that the steps of an encoding have, and sequences of actions if their parts do. -/
structure Stepwise (Q : {α : Type} → Analyzing α → Prop) : Prop where
  pure : ∀ {α : Type} (v : α), Q (pure v)
  throw : ∀ {α : Type} (e : Refusal), Q (throw e : Analyzing α)
  bind : ∀ {α β : Type} {x : Analyzing α} {f : α → Analyzing β}, Q x → (∀ v, Q (f v)) →
    Q (x >>= f)
  /-- an action may depend on what a name stands for -/
  var : ∀ {α : Type} (name : String) (f : Option SymValue → Analyzing α), (∀ o, Q (f o)) →
    Q (get >>= fun a => f (Datum.field? name a.vars))
  assume : ∀ c, Q (assume c)
  setVar : ∀ name v, Q (setVar name v)
  freshName : ∀ stem, Q (freshName stem)

namespace Stepwise

variable {Q : {α : Type} → Analyzing α → Prop} (h : Stepwise Q)

include h

theorem unknown : Q unknown := h.bind (h.freshName _) fun _ => h.pure _

theorem freshValue (s : Subject) (name : String) : Q (freshValue s name) :=
  h.bind (h.freshName name) fun _ => h.pure _

theorem assumeInRange (s : Subject) (v : SymValue) : Q (assumeInRange s v) := by
  cases v with
  | int t => exact h.assume _
  | bool | array => exact h.throw _

theorem lookup (s : Subject) (name : String) : Q (lookup s name) := by
  rw [lookup_eq]
  refine h.var name (found s name) fun o => ?_
  cases o with
  | some v => exact h.pure v
  | none =>
    refine h.bind (h.freshValue s name) fun v => h.bind (h.setVar name v) fun _ => ?_
    split
    · exact h.bind (h.assumeInRange s v) fun _ => h.pure _
    · exact h.pure _

theorem condition (v : SymValue) : Q (condition v) := by
  cases v with
  | bool | int => exact h.pure _
  | array => exact h.throw _

theorem plain (v : SymValue) : Q (plain v) := by
  unfold Analyzing.plain
  split
  · exact h.pure _
  · exact h.throw _

theorem pair (l r : SymValue) : Q (pair l r) := by
  unfold Analyzing.pair
  split
  · exact h.pure _
  · exact h.throw _

theorem words (l r : SymValue) : Q (words l r) := by
  unfold Analyzing.words
  split
  · exact h.pure _
  · exact h.throw _

theorem equal (l r : SymValue) : Q (equal l r) := by
  unfold Analyzing.equal
  split
  · exact h.pure _
  · exact h.bind (h.pair l r) fun p => h.pure (BoolTerm.eq p.1 p.2)

theorem unequal (l r : SymValue) : Q (unequal l r) := by
  unfold Analyzing.unequal
  split
  · exact h.pure _
  · exact h.bind (h.pair l r) fun p => h.pure (BoolTerm.ne p.1 p.2)

theorem arrayOf (v : SymValue) : Q (arrayOf v) := by
  cases v with
  | array => exact h.pure _
  | int | bool => exact h.throw _

theorem indexOf (v : SymValue) : Q (indexOf v) := by
  unfold Analyzing.indexOf
  split
  · exact h.pure _
  · exact h.throw _

theorem division (l r : SymValue) : Q (division l r) := by
  refine h.bind (h.condition r) fun c => h.bind (h.assume c) fun _ => ?_
  exact h.bind (h.plain l) fun _ => h.bind (h.plain r) fun _ => h.pure _

theorem factor (s : Subject) (count : Int) : Q (factor s count) := by
  unfold Analyzing.factor
  split
  · exact h.throw _
  · split
    · exact h.throw _
    · exact h.pure _

theorem shift (s : Subject) (left : Bool) (l r : SymValue) : Q (shift s left l r) := by
  refine h.bind (h.plain r) fun count => h.bind (h.assume _) fun _ => ?_
  split
  · exact h.unknown
  · exact h.bind (h.factor s _) fun _ => h.bind (h.plain l) fun _ => h.pure _

theorem bitwise (s : Subject) (op : BitOp) (l r : SymValue) : Q (bitwise s op l r) := by
  refine h.bind (h.words l r) fun p => ?_
  dsimp only
  split
  · exact h.pure _
  · exact h.bind (h.freshName _) fun _ => h.pure _

theorem binary (s : Subject) (op : BinaryOp) (left right : SymValue) :
    Q (binary s op left right) := by
  unfold Analyzing.binary
  dsimp only
  split
  all_goals first
    | exact h.pure _
    | exact h.bind (h.condition _) fun _ => h.bind (h.condition _) fun _ => h.pure _
    | exact h.bind (h.equal _ _) fun _ => h.pure _
    | exact h.bind (h.unequal _ _) fun _ => h.pure _
    | exact h.bind (h.division _ _) fun _ => h.pure _
    | exact h.shift _ _ _ _
    | exact h.bitwise _ _ _ _
    | exact h.bind (h.pair _ _) fun _ => h.pure _

theorem extreme (least : Bool) (best : SymValue) (rest : List SymValue) :
    Q (extreme least best rest) := by
  induction rest generalizing best with
  | nil => exact h.pure _
  | cons v rest ih => exact h.bind (h.pair v best) fun p => ih _

theorem application (name : String) (args : List SymValue) : Q (application name args) := by
  unfold Analyzing.application
  split
  · exact h.bind (h.plain _) fun _ => h.pure _
  · exact h.extreme _ _ _
  · exact h.extreme _ _ _
  · exact h.unknown

mutual

/-- **All encodings.** A property of the steps is a property of the encoding of an expression. -/
theorem encode (s : Subject) : ∀ e : Expr, Q (encode s e)
  | .int .. => h.pure _
  | .bool .. => h.pure _
  | .var _ name => h.lookup s name
  | .elem _ name index => by
    refine h.bind (h.lookup s name) fun v => h.bind (encode s index) fun i => ?_
    refine h.bind (h.arrayOf v) fun _ => h.bind (h.indexOf _) fun _ => ?_
    exact h.bind (h.assume _) fun _ => h.pure _
  | .binary _ op left right => by
    refine h.bind (encode s left) fun l => h.bind (encode s right) fun r => ?_
    split
    · exact h.binary s _ l r
    · exact h.throw _
  | .unary _ op operand => by
    refine h.bind (encode s operand) fun v => ?_
    split
    · exact h.bind (h.condition v) fun _ => h.pure _
    · exact h.bind (h.plain v) fun _ => h.pure _
    · exact h.bind (h.plain v) fun _ => h.pure _
    · exact h.unknown
  | .call _ name args => h.bind (encodeAll s args) fun vs => h.application name vs
  | .update .. => h.throw _
  | .hole _ => h.unknown

theorem encodeAll (s : Subject) : ∀ es : List Expr, Q (encodeAll s es)
  | [] => h.pure _
  | e :: rest => h.bind (encode s e) fun _ => h.bind (encodeAll s rest) fun _ => h.pure _

end

end Stepwise

end Retrace.Analyzing
