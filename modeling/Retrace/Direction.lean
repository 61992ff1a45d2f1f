/-!
# Directions

A procedure can be run forward, and backward to take a forward run back.
-/

namespace Retrace

/-- The direction of a run. -/
inductive Direction where
  | forward
  | backward
deriving DecidableEq, Repr, Inhabited

namespace Direction

/-- The name of a direction. -/
def name : Direction → String
  | .forward => "forward"
  | .backward => "backward"

/-- The opposite direction. -/
def flip : Direction → Direction
  | .forward => .backward
  | .backward => .forward

@[simp] theorem flip_flip (d : Direction) : d.flip.flip = d := by
  cases d <;> rfl

/-- The order in which a block is run: backward starts at its end. -/
def order {α : Type} : Direction → List α → List α
  | .forward, body => body
  | .backward, body => body.reverse

@[simp] theorem order_flip {α : Type} (d : Direction) (body : List α) :
    d.flip.order body = (d.order body).reverse := by
  cases d <;> simp [flip, order]

end Direction

end Retrace
