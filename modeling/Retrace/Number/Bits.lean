/-!
# Bitwise operations on integers

An integer is read as an infinite sequence of bits in two's complement: from some place on all
bits are zero (the number is not negative) or all are one. `-(n + 1)` is the complement of `n`, so
every operation reduces to one on natural numbers.
-/

namespace Retrace.Bits

/-- The weight of the bit at place `n`, counted from zero: two to the power `n`. -/
def weight (n : Nat) : Nat := Nat.pow 2 n

/-- The bits of `m` that `n` lacks. -/
def without (m n : Nat) : Nat := m ^^^ (m &&& n)

/-- The bits that both operands have. -/
def and : Int → Int → Int
  | .ofNat m, .ofNat n => .ofNat (m &&& n)
  | .ofNat m, .negSucc n => .ofNat (without m n)
  | .negSucc m, .ofNat n => .ofNat (without n m)
  | .negSucc m, .negSucc n => .negSucc (m ||| n)

/-- The bits that some operand has. -/
def or : Int → Int → Int
  | .ofNat m, .ofNat n => .ofNat (m ||| n)
  | .ofNat m, .negSucc n => .negSucc (without n m)
  | .negSucc m, .ofNat n => .negSucc (without m n)
  | .negSucc m, .negSucc n => .negSucc (m &&& n)

/-- The bits that exactly one operand has. -/
def xor : Int → Int → Int
  | .ofNat m, .ofNat n => .ofNat (m ^^^ n)
  | .ofNat m, .negSucc n => .negSucc (m ^^^ n)
  | .negSucc m, .ofNat n => .negSucc (m ^^^ n)
  | .negSucc m, .negSucc n => .ofNat (m ^^^ n)

/-- All bits flipped. -/
def complement (i : Int) : Int := -i - 1

/-- All bits moved up by `count` places. -/
def shiftLeft (i : Int) (count : Nat) : Int := i * weight count

/-- All bits moved down by `count` places; the lowest ones are lost. -/
def shiftRight (i : Int) (count : Nat) : Int := i / weight count

theorem weight_pos (n : Nat) : 0 < weight n := Nat.pow_pos (by decide)

/-- The bits that differ, taken twice, are the first operand again. -/
theorem xor_xor_cancel_right (a b : Int) : xor (xor a b) b = a := by
  cases a <;> cases b <;> simp only [xor, Nat.xor_assoc, Nat.xor_self, Nat.xor_zero]

end Retrace.Bits
