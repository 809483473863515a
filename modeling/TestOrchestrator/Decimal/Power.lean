/-!
# Powers

* `tens k` is `10 ^ k`.
* `wordLimit` and `halfWord` are the numbers above those of 64 and of 63 bits.
-/

namespace TestOrchestrator

/-- The power `10 ^ k`. -/
def Decimal.tens (k : Nat) : Nat := Nat.pow 10 k

/-- The number above all that 64 bits hold, `2 ^ 64`. -/
def wordLimit : Nat := 18446744073709551616

/-- The number above all that 63 bits hold, `2 ^ 63`. -/
def halfWord : Nat := 9223372036854775808

namespace Decimal

@[simp] theorem tens_zero : tens 0 = 1 := rfl

theorem tens_succ (k : Nat) : tens (k + 1) = tens k * 10 := rfl

theorem tens_pos (k : Nat) : 0 < tens k := by
  induction k with
  | zero => decide
  | succ k ih => rw [tens_succ]; omega

end Decimal

end TestOrchestrator
