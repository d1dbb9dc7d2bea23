/-! # Address families

The two families of network addresses. An address of either family is a number
written with a fixed count of digits of a fixed width: four digits of 8 bits, or
eight digits of 16 bits.
-/

namespace Netblock

-- Powers are those of `Nat`, whatever other instances are in scope.
attribute [local instance (high)] instPowNat

inductive Family | v4 | v6
  deriving DecidableEq, Repr

namespace Family

def bits : Family → Nat
  | v4 => 32
  | v6 => 128

/-- The width of one written digit. -/
def digitBits : Family → Nat
  | v4 => 8
  | v6 => 16

def digitCount : Family → Nat
  | v4 => 4
  | v6 => 8

theorem digitBits_mul_digitCount (f : Family) : f.digitBits * f.digitCount = f.bits := by
  cases f <;> rfl

def base (f : Family) : Nat := 2 ^ f.digitBits

theorem base_pow_digitCount (f : Family) : f.base ^ f.digitCount = 2 ^ f.bits := by
  rw [base, ← Nat.pow_mul, digitBits_mul_digitCount]

end Family

end Netblock
