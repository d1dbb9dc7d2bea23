import Netblock.Family
import Netblock.Text.Numeral

/-! # Addresses

An address is a number below `2 ^ f.bits`. It is the value of `f.digitCount` digits
of base `f.base`, and every such list of digits is an address.
-/

namespace Netblock

attribute [local instance (high)] instPowNat

@[ext] structure Address (f : Family) where
  value : Nat
  isLt : value < 2 ^ f.bits
  deriving DecidableEq

namespace Address

variable {f : Family}

/-- The address with these digits, where their count is right and none is too large. -/
def ofDigits? (f : Family) (ds : List Nat) : Option (Address f) :=
  if h : ds.length = f.digitCount ∧ ∀ d ∈ ds, d < f.base then
    some ⟨joinDigits f.base ds, by
      have := joinDigits_lt h.2
      rwa [h.1, f.base_pow_digitCount] at this⟩
  else none

def digits (a : Address f) : List Nat := splitDigits f.base f.digitCount a.value

theorem length_digits (a : Address f) : a.digits.length = f.digitCount := by simp [digits]

theorem lt_of_mem_digits {a : Address f} {d : Nat} (h : d ∈ a.digits) : d < f.base :=
  lt_of_mem_splitDigits (Nat.two_pow_pos _) h

theorem ofDigits?_digits (a : Address f) : ofDigits? f a.digits = some a := by
  have h : a.digits.length = f.digitCount ∧ ∀ d ∈ a.digits, d < f.base :=
    ⟨a.length_digits, fun _ => lt_of_mem_digits⟩
  rw [ofDigits?, dif_pos h]
  congr
  exact joinDigits_splitDigits (by rw [f.base_pow_digitCount]; exact a.isLt)

end Address

end Netblock
