import Netblock.Address

/-! # Intervals of addresses

A closed interval of addresses of one family, with its containment, its order and its
prefixes. A prefix of length `n` is the set of addresses that agree in their first `n` bits:
an interval whose size is a power of two and whose first address is a multiple of it.
-/

namespace Netblock

attribute [local instance (high)] instPowNat

@[ext] structure Interval (f : Family) where
  first : Nat
  last : Nat
  first_le_last : first ≤ last
  last_lt : last < 2 ^ f.bits

namespace Interval

variable {f : Family}

instance : DecidableEq (Interval f) := fun i j =>
  decidable_of_iff (i.first = j.first ∧ i.last = j.last) Interval.ext_iff.symm

def firstAddress (i : Interval f) : Address f :=
  ⟨i.first, Nat.lt_of_le_of_lt i.first_le_last i.last_lt⟩

def lastAddress (i : Interval f) : Address f := ⟨i.last, i.last_lt⟩

def ofAddress (a : Address f) : Interval f := ⟨a.value, a.value, Nat.le_refl _, a.isLt⟩

def between? (a b : Address f) : Option (Interval f) :=
  if h : a.value ≤ b.value then some ⟨a.value, b.value, h, b.isLt⟩ else none

def whole (f : Family) : Interval f :=
  ⟨0, 2 ^ f.bits - 1, Nat.zero_le _, Nat.sub_lt (Nat.two_pow_pos _) Nat.one_pos⟩

def Contains (i j : Interval f) : Prop := i.first ≤ j.first ∧ j.last ≤ i.last

def Intersects (i j : Interval f) : Prop := i.first ≤ j.last ∧ j.first ≤ i.last

/-- The two share an address and neither contains the other. -/
def PartlyOverlaps (i j : Interval f) : Prop :=
  i.Intersects j ∧ ¬ i.Contains j ∧ ¬ j.Contains i

instance (i j : Interval f) : Decidable (i.Contains j) := by unfold Contains; infer_instance

instance (i j : Interval f) : Decidable (i.Intersects j) := by unfold Intersects; infer_instance

instance (i j : Interval f) : Decidable (i.PartlyOverlaps j) := by
  unfold PartlyOverlaps; infer_instance

def start (i : Interval f) : Interval f := ofAddress i.firstAddress

/-- By the first address, and among those that start together the larger one first. -/
def compare (i j : Interval f) : Ordering :=
  (Ord.compare i.first j.first).then (Ord.compare j.last i.last)

def compareLast (i j : Interval f) : Ordering := Ord.compare i.last j.last

def Precedes (i j : Interval f) : Prop :=
  i.first < j.first ∨ i.first = j.first ∧ j.last < i.last

instance (i j : Interval f) : Decidable (i.Precedes j) := by unfold Precedes; infer_instance

theorem compare_eq_lt_iff {i j : Interval f} : i.compare j = .lt ↔ i.Precedes j := by
  simp only [compare, Ordering.then_eq_lt, Nat.compare_eq_lt, Nat.compare_eq_eq, Precedes]

theorem compare_eq_eq_iff {i j : Interval f} : i.compare j = .eq ↔ i = j := by
  simp only [compare, Ordering.then_eq_eq, Nat.compare_eq_eq, Interval.ext_iff]
  omega

theorem last_of_masked_lt (a : Address f) {n : Nat} (h : n ≤ f.bits) :
    a.value / 2 ^ (f.bits - n) * 2 ^ (f.bits - n) + (2 ^ (f.bits - n) - 1) < 2 ^ f.bits := by
  have hs : 2 ^ f.bits = 2 ^ n * 2 ^ (f.bits - n) := by
    rw [← Nat.pow_add]; congr; omega
  have hp : 0 < 2 ^ (f.bits - n) := Nat.two_pow_pos _
  have hq : a.value / 2 ^ (f.bits - n) + 1 ≤ 2 ^ n :=
    Nat.div_lt_of_lt_mul (by rw [Nat.mul_comm, ← hs]; exact a.isLt)
  have := Nat.mul_le_mul_right (2 ^ (f.bits - n)) hq
  rw [← hs, Nat.add_mul, Nat.one_mul] at this
  omega

/-- The prefix of `n` bits that holds `a`, for an `n` up to the width of the family. -/
def ofPrefix? (a : Address f) (n : Nat) : Option (Interval f) :=
  if h : n ≤ f.bits then
    let size := 2 ^ (f.bits - n)
    some ⟨a.value / size * size, a.value / size * size + (size - 1),
      Nat.le_add_right .., last_of_masked_lt a h⟩
  else none

def prefixLength? (i : Interval f) : Option Nat :=
  let size := i.last - i.first + 1
  if size = 2 ^ size.log2 ∧ i.first % size = 0 then some (f.bits - size.log2) else none

end Interval

end Netblock
