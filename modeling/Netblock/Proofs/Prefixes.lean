import Netblock.Proofs.Spelling

/-! # Prefixes and their bits

A prefix holds the addresses that agree with one in their first bits: its bounds are that address
with all other bits cleared and with all of them set. The length of a prefix is told by the bits in
which its bounds differ, and an interval has a length just where it is a prefix.
-/

namespace Netblock

attribute [local instance (high)] instPowNat

theorem xor_two_pow_sub_one {a k : Nat} (h : a % 2 ^ k = 0) :
    a ^^^ (2 ^ k - 1) = a + (2 ^ k - 1) := by
  obtain ⟨q, rfl⟩ := Nat.dvd_of_mod_eq_zero h
  have hlow : 2 ^ k - 1 < 2 ^ k := Nat.sub_lt (Nat.two_pow_pos k) Nat.one_pos
  rw [Nat.two_pow_add_eq_or_of_lt hlow]
  apply Nat.eq_of_testBit_eq
  intro j
  simp only [Nat.testBit_xor, Nat.testBit_or, Nat.testBit_two_pow_mul, Nat.testBit_two_pow_sub_one]
  by_cases hj : j < k
  · simp [hj, Nat.not_le.mpr hj]
  · simp [hj]

section Words

variable {w k : Nat} {x : BitVec w}

/-- A word shares no bit with the next one just where it is a run of ones at the low end. The word
of ones alone is one of these, as its next one wraps around to zero. -/
theorem and_add_one_eq_zero_iff :
    x &&& (x + 1) = 0 ↔ ∃ k ≤ w, x.toNat = 2 ^ k - 1 := by
  have hx := x.isLt
  have hnext : (x + 1).toNat = (x.toNat + 1) % 2 ^ w := by simp [BitVec.toNat_add]
  rw [← BitVec.toNat_inj, BitVec.toNat_and, hnext]
  change _ = 0 ↔ _
  by_cases hwrap : x.toNat + 1 = 2 ^ w
  · rw [hwrap, Nat.mod_self, Nat.and_zero]
    exact ⟨fun _ => ⟨w, Nat.le_refl w, by omega⟩, fun _ => rfl⟩
  · rw [Nat.mod_eq_of_lt (by omega), Nat.and_comm]
    have hpower := Nat.and_sub_one_eq_zero_iff_isPowerOfTwo (Nat.succ_ne_zero x.toNat)
    rw [Nat.succ_eq_add_one, Nat.add_sub_cancel] at hpower
    rw [hpower]
    constructor
    · rintro ⟨k, hk⟩
      refine ⟨k, (Nat.pow_le_pow_iff_right (by decide : 1 < 2)).mp ?_, by omega⟩
      rw [← hk]
      omega
    · rintro ⟨k, -, hk⟩
      have hpos := Nat.two_pow_pos k
      exact ⟨k, by omega⟩

theorem toNat_cpop_of_eq (hk : k ≤ w) (hx : x.toNat = 2 ^ k - 1) : x.cpop.toNat = k := by
  have hset : x = (BitVec.allOnes k).setWidth w := by
    apply BitVec.eq_of_toNat_eq
    rw [BitVec.toNat_setWidth_of_le hk, BitVec.toNat_allOnes, hx]
  rw [hset, BitVec.toNat_cpop_setWidth_eq_of_le hk, BitVec.cpop_allOnes, BitVec.toNat_ofNat,
    Nat.mod_eq_of_lt Nat.lt_two_pow_self]

end Words

def Address.bits {f : Family} (a : Address f) : BitVec f.bits := BitVec.ofNatLT a.value a.isLt

namespace Interval

variable {f : Family} {a : Address f} {i : Interval f} {n : Nat}

theorem ofPrefix?_eq_some_iff : ofPrefix? a n = some i ↔
    n ≤ f.bits ∧ i.first = a.value / 2 ^ (f.bits - n) * 2 ^ (f.bits - n) ∧
      i.last = i.first + (2 ^ (f.bits - n) - 1) := by
  rw [ofPrefix?]
  split
  · next hn =>
    rw [Option.some_inj, Interval.ext_iff]
    constructor
    · rintro ⟨hfirst, hlast⟩
      exact ⟨hn, hfirst.symm, by rw [← hlast, ← hfirst]⟩
    · rintro ⟨-, hfirst, hlast⟩
      exact ⟨hfirst.symm, by rw [hlast, hfirst]⟩
  · next hn => simp [hn]

theorem ofPrefix?_eq_none_iff : ofPrefix? a n = none ↔ f.bits < n := by
  rw [ofPrefix?]
  split
  · next hn => simpa using hn
  · next hn => simpa using hn

theorem ofPrefix_of_lt (h : f.bits < n) : ofPrefix a n = .error (.badLength (toString n)) := by
  rw [ofPrefix, ofPrefix?_eq_none_iff.mpr h]
  simp only [Numeral.ofList_write]

theorem exists_ofPrefix? (a : Address f) (hn : n ≤ f.bits) : ∃ i, ofPrefix? a n = some i := by
  rw [← Option.ne_none_iff_exists', Ne, ofPrefix?_eq_none_iff]
  exact Nat.not_lt.mpr hn

theorem contains_of_ofPrefix? (h : ofPrefix? a n = some i) : i.Contains (ofAddress a) := by
  obtain ⟨-, hfirst, hlast⟩ := ofPrefix?_eq_some_iff.mp h
  have hdivmod := Nat.div_add_mod' a.value (2 ^ (f.bits - n))
  have hmod := Nat.mod_lt a.value (Nat.two_pow_pos (f.bits - n))
  constructor
  · change i.first ≤ a.value
    omega
  · change a.value ≤ i.last
    omega

theorem prefixLength?_eq_some_iff : i.prefixLength? = some n ↔
    n ≤ f.bits ∧ i.last - i.first + 1 = 2 ^ (f.bits - n) ∧ i.first % 2 ^ (f.bits - n) = 0 := by
  have hle : i.last - i.first + 1 ≤ 2 ^ f.bits := by have := i.last_lt; omega
  simp only [prefixLength?, Option.ite_none_right_eq_some, Option.some_inj]
  generalize i.last - i.first + 1 = size at hle
  constructor
  · rintro ⟨⟨hsize, hmod⟩, rfl⟩
    have hlog : size.log2 ≤ f.bits :=
      (Nat.pow_le_pow_iff_right (by decide)).mp (hsize ▸ hle)
    rw [Nat.sub_sub_self hlog, ← hsize]
    exact ⟨Nat.sub_le _ _, rfl, hmod⟩
  · rintro ⟨hn, rfl, hmod⟩
    rw [Nat.log2_two_pow, Nat.sub_sub_self hn]
    exact ⟨⟨rfl, hmod⟩, rfl⟩

theorem prefixLength?_of_ofPrefix? (h : ofPrefix? a n = some i) : i.prefixLength? = some n := by
  obtain ⟨hn, hfirst, hlast⟩ := ofPrefix?_eq_some_iff.mp h
  have hpos := Nat.two_pow_pos (f.bits - n)
  refine prefixLength?_eq_some_iff.mpr ⟨hn, by omega, ?_⟩
  rw [hfirst, Nat.mul_mod_left]

theorem ofPrefix?_of_prefixLength? (h : i.prefixLength? = some n) :
    ofPrefix? i.firstAddress n = some i := by
  obtain ⟨hn, hsize, hmod⟩ := prefixLength?_eq_some_iff.mp h
  have hle := i.first_le_last
  have hself : i.first / 2 ^ (f.bits - n) * 2 ^ (f.bits - n) = i.first :=
    Nat.div_mul_cancel (Nat.dvd_of_mod_eq_zero hmod)
  exact ofPrefix?_eq_some_iff.mpr ⟨hn, hself.symm, by omega⟩

theorem prefixLength?_eq_some_iff_ofPrefix? :
    i.prefixLength? = some n ↔ ofPrefix? i.firstAddress n = some i :=
  ⟨ofPrefix?_of_prefixLength?, prefixLength?_of_ofPrefix?⟩

theorem prefixLength?_eq_none_iff :
    i.prefixLength? = none ↔ ∀ (a : Address f) n, ofPrefix? a n ≠ some i := by
  constructor
  · intro h a n hi
    rw [prefixLength?_of_ofPrefix? hi] at h
    cases h
  · intro h
    rw [← Option.not_isSome_iff_eq_none, Option.isSome_iff_exists]
    rintro ⟨n, hn⟩
    exact h _ n (ofPrefix?_of_prefixLength? hn)

/-- The word whose ones are the bits after the first `n`. -/
def hostMask (f : Family) (n : Nat) : BitVec f.bits := BitVec.allOnes f.bits >>> n

theorem getLsbD_bits (a : Address f) (j : Nat) : a.bits.getLsbD j = a.value.testBit j := rfl

theorem getLsbD_hostMask (hn : n ≤ f.bits) (j : Nat) :
    (hostMask f n).getLsbD j = decide (j < f.bits - n) := by
  rw [hostMask, BitVec.getLsbD_ushiftRight, BitVec.getLsbD_allOnes]
  congr 1
  rw [eq_iff_iff]
  omega

theorem bits_firstAddress_of_ofPrefix? (h : ofPrefix? a n = some i) :
    i.firstAddress.bits = a.bits &&& ~~~hostMask f n := by
  obtain ⟨hn, hfirst, -⟩ := ofPrefix?_eq_some_iff.mp h
  apply BitVec.eq_of_getLsbD_eq
  intro j hj
  rw [BitVec.getLsbD_and, BitVec.getLsbD_not, getLsbD_hostMask hn, getLsbD_bits, getLsbD_bits]
  change i.first.testBit j = _
  rw [hfirst, Nat.testBit_mul_two_pow, Nat.testBit_div_two_pow]
  by_cases hj' : j < f.bits - n
  · simp [hj', Nat.not_le.mpr hj']
  · simp [hj', hj, Nat.not_lt.mp hj']

theorem bits_lastAddress_of_ofPrefix? (h : ofPrefix? a n = some i) :
    i.lastAddress.bits = a.bits ||| hostMask f n := by
  obtain ⟨hn, hfirst, hlast⟩ := ofPrefix?_eq_some_iff.mp h
  apply BitVec.eq_of_getLsbD_eq
  intro j _
  have hlow : 2 ^ (f.bits - n) - 1 < 2 ^ (f.bits - n) :=
    Nat.sub_lt (Nat.two_pow_pos _) Nat.one_pos
  rw [BitVec.getLsbD_or, getLsbD_hostMask hn, getLsbD_bits, getLsbD_bits]
  change i.last.testBit j = _
  rw [hlast, hfirst, Nat.mul_comm, Nat.testBit_two_pow_mul_add _ hlow,
    Nat.testBit_two_pow_sub_one, Nat.testBit_div_two_pow]
  by_cases hj : j < f.bits - n
  · simp [hj]
  · simp [hj, Nat.not_lt.mp hj]

/-- The length of the prefix that the interval is, read off the bits in which its bounds differ. -/
def bitLength? (i : Interval f) : Option Nat :=
  let host := i.firstAddress.bits ^^^ i.lastAddress.bits
  if host &&& (host + 1) = 0 ∧ i.firstAddress.bits &&& host = 0 then
    some (f.bits - host.cpop.toNat)
  else none

theorem bitLength?_eq_some_iff : i.bitLength? = some n ↔
    n ≤ f.bits ∧ i.last - i.first + 1 = 2 ^ (f.bits - n) ∧ i.first % 2 ^ (f.bits - n) = 0 := by
  have hand (x : BitVec f.bits) (k : Nat) (hx : x.toNat = 2 ^ k - 1) :
      i.firstAddress.bits &&& x = 0 ↔ i.first % 2 ^ k = 0 := by
    rw [← BitVec.toNat_inj, BitVec.toNat_and, hx, Nat.and_two_pow_sub_one_eq_mod]
    rfl
  have hxor : (i.firstAddress.bits ^^^ i.lastAddress.bits).toNat = i.first ^^^ i.last :=
    BitVec.toNat_xor ..
  have hle := i.first_le_last
  simp only [bitLength?, Option.ite_none_right_eq_some, Option.some_inj]
  generalize i.firstAddress.bits ^^^ i.lastAddress.bits = host at hxor
  constructor
  · rintro ⟨⟨hrun, hclear⟩, rfl⟩
    obtain ⟨k, hk, hhost⟩ := and_add_one_eq_zero_iff.mp hrun
    have hmod := (hand host k hhost).mp hclear
    have hlast : i.last = i.first + (2 ^ k - 1) := by
      rw [← xor_two_pow_sub_one hmod, ← hhost, hxor, ← Nat.xor_assoc, Nat.xor_self, Nat.zero_xor]
    rw [toNat_cpop_of_eq hk hhost, Nat.sub_sub_self hk]
    have hpos := Nat.two_pow_pos k
    exact ⟨Nat.sub_le _ _, by omega, hmod⟩
  · rintro ⟨hn, hsize, hmod⟩
    have hhost : host.toNat = 2 ^ (f.bits - n) - 1 := by
      have hlast : i.last = i.first + (2 ^ (f.bits - n) - 1) := by omega
      rw [hxor, hlast, ← xor_two_pow_sub_one hmod, ← Nat.xor_assoc, Nat.xor_self, Nat.zero_xor]
    have hk : f.bits - n ≤ f.bits := Nat.sub_le _ _
    refine ⟨⟨and_add_one_eq_zero_iff.mpr ⟨_, hk, hhost⟩, (hand host _ hhost).mpr hmod⟩, ?_⟩
    rw [toNat_cpop_of_eq hk hhost, Nat.sub_sub_self hn]

theorem bitLength?_eq_prefixLength? (i : Interval f) : i.bitLength? = i.prefixLength? := by
  ext n
  rw [bitLength?_eq_some_iff, prefixLength?_eq_some_iff]

/-- Up to the width of its family each length has one prefix around an address, aligned to its
size, and no interval but a prefix has a length. Bounds and lengths are those that masks of ones
give. -/
theorem prefix_of_length (f : Family) :
    (∀ (a : Address f) (n : Nat), n ≤ f.bits → ∃ i, ofPrefix a n = .ok i ∧
      i.Contains (ofAddress a) ∧ 2 ^ (f.bits - n) ∣ i.first ∧
      i.last = i.first + 2 ^ (f.bits - n) - 1 ∧ i.prefixLength? = some n) ∧
    (∀ (a : Address f) (n : Nat), f.bits < n →
      ofPrefix a n = .error (.badLength (toString n))) ∧
    (∀ (i : Interval f) (n : Nat), i.prefixLength? = some n ↔
      n ≤ f.bits ∧ ofPrefix i.firstAddress n = .ok i) ∧
    (∀ i : Interval f, i.prefixLength? = none ↔ ¬ ∃ a n, ofPrefix a n = .ok i) ∧
    (∀ (a : Address f) (n : Nat) (i : Interval f), ofPrefix a n = .ok i →
      i.firstAddress.bits = a.bits &&& ~~~hostMask f n ∧
      i.lastAddress.bits = a.bits ||| hostMask f n) ∧
    ∀ i : Interval f, i.prefixLength? = i.bitLength? := by
  refine ⟨fun a n hn => ?_, fun a n hn => ?_, fun i n => ?_, fun i => ?_, fun a n i h => ?_,
    fun i => (bitLength?_eq_prefixLength? i).symm⟩
  · obtain ⟨i, hi⟩ := exists_ofPrefix? a hn
    obtain ⟨-, hfirst, hlast⟩ := ofPrefix?_eq_some_iff.mp hi
    have hpos := Nat.two_pow_pos (f.bits - n)
    refine ⟨i, ofPrefix_eq_ok_iff.mpr hi, contains_of_ofPrefix? hi, ?_, by omega,
      prefixLength?_of_ofPrefix? hi⟩
    exact hfirst ▸ Nat.dvd_mul_left _ _
  · exact ofPrefix_of_lt hn
  · rw [ofPrefix_eq_ok_iff, prefixLength?_eq_some_iff_ofPrefix?, and_iff_right_of_imp]
    exact fun h => (ofPrefix?_eq_some_iff.mp h).1
  · simp only [prefixLength?_eq_none_iff, ofPrefix_eq_ok_iff, not_exists, Ne]
  · rw [ofPrefix_eq_ok_iff] at h
    exact ⟨bits_firstAddress_of_ofPrefix? h, bits_lastAddress_of_ofPrefix? h⟩

theorem prefix_of_length_of_host_bits :
    let a : Address .v4 := ⟨0x0A010203, by decide⟩
    let i : Interval .v4 := ⟨0x0A000000, 0x0AFFFFFF, by decide, by decide⟩
    let unaligned : Interval .v4 := ⟨1, 2, by decide, by decide⟩
    8 ≤ Family.v4.bits ∧ ofPrefix a 8 = .ok i ∧ i.Contains (ofAddress a) ∧
      i.prefixLength? = some 8 ∧ i.firstAddress.bits = a.bits &&& ~~~hostMask .v4 8 ∧
      Family.v4.bits < 33 ∧ ofPrefix a 33 = .error (.badLength "33") ∧
      unaligned.prefixLength? = none ∧ ¬ ∃ a n, ofPrefix a n = .ok unaligned := by
  intro a i unaligned
  have hn : 8 ≤ Family.v4.bits := by decide
  have hlong : Family.v4.bits < 33 := by decide
  have hi : ofPrefix a 8 = .ok i := by decide +kernel
  have hnone : unaligned.prefixLength? = none := by decide +kernel
  obtain ⟨hshort, herror, -, hiff, hbits, -⟩ := prefix_of_length .v4
  obtain ⟨j, hj, hcontains, -, -, hlength⟩ := hshort a 8 hn
  obtain rfl : i = j := Except.ok.inj (hi.symm.trans hj)
  exact ⟨hn, hi, hcontains, hlength, (hbits a 8 i hi).1, hlong, herror a 33 hlong, hnone,
    (hiff unaligned).mp hnone⟩

end Interval

end Netblock
