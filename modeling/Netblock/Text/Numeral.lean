/-! # Numerals

Numbers in positional notation: the value of a list of digits, the digits of a number,
and numerals written with the characters `0` to `9` and `a` to `f`.
-/

namespace Netblock

attribute [local instance (high)] instPowNat

def joinDigits (base : Nat) (ds : List Nat) : Nat := ds.foldl (fun n d => n * base + d) 0

def splitDigits (base : Nat) : Nat → Nat → List Nat
  | 0, _ => []
  | count + 1, n => splitDigits base count (n / base) ++ [n % base]

@[simp] theorem joinDigits_nil (base : Nat) : joinDigits base [] = 0 := rfl

theorem joinDigits_append_singleton (base : Nat) (ds : List Nat) (d : Nat) :
    joinDigits base (ds ++ [d]) = joinDigits base ds * base + d := by
  simp [joinDigits]

theorem foldl_digits_lt {base : Nat} {ds : List Nat} (h : ∀ d ∈ ds, d < base) (n k : Nat)
    (hn : n < base ^ k) :
    ds.foldl (fun n d => n * base + d) n < base ^ (k + ds.length) := by
  induction ds generalizing n k with
  | nil => simpa using hn
  | cons d ds ih =>
    have hd := h d (by simp)
    have step : n * base + d < base ^ (k + 1) := by
      calc n * base + d < n * base + base := by omega
        _ = (n + 1) * base := by rw [Nat.add_mul, Nat.one_mul]
        _ ≤ base ^ k * base := Nat.mul_le_mul_right _ hn
        _ = base ^ (k + 1) := (Nat.pow_succ ..).symm
    have := ih (fun x hx => h x (by simp [hx])) _ _ step
    rw [show k + 1 + ds.length = k + (d :: ds).length by simp; omega] at this
    simpa using this

theorem joinDigits_lt {base : Nat} {ds : List Nat} (h : ∀ d ∈ ds, d < base) :
    joinDigits base ds < base ^ ds.length := by
  simpa [joinDigits] using foldl_digits_lt h 0 0 (by simp)

@[simp] theorem length_splitDigits (base count n : Nat) :
    (splitDigits base count n).length = count := by
  induction count generalizing n with
  | zero => rfl
  | succ count ih => simp [splitDigits, ih]

theorem lt_of_mem_splitDigits {base count n d : Nat} (hb : 0 < base)
    (h : d ∈ splitDigits base count n) : d < base := by
  induction count generalizing n with
  | zero => simp [splitDigits] at h
  | succ count ih =>
    simp only [splitDigits, List.mem_append, List.mem_singleton] at h
    rcases h with h | rfl
    · exact ih h
    · exact Nat.mod_lt _ hb

theorem joinDigits_splitDigits {base count n : Nat} (h : n < base ^ count) :
    joinDigits base (splitDigits base count n) = n := by
  induction count generalizing n with
  | zero => simp at h; simp [splitDigits, h]
  | succ count ih =>
    have hn : n / base < base ^ count :=
      Nat.div_lt_of_lt_mul (by rwa [Nat.pow_succ, Nat.mul_comm] at h)
    rw [splitDigits, joinDigits_append_singleton, ih hn, Nat.div_add_mod']

namespace Numeral

/-- The value of a character as a digit of a base up to sixteen, in either case. -/
def digit? (base : Nat) (c : Char) : Option Nat :=
  let d? : Option Nat :=
    if '0' ≤ c ∧ c ≤ '9' then some (c.toNat - 48)
    else if 'a' ≤ c ∧ c ≤ 'f' then some (c.toNat - 87)
    else if 'A' ≤ c ∧ c ≤ 'F' then some (c.toNat - 55)
    else none
  d?.filter (· < base)

def read? (base : Nat) (cs : List Char) : Option Nat :=
  if cs = [] then none else (cs.mapM (digit? base)).map (joinDigits base)

def write (base n : Nat) : List Char := Nat.toDigits base n

theorem ofList_write (n : Nat) : String.ofList (write 10 n) = toString n := rfl

theorem write_ne_nil {base n : Nat} : write base n ≠ [] := Nat.toDigits_ne_nil

theorem length_write_le {base n k : Nat} (hb : 1 < base) (hk : 0 < k) (h : n < base ^ k) :
    (write base n).length ≤ k :=
  (Nat.length_toDigits_le_iff hb hk).mpr h

theorem exists_digitChar_of_mem_write {base n : Nat} (hb : 1 < base) {c : Char}
    (h : c ∈ write base n) : ∃ d < base, c = Nat.digitChar d := by
  induction n using Nat.strongRecOn with
  | ind n ih =>
    rw [write, Nat.toDigits_eq_if hb] at h
    split at h
    · next hn => exact ⟨n, hn, List.mem_singleton.mp h⟩
    · rcases List.mem_append.mp h with h | h
      · exact ih _ (Nat.div_lt_self (by omega) hb) h
      · exact ⟨_, Nat.mod_lt n (by omega), List.mem_singleton.mp h⟩

theorem digit?_digitChar {base d : Nat} (hb : base ≤ 16) (hd : d < base) :
    digit? base (Nat.digitChar d) = some d := by
  have h : ∀ d : Fin 16, digit? 16 (Nat.digitChar d.val) = some d.val := by decide
  have h16 := h ⟨d, by omega⟩
  simp only [digit?, Option.filter_eq_some_iff] at h16 ⊢
  exact ⟨h16.1, by simpa using hd⟩

theorem mapM_digit?_write {base : Nat} (hb : 1 < base) (hb' : base ≤ 16) (n : Nat) :
    ∃ ds, (write base n).mapM (digit? base) = some ds ∧ joinDigits base ds = n := by
  induction n using Nat.strongRecOn with
  | ind n ih =>
    rw [write, Nat.toDigits_eq_if hb]
    split
    · next h => exact ⟨[n], by simp [digit?_digitChar hb' h], by simp [joinDigits]⟩
    · next h =>
      obtain ⟨ds, hds, hn⟩ := ih (n / base) (Nat.div_lt_self (by omega) hb)
      refine ⟨ds ++ [n % base], ?_, ?_⟩
      · rw [write] at hds
        simp [List.mapM_append, hds, digit?_digitChar hb' (Nat.mod_lt n (by omega))]
      · rw [joinDigits_append_singleton, hn, Nat.div_add_mod']

theorem read?_write {base : Nat} (hb : 1 < base) (hb' : base ≤ 16) (n : Nat) :
    read? base (write base n) = some n := by
  obtain ⟨ds, hds, hn⟩ := mapM_digit?_write hb hb' n
  rw [read?, if_neg write_ne_nil, hds, Option.map_some, hn]

end Numeral

end Netblock
