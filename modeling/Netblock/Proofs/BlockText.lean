import Netblock.Proofs.AddressText
import Netblock.Proofs.Prefixes

/-! # Blocks from their text

An interval is read back from both of its texts, the prefix and the range, and a block from
that of its interval.
-/

namespace Netblock

attribute [local instance (high)] instPowNat

open Text

theorem Numeral.isBlank_of_mem_write {n : Nat} {c : Char} (h : c ∈ Numeral.write 10 n) :
    isBlank c = false := by
  obtain ⟨d, hd, rfl⟩ := exists_digitChar_of_mem_write (by decide) h
  exact (by decide : ∀ d < 10, isBlank (Nat.digitChar d) = false) d hd

theorem Numeral.trimmed_write (n : Nat) : Trimmed (Numeral.write 10 n) :=
  trimmed_of_forall fun _ => isBlank_of_mem_write

namespace Address

variable {f : Family}

theorem isBlank_of_mem_write {a : Address f} {c : Char} (h : c ∈ a.write) : isBlank c = false := by
  have hall : Family.v6.alphabet.all (fun c => !isBlank c) = true := by decide
  simpa using List.all_eq_true.mp hall c (f.alphabet_subset (mem_alphabet_of_mem_write h))

theorem trimmed_write (a : Address f) : Trimmed a.write :=
  trimmed_of_forall fun _ => isBlank_of_mem_write

theorem slash_notMem_write (a : Address f) : '/' ∉ a.write := notMem_write (by decide) a

end Address

namespace Interval

variable {f : Family} {i : Interval f} {n : Nat} {cs : List Char}

theorem between?_bounds (i : Interval f) : between? i.firstAddress i.lastAddress = some i :=
  dif_pos i.first_le_last

/-- The texts of an interval. The range is one of them where the prefix is another. -/
inductive Written (i : Interval f) : List Char → Prop where
  | slash {n : Nat} (eq : i.prefixLength? = some n) :
      Written i (i.firstAddress.write ++ '/' :: Numeral.write 10 n)
  | dash : Written i (i.firstAddress.write ++ " - ".toList ++ i.lastAddress.write)

theorem written_write (i : Interval f) : i.Written i.write := by
  rw [write]
  split
  · next h => exact .slash h
  · exact .dash

theorem readLength?_write (h : n ≤ lengthLimit) : readLength? (Numeral.write 10 n) = some n := by
  have hdigits := Numeral.read?_ten_eq_some_iff.mp (Numeral.read?_write (by decide) (by decide) n)
  exact readLength?_eq_some_iff.mpr ⟨⟨_, .inl rfl, hdigits⟩, h⟩

theorem Written.trimmed (h : i.Written cs) : Trimmed cs := by
  cases h with
  | slash =>
    rw [← List.singleton_append, ← List.append_assoc]
    exact trimmed_append_append (Address.trimmed_write _) (Numeral.trimmed_write _)
      (Address.write_ne_nil _) Numeral.write_ne_nil _
  | dash =>
    exact trimmed_append_append (Address.trimmed_write _) (Address.trimmed_write _)
      (Address.write_ne_nil _) (Address.write_ne_nil _) _

theorem Written.ne_nil (h : i.Written cs) : cs ≠ [] := by
  cases h <;> simp

theorem Written.mem_alphabet (h : i.Written cs) {c : Char} (hc : c ∈ cs) :
    c ∈ Family.v6.alphabet ++ "/- ".toList := by
  have haddress : ∀ a : Address f, c ∈ a.write → c ∈ Family.v6.alphabet ++ "/- ".toList :=
    fun a ha => List.mem_append_left _ (f.alphabet_subset (Address.mem_alphabet_of_mem_write ha))
  cases h with
  | slash =>
    rw [List.mem_append, List.mem_cons] at hc
    obtain hc | rfl | hc := hc
    · exact haddress _ hc
    · decide
    · obtain ⟨d, hd, rfl⟩ := Numeral.exists_digitChar_of_mem_write (by decide) hc
      exact (by decide : ∀ d < 10, Nat.digitChar d ∈ Family.v6.alphabet ++ "/- ".toList) d hd
  | dash =>
    rw [List.mem_append, List.mem_append] at hc
    obtain (hc | hc) | hc := hc
    · exact haddress _ hc
    · exact List.mem_append_right _ ((by decide : " - ".toList ⊆ "/- ".toList) hc)
    · exact haddress _ hc

theorem Written.spelled (h : i.Written cs) : i.Spelled cs := by
  cases h with
  | @slash n eq =>
    have hn : n ≤ lengthLimit :=
      Nat.le_trans (prefixLength?_eq_some_iff.mp eq).1 (by cases f <;> decide)
    have hs : i.Spelled (i.firstAddress.write ++ [] ++ '/' :: [] ++ Numeral.write 10 n) :=
      .slash (Address.read?_write _) nofun nofun (readLength?_write hn)
        (ofPrefix?_of_prefixLength? eq)
    simpa using hs
  | dash =>
    have hs : i.Spelled (i.firstAddress.write ++ [' '] ++ '-' :: [' '] ++ i.lastAddress.write) :=
      .dash (Address.read?_write _) (fun _ => isBlank_of_mem_space) (fun _ => isBlank_of_mem_space)
        (Address.read?_write _) i.between?_bounds
    simpa using hs

/-- An interval is read back from its texts. -/
theorem read_written (h : i.Written cs) : read f cs = .ok i := by
  rw [read_eq_ok_iff, trim_of_trimmed h.trimmed]
  exact h.spelled

theorem Written.isBlank_of_slash_mem (h : i.Written cs) (hs : '/' ∈ cs) :
    ∀ c ∈ cs, isBlank c = false := by
  cases h with
  | slash =>
    intro c hc
    rw [List.mem_append, List.mem_cons] at hc
    obtain hc | rfl | hc := hc
    · exact Address.isBlank_of_mem_write hc
    · decide
    · exact Numeral.isBlank_of_mem_write hc
  | dash => simp [Address.slash_notMem_write] at hs

theorem Written.separator_mem (h : i.Written cs) : '-' ∈ cs ∨ '/' ∈ cs := by
  cases h <;> simp

end Interval

namespace Block

variable {b : Block} {cs : List Char}

theorem familyOf_written (h : b.interval.Written cs) : familyOf cs = b.family := by
  have hcolon : ':' ∈ cs ↔ b.family = .v6 := by
    cases h with
    | slash =>
      rw [List.mem_append, Address.colon_mem_write_iff, or_iff_left]
      rw [List.mem_cons, not_or]
      exact ⟨by decide, Numeral.notMem_write (by decide) (by decide) _⟩
    | dash =>
      rw [List.mem_append, List.mem_append, Address.colon_mem_write_iff,
        Address.colon_mem_write_iff, or_right_comm, or_self, or_iff_left (by decide)]
  simp only [familyOf, hcolon]
  cases b.family <;> rfl

theorem read_written (h : b.interval.Written cs) : read cs = .ok b := by
  rw [read, familyOf_written h, Interval.read_written h]
  rfl

end Block

end Netblock
