import Netblock.Proofs.AddressGrammar
import Netblock.Proofs.Prefixes

/-! # What a text is read as

Every text is read as one interval or refused with one error. Which of them it is follows from the
grammar of the parts beside the first separator: a slash before a dash, the part before the
separator before the part after it.
-/

namespace Netblock

attribute [local instance (high)] instPowNat

open Text

namespace Address.V4

def dotted (a : Address .v4) : String :=
  s!"{a.value / 2 ^ 24}.{a.value / 2 ^ 16 % 256}.{a.value / 2 ^ 8 % 256}.{a.value % 256}"

theorem digits_eq (a : Address .v4) : a.digits =
    [a.value / 2 ^ 24, a.value / 2 ^ 16 % 256, a.value / 2 ^ 8 % 256, a.value % 256] := by
  have hlt : a.value < 2 ^ 32 := a.isLt
  have hbase : Family.v4.base = 256 := rfl
  have hcount : Family.v4.digitCount = 4 := rfl
  rw [digits, hbase, hcount]
  simp only [splitDigits, List.nil_append, List.cons_append, List.cons.injEq, and_true]
  omega

theorem ofList_write (a : Address .v4) : String.ofList (Address.write a) = dotted a := by
  rw [Address.write, V4.write, digits_eq, writeOctets, ← String.toList_inj]
  have hdot : (toString ".").toList = ['.'] := rfl
  simp only [dotted, ← Numeral.ofList_write, String.toList_append, String.toList_ofList, hdot]
  simp [List.intercalate]

end Address.V4

namespace Interval

variable {f : Family} {cs x y before after : List Char} {a b : Address f} {n : Nat}

theorem readAddress_of_isText (h : Address.IsText f cs a) : readAddress f cs = .ok a :=
  readAddress_eq_ok_iff.mpr (Address.read?_eq_some_iff.mpr h)

theorem readAddress_of_not_isText (h : ∀ a, ¬ Address.IsText f cs a) :
    readAddress f cs = .error (.badAddress (String.ofList cs)) := by
  rw [readAddress, Address.read?_eq_none_iff.mpr h]

theorem readRange_of_isText (hx : Address.IsText f x a) (hy : Address.IsText f y b) :
    readRange f x y = between a b := by
  rw [readRange, readAddress_of_isText hx, readAddress_of_isText hy]
  rfl

theorem readRange_of_not_isText_left (hx : ∀ a, ¬ Address.IsText f x a) :
    readRange f x y = .error (.badAddress (String.ofList x)) := by
  rw [readRange, readAddress_of_not_isText hx]
  rfl

theorem readRange_of_not_isText_right (hx : Address.IsText f x a)
    (hy : ∀ b, ¬ Address.IsText f y b) :
    readRange f x y = .error (.badAddress (String.ofList y)) := by
  rw [readRange, readAddress_of_isText hx, readAddress_of_not_isText hy]
  rfl

theorem between_of_le (h : a.value ≤ b.value) :
    ∃ i, between a b = .ok i ∧ i.first = a.value ∧ i.last = b.value := by
  rw [between, between?, dif_pos h]
  exact ⟨_, rfl, rfl, rfl⟩

theorem between_of_lt (h : b.value < a.value) :
    between a b = .error (.reversed (String.ofList a.write) (String.ofList b.write)) := by
  rw [between, between?, dif_neg (Nat.not_le.mpr h)]

theorem readPrefix_of_isLength (hx : Address.IsText f x a) (hy : IsLength y n) (hn : n ≤ 255) :
    readPrefix f x y = ofPrefix a n := by
  rw [readPrefix, readAddress_of_isText hx, readLength?_eq_some_iff.mpr ⟨hy, hn⟩]
  rfl

theorem readPrefix_of_not_isText (hx : ∀ a, ¬ Address.IsText f x a) :
    readPrefix f x y = .error (.badAddress (String.ofList x)) := by
  rw [readPrefix, readAddress_of_not_isText hx]
  rfl

theorem readPrefix_of_not_isLength (hx : Address.IsText f x a) (hy : ∀ n, IsLength y n → 255 < n) :
    readPrefix f x y = .error (.badLength (String.ofList y)) := by
  have hnone : readLength? y = none := by
    rw [Option.eq_none_iff_forall_ne_some]
    intro n hn
    obtain ⟨hlength, hle⟩ := readLength?_eq_some_iff.mp hn
    exact absurd (hy n hlength) (Nat.not_lt.mpr hle)
  rw [readPrefix, readAddress_of_isText hx, hnone]
  rfl

theorem parts_eq_of_cut {sep : Char} (h : cut sep cs = some (x, y))
    (hcs : cs = before ++ sep :: after) (hbefore : sep ∉ before) : x = before ∧ y = after := by
  rw [hcs, cut_append hbefore] at h
  obtain ⟨rfl, rfl⟩ := Prod.mk.inj (Option.some.inj h)
  exact ⟨rfl, rfl⟩

/-- An IPv4 text without a slash is an address, or a range where there is a dash. What is wrong with
it is told of its first part before its second, and of both before their order. -/
theorem parse_v4_without_slash (s : String) (h : '/' ∉ s.toList) :
    ('-' ∉ trim s.toList →
      (∀ a, Address.IsText .v4 (trim s.toList) a → parse .v4 s = .ok (ofAddress a)) ∧
      ((∀ a, ¬ Address.IsText .v4 (trim s.toList) a) →
        parse .v4 s = .error (.badAddress (String.ofList (trim s.toList))))) ∧
    ('-' ∈ trim s.toList → ∃ before after,
      trim s.toList = before ++ '-' :: after ∧ '-' ∉ before ∧
      ((∀ a, ¬ Address.IsText .v4 (trim before) a) →
        parse .v4 s = .error (.badAddress (String.ofList (trim before)))) ∧
      ∀ a, Address.IsText .v4 (trim before) a →
        ((∀ b, ¬ Address.IsText .v4 (trim after) b) →
          parse .v4 s = .error (.badAddress (String.ofList (trim after)))) ∧
        ∀ b, Address.IsText .v4 (trim after) b →
          (a.value ≤ b.value →
            ∃ i, parse .v4 s = .ok i ∧ i.first = a.value ∧ i.last = b.value) ∧
          (b.value < a.value →
            parse .v4 s = .error (.reversed (Address.V4.dotted a) (Address.V4.dotted b)))) ∧
    ∀ i, parse .v4 s = .ok i → i.first ≤ i.last := by
  have hslash : '/' ∉ trim s.toList := mt (mem_trim_iff (by decide)).mp h
  refine ⟨fun hdash => ?word, fun hdash => ?range, fun i _ => i.first_le_last⟩
  case word =>
    rw [parse, read_of_word hslash hdash]
    constructor
    · intro a ha
      rw [readAddress_of_isText ha]
      rfl
    · intro hbad
      rw [readAddress_of_not_isText hbad]
      rfl
  case range =>
    obtain ⟨before, after, hcut, hbefore⟩ := List.eq_append_cons_of_mem hdash
    refine ⟨before, after, hcut, hbefore, ?_⟩
    rw [parse, read_of_dash hslash hcut hbefore]
    refine ⟨readRange_of_not_isText_left, fun a ha => ⟨readRange_of_not_isText_right ha, ?_⟩⟩
    intro b hb
    rw [readRange_of_isText ha hb, ← Address.V4.ofList_write, ← Address.V4.ofList_write]
    exact ⟨between_of_le, between_of_lt⟩

theorem parse_v4_of_short_addresses :
    '/' ∉ " 010.1 -10.2".toList ∧
      ∃ i, parse .v4 " 010.1 -10.2" = .ok i ∧ i.first = 0x0A010000 ∧ i.last = 0x0A020000 := by
  have hslash : '/' ∉ " 010.1 -10.2".toList := by decide
  have hdash : '-' ∈ trim " 010.1 -10.2".toList := by decide +kernel
  have ha : Address.IsText .v4 (trim "010.1 ".toList) ⟨0x0A010000, by decide⟩ :=
    Address.read?_eq_some_iff.mp (by decide +kernel)
  have hb : Address.IsText .v4 (trim "10.2".toList) ⟨0x0A020000, by decide⟩ :=
    Address.read?_eq_some_iff.mp (by decide +kernel)
  obtain ⟨-, hrange, -⟩ := parse_v4_without_slash " 010.1 -10.2" hslash
  obtain ⟨before, after, hcut, hbefore, -, hparts⟩ := hrange hdash
  obtain ⟨rfl, rfl⟩ : "010.1 ".toList = before ∧ "10.2".toList = after :=
    parts_eq_of_cut (by decide +kernel) hcut hbefore
  exact ⟨hslash, ((hparts _ ha).2 _ hb).1 (by decide)⟩

/-- A text with a slash is a prefix where an address is before the first slash and a length up to
the width of the family after it. A length is a decimal numeral, which a plus sign may precede. -/
theorem parse_with_slash (f : Family) (s : String) (h : '/' ∈ s.toList) :
    ∃ before after, trim s.toList = before ++ '/' :: after ∧ '/' ∉ before ∧
      ((∃ i, parse f s = .ok i) ↔
        (∃ a, Address.IsText f (trim before) a) ∧ ∃ n, IsLength (trim after) n ∧ n ≤ f.bits) ∧
      ((∀ a, ¬ Address.IsText f (trim before) a) →
        parse f s = .error (.badAddress (String.ofList (trim before)))) ∧
      (∀ a, Address.IsText f (trim before) a →
        (∀ n, IsLength (trim after) n → n ≤ f.bits → parse f s = ofPrefix a n) ∧
        (∀ n, IsLength (trim after) n → f.bits < n → n ≤ 255 →
          parse f s = .error (.badLength (toString n))) ∧
        ((∀ n, IsLength (trim after) n → 255 < n) →
          parse f s = .error (.badLength (String.ofList (trim after))))) ∧
      ((trim after).head? ≠ some '+' →
        ∀ n, IsLength (trim after) n ↔ Numeral.IsDecimal (trim after) n) := by
  have hslash : '/' ∈ trim s.toList := (mem_trim_iff (by decide)).mpr h
  obtain ⟨before, after, hcut, hbefore⟩ := List.eq_append_cons_of_mem hslash
  have hbits : f.bits ≤ 255 := by cases f <;> decide
  refine ⟨before, after, hcut, hbefore, ?_⟩
  rw [parse, read_of_slash hcut hbefore]
  refine ⟨⟨?accepted, ?accepts⟩, readPrefix_of_not_isText, fun a ha => ⟨?ok, ?wide, ?bad⟩,
    fun hplus n => isLength_iff_of_head? hplus⟩
  case accepted =>
    rintro ⟨i, hi⟩
    obtain ⟨a, n, ha, hn, hi⟩ := readPrefix_eq_ok_iff.mp hi
    exact ⟨⟨a, Address.read?_eq_some_iff.mp ha⟩, n, (readLength?_eq_some_iff.mp hn).1,
      (ofPrefix?_eq_some_iff.mp hi).1⟩
  case accepts =>
    rintro ⟨⟨a, ha⟩, n, hlength, hn⟩
    obtain ⟨i, hi⟩ := exists_ofPrefix? a hn
    rw [readPrefix_of_isLength ha hlength (by omega)]
    exact ⟨i, ofPrefix_eq_ok_iff.mpr hi⟩
  case ok =>
    intro n hlength hn
    exact readPrefix_of_isLength ha hlength (by omega)
  case wide =>
    intro n hlength hwide hn
    rw [readPrefix_of_isLength ha hlength hn, ofPrefix_of_lt hwide]
  case bad => exact readPrefix_of_not_isLength ha

theorem parse_of_plus_length :
    '/' ∈ "10/+8".toList ∧ (∀ n, ¬ Numeral.IsDecimal "+8".toList n) ∧
      parse .v4 "10/+8" = .ok ⟨0x0A000000, 0x0AFFFFFF, by decide, by decide⟩ := by
  have hslash : '/' ∈ "10/+8".toList := by decide
  have ha : Address.IsText .v4 (trim "10".toList) ⟨0x0A000000, by decide⟩ :=
    Address.read?_eq_some_iff.mp (by decide +kernel)
  have hlength : IsLength (trim "+8".toList) 8 :=
    (readLength?_eq_some_iff.mp (by decide +kernel)).1
  obtain ⟨before, after, hcut, hbefore, -, -, hparts, -⟩ := parse_with_slash .v4 "10/+8" hslash
  obtain ⟨rfl, rfl⟩ : "10".toList = before ∧ "+8".toList = after :=
    parts_eq_of_cut (by decide +kernel) hcut hbefore
  refine ⟨hslash, fun n hn => absurd (hn.digits '+' (by decide)) (by decide), ?_⟩
  rw [(hparts _ ha).1 8 hlength (by decide)]
  decide +kernel

end Interval

end Netblock
