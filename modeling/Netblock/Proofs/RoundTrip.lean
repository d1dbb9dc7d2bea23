import Netblock.Interval.Format
import Netblock.Proofs.BlockText

/-! # Texts that are read back

An interval is read back from its text, from its range and from text formats, alone and as a
block. An IPv6 address has one canonical text: the leftmost longest run of zero groups is
written as `::`, and the last two groups of a mapped IPv4 address as a quad.
-/

namespace Netblock

namespace Address.V6

/-- A longest run of zeros among groups, and of these the leftmost. -/
structure LongestZeros (gs before : List Nat) (n : Nat) (after : List Nat) : Prop where
  eq : gs = before ++ List.replicate n 0 ++ after
  longest : ∀ {before' after' : List Nat} {m : Nat},
    gs = before' ++ List.replicate m 0 ++ after' → m ≤ n
  leftmost : ∀ {before' after' : List Nat},
    gs = before' ++ List.replicate n 0 ++ after' → before.length ≤ before'.length

def Mapped (gs : List Nat) : Prop := ∃ high low, gs = [0, 0, 0, 0, 0, 0xffff, high, low]

/-- The canonical text of groups: of the three forms, the one that the groups call for. -/
inductive Canonical (gs : List Nat) : List Char → Prop where
  | mapped {high low : Nat} (eq : gs = [0, 0, 0, 0, 0, 0xffff, high, low]) :
      Canonical gs ("::ffff:".toList ++
        V4.writeOctets [high / 256, high % 256, low / 256, low % 256])
  | compressed {before after : List Nat} {n : Nat} (not_mapped : ¬ Mapped gs)
      (run : LongestZeros gs before n after) (two_le : 2 ≤ n) :
      Canonical gs (writeGroups before ++ "::".toList ++ writeGroups after)
  | plain (not_mapped : ¬ Mapped gs) (isolated : ∀ before after, gs ≠ before ++ [0, 0] ++ after) :
      Canonical gs (writeGroups gs)

variable {gs before after before' after' : List Nat} {n m : Nat} {cs ds : List Char}

theorem LongestZeros.unique (h : LongestZeros gs before n after)
    (h' : LongestZeros gs before' m after') : before = before' ∧ n = m ∧ after = after' := by
  obtain rfl : n = m := Nat.le_antisymm (h'.longest h.eq) (h.longest h'.eq)
  have hlen : before.length = before'.length :=
    Nat.le_antisymm (h.leftmost h'.eq) (h'.leftmost h.eq)
  obtain ⟨hleft, rfl⟩ := List.append_inj (h.eq.symm.trans h'.eq) (by simp [hlen])
  exact ⟨(List.append_inj hleft hlen).1, rfl, rfl⟩

theorem LongestZeros.two_le_of_neighbours (h : LongestZeros gs before n after)
    (h' : gs = before' ++ [0, 0] ++ after') : 2 ≤ n := h.longest h'

theorem LongestZeros.exists_neighbours (h : LongestZeros gs before n after) (hn : 2 ≤ n) :
    ∃ before' after', gs = before' ++ [0, 0] ++ after' := by
  obtain ⟨m, rfl⟩ := Nat.exists_eq_add_of_le hn
  refine ⟨before, List.replicate m 0 ++ after, ?_⟩
  rw [h.eq, List.replicate_add]
  simp

theorem Canonical.unique (h : Canonical gs cs) (h' : Canonical gs ds) : cs = ds := by
  cases h with
  | mapped eq =>
    cases h' with
    | mapped eq' =>
      rw [eq] at eq'
      simp_all
    | compressed not_mapped => exact absurd ⟨_, _, eq⟩ not_mapped
    | plain not_mapped => exact absurd ⟨_, _, eq⟩ not_mapped
  | compressed not_mapped run two_le =>
    cases h' with
    | mapped eq => exact absurd ⟨_, _, eq⟩ not_mapped
    | compressed _ run' =>
      obtain ⟨rfl, -, rfl⟩ := run.unique run'
      rfl
    | plain _ isolated =>
      obtain ⟨b, a, hgs⟩ := run.exists_neighbours two_le
      exact absurd hgs (isolated b a)
  | plain not_mapped isolated =>
    cases h' with
    | mapped eq => exact absurd ⟨_, _, eq⟩ not_mapped
    | compressed _ run two_le =>
      obtain ⟨b, a, hgs⟩ := run.exists_neighbours two_le
      exact absurd hgs (isolated b a)
    | plain => rfl

/-- No run of zeros is longer than that of `zeroRun`, and none as long starts before it. -/
theorem le_zeroRun (h : gs = before ++ List.replicate n 0 ++ after) :
    n ≤ (zeroRun gs).2 ∧ (n = (zeroRun gs).2 → (zeroRun gs).1 ≤ before.length) := by
  induction gs generalizing before with
  | nil =>
    obtain ⟨-, rfl⟩ : before = [] ∧ n = 0 := by simpa using (List.append_eq_nil_iff.mp h.symm).1
    exact ⟨Nat.zero_le _, fun _ => Nat.zero_le _⟩
  | cons g gs ih =>
    cases before with
    | nil =>
      have hhere : n ≤ ((g :: gs).takeWhile (· == 0)).length := by
        rw [h, List.nil_append, List.takeWhile_append_of_pos (by simp)]
        simp
      rw [zeroRun]
      split
      · exact ⟨hhere, fun _ => Nat.zero_le _⟩
      · dsimp only
        omega
    | cons b before =>
      obtain ⟨rfl, hgs⟩ := List.cons.inj h
      obtain ⟨hle, hstart⟩ := ih hgs
      rw [zeroRun]
      split
      · next hlater => exact ⟨Nat.le_trans hle hlater, fun _ => Nat.zero_le _⟩
      · exact ⟨hle, fun hn => Nat.succ_le_succ (hstart hn)⟩

theorem longestZeros_zeroRun (gs : List Nat) :
    LongestZeros gs (gs.take (zeroRun gs).1) (zeroRun gs).2
      (gs.drop ((zeroRun gs).1 + (zeroRun gs).2)) where
  eq := (take_append_zeros_append_drop gs).symm
  longest h := (le_zeroRun h).1
  leftmost h := by
    rw [List.length_take]
    exact Nat.le_trans (Nat.min_le_left ..) ((le_zeroRun h).2 rfl)

theorem octets_eq {high low : Nat} (hh : high < Family.v6.base) (hl : low < Family.v6.base) :
    octets high low = [high / 256, high % 256, low / 256, low % 256] := by
  have hdiv : ∀ g, g < Family.v6.base → splitDigits Family.v4.base 2 g = [g / 256, g % 256] := by
    intro g hg
    have hg : g < 65536 := hg
    change [g / 256 % 256, g % 256] = _
    rw [Nat.mod_eq_of_lt (by omega : g / 256 < 256)]
  rw [octets, hdiv high hh, hdiv low hl]
  rfl

theorem not_mapped_of_embedded? (h : embedded? gs = none) : ¬ Mapped gs := by
  rintro ⟨high, low, rfl⟩
  cases h

theorem canonical_write (a : Address .v6) : Canonical a.digits (write a) := by
  have hlt : ∀ g ∈ a.digits, g < Family.v6.base := fun _ => lt_of_mem_digits
  rw [write]
  cases he : embedded? a.digits with
  | some os =>
    obtain ⟨high, low, hgs, rfl⟩ := eq_of_embedded? he
    simp only
    rw [octets_eq (hlt high (by simp [hgs])) (hlt low (by simp [hgs]))]
    exact .mapped hgs
  | none =>
    have hrun := longestZeros_zeroRun a.digits
    simp only
    split
    · next htwo => exact .compressed (not_mapped_of_embedded? he) hrun htwo
    · next htwo =>
      refine .plain (not_mapped_of_embedded? he) fun before after hgs => ?_
      exact htwo (hrun.two_le_of_neighbours hgs)

/-- What is written for an address is its one canonical text. -/
theorem canonical_iff (a : Address .v6) (cs : List Char) :
    Canonical a.digits cs ↔ cs = a.write := by
  constructor
  · exact fun h => h.unique (canonical_write a)
  · rintro rfl
    exact canonical_write a

/-- Of two runs of one length, the first is left out. -/
example : write ⟨0x0001_0000_0000_0001_0000_0000_0001_0001, by decide⟩ =
    "1::1:0:0:1:1".toList := by decide

end Address.V6

namespace Interval

variable {f : Family} (i : Interval f)

theorem parse_written {s : String} (h : i.Written s.toList) : parse f s = .ok i := read_written h

theorem written_text : i.Written i.text.toList := by
  rw [text, String.toList_ofList]
  exact i.written_write

theorem written_rangeText : i.Written i.rangeText.toList := by
  rw [rangeText, String.toList_ofList]
  exact .dash

theorem unescaped_text : Unescaped i.text := by
  intro c hc
  have hall : (Family.v6.alphabet ++ "/- ".toList).all fun c =>
      0x20 ≤ c.toNat ∧ c.toNat ≠ 0x22 ∧ c.toNat ≠ 0x5C := by decide
  exact of_decide_eq_true (List.all_eq_true.mp hall c (i.written_text.mem_alphabet hc))

theorem restore_store {J E : Type} {t : TextFormat J E} (ht : t.ReadsBack) :
    restore t f (i.store t) = .ok i := by
  rw [restore, TextFormat.restore, store, ht _ i.unescaped_text]
  exact congrArg (Except.mapError _) (i.parse_written i.written_text)

end Interval

namespace Block

variable (b : Block)

theorem parse_written {s : String} (h : b.interval.Written s.toList) : parse s = .ok b :=
  read_written h

theorem restore_store {J E : Type} {t : TextFormat J E} (ht : t.ReadsBack) :
    restore t (b.store t) = .ok b := by
  rw [restore, TextFormat.restore, store, text, ht _ b.interval.unescaped_text]
  exact congrArg (Except.mapError _) (b.parse_written b.interval.written_text)

end Block

/-- Strings as JSON texts, where nothing in them is to be escaped. -/
def quoting : TextFormat String String where
  encode s := "\x22" ++ s ++ "\x22"
  decode j := match j.toList with
    | '\x22' :: cs =>
      if cs.getLast? = some '\x22' then .ok (String.ofList cs.dropLast)
      else .error "the string does not end"
    | _ => .error "expected a string"
  custom message := message

theorem readsBack_quoting : quoting.ReadsBack := by
  intro s _
  have htext : (quoting.encode s).toList = '\x22' :: (s.toList ++ ['\x22']) := by
    simp [quoting]
  simp only [quoting] at htext ⊢
  simp [htext]

/-- An IPv6 interval is read back from its texts, in which addresses are canonical and nothing is
to be escaped, and from every format that reads back such texts. -/
theorem v6_texts_read_back (i : Interval .v6) :
    Interval.parse .v6 i.text = .ok i ∧ Interval.parse .v6 i.rangeText = .ok i ∧
      Block.parse i.text = .ok ⟨.v6, i⟩ ∧ Block.parse i.rangeText = .ok ⟨.v6, i⟩ ∧
      (∀ {J E : Type} (t : TextFormat J E), t.ReadsBack →
        Interval.restore t .v6 (i.store t) = .ok i ∧
          Block.restore t (Block.store t ⟨.v6, i⟩) = .ok ⟨.v6, i⟩) ∧
      Unescaped i.text ∧ i.Written i.text.toList ∧
      (∀ cs, Address.V6.Canonical i.firstAddress.digits cs ↔ cs = i.firstAddress.write) ∧
      ∀ cs, Address.V6.Canonical i.lastAddress.digits cs ↔ cs = i.lastAddress.write := by
  have htext := i.written_text
  have hrange := i.written_rangeText
  refine ⟨i.parse_written htext, i.parse_written hrange, ?_, ?_, ?_,
    i.unescaped_text, htext, Address.V6.canonical_iff _, Address.V6.canonical_iff _⟩
  · exact Block.parse_written ⟨.v6, i⟩ htext
  · exact Block.parse_written ⟨.v6, i⟩ hrange
  · exact fun t ht => ⟨i.restore_store ht, Block.restore_store ⟨.v6, i⟩ ht⟩

theorem v6_texts_read_back_from_quotes :
    let i : Interval .v6 := ⟨1, 3, by decide, by decide⟩
    quoting.ReadsBack ∧ i.store quoting = "\x22::1 - ::3\x22" ∧
      Interval.restore quoting .v6 "\x22::1 - ::3\x22" = .ok i ∧
      Block.restore quoting "\x22::1 - ::3\x22" = .ok ⟨.v6, i⟩ := by
  intro i
  have hstore : i.store quoting = "\x22::1 - ::3\x22" := by decide +kernel
  obtain ⟨-, -, -, -, hformat, -⟩ := v6_texts_read_back i
  exact ⟨readsBack_quoting, hstore, hstore ▸ hformat quoting readsBack_quoting⟩

/-- An IPv4 interval is read back from its texts, in which nothing is to be escaped, and from every
format that reads back such texts. -/
theorem v4_texts_read_back (i : Interval .v4) :
    Interval.parse .v4 i.text = .ok i ∧ Interval.parse .v4 i.rangeText = .ok i ∧
      Block.parse i.text = .ok ⟨.v4, i⟩ ∧ Block.parse i.rangeText = .ok ⟨.v4, i⟩ ∧
      (∀ {J E : Type} (t : TextFormat J E), t.ReadsBack →
        Interval.restore t .v4 (i.store t) = .ok i ∧
          Block.restore t (Block.store t ⟨.v4, i⟩) = .ok ⟨.v4, i⟩) ∧
      Unescaped i.text ∧ i.Written i.text.toList := by
  have htext := i.written_text
  have hrange := i.written_rangeText
  refine ⟨i.parse_written htext, i.parse_written hrange, ?_, ?_, ?_, i.unescaped_text, htext⟩
  · exact Block.parse_written ⟨.v4, i⟩ htext
  · exact Block.parse_written ⟨.v4, i⟩ hrange
  · exact fun t ht => ⟨i.restore_store ht, Block.restore_store ⟨.v4, i⟩ ht⟩

theorem v4_texts_read_back_from_quotes :
    let i : Interval .v4 := ⟨0x0A000000, 0x0AFFFFFF, by decide, by decide⟩
    quoting.ReadsBack ∧ i.store quoting = "\x2210.0.0.0/8\x22" ∧
      Interval.restore quoting .v4 "\x2210.0.0.0/8\x22" = .ok i ∧
      Block.restore quoting "\x2210.0.0.0/8\x22" = .ok ⟨.v4, i⟩ := by
  intro i
  have hstore : i.store quoting = "\x2210.0.0.0/8\x22" := by decide +kernel
  obtain ⟨-, -, -, -, hformat, -⟩ := v4_texts_read_back i
  exact ⟨readsBack_quoting, hstore, hstore ▸ hformat quoting readsBack_quoting⟩

end Netblock
