import Netblock.Block
import Netblock.Proofs.AddressGrammar

/-! # Spellings of a block

All that is read as an interval is the text of an address, two such texts with a dash between
them, or one with a slash and a length after it. Blanks may stand around it and on both sides of
the separator, and nowhere else.
-/

namespace Netblock

attribute [local instance (high)] instPowNat

open Text

namespace Address

def IsLegible (c : Char) : Prop :=
  ('0' ≤ c ∧ c ≤ '9') ∨ ('a' ≤ c ∧ c ≤ 'f') ∨ ('A' ≤ c ∧ c ≤ 'F') ∨ c = '.' ∨ c = ':'

instance : DecidablePred IsLegible := fun c => by unfold IsLegible; infer_instance

theorem IsLegible.isBlank_eq_false {c : Char} (h : IsLegible c) : isBlank c = false := by
  have hrange : 46 ≤ c.toNat ∧ c.toNat ≤ 102 := by
    simp only [IsLegible, Char.le_def, UInt32.le_iff_toNat_le] at h
    obtain h | h | h | rfl | rfl := h
    · exact ⟨Nat.le_trans (by decide) h.1, Nat.le_trans h.2 (by decide)⟩
    · exact ⟨Nat.le_trans (by decide) h.1, Nat.le_trans h.2 (by decide)⟩
    · exact ⟨Nat.le_trans (by decide) h.1, Nat.le_trans h.2 (by decide)⟩
    · decide
    · decide
  simp [isBlank]
  omega

end Address

open Address

namespace Numeral

variable {cs : List Char} {n : Nat}

theorem IsDecimal.isLegible (h : IsDecimal cs n) : ∀ c ∈ cs, IsLegible c :=
  fun c hc => .inl (h.digits c hc)

theorem IsHexadecimal.isLegible (h : IsHexadecimal cs n) : ∀ c ∈ cs, IsLegible c := by
  intro c hc
  obtain hd | hd | hd := h.digits c hc
  · exact .inl hd
  · exact .inr (.inl hd)
  · exact .inr (.inr (.inl hd))

end Numeral

namespace Address

theorem V4.IsText.isLegible {cs : List Char} {a : Address .v4} (h : V4.IsText cs a) :
    ∀ c ∈ cs, IsLegible c := by
  obtain ⟨parts, octets, rfl, -, -, hparts, -⟩ := h
  exact forall_mem_intercalate (by decide)
    (forall_mem_left_of_forall₂ hparts fun _ _ ho => ho.1.isLegible)

namespace V6

variable {cs : List Char} {parts : List (List Char)} {gs : List Nat}

theorem IsQuad.isLegible (h : IsQuad cs gs) : ∀ c ∈ cs, IsLegible c := by
  obtain @⟨octets, p, q, r, s, rfl, hoctets⟩ := h
  exact forall_mem_intercalate (by decide)
    (forall_mem_left_of_forall₂ hoctets fun _ _ ho => ho.2.1.isLegible)

theorem IsTail.isLegible (h : IsTail parts gs) : ∀ p ∈ parts, ∀ c ∈ p, IsLegible c := by
  induction h with
  | nil => nofun
  | quad hq => exact List.forall_mem_singleton.mpr hq.isLegible
  | cons hg _ ih => exact List.forall_mem_cons.mpr ⟨hg.2.isLegible, ih⟩

theorem IsGroups.isLegible (h : IsGroups cs gs) : ∀ c ∈ cs, IsLegible c := by
  have hcolon : IsLegible ':' := by decide
  cases h with
  | full tail => exact forall_mem_intercalate hcolon tail.isLegible
  | gap groups tail =>
    rw [List.forall_mem_append, List.forall_mem_append]
    refine ⟨⟨forall_mem_intercalate hcolon ?_, ?_⟩, forall_mem_intercalate hcolon tail.isLegible⟩
    · exact forall_mem_left_of_forall₂ groups fun _ _ hg => hg.2.isLegible
    · exact List.forall_mem_cons.mpr ⟨hcolon, List.forall_mem_singleton.mpr hcolon⟩

end V6

variable {f : Family} {cs : List Char} {a : Address f}

theorem isLegible_of_read? (h : read? f cs = some a) : ∀ c ∈ cs, IsLegible c := by
  have htext := read?_eq_some_iff.mp h
  cases f with
  | v4 => exact V4.IsText.isLegible htext
  | v6 =>
    obtain ⟨gs, hgs, -⟩ := htext
    exact hgs.isLegible

theorem ne_nil_of_read? (h : read? f cs = some a) : cs ≠ [] := by
  rintro rfl
  cases f <;> cases h

end Address

namespace Text

variable {cs before after : List Char} {c sep : Char}

theorem mem_trim_iff (h : isBlank c = false) : c ∈ trim cs ↔ c ∈ cs := by
  obtain ⟨bs, bs', hcs, hb, hb'⟩ := exists_blanks_around cs
  have hblank : ∀ ds : List Char, (∀ d ∈ ds, isBlank d = true) → c ∉ ds := fun ds hds hc => by
    rw [hds c hc] at h
    cases h
  conv_rhs => rw [hcs]
  simp [hblank bs hb, hblank bs' hb']

theorem exists_blanks_beside (ht : Trimmed cs) (h : cs = before ++ sep :: after) :
    ∃ bs bs', cs = trim before ++ bs ++ sep :: bs' ++ trim after ∧
      (∀ c ∈ bs, isBlank c = true) ∧ ∀ c ∈ bs', isBlank c = true := by
  subst h
  obtain ⟨start, bs, hbefore, hstart, hbs⟩ := exists_blanks_around before
  obtain ⟨bs', stop, hafter, hbs', hstop⟩ := exists_blanks_around after
  have hstart_nil : start = [] := by
    cases start with
    | nil => rfl
    | cons c start =>
      have hc := ht.1 c (by rw [hbefore]; rfl)
      rw [hstart c List.mem_cons_self] at hc
      cases hc
  have hstop_nil : stop = [] := by
    rcases List.eq_nil_or_concat stop with rfl | ⟨stop, c, rfl⟩
    · rfl
    · have hc := ht.2 c (by rw [hafter]; simp [List.getLast?_append, List.getLast?_cons])
      rw [hstop c (by simp)] at hc
      cases hc
  refine ⟨bs, bs', ?_, hbs, hbs'⟩
  conv_lhs => rw [hbefore, hafter, hstart_nil, hstop_nil]
  simp

end Text

namespace Interval

variable {f : Family} {i : Interval f} {cs : List Char} {a b : Address f} {n : Nat}

/-- The ways in which an interval is spelled. -/
inductive Spelled : Interval f → List Char → Prop where
  | address {x : List Char} {a : Address f} (read : Address.read? f x = some a) :
      Spelled (ofAddress a) x
  | slash {x bs bs' y : List Char} {a : Address f} {n : Nat} {i : Interval f}
      (read : Address.read? f x = some a) (blank : ∀ c ∈ bs, isBlank c = true)
      (blank' : ∀ c ∈ bs', isBlank c = true) (length : readLength? y = some n)
      (eq : ofPrefix? a n = some i) : Spelled i (x ++ bs ++ '/' :: bs' ++ y)
  | dash {x bs bs' y : List Char} {a b : Address f} {i : Interval f}
      (first : Address.read? f x = some a) (blank : ∀ c ∈ bs, isBlank c = true)
      (blank' : ∀ c ∈ bs', isBlank c = true) (last : Address.read? f y = some b)
      (eq : between? a b = some i) : Spelled i (x ++ bs ++ '-' :: bs' ++ y)

theorem readAddress_eq_ok_iff : readAddress f cs = .ok a ↔ Address.read? f cs = some a := by
  rw [readAddress]
  cases Address.read? f cs <;> simp

theorem ofPrefix_eq_ok_iff : ofPrefix a n = .ok i ↔ ofPrefix? a n = some i := by
  rw [ofPrefix]
  cases ofPrefix? a n <;> simp

theorem between_eq_ok_iff : between a b = .ok i ↔ between? a b = some i := by
  rw [between]
  cases between? a b <;> simp

theorem readPrefix_eq_ok_iff {x y : List Char} : readPrefix f x y = .ok i ↔
    ∃ a n, Address.read? f x = some a ∧ readLength? y = some n ∧ ofPrefix? a n = some i := by
  simp only [readPrefix, ← readAddress_eq_ok_iff, ← ofPrefix_eq_ok_iff]
  cases readAddress f x with
  | error e => simp [bind, Except.bind]
  | ok a =>
    cases hn : readLength? y <;> simp [bind, Except.bind]

theorem readRange_eq_ok_iff {x y : List Char} : readRange f x y = .ok i ↔
    ∃ a b, Address.read? f x = some a ∧ Address.read? f y = some b ∧ between? a b = some i := by
  simp only [readRange, ← readAddress_eq_ok_iff, ← between_eq_ok_iff]
  cases readAddress f x with
  | error e => simp [bind, Except.bind]
  | ok a => cases readAddress f y <;> simp [bind, Except.bind]

theorem read_of_slash {before after : List Char} (h : trim cs = before ++ '/' :: after)
    (hbefore : '/' ∉ before) : read f cs = readPrefix f (trim before) (trim after) := by
  simp only [read, h, cut_append hbefore]

theorem read_of_dash {before after : List Char} (hslash : '/' ∉ trim cs)
    (h : trim cs = before ++ '-' :: after) (hbefore : '-' ∉ before) :
    read f cs = readRange f (trim before) (trim after) := by
  rw [h] at hslash
  simp only [read, h, cut_eq_none_iff.mpr hslash, cut_append hbefore]

theorem read_of_word (hslash : '/' ∉ trim cs) (hdash : '-' ∉ trim cs) :
    read f cs = (readAddress f (trim cs)).map ofAddress := by
  simp only [read, cut_eq_none_iff.mpr hslash, cut_eq_none_iff.mpr hdash]

theorem spelled_of_read (h : read f cs = .ok i) : i.Spelled (trim cs) := by
  have ht := trimmed_trim cs
  by_cases hslash : '/' ∈ trim cs
  · obtain ⟨before, after, hcs, hbefore⟩ := List.eq_append_cons_of_mem hslash
    rw [read_of_slash hcs hbefore, readPrefix_eq_ok_iff] at h
    obtain ⟨a, n, ha, hn, hi⟩ := h
    obtain ⟨bs, bs', hds, hb, hb'⟩ := exists_blanks_beside ht hcs
    rw [hds]
    exact .slash ha hb hb' hn hi
  · by_cases hdash : '-' ∈ trim cs
    · obtain ⟨before, after, hcs, hbefore⟩ := List.eq_append_cons_of_mem hdash
      rw [read_of_dash hslash hcs hbefore, readRange_eq_ok_iff] at h
      obtain ⟨a, b, ha, hb, hi⟩ := h
      obtain ⟨bs, bs', hds, hbs, hbs'⟩ := exists_blanks_beside ht hcs
      rw [hds]
      exact .dash ha hbs hbs' hb hi
    · rw [read_of_word hslash hdash] at h
      cases ha : readAddress f (trim cs) with
      | error e =>
        rw [ha] at h
        cases h
      | ok a =>
        rw [ha] at h
        cases h
        exact .address (readAddress_eq_ok_iff.mp ha)

def IsLength (cs : List Char) (n : Nat) : Prop :=
  ∃ digits, (cs = digits ∨ cs = '+' :: digits) ∧ Numeral.IsDecimal digits n

theorem isLength_plus_iff : IsLength ('+' :: cs) n ↔ Numeral.IsDecimal cs n := by
  constructor
  · rintro ⟨digits, rfl | h, hdigits⟩
    · exact absurd (hdigits.digits '+' List.mem_cons_self) (by decide)
    · rwa [List.tail_eq_of_cons_eq h]
  · intro h
    exact ⟨cs, .inr rfl, h⟩

theorem isLength_iff_of_head? (h : cs.head? ≠ some '+') :
    IsLength cs n ↔ Numeral.IsDecimal cs n := by
  constructor
  · rintro ⟨digits, rfl | rfl, hdigits⟩
    · exact hdigits
    · exact absurd rfl h
  · intro hcs
    exact ⟨cs, .inl rfl, hcs⟩

theorem readLength?_eq_some_iff : readLength? cs = some n ↔ IsLength cs n ∧ n ≤ 255 := by
  have hread (digits : List Char) : (Numeral.read? 10 digits).filter (· ≤ lengthLimit) = some n ↔
      Numeral.IsDecimal digits n ∧ n ≤ 255 := by
    rw [Option.filter_eq_some_iff, decide_eq_true_iff, Numeral.read?_ten_eq_some_iff, lengthLimit]
  dsimp only [readLength?]
  split
  · rw [hread, isLength_plus_iff]
  · next hplus =>
    rw [hread, isLength_iff_of_head?]
    intro h
    obtain ⟨rest, rfl⟩ := List.head?_eq_some_iff.mp h
    exact hplus rest rfl

theorem isLegible_of_readLength? {y : List Char} (h : readLength? y = some n) {c : Char}
    (hc : c ∈ y) : c = '+' ∨ Address.IsLegible c := by
  obtain ⟨⟨digits, rfl | rfl, hdigits⟩, -⟩ := readLength?_eq_some_iff.mp h
  · exact .inr (hdigits.isLegible c hc)
  · exact (List.mem_cons.mp hc).imp_right (hdigits.isLegible c)

theorem isBlank_of_readLength? {y : List Char} (h : readLength? y = some n) {c : Char}
    (hc : c ∈ y) : isBlank c = false := by
  obtain rfl | hc := isLegible_of_readLength? h hc
  · decide
  · exact hc.isBlank_eq_false

theorem ne_nil_of_readLength? {y : List Char} (h : readLength? y = some n) : y ≠ [] := by
  rintro rfl
  cases h

theorem trim_append_blanks {x bs : List Char} (hx : ∀ c ∈ x, isBlank c = false)
    (hb : ∀ c ∈ bs, isBlank c = true) : trim (x ++ bs) = x ∧ trim (bs ++ x) = x := by
  have ht := trimmed_of_forall hx
  exact ⟨trim_append_append ht [] bs nofun hb, by simpa using trim_append_append ht bs [] hb nofun⟩

theorem notMem_append_blanks {x bs : List Char} {c : Char} (hx : ∀ c ∈ x, Address.IsLegible c)
    (hb : ∀ c ∈ bs, isBlank c = true) (hc : ¬ Address.IsLegible c) (hc' : isBlank c = false) :
    c ∉ x ++ bs := by
  rw [List.mem_append]
  rintro (h | h)
  · exact hc (hx c h)
  · rw [hb c h] at hc'
    cases hc'

theorem slash_notMem_range {x bs bs' y : List Char} (hx : ∀ c ∈ x, Address.IsLegible c)
    (hy : ∀ c ∈ y, Address.IsLegible c) (hb : ∀ c ∈ bs, isBlank c = true)
    (hb' : ∀ c ∈ bs', isBlank c = true) : '/' ∉ x ++ bs ++ '-' :: bs' ++ y := by
  have hbefore := notMem_append_blanks hx hb (by decide : ¬ Address.IsLegible '/') (by decide)
  have hafter := notMem_append_blanks hy hb' (by decide : ¬ Address.IsLegible '/') (by decide)
  simp only [List.mem_append, List.mem_cons, not_or] at hbefore hafter ⊢
  exact ⟨⟨hbefore, by decide, hafter.2⟩, hafter.1⟩

/-- A text is read as an interval just where it spells it. -/
theorem read_eq_ok_iff : read f cs = .ok i ↔ i.Spelled (trim cs) := by
  refine ⟨spelled_of_read, fun h => ?_⟩
  generalize hcs : trim cs = ds at h
  cases h with
  | address hread =>
    have hx := Address.isLegible_of_read? hread
    have hslash : '/' ∉ trim cs := fun hc => absurd (hx _ (hcs ▸ hc)) (by decide)
    have hdash : '-' ∉ trim cs := fun hc => absurd (hx _ (hcs ▸ hc)) (by decide)
    rw [read_of_word hslash hdash, hcs, readAddress_eq_ok_iff.mpr hread]
    rfl
  | @slash x bs bs' y a n _ hread hb hb' hlength heq =>
    have hx := Address.isLegible_of_read? hread
    have hslash := notMem_append_blanks hx hb (by decide : ¬ Address.IsLegible '/') (by decide)
    rw [List.append_assoc, List.cons_append] at hcs
    rw [read_of_slash hcs hslash,
      (trim_append_blanks (fun c hc => (hx c hc).isBlank_eq_false) hb).1,
      (trim_append_blanks (fun c => isBlank_of_readLength? hlength) hb').2]
    exact readPrefix_eq_ok_iff.mpr ⟨a, n, hread, hlength, heq⟩
  | @dash x bs bs' y a b _ hfirst hb hb' hlast heq =>
    have hx := Address.isLegible_of_read? hfirst
    have hy := Address.isLegible_of_read? hlast
    have hslash := slash_notMem_range hx hy hb hb'
    have hdash := notMem_append_blanks hx hb (by decide : ¬ Address.IsLegible '-') (by decide)
    rw [← hcs] at hslash
    rw [List.append_assoc, List.cons_append] at hcs
    rw [read_of_dash hslash hcs hdash,
      (trim_append_blanks (fun c hc => (hx c hc).isBlank_eq_false) hb).1,
      (trim_append_blanks (fun c hc => (hy c hc).isBlank_eq_false) hb').2]
    exact readRange_eq_ok_iff.mpr ⟨a, b, hfirst, hlast, heq⟩

end Interval

namespace Block

theorem spelled_of_read {b : Block} {cs : List Char} (h : read cs = .ok b) :
    b.interval.Spelled (trim cs) := by
  rw [read] at h
  cases hi : Interval.read (familyOf cs) cs with
  | error e =>
    rw [hi] at h
    cases h
  | ok i =>
    rw [hi] at h
    cases h
    exact Interval.spelled_of_read hi

theorem read_trim (cs : List Char) : read (trim cs) = read cs := by
  have hfamily : familyOf (trim cs) = familyOf cs := by
    simp only [familyOf, mem_trim_iff (by decide : isBlank ':' = false)]
  have hinterval : ∀ f, Interval.read f (trim cs) = Interval.read f cs := fun f => by
    rw [Interval.read, trim_of_trimmed (trimmed_trim cs), ← Interval.read]
  rw [read, hfamily, hinterval, ← read]

end Block

end Netblock
