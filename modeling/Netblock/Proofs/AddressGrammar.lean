import Mathlib.Data.List.Forall2
import Mathlib.Data.List.Induction
import Mathlib.Data.Nat.Digits.Defs
import Netblock.Proofs.AddressText

/-! # The grammar of addresses

Which texts are addresses, and of which value, told without a reader: by the parts between
separators, by what each part may be, and by the digits that the parts stand for.
-/

namespace Netblock

attribute [local instance (high)] instPowNat

open Text

theorem mapM_eq_some_iff_forall₂ {α β : Type} {read : α → Option β} {xs : List α} {ys : List β} :
    xs.mapM read = some ys ↔ List.Forall₂ (fun x y => read x = some y) xs ys := by
  induction xs generalizing ys with
  | nil => simp [eq_comm]
  | cons x xs ih =>
    rw [List.mapM_cons, List.forall₂_cons_left_iff]
    simp only [← ih, Option.bind_eq_bind, Option.bind_eq_some_iff, Option.pure_def, Option.some_inj]
    constructor
    · rintro ⟨y, hy, ys', hys, rfl⟩
      exact ⟨y, ys', hy, hys, rfl⟩
    · rintro ⟨y, ys', hy, hys, rfl⟩
      exact ⟨y, hy, ys', hys, rfl⟩

section Lists

variable {α β : Type} {R : α → β → Prop} {xs : List α} {ys : List β}

theorem forall_mem_left_of_forall₂ {P : α → Prop} (h : List.Forall₂ R xs ys)
    (hP : ∀ x y, R x y → P x) : ∀ x ∈ xs, P x := by
  induction h with
  | nil => nofun
  | cons hxy _ ih => exact List.forall_mem_cons.mpr ⟨hP _ _ hxy, ih⟩

theorem forall_mem_right_of_forall₂ {P : β → Prop} (h : List.Forall₂ R xs ys)
    (hP : ∀ x y, R x y → P y) : ∀ y ∈ ys, P y := by
  induction h with
  | nil => nofun
  | cons hxy _ ih => exact List.forall_mem_cons.mpr ⟨hP _ _ hxy, ih⟩

theorem forall₂_and_right {P : β → Prop} :
    List.Forall₂ (fun x y => R x y ∧ P y) xs ys ↔ List.Forall₂ R xs ys ∧ ∀ y ∈ ys, P y := by
  constructor
  · intro h
    exact ⟨h.imp fun _ _ => And.left, forall_mem_right_of_forall₂ h fun _ _ => And.right⟩
  · rintro ⟨h, hP⟩
    induction h with
    | nil => exact .nil
    | cons hxy _ ih =>
      obtain ⟨hy, hys⟩ := List.forall_mem_cons.mp hP
      exact .cons ⟨hxy, hy⟩ (ih hys)

end Lists

theorem joinDigits_eq_ofDigits (base : Nat) (ds : List Nat) :
    joinDigits base ds = Nat.ofDigits base ds.reverse := by
  induction ds using List.reverseRecOn with
  | nil => rfl
  | append_singleton ds d ih =>
    rw [joinDigits_append_singleton, ih, List.reverse_append, List.reverse_singleton,
      List.singleton_append, Nat.ofDigits_cons, Nat.mul_comm, Nat.add_comm]

namespace Numeral

def IsDecimalDigit (c : Char) : Prop := '0' ≤ c ∧ c ≤ '9'

instance : DecidablePred IsDecimalDigit := fun c => by unfold IsDecimalDigit; infer_instance

def IsHexadecimalDigit (c : Char) : Prop :=
  ('0' ≤ c ∧ c ≤ '9') ∨ ('a' ≤ c ∧ c ≤ 'f') ∨ ('A' ≤ c ∧ c ≤ 'F')

instance : DecidablePred IsHexadecimalDigit := fun c => by
  unfold IsHexadecimalDigit; infer_instance

def digitValue (c : Char) : Nat :=
  if c ≤ '9' then c.toNat - '0'.toNat
  else if c ≤ 'F' then c.toNat - 'A'.toNat + 10
  else c.toNat - 'a'.toNat + 10

/-- One or more digits, any number of leading zeros among them, and their value in a base. -/
structure IsRun (base : Nat) (IsDigit : Char → Prop) (cs : List Char) (n : Nat) : Prop where
  ne_nil : cs ≠ []
  digits : ∀ c ∈ cs, IsDigit c
  value_eq : n = Nat.ofDigits base (cs.map digitValue).reverse

abbrev IsDecimal : List Char → Nat → Prop := IsRun 10 IsDecimalDigit

abbrev IsHexadecimal : List Char → Nat → Prop := IsRun 16 IsHexadecimalDigit

variable {base n d : Nat} {IsDigit : Char → Prop} {c : Char} {cs : List Char}

theorem le_iff_toNat_le (c d : Char) : c ≤ d ↔ c.toNat ≤ d.toNat := Iff.rfl

theorem digit?_eq_some_iff :
    digit? base c = some d ↔ (IsHexadecimalDigit c ∧ d = digitValue c) ∧ d < base := by
  rw [digit?, Option.filter_eq_some_iff, decide_eq_true_iff]
  apply and_congr_left'
  simp only [IsHexadecimalDigit, digitValue, le_iff_toNat_le, Char.reduceToNat]
  split_ifs <;> simp only [Option.some_inj, false_iff] <;> omega

theorem digit?_ten_eq_some_iff : digit? 10 c = some d ↔ IsDecimalDigit c ∧ d = digitValue c := by
  rw [digit?_eq_some_iff]
  simp only [IsHexadecimalDigit, IsDecimalDigit, digitValue, le_iff_toNat_le, Char.reduceToNat]
  split_ifs <;> omega

theorem digit?_sixteen_eq_some_iff :
    digit? 16 c = some d ↔ IsHexadecimalDigit c ∧ d = digitValue c := by
  rw [digit?_eq_some_iff]
  simp only [IsHexadecimalDigit, digitValue, le_iff_toNat_le, Char.reduceToNat]
  split_ifs <;> omega

theorem read?_eq_some_iff (h : ∀ c d, digit? base c = some d ↔ IsDigit c ∧ d = digitValue c) :
    read? base cs = some n ↔ IsRun base IsDigit cs n := by
  have hdigits (ds : List Nat) : cs.mapM (digit? base) = some ds ↔
      (∀ c ∈ cs, IsDigit c) ∧ cs.map digitValue = ds := by
    simp only [mapM_eq_some_iff_forall₂, h, List.forall₂_and_left]
    rw [← List.forall₂_eq_eq_eq, List.forall₂_map_left_iff]
    simp only [eq_comm]
  rw [read?, Option.ite_none_left_eq_some, Option.map_eq_some_iff]
  constructor
  · rintro ⟨hne, ds, hds, rfl⟩
    obtain ⟨hall, rfl⟩ := (hdigits ds).mp hds
    exact ⟨hne, hall, joinDigits_eq_ofDigits base _⟩
  · rintro ⟨hne, hall, rfl⟩
    exact ⟨hne, _, (hdigits _).mpr ⟨hall, rfl⟩, joinDigits_eq_ofDigits base _⟩

theorem read?_ten_eq_some_iff : read? 10 cs = some n ↔ IsDecimal cs n :=
  read?_eq_some_iff fun _ _ => digit?_ten_eq_some_iff

theorem read?_sixteen_eq_some_iff : read? 16 cs = some n ↔ IsHexadecimal cs n :=
  read?_eq_some_iff fun _ _ => digit?_sixteen_eq_some_iff

theorem IsHexadecimal.lt (h : IsHexadecimal cs n) : n < 16 ^ cs.length := by
  have hdigits : ∀ d ∈ cs.map digitValue, d < 16 := by
    rintro d hd
    obtain ⟨c, hc, rfl⟩ := List.mem_map.mp hd
    exact (digit?_eq_some_iff.mp (digit?_sixteen_eq_some_iff.mpr ⟨h.digits c hc, rfl⟩)).2
  rw [h.value_eq, ← joinDigits_eq_ofDigits]
  simpa using joinDigits_lt hdigits

end Numeral

namespace Address

theorem ofDigits?_eq_some_iff {f : Family} {ds : List Nat} {a : Address f} :
    ofDigits? f ds = some a ↔
      ds.length = f.digitCount ∧ (∀ d ∈ ds, d < f.base) ∧ a.value = joinDigits f.base ds := by
  rw [ofDigits?]
  split
  · next h =>
    rw [Option.some_inj, Address.ext_iff]
    exact ⟨fun hvalue => ⟨h.1, h.2, hvalue.symm⟩, fun ha => ha.2.2.symm⟩
  · next h =>
    constructor
    · intro hnone
      cases hnone
    · rintro ⟨hlen, hlt, -⟩
      exact absurd ⟨hlen, hlt⟩ h

namespace V4

variable {cs : List Char} {a : Address .v4}

def IsOctet (cs : List Char) (n : Nat) : Prop := Numeral.IsDecimal cs n ∧ n ≤ 255

/-- One to four octets with dots between them. The first is the most significant, and those that are
left out at the end are zero. -/
def IsText (cs : List Char) (a : Address .v4) : Prop :=
  ∃ parts octets, cs = List.intercalate ['.'] parts ∧ parts ≠ [] ∧ parts.length ≤ 4 ∧
    List.Forall₂ IsOctet parts octets ∧
    a.value = octets.getD 0 0 * 2 ^ 24 + octets.getD 1 0 * 2 ^ 16 + octets.getD 2 0 * 2 ^ 8 +
      octets.getD 3 0

theorem ofDigits?_complete_eq_some_iff {octets : List Nat} :
    ofDigits? .v4 (complete octets) = some a ↔ octets.length ≤ 4 ∧ (∀ n ∈ octets, n ≤ 255) ∧
      a.value = octets.getD 0 0 * 2 ^ 24 + octets.getD 1 0 * 2 ^ 16 + octets.getD 2 0 * 2 ^ 8 +
        octets.getD 3 0 := by
  have hcount : Family.v4.digitCount = 4 := rfl
  have hbase : Family.v4.base = 256 := rfl
  rw [ofDigits?_eq_some_iff, hcount, hbase]
  rcases octets with _ | ⟨p, _ | ⟨q, _ | ⟨r, _ | ⟨s, _ | ⟨_, rest⟩⟩⟩⟩⟩ <;>
    simp [complete, hcount, joinDigits]
  all_goals omega

theorem forall₂_isOctet_iff {parts : List (List Char)} {octets : List Nat} :
    List.Forall₂ IsOctet parts octets ↔
      parts.mapM (Numeral.read? 10) = some octets ∧ ∀ n ∈ octets, n ≤ 255 := by
  simp only [mapM_eq_some_iff_forall₂, Numeral.read?_ten_eq_some_iff]
  exact forall₂_and_right

/-- A text is read as an address just where the grammar says it is one. -/
theorem read?_eq_some_iff : read? cs = some a ↔ IsText cs a := by
  rw [read?, Option.bind_eq_some_iff]
  constructor
  · rintro ⟨octets, hoctets, ha⟩
    obtain ⟨hlen, hle, hvalue⟩ := ofDigits?_complete_eq_some_iff.mp ha
    have hparts := forall₂_isOctet_iff.mpr ⟨hoctets, hle⟩
    refine ⟨pieces '.' cs, octets, ?_, pieces_ne_nil '.' cs, ?_, hparts, hvalue⟩
    · rw [pieces_eq_splitOn, List.intercalate_splitOn]
    · rw [hparts.length_eq]
      exact hlen
  · rintro ⟨parts, octets, rfl, hne, hlen, hparts, hvalue⟩
    obtain ⟨hoctets, hle⟩ := forall₂_isOctet_iff.mp hparts
    have hdot : ∀ p ∈ parts, '.' ∉ p := forall_mem_left_of_forall₂ hparts fun _ _ ho hc =>
      absurd (ho.1.digits '.' hc) (by decide)
    rw [pieces_eq_splitOn, List.splitOn_intercalate '.' hdot hne]
    rw [hparts.length_eq] at hlen
    exact ⟨octets, hoctets, ofDigits?_complete_eq_some_iff.mpr ⟨hlen, hle, hvalue⟩⟩

end V4

namespace V6

variable {cs part : List Char} {parts before after : List (List Char)} {n g : Nat}
  {gs bs as : List Nat} {a : Address .v6}

def IsGroup (cs : List Char) (g : Nat) : Prop := cs.length ≤ 4 ∧ Numeral.IsHexadecimal cs g

/-- An octet of a quad: one to three decimal digits, of a value up to 255 and without a leading
zero. -/
def IsQuadOctet (cs : List Char) (n : Nat) : Prop :=
  (cs.length ≤ 3 ∧ (cs.head? = some '0' → cs.length = 1)) ∧ Numeral.IsDecimal cs n ∧ n < 256

inductive IsQuad (cs : List Char) : List Nat → Prop where
  | mk {octets : List (List Char)} {p q r s : Nat} (eq : cs = List.intercalate ['.'] octets)
      (octets : List.Forall₂ IsQuadOctet octets [p, q, r, s]) :
      IsQuad cs [p * 256 + q, r * 256 + s]

inductive IsTail : List (List Char) → List Nat → Prop where
  | nil : IsTail [] []
  | quad {last : List Char} {gs : List Nat} (quad : IsQuad last gs) : IsTail [last] gs
  | cons {part : List Char} {parts : List (List Char)} {g : Nat} {gs : List Nat}
      (group : IsGroup part g) (tail : IsTail parts gs) : IsTail (part :: parts) (g :: gs)

/-- The groups of a text: all eight, or fewer with `::` where the others are, which are zero. -/
inductive IsGroups : List Char → List Nat → Prop where
  | full {parts : List (List Char)} {gs : List Nat} (tail : IsTail parts gs)
      (length_eq : gs.length = 8) : IsGroups (List.intercalate [':'] parts) gs
  | gap {before after : List (List Char)} {bs as : List Nat}
      (groups : List.Forall₂ IsGroup before bs) (tail : IsTail after as)
      (length_lt : bs.length + as.length < 8) :
      IsGroups (List.intercalate [':'] before ++ "::".toList ++ List.intercalate [':'] after)
        (bs ++ List.replicate (8 - (bs.length + as.length)) 0 ++ as)

/-- Eight groups, the first of which is the most significant. -/
def IsText (cs : List Char) (a : Address .v6) : Prop :=
  ∃ gs, IsGroups cs gs ∧ a.value = Nat.ofDigits (2 ^ 16) gs.reverse

theorem group?_eq_some_iff : group? cs = some g ↔ IsGroup cs g := by
  rw [group?, Option.ite_none_right_eq_some, Numeral.read?_sixteen_eq_some_iff, IsGroup]

theorem octet?_eq_some_iff : octet? cs = some n ↔ IsQuadOctet cs n := by
  have hbase : Family.v4.base = 256 := rfl
  rw [octet?, Option.ite_none_right_eq_some, Option.filter_eq_some_iff, decide_eq_true_iff,
    Numeral.read?_ten_eq_some_iff, IsQuadOctet, hbase]

theorem mapM_group?_eq_some_iff : parts.mapM group? = some gs ↔ List.Forall₂ IsGroup parts gs := by
  simp only [mapM_eq_some_iff_forall₂, group?_eq_some_iff]

theorem mapM_octet?_eq_some_iff :
    parts.mapM octet? = some gs ↔ List.Forall₂ IsQuadOctet parts gs := by
  simp only [mapM_eq_some_iff_forall₂, octet?_eq_some_iff]

/-! ### Parts -/

theorem IsGroup.notMem (h : IsGroup cs g) {c : Char} (hc : ¬ Numeral.IsHexadecimalDigit c) :
    c ∉ cs := fun hmem => hc (h.2.digits c hmem)

theorem IsGroup.isPart (h : IsGroup cs g) : IsPart cs := ⟨h.2.ne_nil, h.notMem (by decide)⟩

theorem IsQuadOctet.notMem (h : IsQuadOctet cs n) {c : Char} (hc : ¬ Numeral.IsDecimalDigit c) :
    c ∉ cs := fun hmem => hc (h.2.1.digits c hmem)

theorem isPart_of_forall₂_isGroup (h : List.Forall₂ IsGroup parts gs) : ∀ p ∈ parts, IsPart p :=
  forall_mem_left_of_forall₂ h fun _ _ => IsGroup.isPart

theorem notMem_of_forall₂_isQuadOctet (h : List.Forall₂ IsQuadOctet parts gs) {c : Char}
    (hc : ¬ Numeral.IsDecimalDigit c) : ∀ p ∈ parts, c ∉ p :=
  forall_mem_left_of_forall₂ h fun _ _ ho => ho.notMem hc

theorem IsQuad.exists_pieces (h : IsQuad cs gs) : ∃ p q r s,
    List.Forall₂ IsQuadOctet (pieces '.' cs) [p, q, r, s] ∧ gs = [p * 256 + q, r * 256 + s] := by
  obtain @⟨octets, p, q, r, s, rfl, hoctets⟩ := h
  have hne : octets ≠ [] := by
    rintro rfl
    cases hoctets
  rw [pieces_eq_splitOn, List.splitOn_intercalate '.'
    (notMem_of_forall₂_isQuadOctet hoctets (by decide)) hne]
  exact ⟨p, q, r, s, hoctets, rfl⟩

theorem IsQuad.isPart (h : IsQuad cs gs) : IsPart cs := by
  obtain ⟨p, q, r, s, hoctets, -⟩ := h.exists_pieces
  constructor
  · rintro rfl
    simpa [pieces] using hoctets.length_eq
  · intro hc
    obtain hdot | ⟨o, ho, hco⟩ := mem_pieces '.' hc
    · exact absurd hdot (by decide)
    · exact notMem_of_forall₂_isQuadOctet hoctets (by decide) o ho hco

theorem IsTail.isPart (h : IsTail parts gs) : ∀ p ∈ parts, IsPart p := by
  induction h with
  | nil => nofun
  | quad hq => exact List.forall_mem_singleton.mpr hq.isPart
  | cons hg _ ih => exact List.forall_mem_cons.mpr ⟨hg.isPart, ih⟩

/-! ### Reading -/

theorem quad?_eq_some_iff : quad? cs = some gs ↔ IsQuad cs gs := by
  rw [quad?, Option.bind_eq_bind, Option.bind_eq_some_iff]
  constructor
  · rintro ⟨octets, hoctets, h⟩
    split at h
    · next p q r s =>
      obtain rfl := Option.some_inj.mp h
      have hjoin : ∀ m n, joinDigits Family.v4.base [m, n] = m * 256 + n := by
        intro m n
        simp [joinDigits, Family.base, Family.digitBits]
      rw [hjoin, hjoin]
      refine .mk ?_ (mapM_octet?_eq_some_iff.mp hoctets)
      rw [pieces_eq_splitOn, List.intercalate_splitOn]
    · cases h
  · intro h
    obtain ⟨p, q, r, s, hoctets, rfl⟩ := h.exists_pieces
    refine ⟨[p, q, r, s], mapM_octet?_eq_some_iff.mpr hoctets, ?_⟩
    simp [joinDigits, Family.base, Family.digitBits]

theorem quad?_of_isGroup (h : IsGroup cs g) : quad? cs = none := by
  rw [← Option.not_isSome_iff_eq_none, Option.isSome_iff_exists]
  rintro ⟨gs, hq⟩
  obtain ⟨p, q, r, s, hoctets, -⟩ := (quad?_eq_some_iff.mp hq).exists_pieces
  rw [pieces_of_notMem (h.notMem (by decide))] at hoctets
  exact absurd hoctets.length_eq (by simp)

theorem groups?_eq_some_iff : groups? parts = some gs ↔ IsTail parts gs := by
  constructor
  · intro h
    fun_induction groups? parts generalizing gs with
    | case1 =>
      cases h
      exact .nil
    | case2 last =>
      cases hq : quad? last with
      | some qs =>
        rw [hq] at h
        obtain rfl := Option.some_inj.mp h
        exact .quad (quad?_eq_some_iff.mp hq)
      | none =>
        rw [hq] at h
        obtain ⟨g, hg, rfl⟩ := Option.map_eq_some_iff.mp h
        exact .cons (group?_eq_some_iff.mp hg) .nil
    | case3 first rest _ ih =>
      obtain ⟨g, hg, h⟩ := Option.bind_eq_some_iff.mp h
      obtain ⟨gs', hgs, h⟩ := Option.bind_eq_some_iff.mp h
      obtain rfl := Option.some_inj.mp h
      exact .cons (group?_eq_some_iff.mp hg) (ih hgs)
  · intro h
    induction h with
    | nil => rfl
    | quad hq => rw [groups?, quad?_eq_some_iff.mpr hq, Option.orElse_some]
    | @cons part parts g gs hg tail ih =>
      have hgroup := group?_eq_some_iff.mpr hg
      cases parts with
      | nil =>
        cases tail
        rw [groups?, quad?_of_isGroup hg, hgroup]
        rfl
      | cons part' parts =>
        rw [groups?, ih, hgroup]
        · rfl
        · simp

theorem fillGap_eq_some_iff : fillGap bs as = some gs ↔ bs.length + as.length < 8 ∧
    gs = bs ++ List.replicate (8 - (bs.length + as.length)) 0 ++ as := by
  have hcount : Family.v6.digitCount = 8 := rfl
  rw [fillGap, hcount]
  simp only [Option.ite_none_left_eq_some, Option.some_inj, eq_comm (a := gs)]
  apply and_congr_left'
  omega

theorem intercalate_parts (cs : List Char) : List.intercalate [':'] (V6.parts cs) = cs := by
  rw [V6.parts]
  split
  · next h => exact h.symm
  · rw [pieces_eq_splitOn, List.intercalate_splitOn]

theorem IsGroup.lt (h : IsGroup cs g) : g < 2 ^ 16 :=
  Nat.lt_of_lt_of_le h.2.lt (Nat.pow_le_pow_right (n := 16) (by decide) h.1)

theorem IsQuad.lt (h : IsQuad cs gs) : ∀ g ∈ gs, g < 2 ^ 16 := by
  obtain ⟨p, q, r, s, hoctets, rfl⟩ := h.exists_pieces
  have hlt : ∀ n ∈ [p, q, r, s], n < 256 :=
    forall_mem_right_of_forall₂ hoctets fun _ _ ho => ho.2.2
  simp only [List.forall_mem_cons, List.not_mem_nil, false_imp_iff, implies_true, and_true] at hlt ⊢
  omega

theorem lt_of_forall₂_isGroup (h : List.Forall₂ IsGroup parts gs) : ∀ g ∈ gs, g < 2 ^ 16 :=
  forall_mem_right_of_forall₂ h fun _ _ => IsGroup.lt

theorem IsTail.lt (h : IsTail parts gs) : ∀ g ∈ gs, g < 2 ^ 16 := by
  induction h with
  | nil => nofun
  | quad hq => exact hq.lt
  | cons hg _ ih => exact List.forall_mem_cons.mpr ⟨hg.lt, ih⟩

theorem IsGroups.length_eq (h : IsGroups cs gs) : gs.length = 8 := by
  cases h with
  | full _ length_eq => exact length_eq
  | gap _ _ length_lt =>
    rw [List.length_append, List.length_append, List.length_replicate]
    omega

theorem IsGroups.lt (h : IsGroups cs gs) : ∀ g ∈ gs, g < 2 ^ 16 := by
  cases h with
  | full tail => exact tail.lt
  | gap groups tail =>
    rw [List.forall_mem_append, List.forall_mem_append]
    refine ⟨⟨lt_of_forall₂_isGroup groups, fun g hg => ?_⟩, tail.lt⟩
    rw [List.eq_of_mem_replicate hg]
    decide

theorem isGroups_of_allGroups? (h : allGroups? cs = some gs) (hlen : gs.length = 8) :
    IsGroups cs gs := by
  rw [allGroups?] at h
  split at h
  · have hfull := IsGroups.full (groups?_eq_some_iff.mp h) hlen
    rwa [pieces_eq_splitOn, List.intercalate_splitOn] at hfull
  · next before after hcut =>
    obtain ⟨bs, hbs, h⟩ := Option.bind_eq_some_iff.mp h
    obtain ⟨as, has, h⟩ := Option.bind_eq_some_iff.mp h
    obtain ⟨hlt, rfl⟩ := fillGap_eq_some_iff.mp h
    have hgap := IsGroups.gap (mapM_group?_eq_some_iff.mp hbs) (groups?_eq_some_iff.mp has) hlt
    rw [intercalate_parts, intercalate_parts] at hgap
    rwa [eq_of_cutGap hcut]

theorem allGroups?_of_isGroups (h : IsGroups cs gs) : allGroups? cs = some gs := by
  cases h with
  | @full parts gs tail length_eq =>
    have hcut := cutGap_intercalate tail.isPart []
    rw [List.append_nil] at hcut
    have hne : parts ≠ [] := by
      rintro rfl
      cases tail
      cases length_eq
    rw [allGroups?, hcut, cutGap, Option.map_none]
    simp only [pieces_eq_splitOn]
    rw [List.splitOn_intercalate ':' (fun p hp => (tail.isPart p hp).2) hne]
    exact groups?_eq_some_iff.mpr tail
  | @gap before after bs as groups tail length_lt =>
    have hbefore := isPart_of_forall₂_isGroup groups
    have hcut : cutGap (List.intercalate [':'] before ++ "::".toList ++
        List.intercalate [':'] after) =
        some (List.intercalate [':'] before, List.intercalate [':'] after) := by
      rw [List.append_assoc, cutGap_intercalate hbefore]
      simp [cutGap]
    rw [allGroups?, hcut]
    simp only [parts_intercalate hbefore, parts_intercalate tail.isPart,
      mapM_group?_eq_some_iff.mpr groups, groups?_eq_some_iff.mpr tail]
    exact fillGap_eq_some_iff.mpr ⟨length_lt, rfl⟩

/-- A text is read as an address just where the grammar says it is one. -/
theorem read?_eq_some_iff : read? cs = some a ↔ IsText cs a := by
  have hcount : Family.v6.digitCount = 8 := rfl
  have hbase : Family.v6.base = 2 ^ 16 := rfl
  rw [read?, Option.bind_eq_some_iff]
  simp only [ofDigits?_eq_some_iff, hcount, hbase, joinDigits_eq_ofDigits]
  constructor
  · rintro ⟨gs, hgs, hlen, -, hvalue⟩
    exact ⟨gs, isGroups_of_allGroups? hgs hlen, hvalue⟩
  · rintro ⟨gs, hgs, hvalue⟩
    exact ⟨gs, allGroups?_of_isGroups hgs, hgs.length_eq, hgs.lt, hvalue⟩

end V6

/-- The text of an address of a family. -/
def IsText : (f : Family) → List Char → Address f → Prop
  | .v4 => V4.IsText
  | .v6 => V6.IsText

theorem read?_eq_some_iff {f : Family} {cs : List Char} {a : Address f} :
    read? f cs = some a ↔ IsText f cs a := by
  cases f with
  | v4 => exact V4.read?_eq_some_iff
  | v6 => exact V6.read?_eq_some_iff

theorem read?_eq_none_iff {f : Family} {cs : List Char} :
    read? f cs = none ↔ ∀ a, ¬ IsText f cs a := by
  rw [Option.eq_none_iff_forall_ne_some]
  simp only [ne_eq, read?_eq_some_iff]

end Address

end Netblock
