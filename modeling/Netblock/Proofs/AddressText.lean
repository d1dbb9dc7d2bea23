import Mathlib.Data.List.Basic
import Netblock.Address.Text

/-! # Addresses from their text

An address is read back from the text that is written for it. What stands in this text tells
the two families apart, and none of it can be taken for a separator of intervals or lines.
-/

namespace Netblock

open Text Numeral

def Family.alphabet : Family → List Char
  | .v4 => "0123456789.".toList
  | .v6 => "0123456789abcdef.:".toList

theorem Family.alphabet_subset : (f : Family) → f.alphabet ⊆ Family.v6.alphabet
  | .v4 => by decide
  | .v6 => List.Subset.refl _

theorem mapM_map_of_forall_mem {α β : Type} {write : α → β} {read : β → Option α} {xs : List α}
    (h : ∀ x ∈ xs, read (write x) = some x) : (xs.map write).mapM read = some xs := by
  induction xs with
  | nil => rfl
  | cons x xs ih =>
    rw [List.map_cons, List.mapM_cons, h x List.mem_cons_self,
      ih fun y hy => h y (List.mem_cons_of_mem x hy)]
    rfl

namespace Numeral

variable {base : Nat} {sep : Char} {ns : List Nat}

theorem notMem_write (hb : 1 < base) (hsep : ∀ d < base, sep ≠ Nat.digitChar d) (n : Nat) :
    sep ∉ write base n := fun h => by
  obtain ⟨d, hd, hc⟩ := exists_digitChar_of_mem_write hb h
  exact hsep d hd hc

theorem pieces_intercalate_write (hb : 1 < base) (hsep : ∀ d < base, sep ≠ Nat.digitChar d)
    (hne : ns ≠ []) :
    pieces sep (List.intercalate [sep] (ns.map (write base))) =
      ns.map (write base) := by
  rw [pieces_eq_splitOn, List.splitOn_intercalate sep _ (by simpa using hne)]
  exact List.forall_mem_map.mpr fun n _ => notMem_write hb hsep n

theorem mem_of_mem_intercalate_write (hb : 1 < base) {alphabet : List Char}
    (hdigits : ∀ d < base, Nat.digitChar d ∈ alphabet) (hsep : sep ∈ alphabet) {c : Char}
    (h : c ∈ List.intercalate [sep] (ns.map (write base))) : c ∈ alphabet := by
  refine forall_mem_intercalate (P := (· ∈ alphabet)) hsep ?_ c h
  rw [List.forall_mem_map]
  intro n _ c hc
  obtain ⟨d, hd, rfl⟩ := exists_digitChar_of_mem_write hb hc
  exact hdigits d hd

end Numeral

namespace Address

namespace V4

theorem pieces_writeOctets {octets : List Nat} (h : octets ≠ []) :
    pieces '.' (writeOctets octets) = octets.map (Numeral.write 10) :=
  pieces_intercalate_write (by decide) (by decide) h

theorem mem_alphabet_of_mem_writeOctets {octets : List Nat} {c : Char}
    (h : c ∈ writeOctets octets) : c ∈ Family.v4.alphabet :=
  mem_of_mem_intercalate_write (by decide) (by decide) (by decide) h

theorem read?_write (a : Address .v4) : read? (write a) = some a := by
  have hlen : a.digits.length = Family.v4.digitCount := a.length_digits
  have hne : a.digits ≠ [] := List.ne_nil_of_length_pos (by rw [hlen]; decide)
  have hread : (a.digits.map (Numeral.write 10)).mapM (Numeral.read? 10) = some a.digits :=
    mapM_map_of_forall_mem fun n _ => Numeral.read?_write (by decide) (by decide) n
  rw [read?, write, pieces_writeOctets hne, hread, Option.bind_some, complete, hlen, Nat.sub_self,
    List.replicate_zero, List.append_nil, ofDigits?_digits]

end V4

namespace V6

/-! ### Groups -/

theorem group?_write {g : Nat} (h : g < Family.v6.base) : group? (Numeral.write 16 g) = some g := by
  have hlen : (Numeral.write 16 g).length ≤ 4 := length_write_le (by decide) (by decide) h
  rw [group?, if_pos hlen, Numeral.read?_write (by decide) (by decide)]

theorem quad?_write (g : Nat) : quad? (Numeral.write 16 g) = none := by
  have hdot : '.' ∉ Numeral.write 16 g := notMem_write (by decide) (by decide) g
  rw [quad?, pieces_of_notMem hdot]
  cases h : octet? (Numeral.write 16 g) <;> simp [h]

theorem groups?_map_write {gs : List Nat} (h : ∀ g ∈ gs, g < Family.v6.base) :
    groups? (gs.map (Numeral.write 16)) = some gs := by
  induction gs with
  | nil => rfl
  | cons g gs ih =>
    have hg := group?_write (h g List.mem_cons_self)
    cases gs with
    | nil => simp [groups?, quad?_write, hg]
    | cons g' gs =>
      rw [List.map_cons] at ih ⊢
      rw [List.map_cons, groups?, ih fun x hx => h x (List.mem_cons_of_mem g hx), hg]
      · rfl
      · simp

theorem octet?_write {n : Nat} (h : n < Family.v4.base) : octet? (Numeral.write 10 n) = some n := by
  have hall : ∀ n : Fin 256, octet? (Numeral.write 10 n) = some n.val := by decide +kernel
  exact hall ⟨n, h⟩

abbrev octets (high low : Nat) : List Nat :=
  splitDigits Family.v4.base 2 high ++ splitDigits Family.v4.base 2 low

theorem quad?_writeOctets {high low : Nat} (hh : high < Family.v6.base)
    (hl : low < Family.v6.base) : quad? (V4.writeOctets (octets high low)) = some [high, low] := by
  have hh2 : high < Family.v4.base ^ 2 := hh
  have hl2 : low < Family.v4.base ^ 2 := hl
  have hread : ((octets high low).map (Numeral.write 10)).mapM octet? = some (octets high low) := by
    refine mapM_map_of_forall_mem fun n hn => octet?_write ?_
    rcases List.mem_append.mp hn with hn | hn <;> exact lt_of_mem_splitDigits (by decide) hn
  rw [quad?, V4.pieces_writeOctets (by simp [splitDigits]), hread]
  change some [joinDigits Family.v4.base (splitDigits Family.v4.base 2 high),
    joinDigits Family.v4.base (splitDigits Family.v4.base 2 low)] = _
  rw [joinDigits_splitDigits hh2, joinDigits_splitDigits hl2]

theorem colon_notMem_write (g : Nat) : ':' ∉ Numeral.write 16 g :=
  notMem_write (by decide) (by decide) g

theorem pieces_writeGroups {gs : List Nat} (h : gs ≠ []) :
    pieces ':' (writeGroups gs) = gs.map (Numeral.write 16) :=
  pieces_intercalate_write (by decide) (by decide) h

theorem mem_alphabet_of_mem_writeGroups {gs : List Nat} {c : Char} (h : c ∈ writeGroups gs) :
    c ∈ Family.v6.alphabet :=
  mem_of_mem_intercalate_write (by decide) (by decide) (by decide) h

def IsPart (p : List Char) : Prop := p ≠ [] ∧ ':' ∉ p

theorem isPart_of_mem_map_write {gs : List Nat} {p : List Char}
    (h : p ∈ gs.map (Numeral.write 16)) : IsPart p := by
  obtain ⟨g, -, rfl⟩ := List.mem_map.mp h
  exact ⟨write_ne_nil, colon_notMem_write g⟩

theorem intercalate_cons {p : List Char} (hp : IsPart p) (ps : List (List Char)) :
    ∃ c cs, List.intercalate [':'] (p :: ps) = c :: cs ∧ c ≠ ':' := by
  obtain ⟨c, cs, rfl⟩ := List.exists_cons_of_ne_nil hp.1
  have hc : c ≠ ':' := fun h => hp.2 (h ▸ List.mem_cons_self)
  cases ps <;> simp [hc]

theorem parts_intercalate {ps : List (List Char)} (h : ∀ p ∈ ps, IsPart p) :
    parts (List.intercalate [':'] ps) = ps := by
  cases ps with
  | nil => rfl
  | cons p ps =>
    obtain ⟨c, cs, hcons, -⟩ := intercalate_cons (h p List.mem_cons_self) ps
    rw [parts, if_neg (by simp [hcons]), pieces_eq_splitOn,
      List.splitOn_intercalate ':' (fun q hq => (h q hq).2) (List.cons_ne_nil p ps)]

theorem parts_writeGroups (gs : List Nat) :
    parts (writeGroups gs) = gs.map (Numeral.write 16) :=
  parts_intercalate fun _ => isPart_of_mem_map_write

/-! ### The gap -/

theorem eq_of_cutGap {cs before after : List Char} (h : cutGap cs = some (before, after)) :
    cs = before ++ "::".toList ++ after := by
  fun_induction cutGap cs generalizing before with
  | case1 => cases h
  | case2 rest =>
    cases h
    rfl
  | case3 c rest _ ih =>
    obtain ⟨⟨b, a⟩, hcut, he⟩ := Option.map_eq_some_iff.mp h
    obtain ⟨rfl, rfl⟩ := Prod.mk.inj he
    simp [ih hcut]

theorem cutGap_cons {c : Char} {rest : List Char} (h : c = ':' → rest.head? ≠ some ':') :
    cutGap (c :: rest) = (cutGap rest).map fun p => (c :: p.1, p.2) := by
  rw [cutGap]
  rintro rest' rfl rfl
  exact h rfl rfl

theorem cutGap_append {word : List Char} (h : ':' ∉ word) (rest : List Char) :
    cutGap (word ++ rest) = (cutGap rest).map fun p => (word ++ p.1, p.2) := by
  induction word with
  | nil => simp
  | cons c word ih =>
    rw [List.mem_cons, not_or] at h
    rw [List.cons_append, cutGap_cons (fun hc => absurd hc.symm h.1), ih h.2, Option.map_map]
    rfl

theorem cutGap_intercalate {ps : List (List Char)} (h : ∀ p ∈ ps, IsPart p) (rest : List Char) :
    cutGap (List.intercalate [':'] ps ++ rest) =
      (cutGap rest).map fun q => (List.intercalate [':'] ps ++ q.1, q.2) := by
  induction ps with
  | nil => simp
  | cons p ps ih =>
    obtain ⟨hp, hps⟩ := List.forall_mem_cons.mp h
    cases ps with
    | nil => simpa using cutGap_append hp.2 rest
    | cons p' ps =>
      obtain ⟨c, cs, hcons, hc⟩ := intercalate_cons (hps p' List.mem_cons_self) ps
      rw [List.intercalate_cons_cons, List.append_assoc, List.append_assoc,
        List.singleton_append, cutGap_append hp.2, cutGap_cons (by simp [hcons, hc]), ih hps]
      simp [Function.comp_def]

theorem cutGap_writeGroups (gs : List Nat) (rest : List Char) :
    cutGap (writeGroups gs ++ rest) =
      (cutGap rest).map fun p => (writeGroups gs ++ p.1, p.2) :=
  cutGap_intercalate (fun _ => isPart_of_mem_map_write) rest

theorem take_append_zeros_append_drop (gs : List Nat) :
    gs.take (zeroRun gs).1 ++ List.replicate (zeroRun gs).2 0 ++
      gs.drop ((zeroRun gs).1 + (zeroRun gs).2) = gs := by
  induction gs with
  | nil => rfl
  | cons g gs ih =>
    rw [zeroRun]
    split
    · have hzeros := List.eq_replicate_of_mem (a := 0) (l := (g :: gs).takeWhile (· == 0))
        fun x hx => by simpa using List.all_eq_true.mp List.all_takeWhile x hx
      rw [List.take_zero, List.nil_append, ← hzeros, Nat.zero_add]
      exact List.prefix_iff_eq_append.mp (List.takeWhile_prefix _)
    · rw [Nat.add_right_comm]
      simpa using ih

theorem fillGap_of_length {before after : List Nat} {missing : Nat} (h : 0 < missing)
    (hlen : before.length + missing + after.length = Family.v6.digitCount) :
    fillGap before after = some (before ++ List.replicate missing 0 ++ after) := by
  have hmissing : Family.v6.digitCount - (before.length + after.length) = missing := by omega
  simp only [fillGap, hmissing]
  rw [if_neg (Nat.ne_of_gt h)]

/-! ### The three forms -/

inductive Written (gs : List Nat) : List Char → Prop where
  | quad {high low : Nat} (eq : gs = [0, 0, 0, 0, 0, 0xffff, high, low]) :
      Written gs ("::ffff:".toList ++ V4.writeOctets (octets high low))
  | gap {before after : List Nat} {missing : Nat} (pos : 0 < missing)
      (eq : gs = before ++ List.replicate missing 0 ++ after) :
      Written gs (writeGroups before ++ "::".toList ++ writeGroups after)
  | plain : Written gs (writeGroups gs)

theorem eq_of_embedded? {gs os : List Nat} (h : embedded? gs = some os) :
    ∃ high low, gs = [0, 0, 0, 0, 0, 0xffff, high, low] ∧ os = octets high low := by
  unfold embedded? at h
  split at h
  · next high low => exact ⟨high, low, rfl, (Option.some_inj.mp h).symm⟩
  · cases h

theorem written_write (a : Address .v6) : Written a.digits (write a) := by
  rw [write]
  cases he : embedded? a.digits with
  | some os =>
    obtain ⟨high, low, hgs, rfl⟩ := eq_of_embedded? he
    exact .quad hgs
  | none =>
    simp only
    split
    · next hrun =>
      exact .gap (Nat.zero_lt_of_lt hrun) (take_append_zeros_append_drop a.digits).symm
    · exact .plain

theorem groups?_quad {high low : Nat} (hh : high < Family.v6.base) (hl : low < Family.v6.base) :
    groups? (pieces ':' ("ffff:".toList ++ V4.writeOctets (octets high low))) =
      some [0xffff, high, low] := by
  have hcolon : ':' ∉ V4.writeOctets (octets high low) := fun h =>
    absurd (V4.mem_alphabet_of_mem_writeOctets h) (by decide)
  have hpieces : pieces ':' ("ffff".toList ++ ':' :: V4.writeOctets (octets high low)) =
      ["ffff".toList, V4.writeOctets (octets high low)] := by
    rw [pieces_append_cons, pieces_of_notMem (by decide), pieces_of_notMem hcolon]
    rfl
  have hffff : group? "ffff".toList = some 0xffff := by decide
  change groups? (pieces ':' ("ffff".toList ++ ':' :: V4.writeOctets (octets high low))) = _
  rw [hpieces, groups?, groups?, quad?_writeOctets hh hl, hffff]
  · rfl
  · simp

theorem allGroups?_of_written {gs : List Nat} {cs : List Char} (h : Written gs cs)
    (hlen : gs.length = Family.v6.digitCount) (hlt : ∀ g ∈ gs, g < Family.v6.base) :
    allGroups? cs = some gs := by
  cases h with
  | @quad high low eq =>
    change (do fillGap (← some []) (← groups? (pieces ':' ("ffff:".toList ++ _)))) = _
    rw [groups?_quad (hlt high (by simp [eq])) (hlt low (by simp [eq])), eq]
    rfl
  | @gap before after missing pos eq =>
    have hcut : cutGap (writeGroups before ++ "::".toList ++ writeGroups after) =
        some (writeGroups before, writeGroups after) := by
      rw [List.append_assoc, cutGap_writeGroups]
      simp [cutGap]
    have hbefore : (before.map (Numeral.write 16)).mapM group? = some before :=
      mapM_map_of_forall_mem fun g hg => group?_write (hlt g (by simp [eq, hg]))
    have hafter : groups? (after.map (Numeral.write 16)) = some after :=
      groups?_map_write fun g hg => hlt g (by simp [eq, hg])
    have hfill : fillGap before after = some gs := by
      rw [eq, List.length_append, List.length_append, List.length_replicate] at hlen
      rw [fillGap_of_length pos hlen, eq]
    rw [allGroups?, hcut]
    simp only [parts_writeGroups, hbefore, hafter]
    exact hfill
  | plain =>
    have hcut := cutGap_writeGroups gs []
    rw [List.append_nil] at hcut
    rw [allGroups?, hcut, cutGap, Option.map_none]
    simp only [pieces_writeGroups (List.ne_nil_of_length_pos (by rw [hlen]; decide)),
      groups?_map_write hlt]

theorem read?_write (a : Address .v6) : read? (write a) = some a := by
  have hgroups := allGroups?_of_written (written_write a) a.length_digits
    fun _ => Address.lt_of_mem_digits
  rw [read?, hgroups, Option.bind_some, ofDigits?_digits]

theorem mem_alphabet_of_mem_write {a : Address .v6} {c : Char} (h : c ∈ write a) :
    c ∈ Family.v6.alphabet := by
  have hw := written_write a
  generalize write a = cs at h hw
  cases hw with
  | quad =>
    rcases List.mem_append.mp h with h | h
    · exact (by decide : "::ffff:".toList ⊆ Family.v6.alphabet) h
    · exact Family.v4.alphabet_subset (V4.mem_alphabet_of_mem_writeOctets h)
  | gap =>
    rw [List.mem_append, List.mem_append] at h
    obtain (h | h) | h := h
    · exact mem_alphabet_of_mem_writeGroups h
    · exact (by decide : "::".toList ⊆ Family.v6.alphabet) h
    · exact mem_alphabet_of_mem_writeGroups h
  | plain => exact mem_alphabet_of_mem_writeGroups h

theorem colon_mem_write (a : Address .v6) : ':' ∈ write a := by
  have hw := written_write a
  generalize write a = cs at hw
  cases hw with
  | quad => exact List.mem_append_left _ (by decide)
  | gap => exact List.mem_append_left _ (List.mem_append_right _ (by decide))
  | plain =>
    by_contra hcolon
    have hlen : a.digits.length = Family.v6.digitCount := a.length_digits
    have hpieces := pieces_writeGroups (List.ne_nil_of_length_pos (by rw [hlen]; decide))
    rw [pieces_of_notMem hcolon] at hpieces
    have hone := congrArg List.length hpieces
    rw [List.length_singleton, List.length_map, hlen] at hone
    exact absurd hone (by decide)

end V6

variable {f : Family} {a : Address f}

/-- An address is read back from its text. -/
theorem read?_write (a : Address f) : read? f a.write = some a := by
  cases f with
  | v4 => exact V4.read?_write a
  | v6 => exact V6.read?_write a

theorem mem_alphabet_of_mem_write {c : Char} (h : c ∈ a.write) : c ∈ f.alphabet := by
  cases f with
  | v4 => exact V4.mem_alphabet_of_mem_writeOctets h
  | v6 => exact V6.mem_alphabet_of_mem_write h

theorem notMem_write {c : Char} (h : c ∉ Family.v6.alphabet) (a : Address f) : c ∉ a.write :=
  fun hc => h (f.alphabet_subset (mem_alphabet_of_mem_write hc))

theorem write_ne_nil (a : Address f) : a.write ≠ [] := by
  intro h
  have hread := read?_write a
  have hnil : read? f [] = none := by cases f <;> rfl
  rw [h, hnil] at hread
  cases hread

theorem colon_mem_write_iff (a : Address f) : ':' ∈ a.write ↔ f = .v6 := by
  cases f with
  | v4 => exact ⟨fun h => absurd (mem_alphabet_of_mem_write h) (by decide), nofun⟩
  | v6 => exact ⟨fun _ => rfl, fun _ => V6.colon_mem_write a⟩

end Address

end Netblock
