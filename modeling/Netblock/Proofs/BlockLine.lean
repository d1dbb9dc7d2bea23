import Netblock.Proofs.Lines
import Netblock.Proofs.Loading
import Netblock.Proofs.Spelling

/-! # A line that holds a block alone

Every spelling of a range or of an address is the block of its line. A prefix is so where its
spelling is one word; with a blank beside its slash, what follows the blank is taken for a value.
-/

namespace Netblock

open Text Verdict

namespace Interval

variable {f : Family} {i : Interval f} {cs : List Char}

theorem Spelled.isLegible_of_mem_head? (h : i.Spelled cs) {c : Char} (hc : c ∈ cs.head?) :
    Address.IsLegible c := by
  obtain ⟨x, rest, a, rfl, hread⟩ :
      ∃ x rest, ∃ a : Address f, cs = x ++ rest ∧ Address.read? f x = some a := by
    cases h with
    | address hread => exact ⟨_, [], _, (List.append_nil _).symm, hread⟩
    | slash hread => exact ⟨_, _, _, by rw [List.append_assoc, List.append_assoc], hread⟩
    | dash hread => exact ⟨_, _, _, by rw [List.append_assoc, List.append_assoc], hread⟩
  rw [List.head?_append_of_ne_nil x (Address.ne_nil_of_read? hread)] at hc
  exact Address.isLegible_of_read? hread c (List.mem_of_mem_head? hc)

theorem Spelled.ne_nil (h : i.Spelled cs) : cs ≠ [] := by
  cases h with
  | address hread => exact Address.ne_nil_of_read? hread
  | slash => simp
  | dash => simp

/-- All of a spelling is the block of its line, unless it is a prefix in several words, or an
address that a dash follows. -/
theorem Spelled.splitKey_append (h : i.Spelled cs)
    (hword : '/' ∈ cs → ∀ c ∈ cs, isBlank c = false) {tail : List Char}
    (ht : ∀ c ∈ tail.head?, isBlank c = true)
    (hnext : (trimStart tail).head? = some '-' → '-' ∈ cs ∨ '/' ∈ cs) :
    splitKey (cs ++ tail) = (cs, trim tail) := by
  cases h with
  | address hread =>
    have hx := Address.isLegible_of_read? hread
    refine splitKey_of_word (fun c hc => (hx c hc).isBlank_eq_false) ht (fun h => ?_) hnext
    exact absurd (hx _ (List.mem_of_getLast? h)) (by decide)
  | @slash x bs bs' y a n _ hread hb hb' hlength heq =>
    refine splitKey_of_slash (hword (by simp)) ht (by simp) ?_
    rw [List.getLast?_append_of_ne_nil _ (ne_nil_of_readLength? hlength)]
    intro h
    exact absurd (isLegible_of_readLength? hlength (List.mem_of_getLast? h)) (by decide)
  | @dash x bs bs' y a b _ hfirst hb hb' hlast heq =>
    have hx := Address.isLegible_of_read? hfirst
    have hy := Address.isLegible_of_read? hlast
    exact splitKey_of_dash (fun c hc => (hx c hc).isBlank_eq_false)
      (fun c hc => (hy c hc).isBlank_eq_false) (Address.ne_nil_of_read? hlast) ht
      (fun h => absurd (hx _ h) (by decide)) (fun h => absurd (hx _ h) (by decide))
      (fun h => absurd (hy _ (List.mem_of_getLast? h)) (by decide)) hb hb'

theorem Spelled.splitKey_snd_ne_nil (h : i.Spelled cs) (hslash : '/' ∈ cs)
    (hblank : ∃ c ∈ cs, isBlank c = true) : (splitKey cs).2 ≠ [] := by
  cases h with
  | address hread =>
    exact absurd (Address.isLegible_of_read? hread _ hslash) (by decide)
  | dash hfirst hb hb' hlast =>
    have hx := Address.isLegible_of_read? hfirst
    have hy := Address.isLegible_of_read? hlast
    exact absurd hslash (slash_notMem_range hx hy hb hb')
  | @slash x bs bs' y a n _ hread hb hb' hlength heq =>
    have hx : ∀ c ∈ x, isBlank c = false :=
      fun c hc => (Address.isLegible_of_read? hread c hc).isBlank_eq_false
    have hy : ∀ c ∈ y, isBlank c = false := fun c => isBlank_of_readLength? hlength
    have hdash : '-' ∉ x :=
      fun h => absurd (Address.isLegible_of_read? hread _ h) (by decide)
    by_cases hbs : bs = []
    · have hbs' : bs' ≠ [] := by
        rintro rfl
        obtain ⟨c, hc, hcb⟩ := hblank
        simp only [hbs, List.append_nil, List.mem_append, List.mem_cons, List.not_mem_nil,
          or_false] at hc
        obtain (hc | rfl) | hc := hc
        · simp [hx c hc] at hcb
        · cases hcb
        · simp [hy c hc] at hcb
      rw [hbs, List.append_nil, splitKey_of_slash_dangling hx hb' hbs',
        (trim_append_blanks hy hb').2]
      exact ne_nil_of_readLength? hlength
    · rw [List.append_assoc, List.cons_append, splitKey_of_slash_apart hx hdash hb hbs]
      refine List.ne_nil_of_mem (a := '/') ?_
      rw [mem_trim_iff (by decide)]
      simp

end Interval

namespace Verdict

variable {s : String} {b : Block} {line key value : List Char}

theorem ofLine_nil_utf8 (s : String) (mark : Char) (hne : trim s.toList ≠ [])
    (hmark : (trim s.toList).head? ≠ some mark) :
    ofLine mark [] (utf8 s) = match Block.read (splitKey (trim s.toList)).1 with
      | .error e => invalid e
      | .ok b => accepted b (String.ofList (splitKey (trim s.toList)).2) := by
  rw [ofLine, decodeText?_utf8]
  simp only
  rw [if_neg (not_or.mpr ⟨hne, hmark⟩)]
  cases Block.read (splitKey (trim s.toList)).1 <;> simp

end Verdict

theorem Loads.toList_eq_singleton {b : Block} {v : String} {l : Loaded}
    (h : Loads [.accepted b v] l) (hr : l.registry.Reachable) : l.registry.toList = [(b, v)] := by
  have hmem : ∀ c w, (c, w) ∈ l.registry.toList ↔ c = b ∧ w = v := fun c w => by
    rw [h.mem_iff, show entries [.accepted b v] = [] ++ [(b, v)] from rfl,
      lastValue?_append_singleton]
    by_cases hc : c = b <;> simp [hc, lastValue?, eq_comm]
  have hlen : l.registry.toList.length ≤ 1 := by
    have haccepted : l.report.inserted + l.report.replaced = 1 := h.accepted_eq
    rw [← hr.size_eq_length, ← h.inserted_eq]
    omega
  obtain ⟨e, hlist⟩ := List.length_eq_one_iff.mp (Nat.le_antisymm hlen
    (List.length_pos_of_mem ((hmem b v).mpr ⟨rfl, rfl⟩)))
  obtain ⟨rfl, rfl⟩ := (hmem e.1 e.2).mp (by rw [hlist]; exact List.mem_cons_self)
  exact hlist

/-- A line that is neither blank nor a comment holds one entry: its block with its value. -/
theorem load_line_iff {s v : String} {b : Block} (hn : '\n' ∉ s.toList)
    (hne : trim s.toList ≠ []) (hmark : (trim s.toList).head? ≠ some '#') :
    (∃ l, (load {} (utf8 s)).1 = .ok l ∧ l.registry.toList = [(b, v)]) ↔
      Block.read (splitKey (trim s.toList)).1 = .ok b ∧
        String.ofList (splitKey (trim s.toList)).2 = v := by
  have hs : s ≠ "" := by
    rintro rfl
    exact hne rfl
  have hrun := load_run {} (utf8 s)
  rw [physicalLines_utf8 hn hs, ofLines, ofLine_nil_utf8 s _ hne hmark, ofLines] at hrun
  generalize (load {} (utf8 s)).1 = result at hrun ⊢
  generalize Block.read (splitKey (trim s.toList)).1 = key at hrun ⊢
  cases hrun with
  | passed not_offends loads reachable =>
    cases key with
    | error e => exact absurd rfl (not_offends (invalid e) List.mem_cons_self)
    | ok b' =>
      have hlist := loads.toList_eq_singleton reachable
      simp [hlist]
  | @ended before after w err split _ offends =>
    cases key with
    | error e => simp
    | ok b' =>
      have hw : w ∈ [accepted b' (String.ofList (splitKey (trim s.toList)).2)] := by simp [split]
      rw [List.mem_singleton.mp hw] at offends
      exact offends.elim

/-- A spelling of a block loads as that block alone, unless it is a prefix in several words. -/
theorem load_spelling_iff {s : String} {b : Block} (hn : '\n' ∉ s.toList)
    (hb : Block.parse s = .ok b) :
    (∃ l, (load {} (utf8 s)).1 = .ok l ∧ l.registry.toList = [(b, "")]) ↔
      ('/' ∈ s.toList → ∀ c ∈ trim s.toList, isBlank c = false) := by
  have hspelled := Block.spelled_of_read hb
  have hmark : (trim s.toList).head? ≠ some '#' := fun h =>
    absurd (hspelled.isLegible_of_mem_head? h) (by decide)
  rw [load_line_iff hn hspelled.ne_nil hmark, ← mem_trim_iff (by decide : isBlank '/' = false),
    String.ofList_eq_empty_iff]
  constructor
  · rintro ⟨-, hvalue⟩ hslash
    by_contra hblank
    simp only [not_forall, Bool.not_eq_false, exists_prop] at hblank
    exact hspelled.splitKey_snd_ne_nil hslash hblank hvalue
  · intro hword
    have hsplit : splitKey (trim s.toList ++ []) = (trim s.toList, []) :=
      hspelled.splitKey_append hword (by simp) (by simp [trimStart])
    rw [List.append_nil] at hsplit
    rw [hsplit, Block.read_trim]
    exact ⟨hb, rfl⟩

theorem load_spelling_iff_of_blanks :
    let range := "\t0.0.0.1 -\u2003 0.0.0.2 "
    let slash := "10/ 8"
    let b : Block := ⟨.v4, 1, 2, by decide, by decide⟩
    let c : Block := ⟨.v4, 0x0A000000, 0x0AFFFFFF, by decide, by decide⟩
    '\n' ∉ range.toList ∧ Block.parse range = .ok b ∧
      (∃ l, (load {} (utf8 range)).1 = .ok l ∧ l.registry.toList = [(b, "")]) ∧
      '\n' ∉ slash.toList ∧ Block.parse slash = .ok c ∧
      ¬ ∃ l, (load {} (utf8 slash)).1 = .ok l ∧ l.registry.toList = [(c, "")] := by
  intro range slash b c
  have hn : '\n' ∉ range.toList := by decide
  have hb : Block.parse range = .ok b := by decide +kernel
  have hn' : '\n' ∉ slash.toList := by decide
  have hc : Block.parse slash = .ok c := by decide +kernel
  have hslash : '/' ∉ range.toList := by decide
  have hblank : ¬ ('/' ∈ slash.toList → ∀ c ∈ trim slash.toList, isBlank c = false) :=
    fun h => absurd (h (by decide) ' ' (by decide +kernel)) (by decide)
  exact ⟨hn, hb, (load_spelling_iff hn hb).mpr fun h => absurd h hslash, hn', hc,
    mt (load_spelling_iff hn' hc).mp hblank⟩

/-- A blank before the slash of a prefix makes another block of it, with the length as value. -/
theorem load_cuts_before_slash :
    let s := "10 /8"
    let b : Block := ⟨.v4, 0x0A000000, 0x0AFFFFFF, by decide, by decide⟩
    let a : Block := ⟨.v4, 0x0A000000, 0x0A000000, by decide, by decide⟩
    '\n' ∉ s.toList ∧ Block.parse s = .ok b ∧ (trim s.toList).head? ≠ some '#' ∧
      (∃ l, (load {} (utf8 s)).1 = .ok l ∧ l.registry.toList = [(a, "/8")]) ∧
      ¬ ∃ l, (load {} (utf8 s)).1 = .ok l ∧ l.registry.toList = [(b, "")] := by
  intro s b a
  let l : Loaded := ⟨⟨⟨[⟨a.interval, .leaf a.interval "/8"⟩], 1⟩, .empty⟩, { inserted := 1 }⟩
  have hload : (load {} (utf8 s)).1 = .ok l := by decide +kernel
  have hlist : l.registry.toList = [(a, "/8")] := by decide +kernel
  refine ⟨by decide, by decide +kernel, by decide +kernel, ⟨l, hload, hlist⟩, ?_⟩
  rintro ⟨l', hload', hlist'⟩
  obtain rfl : l = l' := Except.ok.inj (hload.symm.trans hload')
  exact absurd (hlist.symm.trans hlist') (by decide)

end Netblock
