import Netblock.Proofs.BlockLine
import Netblock.Proofs.BlockText

/-! # Dumping a registry

The entries of a registry written on lines, in any order, load as that registry.
-/

namespace Netblock

open Text Verdict

def dumpLine (e : Block × String) : String := e.1.text ++ " " ++ e.2

def dump (es : List (Block × String)) : String := String.join (es.map fun e => dumpLine e ++ "\n")

theorem Interval.splitKey_written {f : Family} {i : Interval f} {cs tail : List Char}
    (h : i.Written cs) (ht : ∀ c ∈ tail.head?, isBlank c = true) :
    splitKey (cs ++ tail) = (cs, trim tail) :=
  h.spelled.splitKey_append h.isBlank_of_slash_mem ht fun _ => h.separator_mem

theorem ofLine_dumpLine {earlier : List (Block × String)} {e : Block × String}
    (hv : Trimmed e.2.toList) (hn : ¬ ∃ d ∈ earlier, d.1.PartlyOverlaps e.1) :
    ofLine '#' earlier (utf8 (dumpLine e)) = .accepted e.1 e.2 := by
  have hw := e.1.interval.written_write
  have htext : (dumpLine e).toList = e.1.interval.write ++ ' ' :: e.2.toList := by
    simp [dumpLine, Block.text, Interval.text]
  have htail : ∀ c ∈ (trimEnd (' ' :: e.2.toList)).head?, isBlank c = true := fun c hc => by
    obtain rfl : ' ' = c := Option.some.inj (mem_head?_of_mem_head?_trimEnd hc)
    decide
  have hvalue : trim (trimEnd (' ' :: e.2.toList)) = e.2.toList := by
    rw [trim_trimEnd]
    simpa using trim_append_append hv [' '] [] (fun _ => isBlank_of_mem_space) nofun
  have hline : ¬ (e.1.interval.write ++ trimEnd (' ' :: e.2.toList) = [] ∨
      (e.1.interval.write ++ trimEnd (' ' :: e.2.toList)).head? = some '#') := by
    rw [List.head?_append_of_ne_nil _ hw.ne_nil, not_or]
    exact ⟨fun h => hw.ne_nil (List.append_eq_nil_iff.mp h).1,
      fun h => absurd (hw.mem_alphabet (List.mem_of_mem_head? h)) (by decide)⟩
  rw [ofLine, decodeText?_utf8, htext]
  simp only [trim_append hw.trimmed hw.ne_nil, if_neg hline, Interval.splitKey_written hw htail,
    hvalue, Block.read_written hw, if_neg hn, String.ofList_toList]

theorem ofLines_dump {earlier es : List (Block × String)} (hv : ∀ e ∈ es, Trimmed e.2.toList)
    (hn : ∀ d ∈ earlier ++ es, ∀ e ∈ earlier ++ es, ¬ d.1.PartlyOverlaps e.1) :
    ofLines '#' earlier (es.map fun e => utf8 (dumpLine e)) =
      es.map fun e => .accepted e.1 e.2 := by
  induction es generalizing earlier with
  | nil => rfl
  | cons e es ih =>
    have hfree : ¬ ∃ d ∈ earlier, d.1.PartlyOverlaps e.1 := by
      rintro ⟨d, hd, ho⟩
      exact hn d (by simp [hd]) e (by simp) ho
    rw [List.map_cons, ofLines, ofLine_dumpLine (hv e List.mem_cons_self) hfree, List.map_cons]
    refine congrArg _ (ih (fun x hx => hv x (List.mem_cons_of_mem e hx)) ?_)
    simpa [Verdict.entry?] using hn

theorem physicalLines_dump {es : List (Block × String)} (h : ∀ e ∈ es, '\n' ∉ e.2.toList) :
    physicalLines (utf8 (dump es)) = es.map fun e => utf8 (dumpLine e) := by
  have hbytes : utf8 (dump es) =
      (es.map fun e => utf8 (dumpLine e)).flatMap fun l => l ++ ['\n'.toUInt8] := by
    have hnewline : String.utf8EncodeChar '\n' = ['\n'.toUInt8] := by decide
    simp [dump, utf8_eq_flatMap, List.flatMap_map, List.flatMap_assoc, hnewline]
  rw [hbytes, physicalLines_flatMap]
  refine List.forall_mem_map.mpr fun e he => newline_notMem_utf8 ?_
  have hkey : '\n' ∉ e.1.interval.write := mt e.1.interval.written_write.mem_alphabet (by decide)
  simp [dumpLine, Block.text, Interval.text, h e he, hkey]

theorem entries_map_accepted (es : List (Block × String)) :
    entries (es.map fun e => .accepted e.1 e.2) = es := by
  simp [entries, List.filterMap_map, Function.comp_def, Verdict.entry?]

theorem Loads.report_eq {es : List (Block × String)} {l : Loaded}
    (h : Loads (es.map fun e => .accepted e.1 e.2) l) (hlen : es.length = l.registry.size) :
    l.report = { inserted := l.registry.size } := by
  obtain ⟨registry, inserted, replaced, skippedOverlaps, skippedInvalid⟩ := l
  have hinserted : inserted = registry.size := h.inserted_eq
  have haccepted : inserted + replaced = registry.size := by
    rw [h.accepted_eq, entries_map_accepted, hlen]
  have hreplaced : replaced = 0 := by omega
  have hoverlaps : skippedOverlaps = 0 := h.overlaps_eq.trans (by simp [isOverlapping])
  have hinvalid : skippedInvalid = 0 := h.invalid_eq.trans (by simp [isInvalid])
  rw [hinserted, hreplaced, hoverlaps, hinvalid]

/-- A registry loads from the lines of its entries, in whatever order. -/
theorem load_dump {r : Registry String} (h : r.Reachable)
    (hv : ∀ e ∈ r.toList, '\n' ∉ e.2.toList ∧ Trimmed e.2.toList)
    {es : List (Block × String)} (hp : es.Perm r.toList) :
    (load {} (utf8 (dump es))).1 = .ok ⟨r, { inserted := r.size }⟩ := by
  have hmem : ∀ e, e ∈ es ↔ e ∈ r.toList := fun e => hp.mem_iff
  have hvs : ofLines '#' [] (physicalLines (utf8 (dump es))) =
      es.map fun e => .accepted e.1 e.2 := by
    rw [physicalLines_dump fun e he => (hv e ((hmem e).mp he)).1]
    refine ofLines_dump (fun e he => (hv e ((hmem e).mp he)).2) fun d hd e he => ?_
    exact h.not_partlyOverlaps ((hmem d).mp hd) ((hmem e).mp he)
  have hrun := load_run {} (utf8 (dump es))
  rw [hvs] at hrun
  generalize (load {} (utf8 (dump es))).1 = result at hrun
  cases hrun with
  | @ended before after v err split _ offends =>
    have hmap : v ∈ es.map fun e => Verdict.accepted e.1 e.2 := by
      rw [split]
      exact List.mem_append_right before List.mem_cons_self
    obtain ⟨e, -, rfl⟩ := List.mem_map.mp hmap
    exact offends.elim
  | @passed l _ loads reachable =>
    rw [List.nil_append] at loads
    have hregistry : l.registry = r := reachable.eq_of_mem_iff h fun ⟨b, v⟩ => by
      rw [loads.mem_iff, entries_map_accepted, lastValue?_eq_some_iff, hmem]
      exact fun w hbv hbw => h.value_unique ((hmem _).mp hbv) ((hmem _).mp hbw)
    obtain ⟨registry, report⟩ := l
    obtain rfl : registry = r := hregistry
    have hreport : report = { inserted := registry.size } := loads.report_eq (by
      rw [hp.length_eq, ← h.size_eq_length])
    rw [hreport]

theorem load_dump_of_mixed_families :
    let a : Block := ⟨.v4, 0, 3, by decide, by decide⟩
    let b : Block := ⟨.v4, 5, 6, by decide, by decide⟩
    let c : Block := ⟨.v6, Interval.whole .v6⟩
    let r := (((Registry.empty.insert a "- x").after.insert b "").after.insert c "#::").after
    let es := [(c, "#::"), (b, ""), (a, "- x")]
    r.Reachable ∧ (∀ e ∈ r.toList, '\n' ∉ e.2.toList ∧ Trimmed e.2.toList) ∧
      es.Perm r.toList ∧ dump es = "::/0 #::\n0.0.0.5 - 0.0.0.6 \n0.0.0.0/30 - x\n" ∧
      (load {} (utf8 (dump es))).1 = .ok ⟨r, { inserted := 3 }⟩ := by
  intro a b c r es
  have hr : r.Reachable := ((Registry.Reachable.empty.insert a _).insert b _).insert c _
  have hlist : r.toList = [(a, "- x"), (b, ""), (c, "#::")] := by decide +kernel
  have hv : ∀ e ∈ r.toList, '\n' ∉ e.2.toList ∧ Trimmed e.2.toList := by
    simp [hlist, Trimmed, isBlank]
  have hp : es.Perm r.toList := by
    rw [hlist]
    exact List.reverse_perm [(a, "- x"), (b, ""), (c, "#::")]
  have hsize : r.size = 3 := by decide +kernel
  exact ⟨hr, hv, hp, by decide +kernel, hsize ▸ load_dump hr hv hp⟩

end Netblock
