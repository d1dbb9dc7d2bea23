import Netblock.CommandLine.Run
import Netblock.Proofs.Matching
import Netblock.Proofs.Skipping

/-! # What the command line answers

A command line reads its interval, then its file, and fails with the first error of the two. Where
both can be read it writes the values that a search through the entries of the file finds, each on
a line of its own. A value is part of a line of the file, so the lines that are written are the
values and nothing else.
-/

namespace Netblock

open Text

namespace Verdict

variable {mark : Char} {earlier : List (Block × String)} {b : Block} {value : String}

theorem mem_entries_iff {vs : List Verdict} :
    (b, value) ∈ entries vs ↔ accepted b value ∈ vs := by
  rw [entries, List.mem_filterMap]
  constructor
  · rintro ⟨v, hv, he⟩
    cases v with
    | accepted c w =>
      obtain ⟨rfl, rfl⟩ := Prod.mk.inj (Option.some.inj he)
      exact hv
    | _ => cases he
  · intro hv
    exact ⟨_, hv, rfl⟩

theorem sublist_of_ofLine {line : List UInt8} (h : ofLine mark earlier line = accepted b value) :
    ∃ text, decodeText? line = some text ∧ value.toList.Sublist text := by
  cases ht : decodeText? line with
  | none => simp [ofLine, ht] at h
  | some text =>
    refine ⟨text, rfl, ?_⟩
    simp only [ofLine, ht] at h
    split_ifs at h
    split at h
    · cases h
    · split_ifs at h
      obtain ⟨-, rfl⟩ := Verdict.accepted.inj h
      rw [String.toList_ofList]
      exact (splitKey_snd_sublist _).trans (trim_sublist text)

theorem newline_notMem_of_mem_entries {bytes : List UInt8}
    (h : (b, value) ∈ entries (ofLines mark earlier (physicalLines bytes))) :
    '\n' ∉ value.toList := by
  intro hvalue
  -- A line break in the value would be a byte of the line, which was cut at all of these bytes.
  obtain ⟨es, line, hline, hverdict⟩ := exists_ofLine_of_mem (mem_entries_iff.mp h)
  obtain ⟨text, htext, hsub⟩ := sublist_of_ofLine hverdict.symm
  refine newline_notMem_of_mem_physicalLines hline ?_
  rw [eq_utf8_of_decodeText? htext, utf8_eq_flatMap, String.toList_ofList]
  exact List.mem_flatMap.mpr ⟨'\n', hsub.subset hvalue, by decide⟩

end Verdict

theorem Loads.newline_notMem {mark : Char} {bytes : List UInt8} {l : Loaded} {b : Block}
    {value : String} (h : Loads (Verdict.ofLines mark [] (physicalLines bytes)) l)
    (hmem : (b, value) ∈ l.registry.toList) : '\n' ∉ value.toList :=
  Verdict.newline_notMem_of_mem_entries (Verdict.mem_of_lastValue? ((h.mem_iff b value).mp hmem))

theorem run_of_loadFile {config : LoadConfig} {contents : Except FileError (List UInt8)}
    {l : Loaded} (h : (loadFile config contents).1 = .ok l) : ∃ bytes, contents = .ok bytes ∧
      Loads.Run config [] (Verdict.ofLines config.commentMark [] (physicalLines bytes)) (.ok l) := by
  cases contents with
  | error err => cases h
  | ok bytes => exact ⟨bytes, rfl, h ▸ load_run config bytes⟩

namespace CommandLine

theorem splitOn_linesOf {values : List String} (h : ∀ v ∈ values, '\n' ∉ v.toList) :
    (linesOf values).toList.splitOn '\n' = values.map String.toList ++ [[]] := by
  induction values with
  | nil => rfl
  | cons v values ih =>
    obtain ⟨hv, hvalues⟩ := List.forall_mem_cons.mp h
    have hcons : (linesOf (v :: values)).toList = v.toList ++ '\n' :: (linesOf values).toList := by
      simp [linesOf, String.join_cons]
    rw [hcons, List.splitOn_append_cons_self_of_not_mem hv, ih hvalues]
    rfl

/-- What a query leaves behind of the entries of one family, once they are loaded. -/
structure Answered {f : Family} (q : Query) (k : Interval f) (es : List (Interval f × String))
    (o : Outcome) : Prop where
  outcome_eq : o = ⟨0, String.join ((q.matching es k).map fun e => e.2 ++ "\n")⟩
  sorted : es.Pairwise fun a b => a.1.Precedes b.1
  nested : (es.filter fun e => decide (e.1.Contains k)).Pairwise fun a b =>
    a.1.Contains b.1 ∧ b.1 ≠ a.1
  newline_notMem : ∀ e ∈ es, '\n' ∉ e.2.toList
  lines_eq : o.stdout.toList.splitOn '\n' = (q.matching es k).map (fun e => e.2.toList) ++ [[]]

theorem run_eq_matching {r : Registry String} (h : r.Reachable) (q : Query) {f : Family}
    (k : Interval f) : q.run r ⟨f, k⟩ = (q.matching (r.map f).toList k).map Prod.snd := by
  rw [Query.run_eq_runMap, IntervalMap.runMap_eq_matching (h.map f).wellFormed]

theorem answered_of_loads {mark : Char} {bytes : List UInt8} {l : Loaded} {f : Family}
    (hloads : Loads (Verdict.ofLines mark [] (physicalLines bytes)) l)
    (hr : l.registry.Reachable) (q : Query) (k : Interval f) :
    Answered q k (l.registry.map f).toList ⟨0, linesOf (q.run l.registry ⟨f, k⟩)⟩ := by
  have hw := (hr.map f).wellFormed
  have hvalues := run_eq_matching hr q k
  have hnewline : ∀ e ∈ (l.registry.map f).toList, '\n' ∉ e.2.toList := fun e he =>
    hloads.newline_notMem (Registry.mem_toList_iff.mpr he)
  constructor
  · rw [hvalues, linesOf, List.map_map]
    rfl
  · exact hw.sorted
  · exact IntervalMap.pairwise_contains_filter hw k
  · exact hnewline
  · have hmatching : ∀ v ∈ q.run l.registry ⟨f, k⟩, '\n' ∉ v.toList := by
      rw [hvalues]
      intro v hv
      obtain ⟨e, he, rfl⟩ := List.mem_map.mp hv
      exact hnewline e (List.mem_of_mem_filter he)
    rw [splitOn_linesOf hmatching, hvalues, List.map_map]
    rfl

/-- However its arguments are read, a wrong interval is the error of a query whatever the file is,
then what is wrong with the file. Where nothing is, the values are written that a search through
the entries of the file finds. -/
theorem run_by_matching (parse : List String → Except Outcome Invocation)
    (contents : String → Except FileError (List UInt8)) (args : List String) {i : Invocation}
    (hargs : parse args = .ok i) :
    (∀ err, Block.parse i.interval = .error err →
      i.answer (contents i.file) = .error (.badInterval err) ∧ run parse contents args = ⟨1, ""⟩) ∧
    ∀ f k, Block.parse i.interval = .ok ⟨f, k⟩ →
      let config : LoadConfig := ⟨if i.skipOverlaps then .skip else .abort, i.skipInvalid, '#'⟩
      (∀ err, (loadFile config (contents i.file)).1 = .error err →
        i.answer (contents i.file) = .error (.load err) ∧ run parse contents args = ⟨1, ""⟩) ∧
      ∀ l, (loadFile config (contents i.file)).1 = .ok l →
        (∃ bytes, contents i.file = .ok bytes ∧ ∀ j v, (j, v) ∈ (l.registry.map f).toList ↔
          Verdict.lastValue? (Verdict.entries (Verdict.ofLines '#' [] (physicalLines bytes)))
            ⟨f, j⟩ = some v) ∧
        i.answer (contents i.file) =
          .ok ((i.query.matching (l.registry.map f).toList k).map Prod.snd) ∧
        Answered i.query k (l.registry.map f).toList (run parse contents args) := by
  have hrun : run parse contents args = i.outcome (contents i.file) := by
    rw [run, hargs]
  have hconfig : i.config = ⟨if i.skipOverlaps then .skip else .abort, i.skipInvalid, '#'⟩ := rfl
  rw [hrun, Invocation.outcome, Invocation.answer, hconfig]
  refine ⟨fun err herr => ?interval, fun f k hk => ⟨fun err herr => ?file, fun l hl => ?loaded⟩⟩
  case interval =>
    rw [herr]
    exact ⟨rfl, rfl⟩
  case file =>
    rw [hk]
    dsimp only
    rw [herr]
    exact ⟨rfl, rfl⟩
  case loaded =>
    rw [hk]
    simp only [hl]
    obtain ⟨bytes, hbytes, hrun⟩ := run_of_loadFile hl
    cases hrun with
    | passed _ hloads hr =>
      refine ⟨⟨bytes, hbytes, fun j v => ?_⟩, ?_, answered_of_loads hloads hr i.query k⟩
      · rw [← Registry.mem_toList_iff]
        exact hloads.mem_iff _ v
      · rw [run_eq_matching hr]

theorem run_by_matching_of_nested_blocks :
    let contents : String → Except FileError (List UInt8) := fun file =>
      if file = "blocks" then .ok (utf8 "10.1/16 inner\n10/8 outer\n") else .error .notFound
    let i : Invocation := ⟨"blocks", .allLess, "10.1.2.3", false, true⟩
    let j : Invocation := ⟨"missing", .exact, "10/33", false, false⟩
    let parse : List String → Except Outcome Invocation
      | ["blocks", "--skip-invalid", "all-less", "10.1.2.3"] => .ok i
      | ["missing", "exact", "10/33"] => .ok j
      | _ => .error ⟨2, ""⟩
    let args := ["blocks", "--skip-invalid", "all-less", "10.1.2.3"]
    let args' := ["missing", "exact", "10/33"]
    parse args = .ok i ∧ run parse contents args = ⟨0, "outer\ninner\n"⟩ ∧
      parse args' = .ok j ∧ run parse contents args' = ⟨1, ""⟩ := by
  intro contents i j parse args args'
  let outer : Interval .v4 := ⟨0x0A000000, 0x0AFFFFFF, by decide, by decide⟩
  let inner : Interval .v4 := ⟨0x0A010000, 0x0A01FFFF, by decide, by decide⟩
  let k : Interval .v4 := ⟨0x0A010203, 0x0A010203, by decide, by decide⟩
  let l : Loaded := ⟨⟨⟨[⟨outer, .branch outer "outer" [⟨inner, .leaf inner "inner"⟩]⟩], 2⟩, .empty⟩,
    ⟨2, 0, 0, 0⟩⟩
  have hargs : parse args = .ok i := rfl
  have hargs' : parse args' = .ok j := rfl
  have hk : Block.parse i.interval = .ok ⟨.v4, k⟩ := by decide +kernel
  have hj : Block.parse j.interval = .error (.badLength "33") := by decide +kernel
  have hl : (loadFile ⟨.abort, true, '#'⟩ (contents i.file)).1 = .ok l := by decide +kernel
  have hes : (l.registry.map .v4).toList = [(outer, "outer"), (inner, "inner")] := by
    rw [IntervalMap.toList_eq]
    rfl
  obtain ⟨-, hloaded⟩ := (run_by_matching parse contents args hargs).2 .v4 k hk
  have hout := (hloaded l hl).2.2.outcome_eq
  rw [hes] at hout
  obtain ⟨hinterval, -⟩ := run_by_matching parse contents args' hargs'
  exact ⟨hargs, hout.trans (by decide +kernel), hargs', (hinterval _ hj).2⟩

end CommandLine

end Netblock
