import Netblock.Load.Log
import Netblock.Proofs.Loading
import Netblock.Proofs.Tracing

/-! # The account of a loading

No line is skipped and no value replaced in silence. Each line tells what its verdict says,
with its number, and the counts of the report are those of what the lines tell. A refusal of
the registry is told just before the line that it skips, or last of all.
-/

namespace Netblock

open Verdict

namespace LoadEvent

def hasMessage (message : String) (e : LoadEvent) : Bool := e.record.message == message

section Messages

variable (message : String) (number : Nat) (b : Block)

@[simp] theorem hasMessage_invalidLine (error : ParseError) :
    hasMessage message (invalidLine number error) = ("skipping invalid line" == message) := rfl

@[simp] theorem hasMessage_overlappingLine (error : EditError Block) :
    hasMessage message (overlappingLine number error) =
      ("skipping overlapping interval" == message) := rfl

@[simp] theorem hasMessage_replaced (previous : String) :
    hasMessage message (replaced number b previous) = ("replaced value" == message) := rfl

@[simp] theorem hasMessage_finished (report : LoadReport) :
    hasMessage message (finished report) = ("loaded intervals" == message) := rfl

@[simp] theorem hasMessage_refusedOverlap (cs : List Block) :
    hasMessage message (edit (.refusedOverlap b cs)) =
      ("rejecting intersecting interval" == message) := rfl

@[simp] theorem hasMessage_absorbing (count : Nat) :
    hasMessage message (edit (.absorbing b count)) = ("absorbing siblings" == message) := rfl

end Messages

def line? : LoadEvent → Option Nat
  | invalidLine number _ | overlappingLine number _ | replaced number _ _ => some number
  | edit _ | finished _ => none

/-- An event tells of the line with this number and verdict, after lines that brought in these
entries. -/
inductive Concerns (number : Nat) (earlier : List (Block × String)) :
    Verdict → LoadEvent → Prop where
  | invalid (error : ParseError) :
      Concerns number earlier (.invalid error) (.invalidLine number error)
  | overlapping {b : Block} {error : EditError Block}
      (blames : Blames number earlier (.overlapping b) (.overlap number error)) :
      Concerns number earlier (.overlapping b) (.overlappingLine number error)
  | replaced {b : Block} {value previous : String} (last : lastValue? earlier b = some previous) :
      Concerns number earlier (.accepted b value) (.replaced number b previous)

/-- Refusals of the registry and skipped overlaps come in pairs, one right before the other. -/
inductive Paired : List LoadEvent → Prop where
  | nil : Paired []
  | skipped {b : Block} {cs : List Block} {number : Nat} {error : EditError Block}
      {log : List LoadEvent} (h : Paired log) :
      Paired (.edit (.refusedOverlap b cs) :: .overlappingLine number error :: log)
  | other {e : LoadEvent} {log : List LoadEvent}
      (not_refused : ¬ e.hasMessage "rejecting intersecting interval")
      (not_skipped : ¬ e.hasMessage "skipping overlapping interval") (h : Paired log) :
      Paired (e :: log)

end LoadEvent

/-- What a line that does not end the loading tells, and the report with it counted. -/
inductive Told (vs : List Verdict) (r : LoadReport) :
    Verdict → LoadReport → List LoadEvent → Prop where
  | ignored : Told vs r .ignored r []
  | invalid (error : ParseError) :
      Told vs r (.invalid error) { r with skippedInvalid := r.skippedInvalid + 1 }
        [.invalidLine (vs.length + 1) error]
  | overlapping {b : Block} {cs : List Block} (blames : Blames (vs.length + 1) (entries vs)
      (.overlapping b) (.overlap (vs.length + 1) (.overlap b cs))) :
      Told vs r (.overlapping b) { r with skippedOverlaps := r.skippedOverlaps + 1 }
        [.edit (.refusedOverlap b cs), .overlappingLine (vs.length + 1) (.overlap b cs)]
  | inserted {b : Block} {value : String} (c : Nat) :
      Told vs r (.accepted b value) { r with inserted := r.inserted + 1 }
        ((if c = 0 then [] else [.absorbing b c]).map LoadEvent.edit)
  | replaced {b : Block} {value previous : String}
      (last : lastValue? (entries vs) b = some previous) :
      Told vs r (.accepted b value) { r with replaced := r.replaced + 1 }
        [.replaced (vs.length + 1) b previous]

inductive LoadError.Told : LoadError → List LoadEvent → Prop where
  | file (error : FileError) : Told (.file error) []
  | invalid (number : Nat) (error : ParseError) : Told (.invalid number error) []
  | overlap (number : Nat) (b : Block) (cs : List Block) :
      Told (.overlap number (.overlap b cs)) [.edit (.refusedOverlap b cs)]

/-- What lines tell that do not end the loading, after lines with other verdicts. -/
inductive Account : List Verdict → LoadReport → List Verdict → LoadReport →
    List LoadEvent → Prop where
  | nil (vs : List Verdict) (r : LoadReport) : Account vs r [] r []
  | cons {vs ws : List Verdict} {v : Verdict} {r next last : LoadReport}
      {log later : List LoadEvent} (told : Told vs r v next log)
      (h : Account (vs ++ [v]) next ws last later) : Account vs r (v :: ws) last (log ++ later)

section Accounts

variable {vs ws : List Verdict} {v : Verdict} {r next last : LoadReport}
  {log later : List LoadEvent} {e : LoadEvent}

structure Counts (r last : LoadReport) (log : List LoadEvent) : Prop where
  invalid_eq : last.skippedInvalid =
    r.skippedInvalid + log.countP (LoadEvent.hasMessage "skipping invalid line")
  overlaps_eq : last.skippedOverlaps =
    r.skippedOverlaps + log.countP (LoadEvent.hasMessage "skipping overlapping interval")
  replaced_eq : last.replaced = r.replaced + log.countP (LoadEvent.hasMessage "replaced value")

theorem Counts.append (h : Counts r next log) (h' : Counts next last later) :
    Counts r last (log ++ later) := by
  constructor
  · rw [h'.invalid_eq, h.invalid_eq, List.countP_append, Nat.add_assoc]
  · rw [h'.overlaps_eq, h.overlaps_eq, List.countP_append, Nat.add_assoc]
  · rw [h'.replaced_eq, h.replaced_eq, List.countP_append, Nat.add_assoc]

theorem Told.counts (h : Told vs r v next log) : Counts r next log := by
  cases h with
  | ignored => constructor <;> rfl
  | invalid => constructor <;> rfl
  | overlapping => constructor <;> rfl
  | inserted c => by_cases hc : c = 0 <;> constructor <;> simp [hc]
  | replaced => constructor <;> rfl

theorem Account.counts (h : Account vs r ws last log) : Counts r last log := by
  induction h with
  | nil => constructor <;> rfl
  | cons told _ ih => exact told.counts.append ih

theorem LoadEvent.Paired.append (h : Paired log) (h' : Paired later) : Paired (log ++ later) := by
  induction h with
  | nil => exact h'
  | skipped _ ih => exact .skipped ih
  | other not_refused not_skipped _ ih => exact .other not_refused not_skipped ih

theorem LoadEvent.Paired.count_eq (h : Paired log) :
    log.countP (hasMessage "rejecting intersecting interval") =
      log.countP (hasMessage "skipping overlapping interval") := by
  induction h with
  | nil => rfl
  | skipped _ ih => simp [ih]
  | other not_refused not_skipped _ ih =>
    rw [List.countP_cons_of_neg not_refused, List.countP_cons_of_neg not_skipped, ih]

theorem Told.paired (h : Told vs r v next log) : LoadEvent.Paired log := by
  cases h with
  | ignored => exact .nil
  | invalid => exact .other (by simp) (by simp) .nil
  | overlapping => exact .skipped .nil
  | inserted c =>
    by_cases hc : c = 0
    · simpa [hc] using .nil
    · simpa [hc] using .other (by simp) (by simp) .nil
  | replaced => exact .other (by simp) (by simp) .nil

theorem Account.paired (h : Account vs r ws last log) : LoadEvent.Paired log := by
  induction h with
  | nil => exact .nil
  | cons told _ ih => exact told.paired.append ih

theorem Told.lines (h : Told vs r v next log) :
    log.filterMap LoadEvent.line? = [] ∨ log.filterMap LoadEvent.line? = [vs.length + 1] := by
  cases h with
  | ignored => exact .inl rfl
  | invalid => exact .inr rfl
  | overlapping => exact .inr rfl
  | inserted c => by_cases hc : c = 0 <;> simp [hc, LoadEvent.line?]
  | replaced => exact .inr rfl

theorem Account.lines (h : Account vs r ws last log) :
    (log.filterMap LoadEvent.line?).Pairwise (· < ·) ∧
      ∀ n ∈ log.filterMap LoadEvent.line?, vs.length < n := by
  induction h with
  | nil => simp
  | @cons vs ws v r next last log later told _ ih =>
    obtain ⟨hsorted, hlater⟩ := ih
    rw [List.length_append, List.length_singleton] at hlater
    rw [List.filterMap_append]
    rcases told.lines with hlog | hlog
    · rw [hlog]
      exact ⟨hsorted, fun n hn => Nat.lt_of_succ_lt (hlater n hn)⟩
    · rw [hlog]
      refine ⟨List.pairwise_cons.mpr ⟨hlater, hsorted⟩, List.forall_mem_cons.mpr ⟨?_, ?_⟩⟩
      · exact Nat.lt_succ_self vs.length
      · exact fun n hn => Nat.lt_of_succ_lt (hlater n hn)

theorem Told.concerns (h : Told vs r v next log) (he : e ∈ log) (hline : e.line?.isSome = true) :
    e.Concerns (vs.length + 1) (entries vs) v := by
  cases h with
  | ignored => cases he
  | invalid error =>
    obtain rfl := List.mem_singleton.mp he
    exact .invalid error
  | overlapping blames =>
    rcases List.mem_pair.mp he with rfl | rfl
    · cases hline
    · exact .overlapping blames
  | inserted =>
    obtain ⟨event, -, rfl⟩ := List.mem_map.mp he
    cases hline
  | replaced last =>
    obtain rfl := List.mem_singleton.mp he
    exact .replaced last

theorem Account.concerns (h : Account vs r ws last log) (he : e ∈ log)
    (hline : e.line?.isSome = true) : ∃ before v after, ws = before ++ v :: after ∧
      e.Concerns (vs.length + before.length + 1) (entries (vs ++ before)) v := by
  induction h with
  | nil => cases he
  | @cons vs ws v r next last log later told _ ih =>
    rcases List.mem_append.mp he with he | he
    · exact ⟨[], v, ws, rfl, by simpa using told.concerns he hline⟩
    · obtain ⟨before, w, after, rfl, hw⟩ := ih he
      refine ⟨v :: before, w, after, rfl, ?_⟩
      simpa [Nat.add_right_comm, Nat.add_assoc] using hw

theorem Told.not_finished (h : Told vs r v next log) (he : e ∈ log) :
    ¬ e.hasMessage "loaded intervals" := by
  cases h with
  | ignored => cases he
  | invalid =>
    obtain rfl := List.mem_singleton.mp he
    simp
  | overlapping =>
    rcases List.mem_pair.mp he with rfl | rfl <;> simp
  | inserted c =>
    obtain ⟨event, hevent, rfl⟩ := List.mem_map.mp he
    by_cases hc : c = 0
    · simp [hc] at hevent
    · obtain rfl : event = _ := by simpa [hc] using hevent
      simp
  | replaced =>
    obtain rfl := List.mem_singleton.mp he
    simp

theorem Account.not_finished (h : Account vs r ws last log) (he : e ∈ log) :
    ¬ e.hasMessage "loaded intervals" := by
  induction h with
  | nil => cases he
  | cons told _ ih =>
    rcases List.mem_append.mp he with he | he
    · exact told.not_finished he
    · exact ih he

theorem LoadError.Told.not_finished {err : LoadError} (h : err.Told log) (he : e ∈ log) :
    ¬ e.hasMessage "loaded intervals" := by
  cases h with
  | file => cases he
  | invalid => cases he
  | overlap =>
    obtain rfl := List.mem_singleton.mp he
    simp

theorem LoadError.Told.count_eq {err : LoadError} (h : err.Told log) :
    log.countP (LoadEvent.hasMessage "rejecting intersecting interval") =
      log.countP (LoadEvent.hasMessage "skipping overlapping interval") + log.length := by
  cases h <;> simp

end Accounts

inductive Telling (vs : List Verdict) (r : LoadReport) (v : Verdict) :
    Except LoadError Loaded × List LoadEvent → Prop where
  | passed {l : Loaded} {log : List LoadEvent} (told : Told vs r v l.report log) :
      Telling vs r v (.ok l, log)
  | ended {err : LoadError} {log : List LoadEvent} (told : err.Told log) :
      Telling vs r v (.error err, log)

/-- All lines are told of, and the loading is finished; or those are before the one that
ends it. -/
inductive Recounts (vs : List Verdict) (r : LoadReport) (ws : List Verdict) :
    Except LoadError Loaded × List LoadEvent → Prop where
  | passed {l : Loaded} {log : List LoadEvent} (account : Account vs r ws l.report log) :
      Recounts vs r ws (.ok l, log ++ [.finished l.report])
  | ended {before after : List Verdict} {last : LoadReport} {err : LoadError}
      {log ending : List LoadEvent} (split : ws = before ++ after)
      (account : Account vs r before last log) (told : err.Told ending) :
      Recounts vs r ws (.error err, log ++ ending)

theorem Registry.insert_traced {V : Type} {r : Registry V} (h : r.Reachable) (b : Block) (v : V) :
    Traced b ((r.map b.family).outermostEntries b.interval).length (r.insert b v) := by
  have ht := IntervalMap.insert_traced (h.map b.family).wellFormed b.interval v
  exact (ht.map (r.setMap b.family)).mapKeys (Block.mk b.family)

namespace Loads

variable {config : LoadConfig} {vs : List Verdict} {l : Loaded}

theorem telling_enter (h : Loads vs l) (hr : l.registry.Reachable) (b : Block) (value : String) :
    Telling vs l.report
      (if ∃ e ∈ entries vs, e.1.PartlyOverlaps b then .overlapping b else .accepted b value)
      (l.enter config (vs.length + 1) b value) := by
  have he := Registry.insert_entered hr b value
  have ht := Registry.insert_traced hr b value
  have hb := fun err (herr : (l.registry.insert b value).result = .error err) =>
    h.blames_overlapping hr herr (vs.length + 1)
  rw [Loaded.enter]
  generalize l.registry.insert b value = e at he ht hb
  cases he with
  | fresh _ nests =>
    rw [if_neg (h.nests_iff.mp nests)]
    cases ht with
    | fresh => exact .passed (.inserted _)
  | replaced mem nests =>
    rw [if_neg (h.nests_iff.mp nests)]
    cases ht with
    | replaced => exact .passed (.replaced ((h.mem_iff b _).mp mem))
  | refused not_nests =>
    rw [if_pos (not_not.mp fun hn => not_nests (h.nests_iff.mpr hn))]
    cases ht with
    | @refused _ cs =>
      simp only
      cases config.onOverlap with
      | skip => exact .passed (.overlapping (hb _ rfl))
      | abort => exact .ended (.overlap _ b cs)

theorem telling_enterLine (h : Loads vs l) (config : LoadConfig) (hr : l.registry.Reachable)
    {bytes : List UInt8} {text : List Char} (ht : decodeText? bytes = some text) :
    Telling vs l.report (ofLine config.commentMark (entries vs) bytes)
      (l.enterLine config (vs.length + 1) (Line.read config.commentMark text)) := by
  simp only [ofLine, ht, Line.read]
  split
  · exact .passed .ignored
  · cases Block.read (splitKey (Text.trim text)).1 with
    | ok b => exact h.telling_enter hr b _
    | error e =>
      simp only [Loaded.enterLine]
      cases config.skipInvalid with
      | true => exact .passed (.invalid e)
      | false => exact .ended (.invalid _ e)

end Loads

theorem Recounts.cons {vs ws : List Verdict} {v : Verdict} {r next : LoadReport}
    {log later : List LoadEvent} {result : Except LoadError Loaded}
    (told : Told vs r v next log) (h : Recounts (vs ++ [v]) next ws (result, later)) :
    Recounts vs r (v :: ws) (result, log ++ later) := by
  cases h with
  | passed account =>
    rw [← List.append_assoc]
    exact .passed (.cons told account)
  | ended split account ending =>
    rw [← List.append_assoc]
    exact .ended (congrArg (v :: ·) split) (.cons told account) ending

theorem Loads.recounts_enterLines {vs : List Verdict} {l : Loaded} (h : Loads vs l)
    (config : LoadConfig) (hr : l.registry.Reachable) (lines : List (List UInt8)) :
    Recounts vs l.report (ofLines config.commentMark (entries vs) lines)
      (l.enterLines config (vs.length + 1) lines) := by
  induction lines generalizing vs l with
  | nil => exact .passed (.nil vs l.report)
  | cons bytes rest ih =>
    rw [ofLines, Loaded.enterLines]
    cases ht : decodeText? bytes with
    | none => exact .ended rfl (.nil vs l.report) (.file .notUtf8)
    | some text =>
      have hstep := h.step_enterLine config hr ht
      have htelling := h.telling_enterLine config hr ht
      generalize ofLine config.commentMark (entries vs) bytes = v at hstep htelling
      dsimp only
      generalize l.enterLine config (vs.length + 1) (Line.read config.commentMark text) = e
        at hstep htelling
      cases htelling with
      | ended told => exact .ended rfl (.nil vs l.report) told
      | passed told =>
        cases hstep with
        | passed _ loads reachable =>
          have hlater := ih loads reachable
          rw [entries_append, entries_singleton, List.length_append, List.length_singleton]
            at hlater
          exact .cons told hlater

theorem load_recounts (config : LoadConfig) (bytes : List UInt8) :
    Recounts [] {} (ofLines config.commentMark [] (physicalLines bytes)) (load config bytes) :=
  Loads.empty.recounts_enterLines config .empty (physicalLines bytes)

/-- A loading that succeeds tells of each line that it skips and each value that it replaces, as
often as its report counts them, and of the report in the end. One that fails tells no report. The
registry tells of a refusal just before the line is skipped, or else as the loading fails. -/
theorem load_tells_lines (config : LoadConfig) (bytes : List UInt8) :
    let vs := ofLines config.commentMark [] (physicalLines bytes)
    let log := (load config bytes).2
    (∀ l, (load config bytes).1 = .ok l →
      log.countP (LoadEvent.hasMessage "skipping invalid line") = l.report.skippedInvalid ∧
      log.countP (LoadEvent.hasMessage "skipping overlapping interval") =
        l.report.skippedOverlaps ∧
      log.countP (LoadEvent.hasMessage "replaced value") = l.report.replaced ∧
      (log.filterMap LoadEvent.line?).Pairwise (· < ·) ∧
      (∀ e ∈ log, e.line?.isSome → ∃ before v after, vs = before ++ v :: after ∧
        e.Concerns (before.length + 1) (entries before) v) ∧
      LoadEvent.Paired log ∧
      ∃ body, log = body ++ [.finished l.report] ∧
        ∀ e ∈ body, ¬ e.hasMessage "loaded intervals") ∧
    ∀ err, (load config bytes).1 = .error err →
      (∀ e ∈ log, ¬ e.hasMessage "loaded intervals") ∧
      ∃ body ending, log = body ++ ending ∧ err.Told ending ∧ LoadEvent.Paired body ∧
        log.countP (LoadEvent.hasMessage "rejecting intersecting interval") =
          log.countP (LoadEvent.hasMessage "skipping overlapping interval") + ending.length := by
  intro vs
  have hrun : Recounts [] {} vs (load config bytes) := load_recounts config bytes
  dsimp only
  generalize load config bytes = loading at hrun
  cases hrun with
  | @passed l body account =>
    refine ⟨?_, nofun⟩
    rintro _ ⟨⟩
    have hcounts := account.counts
    refine ⟨?_, ?_, ?_, ?_, ?_, ?_, body, rfl, fun e he => account.not_finished he⟩
    · simp [hcounts.invalid_eq]
    · simp [hcounts.overlaps_eq]
    · simp [hcounts.replaced_eq]
    · simpa [List.filterMap_cons, LoadEvent.line?] using account.lines.1
    · intro e he hline
      rcases List.mem_append.mp he with he | he
      · simpa using account.concerns he hline
      · obtain rfl := List.mem_singleton.mp he
        cases hline
    · exact account.paired.append (.other (by simp) (by simp) .nil)
  | @ended before after last err body ending split account told =>
    refine ⟨nofun, ?_⟩
    rintro _ ⟨⟩
    refine ⟨?_, body, ending, rfl, told, account.paired, ?_⟩
    · intro e he
      rcases List.mem_append.mp he with he | he
      · exact account.not_finished he
      · exact told.not_finished he
    · simp only [List.countP_append, account.paired.count_eq, told.count_eq, Nat.add_assoc]

theorem load_tells_lines_of_overlap :
    let bytes :=
      "0.0.0.1 - 0.0.0.4 a\nx\n0.0.0.1-0.0.0.4 b\n0.0.0.3 - 0.0.0.6\n".toUTF8.data.toList
    let b : Block := ⟨.v4, 1, 4, by decide, by decide⟩
    let c : Block := ⟨.v4, 3, 6, by decide, by decide⟩
    let config : LoadConfig := { skipInvalid := true }
    let skip : LoadConfig := { config with onOverlap := .skip }
    let l : Loaded := ⟨⟨⟨[⟨b.interval, .leaf b.interval "b"⟩], 1⟩, .empty⟩, ⟨1, 1, 1, 1⟩⟩
    let err := LoadError.overlap 4 (.overlap c [b])
    let log := (load skip bytes).2
    (load skip bytes).1 = .ok l ∧ log.filterMap LoadEvent.line? = [2, 3, 4] ∧
      log.countP (LoadEvent.hasMessage "skipping invalid line") = 1 ∧
      log.countP (LoadEvent.hasMessage "skipping overlapping interval") = 1 ∧
      log.countP (LoadEvent.hasMessage "replaced value") = 1 ∧
      log.getLast? = some (.finished ⟨1, 1, 1, 1⟩) ∧
      (load config bytes).1 = .error err ∧
      (load config bytes).2.getLast? = some (.edit (.refusedOverlap c [b])) := by
  intro bytes b c config skip l err log
  have hskip : (load skip bytes).1 = .ok l := by decide +kernel
  have hload : (load config bytes).1 = .error err := by decide +kernel
  have hlines : log.filterMap LoadEvent.line? = [2, 3, 4] := by decide +kernel
  obtain ⟨hok, -⟩ := load_tells_lines skip bytes
  obtain ⟨hinvalid, hoverlaps, hreplaced, -, -, -, body, hbody, -⟩ := hok l hskip
  obtain ⟨-, herr⟩ := load_tells_lines config bytes
  obtain ⟨-, body', ending, hending, told, -, -⟩ := herr err hload
  refine ⟨hskip, hlines, hinvalid, hoverlaps, hreplaced, ?_, hload, ?_⟩
  · have hlog : log = body ++ [.finished l.report] := hbody
    rw [hlog, List.getLast?_concat]
  · have told : (LoadError.overlap 4 (.overlap c [b])).Told ending := told
    cases told with
    | overlap => rw [hending, List.getLast?_concat]

end Netblock
