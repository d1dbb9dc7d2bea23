import Netblock.Load
import Netblock.Proofs.Refusals
import Netblock.Proofs.Registering

/-! # What a loading does

Every line of a file has a verdict, which depends on the entries of the lines before it and
on nothing that a loading has built. A loading succeeds where the configuration lets every
verdict pass, and then has the last value of each accepted block. Otherwise it ends at the
first line that does not pass.
-/

namespace Netblock

/-- What becomes of a line. -/
inductive Verdict where
  | undecodable
  | ignored
  | invalid (error : ParseError)
  | overlapping (block : Block)
  | accepted (block : Block) (value : String)
  deriving DecidableEq

namespace Verdict

/-- The verdict on a line after lines that brought in these entries. A blank line is ignored,
and so is one that starts with `mark` once it is trimmed. -/
def ofLine (mark : Char) (earlier : List (Block × String)) (bytes : List UInt8) : Verdict :=
  match decodeText? bytes with
  | none => undecodable
  | some text =>
    let line := Text.trim text
    if line = [] ∨ line.head? = some mark then ignored
    else match Block.read (splitKey line).1 with
      | .error e => invalid e
      | .ok b =>
        if ∃ e ∈ earlier, e.1.PartlyOverlaps b then overlapping b
        else accepted b (String.ofList (splitKey line).2)

def entry? : Verdict → Option (Block × String)
  | accepted b v => some (b, v)
  | undecodable | ignored | invalid _ | overlapping _ => none

def entries (vs : List Verdict) : List (Block × String) := vs.filterMap entry?

def lastValue? (es : List (Block × String)) (b : Block) : Option String := es.reverse.lookup b

def ofLines (mark : Char) : List (Block × String) → List (List UInt8) → List Verdict
  | _, [] => []
  | earlier, line :: rest =>
    let v := ofLine mark earlier line
    v :: ofLines mark (earlier ++ v.entry?.toList) rest

/-- A line with this verdict ends the loading. -/
def Offends (config : LoadConfig) : Verdict → Prop
  | undecodable => True
  | invalid _ => config.skipInvalid = false
  | overlapping _ => config.onOverlap = .abort
  | ignored | accepted _ _ => False

instance (config : LoadConfig) : DecidablePred (Offends config) := fun v => by
  cases v <;> unfold Offends <;> infer_instance

def isOverlapping : Verdict → Bool
  | overlapping _ => true
  | undecodable | ignored | invalid _ | accepted _ _ => false

def isInvalid : Verdict → Bool
  | invalid _ => true
  | undecodable | ignored | overlapping _ | accepted _ _ => false

def intervals (f : Family) (es : List (Block × String)) : List (Interval f) :=
  es.filterMap fun e => e.1.ofFamily? f

/-- The error of a line with this number and verdict, after lines that brought in these
entries. An overlap names the outermost intervals that are partly overlapped, in order. -/
inductive Blames (number : Nat) (earlier : List (Block × String)) : Verdict → LoadError → Prop where
  | undecodable : Blames number earlier .undecodable (.file .notUtf8)
  | invalid (e : ParseError) : Blames number earlier (.invalid e) (.invalid number e)
  | overlapping {f : Family} {k : Interval f} {cs : List (Interval f)}
      (mem_iff : ∀ i, i ∈ cs ↔ i ∈ intervals f earlier ∧
        Interval.Outermost (fun j => j.PartlyOverlaps k) (intervals f earlier) i)
      (sorted : cs.Pairwise Interval.Before) :
      Blames number earlier (.overlapping ⟨f, k⟩)
        (.overlap number (.overlap ⟨f, k⟩ (cs.map (Block.mk f))))

theorem entries_append (vs ws : List Verdict) : entries (vs ++ ws) = entries vs ++ entries ws :=
  List.filterMap_append ..

theorem entries_singleton (v : Verdict) : entries [v] = v.entry?.toList := by
  cases h : v.entry? <;> simp [entries, h]

section Values

variable {es : List (Block × String)} {b c : Block} {v : String}

theorem lastValue?_append_singleton (es : List (Block × String)) (b c : Block) (v : String) :
    lastValue? (es ++ [(b, v)]) c = if c = b then some v else lastValue? es c := by
  by_cases h : c = b
  · simp [lastValue?, h]
  · simp [lastValue?, List.lookup_cons, h, beq_eq_false_iff_ne.mpr h]

theorem mem_of_lastValue? (h : lastValue? es b = some v) : (b, v) ∈ es := by
  obtain ⟨X, Y, hes, -⟩ := List.lookup_eq_some_iff.mp h
  rw [← List.mem_reverse, hes]
  exact List.mem_append_right X List.mem_cons_self

theorem exists_lastValue? (h : (b, v) ∈ es) : ∃ w, lastValue? es b = some w := by
  rw [← Option.isSome_iff_exists, lastValue?, List.lookup_isSome_iff]
  exact ⟨(b, v), List.mem_reverse.mpr h, beq_self_eq_true b⟩

theorem lastValue?_eq_some_iff (h : ∀ w, (b, v) ∈ es → (b, w) ∈ es → v = w) :
    lastValue? es b = some v ↔ (b, v) ∈ es := by
  constructor
  · exact mem_of_lastValue?
  · intro hv
    obtain ⟨w, hw⟩ := exists_lastValue? hv
    rw [hw, h w hv (mem_of_lastValue? hw)]

end Values

end Verdict

open Verdict

/-- What has been loaded after lines with these verdicts, none of which ended the loading. -/
structure Loads (vs : List Verdict) (l : Loaded) : Prop where
  mem_iff : ∀ b v, (b, v) ∈ l.registry.toList ↔ lastValue? (entries vs) b = some v
  inserted_eq : l.report.inserted = l.registry.size
  accepted_eq : l.report.inserted + l.report.replaced = (entries vs).length
  overlaps_eq : l.report.skippedOverlaps = vs.countP isOverlapping
  invalid_eq : l.report.skippedInvalid = vs.countP isInvalid

inductive Loads.Step (config : LoadConfig) (vs : List Verdict) (v : Verdict) :
    Except LoadError Loaded → Prop where
  | passed {l : Loaded} (not_offends : ¬ v.Offends config) (loads : Loads (vs ++ [v]) l)
      (reachable : l.registry.Reachable) : Step config vs v (.ok l)
  | ended {err : LoadError} (offends : v.Offends config)
      (blames : Blames (vs.length + 1) (entries vs) v err) : Step config vs v (.error err)

namespace Loads

variable {config : LoadConfig} {vs : List Verdict} {l : Loaded} {b : Block} {value : String}
  {f : Family}

theorem empty : Loads [] {} := by
  constructor
  · simp [entries, lastValue?, Registry.toList, Registry.empty, IntervalMap.toList_eq,
      IntervalMap.empty]
  all_goals rfl

theorem exists_mem_iff (h : Loads vs l) :
    (∃ v, (b, v) ∈ l.registry.toList) ↔ ∃ v, (b, v) ∈ entries vs := by
  simp only [h.mem_iff]
  constructor
  · rintro ⟨v, hv⟩
    exact ⟨v, mem_of_lastValue? hv⟩
  · rintro ⟨v, hv⟩
    exact exists_lastValue? hv

theorem nests_iff (h : Loads vs l) :
    l.registry.Nests b ↔ ¬ ∃ e ∈ entries vs, e.1.PartlyOverlaps b := by
  rw [Registry.Nests]
  constructor
  · rintro hn ⟨⟨c, v⟩, he, hp⟩
    obtain ⟨w, hw⟩ := h.exists_mem_iff.mpr ⟨v, he⟩
    exact hn _ hw hp
  · rintro hn ⟨c, v⟩ he hp
    obtain ⟨w, hw⟩ := h.exists_mem_iff.mp ⟨v, he⟩
    exact hn ⟨_, hw, hp⟩

theorem mem_intervals_iff (h : Loads vs l) {i : Interval f} :
    i ∈ intervals f (entries vs) ↔ i ∈ (l.registry.map f).toList.map Prod.fst := by
  have hi := h.exists_mem_iff (b := ⟨f, i⟩)
  simp only [Registry.mem_toList_iff] at hi
  simp only [intervals, List.mem_filterMap, Block.ofFamily?_eq_some_iff, List.mem_map]
  constructor
  · rintro ⟨⟨_, v⟩, he, rfl⟩
    obtain ⟨w, hw⟩ := hi.mpr ⟨v, he⟩
    exact ⟨_, hw, rfl⟩
  · rintro ⟨⟨_, v⟩, he, rfl⟩
    obtain ⟨w, hw⟩ := hi.mp ⟨v, he⟩
    exact ⟨_, hw, rfl⟩

theorem pass (h : Loads vs l) (v : Verdict) (he : v.entry? = none) {report : LoadReport}
    (hi : report.inserted = l.report.inserted) (hr : report.replaced = l.report.replaced)
    (ho : report.skippedOverlaps = l.report.skippedOverlaps + if v.isOverlapping then 1 else 0)
    (hn : report.skippedInvalid = l.report.skippedInvalid + if v.isInvalid then 1 else 0) :
    Loads (vs ++ [v]) ⟨l.registry, report⟩ := by
  have hes : entries (vs ++ [v]) = entries vs := by
    simp [entries_append, entries_singleton, he]
  constructor
  · simpa only [hes] using h.mem_iff
  · exact hi.trans h.inserted_eq
  · rw [hes, hi, hr, h.accepted_eq]
  · simp [ho, h.overlaps_eq, List.countP_append, List.countP_cons]
  · simp [hn, h.invalid_eq, List.countP_append, List.countP_cons]

theorem accept (h : Loads vs l) {after : Registry String}
    (sets : Registry.Sets b value l.registry after) {report : LoadReport}
    (hi : report.inserted = after.size)
    (hr : report.inserted + report.replaced = l.report.inserted + l.report.replaced + 1)
    (ho : report.skippedOverlaps = l.report.skippedOverlaps)
    (hn : report.skippedInvalid = l.report.skippedInvalid) :
    Loads (vs ++ [.accepted b value]) ⟨after, report⟩ := by
  have hes : entries (vs ++ [.accepted b value]) = entries vs ++ [(b, value)] := entries_append ..
  constructor
  · intro c w
    rw [sets, hes, lastValue?_append_singleton]
    split
    · rw [Option.some_inj, eq_comm]
    · exact h.mem_iff c w
  · exact hi
  · rw [hes, hr, h.accepted_eq, List.length_append, List.length_singleton]
  · simp [ho, h.overlaps_eq, List.countP_append, isOverlapping]
  · simp [hn, h.invalid_eq, List.countP_append, isInvalid]

theorem blames_overlapping (h : Loads vs l) (hr : l.registry.Reachable) {err : EditError Block}
    (he : (l.registry.insert b value).result = .error err) (number : Nat) :
    Blames number (entries vs) (.overlapping b) (.overlap number err) := by
  obtain ⟨f, k⟩ := b
  obtain ⟨cs, rfl, hcs, sorted, -⟩ := Registry.refusal_of_insert hr he
  refine .overlapping (fun i => ?_) sorted
  have hm (j) := h.mem_intervals_iff (f := f) (i := j)
  rw [hcs, Interval.outermostOverlaps, List.mem_filter, decide_eq_true_iff]
  simp only [Interval.Outermost, hm]

/-- A block is refused just where it overlaps one of the lines before. -/
theorem step_enter (h : Loads vs l) (hr : l.registry.Reachable) (b : Block) (value : String) :
    Step config vs
      (if ∃ e ∈ entries vs, e.1.PartlyOverlaps b then .overlapping b else .accepted b value)
      (l.enter config (vs.length + 1) b value).1 := by
  have he := Registry.insert_entered hr b value
  have ha := hr.insert b value
  have hb := fun err (herr : (l.registry.insert b value).result = .error err) =>
    h.blames_overlapping hr herr (vs.length + 1)
  rw [Loaded.enter]
  generalize l.registry.insert b value = e at he ha hb
  cases he with
  | fresh _ nests sets size_eq =>
    rw [if_neg (h.nests_iff.mp nests)]
    refine .passed id (h.accept sets ?_ ?_ rfl rfl) ha
    · rw [size_eq, h.inserted_eq]
    · simp only
      omega
  | replaced _ nests sets size_eq =>
    rw [if_neg (h.nests_iff.mp nests)]
    refine .passed id (h.accept sets ?_ ?_ rfl rfl) ha
    · rw [size_eq, h.inserted_eq]
    · simp only
      omega
  | refused not_nests =>
    rw [if_pos (not_not.mp fun hn => not_nests (h.nests_iff.mpr hn))]
    simp only
    cases hp : config.onOverlap with
    | skip => exact .passed (by simp [Offends, hp]) (h.pass _ rfl rfl rfl rfl rfl) ha
    | abort => exact .ended hp (hb _ rfl)

theorem step_enterLine (h : Loads vs l) (config : LoadConfig) (hr : l.registry.Reachable)
    {bytes : List UInt8} {text : List Char} (ht : decodeText? bytes = some text) :
    Step config vs (ofLine config.commentMark (entries vs) bytes)
      (l.enterLine config (vs.length + 1) (Line.read config.commentMark text)).1 := by
  simp only [ofLine, ht, Line.read]
  split
  · exact .passed id (h.pass _ rfl rfl rfl rfl rfl) hr
  · cases Block.read (splitKey (Text.trim text)).1 with
    | ok b => exact h.step_enter hr b _
    | error e =>
      simp only [Loaded.enterLine]
      cases hs : config.skipInvalid with
      | true => exact .passed (by simp [Offends, hs]) (h.pass _ rfl rfl rfl rfl rfl) hr
      | false => exact .ended hs (.invalid e)

end Loads

/-- What lines with verdicts do after lines with others: all of them pass, or the first that
does not pass ends the loading. -/
inductive Loads.Run (config : LoadConfig) (vs ws : List Verdict) :
    Except LoadError Loaded → Prop where
  | passed {l : Loaded} (not_offends : ∀ v ∈ ws, ¬ v.Offends config) (loads : Loads (vs ++ ws) l)
      (reachable : l.registry.Reachable) : Run config vs ws (.ok l)
  | ended (before : List Verdict) {after : List Verdict} {v : Verdict} {err : LoadError}
      (split : ws = before ++ v :: after) (not_offends : ∀ w ∈ before, ¬ w.Offends config)
      (offends : v.Offends config)
      (blames : Blames (vs.length + before.length + 1) (entries (vs ++ before)) v err) :
      Run config vs ws (.error err)

theorem Loads.Run.cons {config : LoadConfig} {vs ws : List Verdict} {v : Verdict}
    {result : Except LoadError Loaded} (h : Run config (vs ++ [v]) ws result)
    (hv : ¬ v.Offends config) : Run config vs (v :: ws) result := by
  cases h with
  | passed not_offends loads reachable =>
    refine .passed (List.forall_mem_cons.mpr ⟨hv, not_offends⟩) ?_ reachable
    simpa using loads
  | ended before split not_offends offends blames =>
    refine .ended (v :: before) (congrArg (v :: ·) split)
      (List.forall_mem_cons.mpr ⟨hv, not_offends⟩) offends ?_
    simpa [Nat.add_right_comm, Nat.add_assoc] using blames

theorem Loads.run_enterLines {vs : List Verdict} {l : Loaded} (h : Loads vs l)
    (config : LoadConfig) (hr : l.registry.Reachable) (lines : List (List UInt8)) :
    Run config vs (ofLines config.commentMark (entries vs) lines)
      (l.enterLines config (vs.length + 1) lines).1 := by
  induction lines generalizing vs l with
  | nil => exact .passed (by simp [ofLines]) (by simpa [ofLines] using h) hr
  | cons bytes rest ih =>
    rw [ofLines, Loaded.enterLines]
    cases ht : decodeText? bytes with
    | none =>
      rw [ofLine, ht]
      exact .ended [] rfl (by simp) trivial (by simpa using .undecodable)
    | some text =>
      have hs := h.step_enterLine config hr ht
      generalize ofLine config.commentMark (entries vs) bytes = v at hs
      dsimp only
      generalize l.enterLine config (vs.length + 1) (Line.read config.commentMark text) = e at hs
      obtain ⟨result, events⟩ := e
      dsimp only at hs
      cases hs with
      | ended offends blames =>
        exact .ended [] rfl (by simp) offends (by simpa using blames)
      | passed not_offends loads reachable =>
        refine Run.cons ?_ not_offends
        have hrun := ih loads reachable
        rwa [entries_append, entries_singleton, List.length_append, List.length_singleton] at hrun

theorem load_run (config : LoadConfig) (bytes : List UInt8) :
    Loads.Run config [] (ofLines config.commentMark [] (physicalLines bytes))
      (load config bytes).1 :=
  Loads.empty.run_enterLines config .empty (physicalLines bytes)

/-- A loading fails just where a verdict does not pass. It then ends with the error of the first
such line, and otherwise with what the accepted lines bring in. -/
theorem load_by_verdicts (config : LoadConfig) (bytes : List UInt8) :
    let vs := ofLines config.commentMark [] (physicalLines bytes)
    ((∃ err, (load config bytes).1 = .error err) ↔ ∃ v ∈ vs, v.Offends config) ∧
    (∀ err, (load config bytes).1 = .error err →
      ∃ before v after, vs = before ++ v :: after ∧ (∀ w ∈ before, ¬ w.Offends config) ∧
        v.Offends config ∧ Blames (before.length + 1) (entries before) v err) ∧
    ∀ l, (load config bytes).1 = .ok l → Loads vs l := by
  intro vs
  have hrun : Loads.Run config [] vs (load config bytes).1 := load_run config bytes
  generalize (load config bytes).1 = result at hrun
  cases hrun with
  | passed not_offends loads =>
    refine ⟨⟨nofun, ?_⟩, nofun, ?_⟩
    · rintro ⟨v, hv, h⟩
      exact absurd h (not_offends v hv)
    · rintro _ ⟨⟩
      exact loads
  | @ended before after v err split not_offends offends blames =>
    refine ⟨⟨fun _ => ⟨v, ?_, offends⟩, fun _ => ⟨err, rfl⟩⟩, ?_, nofun⟩
    · simp [split]
    · rintro _ ⟨⟩
      refine ⟨before, v, after, split, not_offends, offends, ?_⟩
      simpa using blames

theorem load_by_verdicts_of_overlap :
    let bytes :=
      "0.0.0.1 - 0.0.0.4 a\n#\n0.0.0.1-0.0.0.4 b\n0.0.0.3 - 0.0.0.6\n".toUTF8.data.toList
    let b : Block := ⟨.v4, 1, 4, by decide, by decide⟩
    let c : Block := ⟨.v4, 3, 6, by decide, by decide⟩
    let before := [.accepted b "a", .ignored, .accepted b "b"]
    let err := LoadError.overlap 4 (.overlap c [b])
    let skip : LoadConfig := { onOverlap := .skip }
    let l : Loaded := ⟨⟨⟨[⟨b.interval, .leaf b.interval "b"⟩], 1⟩, .empty⟩, ⟨1, 1, 1, 0⟩⟩
    (load {} bytes).1 = .error err ∧
      (∃ v ∈ before ++ [.overlapping c], v.Offends {}) ∧
      (∃ earlier v after, before ++ [.overlapping c] = earlier ++ v :: after ∧
        (∀ w ∈ earlier, ¬ w.Offends {}) ∧ v.Offends {} ∧
        Blames (earlier.length + 1) (entries earlier) v err) ∧
      (load skip bytes).1 = .ok l ∧ Loads (before ++ [.overlapping c]) l := by
  intro bytes b c before err skip l
  have hvs : ofLines '#' [] (physicalLines bytes) = before ++ [.overlapping c] := by
    decide +kernel
  have hload : (load {} bytes).1 = .error err := by decide +kernel
  have hskip : (load skip bytes).1 = .ok l := by decide +kernel
  obtain ⟨hfails, hblames, -⟩ := load_by_verdicts {} bytes
  obtain ⟨-, -, hloads⟩ := load_by_verdicts skip bytes
  rw [hvs] at hfails hblames hloads
  exact ⟨hload, hfails.mp ⟨err, hload⟩, hblames err hload, hskip, hloads l hskip⟩

end Netblock
