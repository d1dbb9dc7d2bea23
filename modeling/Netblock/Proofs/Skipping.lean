import Netblock.Proofs.Accounting
import Netblock.Proofs.Lines

/-! # Skipped lines

A line that a loading skips leaves no trace but its count: a file loads as it would if its
skipped lines were deleted. A loading that skips nothing is the strict one, and one that skips
all it can fails at no text.
-/

namespace Netblock

open Verdict

def LoadConfig.strict (config : LoadConfig) : LoadConfig :=
  { config with onOverlap := .abort, skipInvalid := false }

def LoadEvent.skipped? : LoadEvent → Option Nat
  | invalidLine number _ | overlappingLine number _ => some number
  | edit _ | replaced _ _ _ | finished _ => none

/-- The numbers of the lines that a loading with these events has skipped. -/
def skippedLines (events : List LoadEvent) : List Nat := events.filterMap LoadEvent.skipped?

/-- A file without the lines of these numbers, where the first line has the number `n`. With a
line goes the line break that ends it. -/
def deleteLines (gone : List Nat) : Nat → List UInt8 → List UInt8
  | _, [] => []
  | n, x :: xs =>
    let rest := deleteLines gone (if x = '\n'.toUInt8 then n + 1 else n) xs
    if n ∈ gone then rest else x :: rest

section Deleting

variable {α : Type} {line : List UInt8}

def dropNumbered (gone : List Nat) (n : Nat) (items : List α) : List α :=
  ((items.zipIdx n).filter fun p => p.2 ∉ gone).map Prod.fst

theorem dropNumbered_cons (gone : List Nat) (n : Nat) (item : α) (rest : List α) :
    dropNumbered gone n (item :: rest) =
      if n ∈ gone then dropNumbered gone (n + 1) rest
      else item :: dropNumbered gone (n + 1) rest := by
  by_cases h : n ∈ gone <;> simp [dropNumbered, h]

theorem deleteLines_append (gone : List Nat) (n : Nat) (h : '\n'.toUInt8 ∉ line)
    (rest : List UInt8) :
    deleteLines gone n (line ++ rest) =
      if n ∈ gone then deleteLines gone n rest else line ++ deleteLines gone n rest := by
  induction line with
  | nil => simp
  | cons x line ih =>
    rw [List.mem_cons, not_or] at h
    rw [List.cons_append, deleteLines, if_neg (Ne.symm h.1), ih h.2]
    split <;> rfl

theorem physicalLines_deleteLines (gone : List Nat) (n : Nat) (bytes : List UInt8) :
    physicalLines (deleteLines gone n bytes) = dropNumbered gone n (physicalLines bytes) := by
  induction bytes using Text.cut_induction '\n'.toUInt8 generalizing n with
  | last line h =>
    have hdelete : deleteLines gone n line = if n ∈ gone then [] else line := by
      simpa [deleteLines] using deleteLines_append gone n h []
    rw [hdelete, physicalLines_of_notMem h]
    by_cases hn : n ∈ gone <;> by_cases hl : line = [] <;>
      simp [hn, hl, dropNumbered, physicalLines_of_notMem, h]
  | more line rest h ih =>
    rw [physicalLines_append h, dropNumbered_cons, deleteLines_append gone n h, deleteLines,
      if_pos rfl, ← ih]
    split
    · rfl
    · exact physicalLines_append h _

end Deleting

namespace Verdict

def isSkipped (v : Verdict) : Bool := v.isOverlapping || v.isInvalid

variable {config : LoadConfig} {v : Verdict} {vs : List Verdict} {mark : Char}
  {earlier : List (Block × String)} {lines : List (List UInt8)}

theorem entry?_of_isSkipped (h : v.isSkipped = true) : v.entry? = none := by
  cases v <;> first | rfl | cases h

theorem entries_filter_not_isSkipped (vs : List Verdict) :
    entries (vs.filter fun v => !v.isSkipped) = entries vs := by
  rw [entries, List.filterMap_filter]
  refine List.filterMap_congr fun v _ => ?_
  cases h : v.isSkipped <;> simp [entry?_of_isSkipped, h]

theorem Offends.strict (h : v.Offends config) : v.Offends config.strict := by
  cases v <;> first | exact h | rfl

theorem isSkipped_of_offends_strict (h : v.Offends config.strict) (hc : ¬ v.Offends config) :
    v.isSkipped = true := by
  cases v <;> first | rfl | exact absurd h hc

theorem exists_ofLine_of_mem (h : v ∈ ofLines mark earlier lines) :
    ∃ es, ∃ line ∈ lines, v = ofLine mark es line := by
  induction lines generalizing earlier with
  | nil => cases h
  | cons line rest ih =>
    rw [ofLines, List.mem_cons] at h
    obtain rfl | h := h
    · exact ⟨earlier, line, List.mem_cons_self, rfl⟩
    · obtain ⟨es, line', hl, rfl⟩ := ih h
      exact ⟨es, line', List.mem_cons_of_mem line hl, rfl⟩

theorem ofLine_ne_undecodable (mark : Char) (earlier : List (Block × String))
    {bytes : List UInt8} {text : List Char} (h : decodeText? bytes = some text) :
    ofLine mark earlier bytes ≠ undecodable := by
  simp only [ofLine, h]
  split
  · simp
  · split
    · simp
    · split <;> simp

/-- Without the skipped lines all others have the verdicts that they had. -/
theorem ofLines_dropNumbered {gone : List Nat} {n : Nat}
    (h : ∀ i, n + i ∈ gone ↔ ∃ v ∈ (ofLines mark earlier lines)[i]?, v.isSkipped = true) :
    ofLines mark earlier (dropNumbered gone n lines) =
      (ofLines mark earlier lines).filter fun v => !v.isSkipped := by
  induction lines generalizing earlier n with
  | nil => rfl
  | cons line rest ih =>
    have hhead : n ∈ gone ↔ (ofLine mark earlier line).isSkipped = true := by
      simpa [ofLines] using h 0
    have htail := ih (n := n + 1) fun i => by
      simpa [ofLines, Nat.add_assoc, Nat.add_comm 1] using h (i + 1)
    rw [dropNumbered_cons, ofLines, List.filter_cons, ← htail]
    by_cases hv : (ofLine mark earlier line).isSkipped = true
    · rw [if_pos (hhead.mpr hv), entry?_of_isSkipped hv]
      simp [hv]
    · rw [if_neg (mt hhead.mp hv), ofLines]
      simp [hv]

end Verdict

def LoadReport.skipped (r : LoadReport) : Nat := r.skippedOverlaps + r.skippedInvalid

def Verdict.skippedNumbers (n : Nat) (vs : List Verdict) : List Nat :=
  ((vs.zipIdx n).filter fun p => p.1.isSkipped).map Prod.snd

theorem Verdict.skippedNumbers_cons (n : Nat) (v : Verdict) (vs : List Verdict) :
    skippedNumbers n (v :: vs) =
      List.replicate (if v.isSkipped then 1 else 0) n ++ skippedNumbers (n + 1) vs := by
  cases h : v.isSkipped <;> simp [skippedNumbers, h]

theorem Verdict.mem_skippedNumbers_iff {n i : Nat} {vs : List Verdict} :
    n + i ∈ skippedNumbers n vs ↔ ∃ v ∈ vs[i]?, v.isSkipped = true := by
  simp [skippedNumbers, List.mem_zipIdx_iff_le_and_getElem?_sub]

theorem Verdict.length_skippedNumbers (n : Nat) (vs : List Verdict) :
    (skippedNumbers n vs).length = vs.countP isOverlapping + vs.countP isInvalid := by
  induction vs generalizing n with
  | nil => rfl
  | cons v vs ih =>
    rw [skippedNumbers_cons, List.length_append, List.length_replicate, ih, List.countP_cons,
      List.countP_cons]
    cases v <;> simp [isSkipped, isOverlapping, isInvalid] <;> omega

theorem skippedLines_append (events later : List LoadEvent) :
    skippedLines (events ++ later) = skippedLines events ++ skippedLines later :=
  List.filterMap_append ..

theorem Told.skippedLines_eq {vs : List Verdict} {v : Verdict} {r next : LoadReport}
    {log : List LoadEvent} (h : Told vs r v next log) :
    skippedLines log = List.replicate (if v.isSkipped then 1 else 0) (vs.length + 1) := by
  cases h with
  | ignored => rfl
  | invalid => rfl
  | overlapping => rfl
  | inserted c => by_cases hc : c = 0 <;> simp [hc, skippedLines, LoadEvent.skipped?, isSkipped,
      isOverlapping, isInvalid]
  | replaced => rfl

theorem Account.skippedLines_eq {vs ws : List Verdict} {r last : LoadReport}
    {log : List LoadEvent} (h : Account vs r ws last log) :
    skippedLines log = skippedNumbers (vs.length + 1) ws := by
  induction h with
  | nil => rfl
  | cons told _ ih =>
    rw [List.length_append, List.length_singleton] at ih
    rw [skippedLines_append, told.skippedLines_eq, ih, skippedNumbers_cons]

namespace Loads

variable {vs ws : List Verdict} {l l' : Loaded}

theorem eq_of_entries (h : Loads vs l) (h' : Loads ws l') (hr : l.registry.Reachable)
    (hr' : l'.registry.Reachable) (he : entries vs = entries ws) :
    l' = ⟨l.registry, { l.report with
      skippedOverlaps := ws.countP isOverlapping, skippedInvalid := ws.countP isInvalid }⟩ := by
  have hregistry : l'.registry = l.registry := hr'.eq_of_mem_iff hr fun ⟨b, v⟩ => by
    rw [h.mem_iff, h'.mem_iff, he]
  have hinserted : l'.report.inserted = l.report.inserted := by
    rw [h.inserted_eq, h'.inserted_eq, hregistry]
  have hreplaced : l'.report.replaced = l.report.replaced := by
    have haccepted := h.accepted_eq
    have haccepted' := h'.accepted_eq
    rw [← he] at haccepted'
    omega
  have hoverlaps := h'.overlaps_eq
  have hinvalid := h'.invalid_eq
  obtain ⟨registry, inserted, replaced, overlaps, invalid⟩ := l'
  dsimp only at *
  rw [hregistry, hinserted, hreplaced, hoverlaps, hinvalid]

end Loads

variable {config : LoadConfig} {bytes : List UInt8} {l : Loaded}

theorem skippedLines_load (h : (load config bytes).1 = .ok l) :
    skippedLines (load config bytes).2 =
      skippedNumbers 1 (ofLines config.commentMark [] (physicalLines bytes)) := by
  have hrun := load_recounts config bytes
  generalize load config bytes = loading at h hrun
  cases hrun with
  | passed account =>
    rw [skippedLines_append, account.skippedLines_eq]
    exact List.append_nil _
  | ended => cases h

theorem length_skippedLines_load (h : (load config bytes).1 = .ok l) :
    (skippedLines (load config bytes).2).length = l.report.skipped := by
  have hrun := load_run config bytes
  rw [h] at hrun
  cases hrun with
  | passed _ loads =>
    rw [List.nil_append] at loads
    rw [skippedLines_load h, length_skippedNumbers, ← loads.overlaps_eq, ← loads.invalid_eq,
      LoadReport.skipped]

theorem ofLines_deleteLines_skippedLines (h : (load config bytes).1 = .ok l) :
    ofLines config.commentMark []
        (physicalLines (deleteLines (skippedLines (load config bytes).2) 1 bytes)) =
      (ofLines config.commentMark [] (physicalLines bytes)).filter fun v => !v.isSkipped := by
  rw [physicalLines_deleteLines, ofLines_dropNumbered]
  intro i
  rw [skippedLines_load h, mem_skippedNumbers_iff]

theorem load_strict_deleteLines (h : (load config bytes).1 = .ok l) :
    (load config.strict (deleteLines (skippedLines (load config bytes).2) 1 bytes)).1 =
      .ok ⟨l.registry, { inserted := l.report.inserted, replaced := l.report.replaced }⟩ := by
  have hvs := ofLines_deleteLines_skippedLines h
  have hrun := load_run config bytes
  have hstrict := load_run config.strict
    (deleteLines (skippedLines (load config bytes).2) 1 bytes)
  rw [h] at hrun
  rw [show config.strict.commentMark = config.commentMark from rfl, hvs] at hstrict
  generalize ofLines config.commentMark [] (physicalLines bytes) = vs at hrun hstrict
  generalize (load config.strict _).1 = result at hstrict ⊢
  cases hrun with
  | passed not_offends loads reachable =>
    cases hstrict with
    | @ended before after v err split _ offends =>
      have hv : v ∈ vs.filter fun v => !v.isSkipped := by simp [split]
      rw [List.mem_filter] at hv
      have hskipped := isSkipped_of_offends_strict offends (not_offends v hv.1)
      simp [hskipped] at hv
    | @passed l' _ loads' reachable' =>
      rw [List.nil_append] at loads loads'
      have heq := loads.eq_of_entries loads' reachable reachable'
        (entries_filter_not_isSkipped vs).symm
      have hcount : ∀ p : Verdict → Bool, (∀ v, p v = true → v.isSkipped = true) →
          (vs.filter fun v => !v.isSkipped).countP p = 0 := fun p hp => by
        rw [List.countP_eq_zero]
        intro v hv hpv
        simp [hp v hpv] at hv
      rw [heq, hcount isOverlapping (by simp +contextual [isSkipped]),
        hcount isInvalid (by simp +contextual [isSkipped])]

theorem load_of_strict (h : (load config.strict bytes).1 = .ok l) :
    (load config bytes).1 = .ok l := by
  have hstrict := load_run config.strict bytes
  have hrun := load_run config bytes
  rw [h, show config.strict.commentMark = config.commentMark from rfl] at hstrict
  generalize ofLines config.commentMark [] (physicalLines bytes) = vs at hrun hstrict
  generalize (load config bytes).1 = result at hrun ⊢
  cases hstrict with
  | passed not_offends loads reachable =>
    cases hrun with
    | @ended before after v err split _ offends =>
      have hv : v ∈ vs := by simp [split]
      exact absurd offends.strict (not_offends v hv)
    | @passed l' _ loads' reachable' =>
      rw [loads.eq_of_entries loads' reachable reachable' rfl, ← loads.overlaps_eq,
        ← loads.invalid_eq]

theorem exists_load_utf8 (ho : config.onOverlap = .skip) (hi : config.skipInvalid = true)
    (text : String) : ∃ l, (load config (utf8 text)).1 = .ok l := by
  have hrun := load_run config (utf8 text)
  generalize (load config (utf8 text)).1 = result at hrun ⊢
  cases hrun with
  | passed => exact ⟨_, rfl⟩
  | @ended before after v err split _ offends =>
    have hv : v ∈ ofLines config.commentMark [] (physicalLines (utf8 text)) := by simp [split]
    obtain ⟨es, line, hl, rfl⟩ := exists_ofLine_of_mem hv
    obtain ⟨t, rfl⟩ := exists_eq_utf8_of_mem_physicalLines hl
    have hdecodes := ofLine_ne_undecodable config.commentMark es (decodeText?_utf8 t)
    cases hverdict : ofLine config.commentMark es (utf8 t) <;>
      simp_all [Offends]

/-- A file loads as it strictly does without the lines that were skipped, a file that strictly
loads does so under every configuration, and a text always loads where all is skipped. -/
theorem load_without_skipped (config : LoadConfig) :
    (∀ bytes l, (load config bytes).1 = .ok l →
      (skippedLines (load config bytes).2).length = l.report.skipped ∧
      (load config.strict (deleteLines (skippedLines (load config bytes).2) 1 bytes)).1 =
        .ok ⟨l.registry, { inserted := l.report.inserted, replaced := l.report.replaced }⟩) ∧
    (∀ bytes l, (load config.strict bytes).1 = .ok l → (load config bytes).1 = .ok l) ∧
    (config.onOverlap = .skip → config.skipInvalid = true →
      ∀ text : String, ∃ l, (load config (utf8 text)).1 = .ok l) := by
  refine ⟨fun bytes l h => ⟨?_, ?_⟩, fun bytes l h => ?_, fun ho hi text => ?_⟩
  · exact length_skippedLines_load h
  · exact load_strict_deleteLines h
  · exact load_of_strict h
  · exact exists_load_utf8 ho hi text

theorem load_without_skipped_of_mixed_lines :
    let text := "0.0.0.1-0.0.0.4 a\nx\n0.0.0.3 - 0.0.0.6 b\n0.0.0.1-0.0.0.4 c"
    let kept := utf8 "0.0.0.1-0.0.0.4 a\n0.0.0.1-0.0.0.4 c"
    let skip : LoadConfig := { onOverlap := .skip, skipInvalid := true }
    let i : Interval .v4 := ⟨1, 4, by decide, by decide⟩
    let r : Registry String := ⟨⟨[⟨i, .leaf i "c"⟩], 1⟩, .empty⟩
    (load skip (utf8 text)).1 = .ok ⟨r, ⟨1, 1, 1, 1⟩⟩ ∧
      skippedLines (load skip (utf8 text)).2 = [2, 3] ∧ deleteLines [2, 3] 1 (utf8 text) = kept ∧
      [2, 3].length = LoadReport.skipped ⟨1, 1, 1, 1⟩ ∧
      (load skip.strict kept).1 = .ok ⟨r, ⟨1, 1, 0, 0⟩⟩ ∧
      (load skip kept).1 = .ok ⟨r, ⟨1, 1, 0, 0⟩⟩ ∧ ∃ l, (load skip (utf8 text)).1 = .ok l := by
  intro text kept skip i r
  have hload : (load skip (utf8 text)).1 = .ok ⟨r, ⟨1, 1, 1, 1⟩⟩ := by decide +kernel
  have hskipped : skippedLines (load skip (utf8 text)).2 = [2, 3] := by decide +kernel
  have hkept : deleteLines [2, 3] 1 (utf8 text) = kept := by decide +kernel
  obtain ⟨hdelete, hstrict, hall⟩ := load_without_skipped skip
  obtain ⟨hlength, hdeleted⟩ := hdelete (utf8 text) _ hload
  rw [hskipped] at hlength hdeleted
  rw [hkept] at hdeleted
  exact ⟨hload, hskipped, hkept, hlength, hdeleted, hstrict kept _ hdeleted, hall rfl rfl text⟩

end Netblock
