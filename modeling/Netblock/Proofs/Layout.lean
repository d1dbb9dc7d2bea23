import Netblock.Load
import Netblock.Proofs.Lines

/-! # The layout of a file

A loading reads a line without its outer blanks and passes over blank lines and comments. So
blanks at either end of a line, the kind of the line breaks, a missing last line break, and lines
that are passed over decide nothing but the number that an error gives to its line.
-/

namespace Netblock

open Text

theorem Line.read_around (mark : Char) (bs cs bs' : List Char)
    (hb : ∀ c ∈ bs, isBlank c = true) (hb' : ∀ c ∈ bs', isBlank c = true) :
    Line.read mark (bs ++ cs ++ bs') = Line.read mark cs := by
  simp only [Line.read, trim_around bs cs bs' hb hb']

def dropReturn (line : List UInt8) : List UInt8 :=
  if line.getLast? = some '\r'.toUInt8 then line.dropLast else line

/-- The lines of a file without their line breaks, which are `\n` and `\r\n`. No line break ends
the last line, unless nothing is left of it. -/
def brokenLines (bytes : List UInt8) : List (List UInt8) :=
  let lines := pieces '\n'.toUInt8 bytes
  let ended := lines.dropLast.map dropReturn
  match lines.getLast? with
  | none | some [] => ended
  | some last => ended ++ [last]

def Line.ofBytes? (mark : Char) (bytes : List UInt8) : Option Line :=
  (decodeText? bytes).map (Line.read mark)

theorem utf8EncodeChar_return : String.utf8EncodeChar '\r' = ['\r'.toUInt8] := by decide

theorem utf8_ofList_concat_return (text : List Char) :
    utf8 (String.ofList (text ++ ['\r'])) = utf8 (String.ofList text) ++ ['\r'.toUInt8] := by
  rw [utf8_ofList_append, utf8_eq_flatMap (String.ofList ['\r']), String.toList_ofList,
    List.flatMap_singleton, utf8EncodeChar_return]

theorem eq_utf8_of_concat_return {line : List UInt8} {text : List Char}
    (h : line ++ ['\r'.toUInt8] = utf8 (String.ofList text)) :
    ∃ before, line = utf8 (String.ofList before) := by
  rw [utf8_eq_flatMap, String.toList_ofList] at h
  obtain rfl | ⟨before, c, rfl⟩ := text.eq_nil_or_concat'
  · simp at h
  · rw [List.flatMap_append, List.flatMap_singleton] at h
    have hlast : (String.utf8EncodeChar c).getLast? = some '\r'.toUInt8 := by
      have hne : String.utf8EncodeChar c ≠ [] := by
        simp [← List.length_eq_zero_iff, Nat.ne_of_gt (Char.utf8Size_pos c)]
      rw [← List.getLast?_append_of_ne_nil _ hne, ← h, List.getLast?_concat]
    obtain rfl := eq_of_mem_utf8EncodeChar (by decide) (List.mem_of_getLast? hlast)
    rw [utf8EncodeChar_return] at h
    refine ⟨before, ?_⟩
    rw [List.append_cancel_right h, utf8_eq_flatMap, String.toList_ofList]

theorem decodeText?_concat_return (line : List UInt8) :
    decodeText? (line ++ ['\r'.toUInt8]) = (decodeText? line).map (· ++ ['\r']) := by
  cases h : decodeText? line with
  | some text =>
    rw [eq_utf8_of_decodeText? h, ← utf8_ofList_concat_return, decodeText?_utf8,
      String.toList_ofList, Option.map_some]
  | none =>
    rw [Option.map_none, Option.eq_none_iff_forall_ne_some]
    intro text htext
    obtain ⟨before, rfl⟩ := eq_utf8_of_concat_return (eq_utf8_of_decodeText? htext)
    rw [decodeText?_utf8] at h
    cases h

theorem Line.ofBytes?_dropReturn (mark : Char) (line : List UInt8) :
    Line.ofBytes? mark (dropReturn line) = Line.ofBytes? mark line := by
  rw [dropReturn]
  split
  · next h =>
    have hline : line = line.dropLast ++ ['\r'.toUInt8] :=
      (List.dropLast_append_getLast? _ (Option.mem_def.mpr h)).symm
    have hread (text : List Char) : Line.read mark (text ++ ['\r']) = Line.read mark text :=
      Line.read_around mark [] text ['\r'] nofun (List.forall_mem_singleton.mpr rfl)
    conv_rhs => rw [hline]
    rw [Line.ofBytes?, Line.ofBytes?, decodeText?_concat_return, Option.map_map]
    exact congrArg (Option.map · _) (funext fun text => (hread text).symm)
  · rfl

namespace Loaded

theorem enterLines_cons (config : LoadConfig) (number : Nat) (bytes : List UInt8)
    (rest : List (List UInt8)) (l : Loaded) :
    enterLines config number (bytes :: rest) l =
      match Line.ofBytes? config.commentMark bytes with
      | none => (.error (.file .notUtf8), [])
      | some line => match l.enterLine config number line with
        | (.error error, events) => (.error error, events)
        | (.ok next, events) =>
          let (result, later) := enterLines config (number + 1) rest next
          (result, events ++ later) := by
  rw [enterLines, Line.ofBytes?]
  cases decodeText? bytes <;> rfl

theorem enterLines_congr {config : LoadConfig} {lines lines' : List (List UInt8)}
    (h : lines.map (Line.ofBytes? config.commentMark) =
      lines'.map (Line.ofBytes? config.commentMark)) (number : Nat) (l : Loaded) :
    enterLines config number lines l = enterLines config number lines' l := by
  induction lines generalizing lines' number l with
  | nil =>
    rw [List.map_nil, eq_comm, List.map_eq_nil_iff] at h
    rw [h]
  | cons bytes rest ih =>
    obtain ⟨bytes', rest', rfl, hbytes, hrest⟩ := List.map_eq_cons_iff.mp h.symm
    rw [enterLines_cons, enterLines_cons, hbytes]
    simp only [ih hrest.symm]

end Loaded

/-- A loading does as well with lines that end with `\r\n`. -/
theorem enterLines_brokenLines (config : LoadConfig) (bytes : List UInt8) :
    Loaded.enterLines config 1 (brokenLines bytes) {} = load config bytes := by
  refine Loaded.enterLines_congr ?_ 1 {}
  have hended (lines : List (List UInt8)) :
      (lines.map dropReturn).map (Line.ofBytes? config.commentMark) =
        lines.map (Line.ofBytes? config.commentMark) := by
    rw [List.map_map]
    exact List.map_congr_left fun line _ => Line.ofBytes?_dropReturn _ line
  obtain ⟨before, last, h⟩ :=
    (pieces '\n'.toUInt8 bytes).eq_nil_or_concat'.resolve_left (pieces_ne_nil _ bytes)
  rw [brokenLines, physicalLines, h, List.getLast?_concat, List.dropLast_concat]
  cases last with
  | nil => simpa using hended before
  | cons b last => simpa using hended before

def LoadError.renumber (g : Nat → Nat) : LoadError → LoadError
  | file error => file error
  | invalid line error => invalid (g line) error
  | overlap line error => overlap (g line) error

theorem LoadError.renumber_id (e : LoadError) : e.renumber id = e := by cases e <;> rfl

theorem LoadError.renumber_renumber (g g' : Nat → Nat) (e : LoadError) :
    (e.renumber g).renumber g' = e.renumber (g' ∘ g) := by cases e <;> rfl

namespace Loaded

variable {config : LoadConfig} {g : Nat → Nat} {rs ss : List Line} {n n' : Nat}

theorem mapError_bind {α β : Type} (x : Except LoadError α) (k : α → Except LoadError β)
    (f : LoadError → LoadError) :
    (x >>= k).mapError f = x.mapError f >>= fun a => (k a).mapError f := by
  cases x <;> rfl

theorem enterLine_renumber (config : LoadConfig) (g : Nat → Nat) (n : Nat) (r : Line)
    (l : Loaded) :
    (l.enterLine config (g n) r).1 =
      (l.enterLine config n r).1.mapError (LoadError.renumber g) := by
  cases r with
  | ignored => rfl
  | invalid error =>
    rw [enterLine, enterLine]
    split <;> rfl
  | entry block value =>
    rw [enterLine, enterLine, enter, enter]
    dsimp only
    split
    · rfl
    · rfl
    · split <;> rfl

def enterAll (config : LoadConfig) : Nat → List Line → Loaded → Except LoadError Loaded
  | _, [], l => .ok l
  | n, r :: rs, l => (l.enterLine config n r).1 >>= enterAll config (n + 1) rs

theorem enterAll_append (config : LoadConfig) (n : Nat) (rs ss : List Line) (l : Loaded) :
    enterAll config n (rs ++ ss) l =
      enterAll config n rs l >>= enterAll config (n + rs.length) ss := by
  induction rs generalizing n l with
  | nil => rfl
  | cons r rs ih =>
    have hnumber : n + (r :: rs).length = n + 1 + rs.length := by
      rw [List.length_cons]
      omega
    rw [List.cons_append, enterAll, enterAll, bind_assoc, hnumber]
    exact bind_congr fun next => ih (n + 1) next

theorem enterAll_renumber (h : ∀ i < rs.length, g (n + i) = n' + i) (l : Loaded) :
    enterAll config n' rs l = (enterAll config n rs l).mapError (LoadError.renumber g) := by
  induction rs generalizing n n' l with
  | nil => rfl
  | cons r rs ih =>
    have hhead : g n = n' := h 0 (by simp)
    have htail : ∀ i < rs.length, g (n + 1 + i) = n' + 1 + i := fun i hi => by
      rw [Nat.add_assoc, Nat.add_comm 1, h (i + 1) (by simpa using hi)]
      omega
    rw [enterAll, enterAll, mapError_bind, ← hhead, enterLine_renumber, hhead]
    exact bind_congr fun next => ih htail next

theorem enterAll_concat_ignored (config : LoadConfig) (n : Nat) (rs : List Line) (l : Loaded) :
    enterAll config n (rs ++ [.ignored]) l = enterAll config n rs l := by
  rw [enterAll_append]
  exact bind_pure _

end Loaded

/-- What the lines of a text say. Nothing is after the last line break of a text that ends with
one, and that says nothing. -/
def readings (mark : Char) (text : List Char) : List Line :=
  (pieces '\n' text).map (Line.read mark)

theorem readings_append_cons (mark : Char) (before after : List Char) :
    readings mark (before ++ '\n' :: after) = readings mark before ++ readings mark after := by
  rw [readings, pieces_append_cons, List.map_append, ← readings, ← readings]

theorem readings_of_notMem {mark : Char} {line : List Char} (h : '\n' ∉ line) :
    readings mark line = [Line.read mark line] := by
  rw [readings, pieces_of_notMem h, List.map_singleton]

theorem length_readings (mark : Char) (text : List Char) :
    (readings mark text).length = text.count '\n' + 1 := by
  rw [readings, List.length_map, length_pieces]

namespace Loaded

theorem fst_enterLines_cons (config : LoadConfig) (n : Nat) (line : List Char)
    (rest : List (List UInt8)) (l : Loaded) :
    (enterLines config n (utf8 (String.ofList line) :: rest) l).1 =
      (l.enterLine config n (Line.read config.commentMark line)).1 >>= fun next =>
        (enterLines config (n + 1) rest next).1 := by
  rw [enterLines, decodeText?_utf8, String.toList_ofList]
  dsimp only
  obtain ⟨result, events⟩ := l.enterLine config n (Line.read config.commentMark line)
  cases result <;> rfl

theorem fst_enterLines_physicalLines (config : LoadConfig) (text : List Char) (n : Nat)
    (l : Loaded) :
    (enterLines config n (physicalLines (utf8 (String.ofList text))) l).1 =
      enterAll config n (readings config.commentMark text) l := by
  induction text using cut_induction '\n' generalizing n l with
  | last line h =>
    have hline : '\n' ∉ (String.ofList line).toList := by rwa [String.toList_ofList]
    rw [readings_of_notMem h]
    by_cases hnil : line = []
    · rw [hnil]
      rfl
    · have hne : String.ofList line ≠ "" := fun he =>
        hnil (by rw [← String.toList_ofList (l := line), he]; rfl)
      rw [physicalLines_utf8 hline hne, fst_enterLines_cons]
      rfl
  | more before after h ih =>
    have hbefore : '\n' ∉ (String.ofList before).toList := by rwa [String.toList_ofList]
    rw [utf8_ofList_append, utf8_ofList_newline_cons,
      physicalLines_append (newline_notMem_utf8 hbefore), fst_enterLines_cons,
      readings_append_cons, readings_of_notMem h, List.singleton_append, enterAll]
    exact bind_congr fun next => ih (n + 1) next

end Loaded

theorem fst_load_utf8 (config : LoadConfig) (text : List Char) :
    (load config (utf8 (String.ofList text))).1 =
      Loaded.enterAll config 1 (readings config.commentMark text) {} :=
  Loaded.fst_enterLines_physicalLines config text 1 {}

def LineStart (before : List Char) : Prop := before = [] ∨ ∃ text, before = text ++ ['\n']

def LineEnd (after : List Char) : Prop :=
  after = [] ∨ ∃ text, after = '\n' :: text ∨ after = '\r' :: '\n' :: text

/-- The second text is the first in another layout. The function gives the number that each line
of the first has in the second. -/
inductive Relaid (mark : Char) : List Char → List Char → (Nat → Nat) → Prop where
  | refl (text : List Char) : Relaid mark text text id
  | trans {text text' text'' : List Char} {g g' : Nat → Nat} (first : Relaid mark text text' g)
      (second : Relaid mark text' text'' g') : Relaid mark text text'' (g' ∘ g)
  | carriageReturn (before after : List Char) :
      Relaid mark (before ++ '\n' :: after) (before ++ '\r' :: '\n' :: after) id
  | indent {before blanks after : List Char} (start : LineStart before)
      (blank : ∀ c ∈ blanks, isBlank c = true ∧ c ≠ '\n') :
      Relaid mark (before ++ after) (before ++ (blanks ++ after)) id
  | trail {before blanks after : List Char} (stop : LineEnd after)
      (blank : ∀ c ∈ blanks, isBlank c = true ∧ c ≠ '\n') :
      Relaid mark (before ++ after) (before ++ (blanks ++ after)) id
  | ended (text : List Char) : Relaid mark text (text ++ ['\n']) id
  | unended (text : List Char) : Relaid mark (text ++ ['\n']) text id
  | insert {before line after : List Char} (start : LineStart before) (inline : '\n' ∉ line)
      (skipped : trim line = [] ∨ (trim line).head? = some mark) :
      Relaid mark (before ++ after) (before ++ (line ++ '\n' :: after))
        fun n => if n ≤ before.count '\n' then n else n + 1
  | delete {before line after : List Char} (start : LineStart before) (inline : '\n' ∉ line)
      (skipped : trim line = [] ∨ (trim line).head? = some mark) :
      Relaid mark (before ++ (line ++ '\n' :: after)) (before ++ after)
        fun n => if n ≤ before.count '\n' then n else n - 1

variable {text text' before after : List Char} {g : Nat → Nat}

theorem LineStart.exists_readings (h : LineStart before) (mark : Char) :
    ∃ rs, rs.length = before.count '\n' ∧
      ∀ after, readings mark (before ++ after) = rs ++ readings mark after := by
  obtain rfl | ⟨text, rfl⟩ := h
  · exact ⟨[], rfl, fun _ => rfl⟩
  · refine ⟨readings mark text, ?_, fun after => ?_⟩
    · rw [length_readings, List.count_append, List.count_singleton_self]
    · rw [List.append_assoc, List.singleton_append, readings_append_cons]

section Blanks

variable {bs : List Char} (hbs : ∀ c ∈ bs, isBlank c = true ∧ c ≠ '\n')
include hbs

theorem newline_notMem_blanks : '\n' ∉ bs := fun h => (hbs _ h).2 rfl

theorem readings_blanks_append (mark : Char) (text : List Char) :
    readings mark (bs ++ text) = readings mark text := by
  obtain ⟨p, ps, htext, happend⟩ := exists_pieces_append '\n' text
  have hread := Line.read_around mark bs p [] (fun c hc => (hbs c hc).1) nofun
  rw [List.append_nil] at hread
  rw [readings, readings, htext, happend bs (newline_notMem_blanks hbs), List.map_cons,
    List.map_cons, hread]

theorem readings_append_blanks (mark : Char) (text : List Char) :
    readings mark (text ++ bs) = readings mark text := by
  induction text using cut_induction '\n' with
  | last line h =>
    have hline : '\n' ∉ line ++ bs := by
      rw [List.mem_append]
      exact not_or.mpr ⟨h, newline_notMem_blanks hbs⟩
    rw [readings_of_notMem hline, readings_of_notMem h]
    exact congrArg (fun r => [r])
      (Line.read_around mark [] line bs nofun fun c hc => (hbs c hc).1)
  | more before after _ ih =>
    rw [List.append_assoc, List.cons_append, readings_append_cons, readings_append_cons, ih]

end Blanks

theorem readings_append_return (mark : Char) (before after : List Char) :
    readings mark (before ++ '\r' :: '\n' :: after) = readings mark (before ++ '\n' :: after) := by
  have hreturn : readings mark (before ++ ['\r']) = readings mark before :=
    readings_append_blanks (List.forall_mem_singleton.mpr (by decide)) mark before
  rw [← List.singleton_append, ← List.append_assoc, readings_append_cons, hreturn,
    ← readings_append_cons]

theorem LineEnd.readings_eq {bs : List Char} (h : LineEnd after)
    (hbs : ∀ c ∈ bs, isBlank c = true ∧ c ≠ '\n') (mark : Char) (before : List Char) :
    readings mark (before ++ (bs ++ after)) = readings mark (before ++ after) := by
  rw [← List.append_assoc]
  obtain rfl | ⟨text, rfl | rfl⟩ := h
  · rw [List.append_nil, List.append_nil, readings_append_blanks hbs]
  · rw [readings_append_cons, readings_append_cons, readings_append_blanks hbs]
  · rw [readings_append_return, readings_append_return, readings_append_cons,
      readings_append_cons, readings_append_blanks hbs]

theorem Line.read_of_skipped {mark : Char} {line : List Char}
    (h : trim line = [] ∨ (trim line).head? = some mark) : Line.read mark line = .ignored := by
  rw [Line.read]
  exact if_pos h

theorem readings_insert {mark : Char} {line : List Char} (inline : '\n' ∉ line)
    (skipped : trim line = [] ∨ (trim line).head? = some mark) (after : List Char) :
    readings mark (line ++ '\n' :: after) = .ignored :: readings mark after := by
  rw [readings_append_cons, readings_of_notMem inline, Line.read_of_skipped skipped,
    List.singleton_append]

theorem readings_concat_newline (mark : Char) (text : List Char) :
    readings mark (text ++ ['\n']) = readings mark text ++ [.ignored] :=
  readings_append_cons mark text []

namespace Loaded

theorem enterAll_insert (config : LoadConfig) (rs ss : List Line) (l : Loaded) :
    enterAll config 1 (rs ++ .ignored :: ss) l = (enterAll config 1 (rs ++ ss) l).mapError
      (LoadError.renumber fun n => if n ≤ rs.length then n else n + 1) := by
  have hbefore : enterAll config 1 rs l = (enterAll config 1 rs l).mapError
      (LoadError.renumber fun n => if n ≤ rs.length then n else n + 1) :=
    enterAll_renumber (fun i hi => if_pos (by omega)) l
  have hafter (next : Loaded) :
      enterAll config (1 + rs.length + 1) ss next =
        (enterAll config (1 + rs.length) ss next).mapError
          (LoadError.renumber fun n => if n ≤ rs.length then n else n + 1) :=
    enterAll_renumber (fun i _ => by rw [if_neg (by omega)]; omega) next
  rw [enterAll_append, enterAll_append, mapError_bind, ← hbefore]
  exact bind_congr fun next => hafter next

theorem mapError_renumber_id (x : Except LoadError Loaded) :
    x.mapError (LoadError.renumber id) = x := by
  cases x with
  | error e => exact congrArg Except.error (LoadError.renumber_id e)
  | ok l => rfl

theorem mapError_renumber_mapError (x : Except LoadError Loaded) (g g' : Nat → Nat) :
    (x.mapError (LoadError.renumber g)).mapError (LoadError.renumber g') =
      x.mapError (LoadError.renumber (g' ∘ g)) := by
  cases x with
  | error e => exact congrArg Except.error (LoadError.renumber_renumber g g' e)
  | ok l => rfl

theorem enterAll_delete (config : LoadConfig) (rs ss : List Line) (l : Loaded) :
    enterAll config 1 (rs ++ ss) l = (enterAll config 1 (rs ++ .ignored :: ss) l).mapError
      (LoadError.renumber fun n => if n ≤ rs.length then n else n - 1) := by
  have hback : (fun n => if n ≤ rs.length then n else n - 1) ∘
      (fun n => if n ≤ rs.length then n else n + 1) = id := by
    funext n
    simp only [Function.comp_apply, id]
    split_ifs <;> omega
  rw [enterAll_insert, mapError_renumber_mapError, hback, mapError_renumber_id]

end Loaded

/-- What the lines of a text in another layout say is entered alike, under other numbers. -/
theorem Relaid.enterAll_eq {config : LoadConfig} (h : Relaid config.commentMark text text' g) :
    Loaded.enterAll config 1 (readings config.commentMark text') {} =
      (Loaded.enterAll config 1 (readings config.commentMark text) {}).mapError
        (LoadError.renumber g) := by
  induction h with
  | refl => rw [Loaded.mapError_renumber_id]
  | trans _ _ first second => rw [second, first, Loaded.mapError_renumber_mapError]
  | carriageReturn => rw [readings_append_return, Loaded.mapError_renumber_id]
  | indent start blank =>
    obtain ⟨rs, -, hrs⟩ := start.exists_readings config.commentMark
    rw [hrs, hrs, readings_blanks_append blank, Loaded.mapError_renumber_id]
  | trail stop blank => rw [stop.readings_eq blank, Loaded.mapError_renumber_id]
  | ended =>
    rw [readings_concat_newline, Loaded.enterAll_concat_ignored, Loaded.mapError_renumber_id]
  | unended =>
    rw [readings_concat_newline, Loaded.enterAll_concat_ignored, Loaded.mapError_renumber_id]
  | insert start inline skipped =>
    obtain ⟨rs, hlength, hrs⟩ := start.exists_readings config.commentMark
    rw [hrs, hrs, readings_insert inline skipped, Loaded.enterAll_insert, hlength]
  | delete start inline skipped =>
    obtain ⟨rs, hlength, hrs⟩ := start.exists_readings config.commentMark
    rw [hrs, hrs, readings_insert inline skipped, Loaded.enterAll_delete, hlength]

/-- A loading takes `\r\n` for a line break as it does `\n`. A text in another layout loads the
same registry with the same report, or fails with the same error under the number that its line
has now. -/
theorem load_relaid (config : LoadConfig) :
    (∀ bytes, Loaded.enterLines config 1 (brokenLines bytes) {} = load config bytes) ∧
    ∀ text text' g, Relaid config.commentMark text text' g →
      (load config (utf8 (String.ofList text'))).1 =
        (load config (utf8 (String.ofList text))).1.mapError (LoadError.renumber g) := by
  refine ⟨enterLines_brokenLines config, fun text text' g h => ?_⟩
  rw [fst_load_utf8, fst_load_utf8, h.enterAll_eq]

theorem load_relaid_of_inserted_comment :
    let text := ['1', '\n', 'x']
    let text' := ['1', '\r', '\n', ' ', '#', '\n', '\u3000', 'x', '\n']
    let g := fun n => if n ≤ ['1', '\r', '\n'].count '\n' then n else n + 1
    let err := ParseError.badAddress "x"
    Relaid '#' text text' g ∧
      (load {} (utf8 (String.ofList text))).1 = .error (.invalid 2 err) ∧
      (load {} (utf8 (String.ofList text'))).1 = .error (.invalid 3 err) := by
  intro text text' g err
  have hreturn : Relaid '#' text ['1', '\r', '\n', 'x'] id := .carriageReturn ['1'] ['x']
  have hinsert : Relaid '#' ['1', '\r', '\n', 'x'] ['1', '\r', '\n', ' ', '#', '\n', 'x'] g :=
    @Relaid.insert '#' ['1', '\r', '\n'] [' ', '#'] ['x'] (.inr ⟨['1', '\r'], rfl⟩) (by decide)
      (by decide)
  have hindent : Relaid '#' ['1', '\r', '\n', ' ', '#', '\n', 'x']
      ['1', '\r', '\n', ' ', '#', '\n', '\u3000', 'x'] id :=
    @Relaid.indent '#' ['1', '\r', '\n', ' ', '#', '\n'] ['\u3000'] ['x']
      (.inr ⟨['1', '\r', '\n', ' ', '#'], rfl⟩) (List.forall_mem_singleton.mpr (by decide))
  have hrelaid : Relaid '#' text text' g :=
    ((hreturn.trans hinsert).trans hindent).trans (.ended _)
  have hload : (load {} (utf8 (String.ofList text))).1 = .error (.invalid 2 err) := by
    decide +kernel
  refine ⟨hrelaid, hload, ?_⟩
  rw [(load_relaid {}).2 text text' g hrelaid, hload]
  rfl

end Netblock
