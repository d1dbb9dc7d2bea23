import Mathlib.Data.List.Basic
import Netblock.Load.Line

/-! # Lines and what they hold

The bytes of ended lines are divided into these lines again, and the bytes of a text into its
characters. Where the text of a block ends is told by the first word of a line: after a word
with a slash the rest is the value, and a dash at the end of a word or after it leads to a
second word.
-/

namespace Netblock

open Text

def utf8 (s : String) : List UInt8 := s.toUTF8.data.toList

theorem utf8_eq_flatMap (s : String) : utf8 s = s.toList.flatMap String.utf8EncodeChar := by
  rw [utf8, String.toUTF8_eq_toByteArray, ← String.utf8Encode_toList, List.utf8Encode]
  simp

theorem utf8_ofList_append (cs ds : List Char) :
    utf8 (String.ofList (cs ++ ds)) = utf8 (String.ofList cs) ++ utf8 (String.ofList ds) := by
  simp only [utf8_eq_flatMap, String.toList_ofList, List.flatMap_append]

theorem utf8_ofList_newline_cons (text : List Char) :
    utf8 (String.ofList ('\n' :: text)) = '\n'.toUInt8 :: utf8 (String.ofList text) := by
  have hnewline : String.utf8EncodeChar '\n' = ['\n'.toUInt8] := by decide
  rw [utf8_eq_flatMap, utf8_eq_flatMap, String.toList_ofList, String.toList_ofList,
    List.flatMap_cons, hnewline, List.singleton_append]

theorem decodeText?_utf8 (s : String) : decodeText? (utf8 s) = some s.toList := by
  have hdecode : s.toByteArray.utf8Decode? = some s.toList.toArray := by
    rw [← String.utf8Encode_toList, List.utf8Decode?_utf8Encode]
  rw [decodeText?, utf8, Array.toArray_toList, String.toUTF8_eq_toByteArray, hdecode,
    Option.map_some]

theorem eq_utf8_of_decodeText? {bytes : List UInt8} {text : List Char}
    (h : decodeText? bytes = some text) : bytes = utf8 (String.ofList text) := by
  obtain ⟨chars, hchars, rfl⟩ := Option.map_eq_some_iff.mp h
  have hencode : chars.toList.utf8Encode = ⟨bytes.toArray⟩ := by
    have hsome : (ByteArray.mk bytes.toArray).utf8Decode?.isSome = true := by
      rw [hchars]
      rfl
    rw [← Option.get_of_eq_some hsome hchars]
    exact ByteArray.utf8Encode_get_utf8Decode?
  rw [utf8, String.toUTF8_eq_toByteArray, ← String.utf8Encode_toList, String.toList_ofList, hencode]

theorem eq_of_mem_utf8EncodeChar {c d : Char} (hd : d.toNat < 128)
    (h : d.toUInt8 ∈ String.utf8EncodeChar c) : c = d := by
  have hbyte : d.toUInt8.toNat = d.toNat := by
    rw [Char.toUInt8, UInt32.toNat_toUInt8]
    exact Nat.mod_eq_of_lt (by rw [← Char.toNat]; omega)
  have hn : c.val.toNat = d.toNat := by
    simp only [String.utf8EncodeChar] at h
    split_ifs at h <;>
      simp only [List.mem_cons, List.not_mem_nil, or_false, ← UInt8.toNat_inj, hbyte,
        UInt8.toNat_ofNat'] at h <;> omega
  exact Char.ext (UInt32.toNat_inj.mp hn)

theorem newline_notMem_utf8 {s : String} (h : '\n' ∉ s.toList) : '\n'.toUInt8 ∉ utf8 s := by
  rw [utf8_eq_flatMap, List.mem_flatMap]
  rintro ⟨c, hc, hb⟩
  exact h (eq_of_mem_utf8EncodeChar (by decide) hb ▸ hc)

theorem physicalLines_of_notMem {line : List UInt8} (h : '\n'.toUInt8 ∉ line) :
    physicalLines line = if line = [] then [] else [line] := by
  rw [physicalLines, pieces_of_notMem h]
  by_cases hl : line = [] <;> simp [hl]

theorem physicalLines_append {line : List UInt8} (h : '\n'.toUInt8 ∉ line) (rest : List UInt8) :
    physicalLines (line ++ '\n'.toUInt8 :: rest) = line :: physicalLines rest := by
  have hpieces : pieces '\n'.toUInt8 (line ++ '\n'.toUInt8 :: rest) =
      line :: pieces '\n'.toUInt8 rest := by
    rw [pieces_append_cons, pieces_of_notMem h, List.singleton_append]
  obtain ⟨p, ps, hrest⟩ := List.exists_cons_of_ne_nil (pieces_ne_nil '\n'.toUInt8 rest)
  simp only [physicalLines, hpieces, hrest, List.getLast?_cons_cons, List.dropLast_cons_cons]
  split <;> rfl

theorem physicalLines_flatMap {lines : List (List UInt8)} (h : ∀ l ∈ lines, '\n'.toUInt8 ∉ l) :
    physicalLines (lines.flatMap fun l => l ++ ['\n'.toUInt8]) = lines := by
  induction lines with
  | nil => rfl
  | cons l lines ih =>
    rw [List.flatMap_cons, List.append_assoc, List.singleton_append,
      physicalLines_append (h l List.mem_cons_self), ih fun x hx => h x (List.mem_cons_of_mem l hx)]

theorem physicalLines_utf8 {s : String} (hn : '\n' ∉ s.toList) (hne : s ≠ "") :
    physicalLines (utf8 s) = [utf8 s] := by
  rw [physicalLines_of_notMem (newline_notMem_utf8 hn), if_neg]
  intro hnil
  have hdecode := decodeText?_utf8 s
  rw [hnil, ← show utf8 "" = [] from rfl, decodeText?_utf8, Option.some_inj,
    String.toList_inj] at hdecode
  exact hne hdecode.symm

theorem newline_notMem_of_mem_physicalLines {bytes line : List UInt8}
    (h : line ∈ physicalLines bytes) : '\n'.toUInt8 ∉ line := by
  induction bytes using cut_induction '\n'.toUInt8 with
  | last bytes hbytes =>
    rw [physicalLines_of_notMem hbytes] at h
    split at h
    · exact absurd h List.not_mem_nil
    · rwa [List.mem_singleton.mp h]
  | more before after hbefore ih =>
    rw [physicalLines_append hbefore, List.mem_cons] at h
    obtain rfl | h := h
    · exact hbefore
    · exact ih h

theorem exists_eq_utf8_of_mem_physicalLines {s : String} {line : List UInt8}
    (h : line ∈ physicalLines (utf8 s)) : ∃ t, line = utf8 t := by
  rw [← String.ofList_toList (s := s)] at h
  generalize s.toList = cs at h
  induction cs using cut_induction '\n' with
  | last cs hcs =>
    rw [physicalLines_of_notMem (newline_notMem_utf8 (by simpa using hcs))] at h
    split at h
    · exact absurd h List.not_mem_nil
    · exact ⟨_, List.mem_singleton.mp h⟩
  | more before after hb ih =>
    rw [utf8_ofList_append, utf8_ofList_newline_cons,
      physicalLines_append (newline_notMem_utf8 (by simpa using hb)), List.mem_cons] at h
    obtain rfl | h := h
    · exact ⟨_, rfl⟩
    · exact ih h

variable {word second tail : List Char}

theorem splitKey_snd_sublist (line : List Char) : (splitKey line).2.Sublist line := by
  have hrest := (trimStart_sublist (line.dropWhile fun c => !isBlank c)).trans
    (List.dropWhile_sublist _)
  dsimp only [splitKey]
  generalize trimStart (line.dropWhile fun c => !isBlank c) = rest at hrest
  split
  · refine (trim_sublist _).trans ((List.dropWhile_sublist _).trans ?_)
    split
    · exact hrest
    · exact (trimStart_sublist _).trans ((List.tail_sublist rest).trans hrest)
  · exact (trim_sublist rest).trans hrest

theorem takeWhile_word (hw : ∀ c ∈ word, isBlank c = false)
    (ht : ∀ c ∈ tail.head?, isBlank c = true) :
    (word ++ tail).takeWhile (fun c => !isBlank c) = word := by
  rw [List.takeWhile_append_of_pos (by simpa using hw)]
  cases tail with
  | nil => simp
  | cons c tail => simp [ht c rfl]

theorem dropWhile_word (hw : ∀ c ∈ word, isBlank c = false)
    (ht : ∀ c ∈ tail.head?, isBlank c = true) :
    (word ++ tail).dropWhile (fun c => !isBlank c) = tail := by
  rw [List.dropWhile_append_of_pos (by simpa using hw)]
  cases tail with
  | nil => rfl
  | cons c tail => simp [ht c rfl]

theorem splitKey_of_word (hw : ∀ c ∈ word, isBlank c = false)
    (ht : ∀ c ∈ tail.head?, isBlank c = true) (hlast : word.getLast? ≠ some '-')
    (hnext : (trimStart tail).head? = some '-' → '-' ∈ word ∨ '/' ∈ word) :
    splitKey (word ++ tail) = (word, trim tail) := by
  rw [splitKey, takeWhile_word hw ht, dropWhile_word hw ht, if_neg, trim_trimStart]
  rintro (h | ⟨h, hdash, hslash⟩)
  · exact hlast h
  · exact (hnext h).elim hdash hslash

theorem splitKey_of_slash (hw : ∀ c ∈ word, isBlank c = false)
    (ht : ∀ c ∈ tail.head?, isBlank c = true) (hslash : '/' ∈ word)
    (hlast : word.getLast? ≠ some '-') : splitKey (word ++ tail) = (word, trim tail) :=
  splitKey_of_word hw ht hlast fun _ => .inr hslash

section Separators

variable {before after : List Char}

theorem splitKey_of_slash_apart (hw : ∀ c ∈ word, isBlank c = false) (hdash : '-' ∉ word)
    (hb : ∀ c ∈ before, isBlank c = true) (hbne : before ≠ []) :
    splitKey (word ++ before ++ '/' :: tail) = (word, trim (before ++ '/' :: tail)) := by
  rw [List.append_assoc]
  refine splitKey_of_word hw ?_ (fun h => hdash (List.mem_of_getLast? h)) ?_
  · rw [List.head?_append_of_ne_nil before hbne]
    exact fun c hc => hb c (List.mem_of_mem_head? hc)
  · rw [trimStart_append hb (by simp [isBlank])]
    simp

theorem splitKey_of_slash_dangling (hw : ∀ c ∈ word, isBlank c = false)
    (ha : ∀ c ∈ after, isBlank c = true) (hane : after ≠ []) :
    splitKey (word ++ '/' :: after ++ tail) = (word ++ ['/'], trim (after ++ tail)) := by
  have hline : word ++ '/' :: after ++ tail = word ++ ['/'] ++ (after ++ tail) := by simp
  rw [hline]
  refine splitKey_of_slash ?_ ?_ (by simp) (by simp)
  · simpa [or_imp, forall_and, isBlank] using hw
  · rw [List.head?_append_of_ne_nil after hane]
    exact fun c hc => ha c (List.mem_of_mem_head? hc)

theorem trimStart_append_word (ha : ∀ c ∈ after, isBlank c = true)
    (hs : ∀ c ∈ second, isBlank c = false) (hne : second ≠ []) :
    trimStart (after ++ (second ++ tail)) = second ++ tail := by
  refine trimStart_append ha ?_
  rw [List.head?_append_of_ne_nil second hne]
  exact fun c hc => hs c (List.mem_of_mem_head? hc)

theorem splitKey_of_dash_apart (hw : ∀ c ∈ word, isBlank c = false)
    (hs : ∀ c ∈ second, isBlank c = false) (hne : second ≠ [])
    (ht : ∀ c ∈ tail.head?, isBlank c = true) (hslash : '/' ∉ word) (hdash : '-' ∉ word)
    (hb : ∀ c ∈ before, isBlank c = true) (hbne : before ≠ [])
    (ha : ∀ c ∈ after, isBlank c = true) :
    splitKey (word ++ before ++ '-' :: after ++ second ++ tail) =
      (word ++ before ++ '-' :: after ++ second, trim tail) := by
  have hline : word ++ before ++ '-' :: after ++ second ++ tail =
      word ++ (before ++ '-' :: (after ++ (second ++ tail))) := by simp
  have hrest : ∀ c ∈ (before ++ '-' :: (after ++ (second ++ tail))).head?, isBlank c = true := by
    rw [List.head?_append_of_ne_nil before hbne]
    exact fun c hc => hb c (List.mem_of_mem_head? hc)
  have hdashed : trimStart (before ++ '-' :: (after ++ (second ++ tail))) =
      '-' :: (after ++ (second ++ tail)) := trimStart_append hb (by simp [isBlank])
  have hlast : word.getLast? ≠ some '-' := fun h => hdash (List.mem_of_getLast? h)
  rw [splitKey, hline, takeWhile_word hw hrest, dropWhile_word hw hrest, hdashed,
    if_pos (.inr ⟨rfl, hdash, hslash⟩), if_neg hlast, List.tail_cons,
    trimStart_append_word ha hs hne]
  simp only [dropWhile_word hs ht]
  rw [← hline, List.length_append, Nat.add_sub_cancel, List.take_left]

theorem splitKey_of_dash_dangling (hw : ∀ c ∈ word, isBlank c = false)
    (hs : ∀ c ∈ second, isBlank c = false) (hne : second ≠ [])
    (ht : ∀ c ∈ tail.head?, isBlank c = true) (ha : ∀ c ∈ after, isBlank c = true)
    (hane : after ≠ []) :
    splitKey (word ++ '-' :: after ++ second ++ tail) =
      (word ++ '-' :: after ++ second, trim tail) := by
  have hline : word ++ '-' :: after ++ second ++ tail =
      word ++ ['-'] ++ (after ++ (second ++ tail)) := by simp
  have hfirst : ∀ c ∈ word ++ ['-'], isBlank c = false := by
    simpa [or_imp, forall_and, isBlank] using hw
  have hrest : ∀ c ∈ (after ++ (second ++ tail)).head?, isBlank c = true := by
    rw [List.head?_append_of_ne_nil after hane]
    exact fun c hc => ha c (List.mem_of_mem_head? hc)
  have hlast : (word ++ ['-']).getLast? = some '-' := List.getLast?_concat
  rw [splitKey, hline, takeWhile_word hfirst hrest, dropWhile_word hfirst hrest,
    trimStart_append_word ha hs hne, if_pos (.inl hlast), if_pos hlast]
  simp only [dropWhile_word hs ht]
  rw [← hline, List.length_append, Nat.add_sub_cancel, List.take_left]

theorem splitKey_of_dash (hw : ∀ c ∈ word, isBlank c = false)
    (hs : ∀ c ∈ second, isBlank c = false) (hne : second ≠ [])
    (ht : ∀ c ∈ tail.head?, isBlank c = true) (hslash : '/' ∉ word) (hdash : '-' ∉ word)
    (hlast : second.getLast? ≠ some '-') (hb : ∀ c ∈ before, isBlank c = true)
    (ha : ∀ c ∈ after, isBlank c = true) :
    splitKey (word ++ before ++ '-' :: after ++ second ++ tail) =
      (word ++ before ++ '-' :: after ++ second, trim tail) := by
  by_cases hbne : before = []
  · by_cases hane : after = []
    · subst hbne hane
      have hjoined : ∀ c ∈ word ++ ['-'] ++ second, isBlank c = false := by
        simp only [List.mem_append, List.mem_singleton]
        rintro c ((hc | rfl) | hc)
        · exact hw c hc
        · decide
        · exact hs c hc
      simpa using splitKey_of_word hjoined ht (by rwa [List.getLast?_append_of_ne_nil _ hne])
        fun _ => .inl (by simp)
    · subst hbne
      simpa using splitKey_of_dash_dangling hw hs hne ht ha hane
  · exact splitKey_of_dash_apart hw hs hne ht hslash hdash hb hbne ha

end Separators

end Netblock
