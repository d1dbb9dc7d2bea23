import Mathlib.Data.String.Basic
import Netblock.Proofs.Lines

/-! # Byte offsets in a line

The block and the value of a line can be sliced out of its bytes, at offsets computed from the
lengths of what remains. A slice fails inside a character, but the offsets are those at which
words end. So `splitKey` is what the slices give, and no character is lost but the blanks
between the block and the value.
-/

namespace Netblock

open Text
open String (utf8Len)

/-- The parts of a text before and after a byte offset. There are none if the offset is inside a
character or past the end. -/
def splitAtByte? : List Char → Nat → Option (List Char × List Char)
  | cs, 0 => some ([], cs)
  | [], _ + 1 => none
  | c :: cs, n + 1 =>
    if c.utf8Size ≤ n + 1 then
      (splitAtByte? cs (n + 1 - c.utf8Size)).map fun p => (c :: p.1, p.2)
    else none

example : splitAtByte? ['é', ' '] 1 = none ∧ splitAtByte? ['é', ' '] 2 = some (['é'], [' ']) := by
  decide

/-- The byte offset of the first blank of a text, or of its end. -/
def wordEnd (cs : List Char) : Nat := utf8Len (cs.takeWhile fun c => !isBlank c)

/-- The key up to the end of the first word of `second`, a last part of the line, and the value
after it. The offset is computed from the two lengths. -/
def sliceKey? (line second : List Char) : Option (List Char × List Char) :=
  if utf8Len second ≤ utf8Len line then
    (splitAtByte? line (utf8Len line - utf8Len second + wordEnd second)).map
      fun p => (p.1, trim p.2)
  else none

/-- Divides a line as `splitKey` does, by slices at byte offsets. -/
def splitKeyAt? (line : List Char) : Option (List Char × List Char) := do
  let (word, rest) ← splitAtByte? line (wordEnd line)
  let next := trimStart rest
  if word.getLast? = some '-' then sliceKey? line next
  else if next.head? = some '-' ∧ '-' ∉ word ∧ '/' ∉ word then
    let (_, afterDash) ← splitAtByte? next 1
    sliceKey? line (trimStart afterDash)
  else some (word, trim rest)

variable {line second key w v : List Char}

theorem splitAtByte?_append (xs ys : List Char) :
    splitAtByte? (xs ++ ys) (utf8Len xs) = some (xs, ys) := by
  induction xs with
  | nil => simp [splitAtByte?]
  | cons c xs ih =>
    obtain ⟨n, hn⟩ := Nat.exists_eq_add_one_of_ne_zero (Char.utf8Size_pos c).ne'
    have hlength : utf8Len (c :: xs) = utf8Len xs + n + 1 := by
      rw [String.utf8Len_cons, hn, Nat.add_assoc]
    have hrest : utf8Len xs + n + 1 - c.utf8Size = utf8Len xs := by omega
    rw [List.cons_append, hlength, splitAtByte?, if_pos (by omega), hrest, ih, Option.map_some]

theorem splitAtByte?_wordEnd (cs : List Char) :
    splitAtByte? cs (wordEnd cs) =
      some (cs.takeWhile fun c => !isBlank c, cs.dropWhile fun c => !isBlank c) := by
  have h := splitAtByte?_append (cs.takeWhile fun c => !isBlank c)
    (cs.dropWhile fun c => !isBlank c)
  rwa [List.takeWhile_append_dropWhile] at h

theorem splitAtByte?_append_wordEnd (front second : List Char) :
    splitAtByte? (front ++ second)
        (utf8Len (front ++ second) - utf8Len second + wordEnd second) =
      some (front ++ second.takeWhile fun c => !isBlank c,
        second.dropWhile fun c => !isBlank c) := by
  have h := splitAtByte?_append (front ++ second.takeWhile fun c => !isBlank c)
    (second.dropWhile fun c => !isBlank c)
  rw [List.append_assoc, List.takeWhile_append_dropWhile] at h
  rw [← h, String.utf8Len_append, String.utf8Len_append, Nat.add_sub_cancel, wordEnd]

theorem take_append_wordEnd (front second : List Char) :
    (front ++ second).take
        ((front ++ second).length - (second.dropWhile fun c => !isBlank c).length) =
      front ++ second.takeWhile fun c => !isBlank c := by
  have hlength := congrArg List.length
    (List.takeWhile_append_dropWhile (p := fun c => !isBlank c) (l := second))
  have h : (front ++ second).length - (second.dropWhile fun c => !isBlank c).length =
      (front ++ second.takeWhile fun c => !isBlank c).length := by
    simp only [List.length_append] at hlength ⊢
    omega
  rw [h]
  exact (List.prefix_iff_eq_take.mp <|
    (List.prefix_append_right_inj front).mpr (List.takeWhile_prefix _)).symm

def fromSecondWord? (line : List Char) : Option (List Char) :=
  let word := line.takeWhile fun c => !isBlank c
  let rest := trimStart (line.dropWhile fun c => !isBlank c)
  if word.getLast? = some '-' then some rest
  else if rest.head? = some '-' ∧ '-' ∉ word ∧ '/' ∉ word then some (trimStart rest.tail)
  else none

theorem suffix_of_fromSecondWord? (h : fromSecondWord? line = some second) :
    second <:+ line ∧ ∀ c ∈ second.head?, isBlank c = false := by
  have hrest : trimStart (line.dropWhile fun c => !isBlank c) <:+ line :=
    (List.dropWhile_suffix _).trans (List.dropWhile_suffix _)
  have hhead (cs : List Char) : ∀ c ∈ (trimStart cs).head?, isBlank c = false :=
    fun _ => isBlank_of_mem_head?_dropWhile
  rw [fromSecondWord?] at h
  split at h
  · cases h
    exact ⟨hrest, hhead _⟩
  · split at h
    · cases h
      exact ⟨(List.dropWhile_suffix _).trans ((List.tail_suffix _).trans hrest), hhead _⟩
    · cases h

theorem splitKey_eq (line : List Char) :
    splitKey line = match fromSecondWord? line with
      | none => (line.takeWhile fun c => !isBlank c, trim (line.dropWhile fun c => !isBlank c))
      | some second =>
        (line.take (line.length - (second.dropWhile fun c => !isBlank c).length),
          trim (second.dropWhile fun c => !isBlank c)) := by
  simp only [splitKey, fromSecondWord?]
  split_ifs <;> simp_all [trim_trimStart]

theorem splitAtByte?_one_of_dash (h : line.head? = some '-') :
    splitAtByte? line 1 = some (['-'], line.tail) := by
  obtain ⟨cs, rfl⟩ := List.head?_eq_some_iff.mp h
  exact splitAtByte?_append ['-'] cs

theorem sliceKey?_of_suffix (h : second <:+ line) :
    sliceKey? line second =
      some (line.take (line.length - (second.dropWhile fun c => !isBlank c).length),
        trim (second.dropWhile fun c => !isBlank c)) := by
  obtain ⟨front, rfl⟩ := h
  have hle : utf8Len second ≤ utf8Len (front ++ second) := by
    rw [String.utf8Len_append]
    exact Nat.le_add_left _ _
  rw [sliceKey?, if_pos hle, splitAtByte?_append_wordEnd, take_append_wordEnd, Option.map_some]

theorem splitKeyAt?_eq (line : List Char) :
    splitKeyAt? line = match fromSecondWord? line with
      | none =>
        some (line.takeWhile fun c => !isBlank c, trim (line.dropWhile fun c => !isBlank c))
      | some second => sliceKey? line second := by
  simp only [splitKeyAt?, fromSecondWord?, splitAtByte?_wordEnd, Option.bind_eq_bind,
    Option.bind_some]
  split
  · rfl
  · split
    · next hleading => rw [splitAtByte?_one_of_dash hleading.1, Option.bind_some]
    · rfl

/-- All slices of a line are at the ends of words, and none of them fails. -/
theorem splitKeyAt?_eq_some (line : List Char) : splitKeyAt? line = some (splitKey line) := by
  rw [splitKeyAt?_eq, splitKey_eq]
  cases h : fromSecondWord? line with
  | none => rfl
  | some second => exact sliceKey?_of_suffix (suffix_of_fromSecondWord? h).1

theorem exists_splitKey_eq (h : ∀ c ∈ line.head?, isBlank c = false) :
    ∃ front word tail, line = front ++ word ++ tail ∧ splitKey line = (front ++ word, trim tail) ∧
      (∀ c ∈ word, isBlank c = false) ∧ (word = [] → tail = []) := by
  obtain ⟨front, second, hline, hhead, hsplit⟩ :
      ∃ front second, line = front ++ second ∧ (∀ c ∈ second.head?, isBlank c = false) ∧
        splitKey line = (front ++ second.takeWhile fun c => !isBlank c,
          trim (second.dropWhile fun c => !isBlank c)) := by
    rw [splitKey_eq]
    cases hsecond : fromSecondWord? line with
    | none => exact ⟨[], line, rfl, h, rfl⟩
    | some second =>
      obtain ⟨⟨front, rfl⟩, hhead⟩ := suffix_of_fromSecondWord? hsecond
      exact ⟨front, second, rfl, hhead, Prod.ext (take_append_wordEnd front second) rfl⟩
  refine ⟨front, _, _, ?_, hsplit, fun c hc => ?_, fun hnil => ?_⟩
  · rw [hline, List.append_assoc, List.takeWhile_append_dropWhile]
  · simpa using List.all_eq_true.mp List.all_takeWhile c hc
  · cases second with
    | nil => rfl
    | cons c second => simp [hhead c rfl] at hnil

theorem splitKey_of_trimmed (h : Trimmed line) (hne : line ≠ []) :
    ∃ key bs value, splitKey line = (key, value) ∧ line = key ++ bs ++ value ∧ key ≠ [] ∧
      (∀ c ∈ key.getLast?, isBlank c = false) ∧ (∀ c ∈ bs, isBlank c = true) ∧ Trimmed value := by
  obtain ⟨front, word, tail, rfl, hsplit, hword, hnil⟩ := exists_splitKey_eq h.1
  have htail : ∀ c ∈ tail.getLast?, isBlank c = false := by
    intro c hc
    refine h.2 c ?_
    rw [List.getLast?_append, Option.mem_def.mp hc]
    rfl
  obtain ⟨bs, heq, hbs⟩ := exists_blanks_before htail
  refine ⟨front ++ word, bs, trim tail, hsplit, ?_, ?_, ?_, hbs, trimmed_trim tail⟩
  · rw [List.append_assoc (front ++ word), ← heq]
  · intro hkey
    have hwordnil := (List.append_eq_nil_iff.mp hkey).2
    exact hne (by rw [hkey, hnil hwordnil, List.append_nil])
  · by_cases hwordnil : word = []
    · simpa [hwordnil, hnil hwordnil] using h.2
    · rw [List.getLast?_append_of_ne_nil front hwordnil]
      exact fun c hc => hword c (List.mem_of_getLast? hc)

def IsPlain (word : List Char) : Prop :=
  word ≠ [] ∧ ∀ c ∈ word, isBlank c = false ∧ c ≠ '-' ∧ c ≠ '/'

/-- The layouts of a key before a value: a prefix, a range with or without blanks at its dash, and
an address. After an address, a value that starts with a dash would make it a range. -/
inductive KeyLayout (value : List Char) : List Char → Prop where
  | slash {word : List Char} (word_blank : ∀ c ∈ word, isBlank c = false) (slash_mem : '/' ∈ word)
      (last_ne : word.getLast? ≠ some '-') : KeyLayout value word
  | dash {first second before after : List Char} (first_plain : IsPlain first)
      (second_plain : IsPlain second) (before_blank : ∀ c ∈ before, isBlank c = true)
      (after_blank : ∀ c ∈ after, isBlank c = true) :
      KeyLayout value (first ++ before ++ '-' :: after ++ second)
  | word {word : List Char} (word_plain : IsPlain word) (value_head : value.head? ≠ some '-') :
      KeyLayout value word

theorem IsPlain.trimmed {word : List Char} (h : IsPlain word) : Trimmed word :=
  trimmed_of_forall fun c hc => (h.2 c hc).1

theorem KeyLayout.ne_nil (h : KeyLayout v key) : key ≠ [] := by
  cases h with
  | slash _ slash_mem => exact List.ne_nil_of_mem slash_mem
  | dash => simp
  | word word_plain => exact word_plain.1

theorem KeyLayout.trimmed (h : KeyLayout v key) : Trimmed key := by
  cases h with
  | slash word_blank => exact trimmed_of_forall word_blank
  | @dash first second before after first_plain second_plain =>
    have hkey : first ++ before ++ '-' :: after ++ second =
        first ++ (before ++ '-' :: after) ++ second := by simp
    rw [hkey]
    exact trimmed_append_append first_plain.trimmed second_plain.trimmed first_plain.1
      second_plain.1 _
  | word word_plain => exact word_plain.trimmed

theorem KeyLayout.splitKey_append {tail : List Char} (h : KeyLayout v key)
    (ht : ∀ c ∈ tail.head?, isBlank c = true) (hv : trimStart tail = v) :
    splitKey (key ++ tail) = (key, trim tail) := by
  cases h with
  | slash word_blank slash_mem last_ne => exact splitKey_of_slash word_blank ht slash_mem last_ne
  | dash first_plain second_plain before_blank after_blank =>
    exact splitKey_of_dash (fun c hc => (first_plain.2 c hc).1)
      (fun c hc => (second_plain.2 c hc).1) second_plain.1 ht
      (fun hc => (first_plain.2 _ hc).2.2 rfl) (fun hc => (first_plain.2 _ hc).2.1 rfl)
      (fun hc => (second_plain.2 _ (List.mem_of_getLast? hc)).2.1 rfl) before_blank after_blank
  | word word_plain value_head =>
    refine splitKey_of_word (fun c hc => (word_plain.2 c hc).1) ht
      (fun hc => (word_plain.2 _ (List.mem_of_getLast? hc)).2.1 rfl) fun hc => ?_
    exact absurd (hv ▸ hc) value_head

theorem KeyLayout.splitKey_trim (h : KeyLayout v key) (hw : ∀ c ∈ w, isBlank c = true)
    (hwne : w ≠ []) (hv : Trimmed v) : splitKey (trim (key ++ w ++ v)) = (key, v) := by
  have hstart : ∀ c ∈ (trimEnd (w ++ v)).head?, isBlank c = true := by
    intro c hc
    have hcw := mem_head?_of_mem_head?_trimEnd hc
    rw [List.head?_append_of_ne_nil w hwne] at hcw
    exact hw c (List.mem_of_mem_head? hcw)
  have hvalue := trimStart_trimEnd_append hw hv
  rw [List.append_assoc, trim_append h.trimmed h.ne_nil, h.splitKey_append hstart hvalue,
    ← trim_trimStart, hvalue, trim_of_trimmed hv]

/-- The slices of a line never fail, and are the key and value that a loading takes from it. In
every layout they are what was written, and in every trimmed line they are all of it but the
blanks between them. -/
theorem splitKeyAt?_recovers_key_and_value :
    (∀ line, splitKeyAt? line = some (splitKey line)) ∧
    (∀ key w v, KeyLayout v key → (∀ c ∈ w, isBlank c = true) → w ≠ [] → Trimmed v →
      splitKeyAt? (trim (key ++ w ++ v)) = some (key, v)) ∧
    ∀ line, Trimmed line → line ≠ [] →
      ∃ key bs value, splitKeyAt? line = some (key, value) ∧ line = key ++ bs ++ value ∧
        key ≠ [] ∧ (∀ c ∈ key.getLast?, isBlank c = false) ∧ (∀ c ∈ bs, isBlank c = true) ∧
        Trimmed value := by
  refine ⟨splitKeyAt?_eq_some, fun key w v h hw hwne hv => ?_, fun line h hne => ?_⟩
  · rw [splitKeyAt?_eq_some, h.splitKey_trim hw hwne hv]
  · obtain ⟨key, bs, value, hsplit, hparts⟩ := splitKey_of_trimmed h hne
    exact ⟨key, bs, value, by rw [splitKeyAt?_eq_some, hsplit], hparts⟩

theorem splitKeyAt?_recovers_range_with_wide_blank :
    splitKeyAt? (trim (['1'] ++ [' '] ++ '-' :: ['\u3000'] ++ ['2'] ++ [' '] ++ ['-', 'é'])) =
      some (['1'] ++ [' '] ++ '-' :: ['\u3000'] ++ ['2'], ['-', 'é']) ∧
    ∃ key bs value, splitKeyAt? ['é', '\u3000', '-'] = some (key, value) ∧
      ['é', '\u3000', '-'] = key ++ bs ++ value ∧ key ≠ [] ∧
      (∀ c ∈ key.getLast?, isBlank c = false) ∧ (∀ c ∈ bs, isBlank c = true) ∧ Trimmed value := by
  obtain ⟨-, hlayout, hline⟩ := splitKeyAt?_recovers_key_and_value
  have hone : IsPlain ['1'] := ⟨by simp, by simp [isBlank]⟩
  have htwo : IsPlain ['2'] := ⟨by simp, by simp [isBlank]⟩
  constructor
  · refine hlayout _ [' '] ['-', 'é'] (.dash hone htwo ?_ ?_) ?_ (by simp) ⟨?_, ?_⟩ <;>
      simp [isBlank]
  · refine hline _ ⟨?_, ?_⟩ (by simp) <;> simp [isBlank]

end Netblock
