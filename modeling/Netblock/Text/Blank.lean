/-! # Blank characters

The characters with the Unicode property `White_Space`, and the removal of blanks
from the ends of a text.
-/

namespace Netblock.Text

/-- The property `White_Space` of the Unicode character database. -/
def isBlank (c : Char) : Bool :=
  let n := c.toNat
  (9 ≤ n && n ≤ 13) || n == 0x20 || n == 0x85 || n == 0xA0 || n == 0x1680 ||
    (0x2000 ≤ n && n ≤ 0x200A) || n == 0x2028 || n == 0x2029 || n == 0x202F ||
    n == 0x205F || n == 0x3000

theorem isBlank_of_mem_space {c : Char} (h : c ∈ [' ']) : isBlank c = true := by
  rw [List.mem_singleton.1 h]
  rfl

def trimStart (cs : List Char) : List Char := cs.dropWhile isBlank

def trimEnd (cs : List Char) : List Char := (cs.reverse.dropWhile isBlank).reverse

def trim (cs : List Char) : List Char := trimEnd (trimStart cs)

def Trimmed (cs : List Char) : Prop :=
  (∀ c ∈ cs.head?, isBlank c = false) ∧ ∀ c ∈ cs.getLast?, isBlank c = false

theorem isBlank_of_mem_head?_dropWhile {cs : List Char} {c : Char}
    (h : c ∈ (cs.dropWhile isBlank).head?) : isBlank c = false := by
  induction cs with
  | nil => simp at h
  | cons x xs ih =>
    rw [List.dropWhile_cons] at h
    split at h
    · exact ih h
    · next hx => simp_all

theorem dropWhile_isBlank_of_head? {cs : List Char} (h : ∀ c ∈ cs.head?, isBlank c = false) :
    cs.dropWhile isBlank = cs := by
  cases cs with
  | nil => rfl
  | cons x xs => rw [List.dropWhile_cons, if_neg (by simp [h x rfl])]

theorem trimEnd_of_getLast? {cs : List Char} (h : ∀ c ∈ cs.getLast?, isBlank c = false) :
    trimEnd cs = cs := by
  rw [trimEnd, dropWhile_isBlank_of_head? (by simpa using h), List.reverse_reverse]

theorem trim_of_trimmed {cs : List Char} (h : Trimmed cs) : trim cs = cs := by
  rw [trim, trimStart, dropWhile_isBlank_of_head? h.1, trimEnd_of_getLast? h.2]

theorem trimStart_append {bs cs : List Char} (hb : ∀ c ∈ bs, isBlank c = true)
    (hc : ∀ c ∈ cs.head?, isBlank c = false) : trimStart (bs ++ cs) = cs := by
  rw [trimStart, List.dropWhile_append_of_pos hb, dropWhile_isBlank_of_head? hc]

theorem trimEnd_append {bs cs : List Char} (hb : ∀ c ∈ bs, isBlank c = true)
    (hc : ∀ c ∈ cs.getLast?, isBlank c = false) : trimEnd (cs ++ bs) = cs := by
  rw [trimEnd, List.reverse_append, List.dropWhile_append_of_pos (by simpa using hb), ← trimEnd,
    trimEnd_of_getLast? hc]

theorem trim_append_append {cs : List Char} (hc : Trimmed cs) (bs bs' : List Char)
    (hb : ∀ c ∈ bs, isBlank c = true) (hb' : ∀ c ∈ bs', isBlank c = true) :
    trim (bs ++ cs ++ bs') = cs := by
  cases cs with
  | nil =>
    have hall : ∀ c ∈ bs ++ [] ++ bs', isBlank c = true := by
      simpa [or_imp, forall_and] using ⟨hb, hb'⟩
    rw [trim, ← List.append_nil (bs ++ [] ++ bs'), trimStart_append hall (by simp)]
    rfl
  | cons c cs =>
    rw [List.append_assoc, trim, trimStart_append hb (by simpa using hc.1),
      trimEnd_append hb' hc.2]

theorem trimmed_of_forall {cs : List Char} (h : ∀ c ∈ cs, isBlank c = false) : Trimmed cs :=
  ⟨fun c hc => h c (List.mem_of_mem_head? hc), fun c hc => h c (List.mem_of_mem_getLast? hc)⟩

theorem trimmed_append_append {xs ys : List Char} (hx : Trimmed xs) (hy : Trimmed ys)
    (hxs : xs ≠ []) (hys : ys ≠ []) (zs : List Char) : Trimmed (xs ++ zs ++ ys) := by
  constructor
  · cases xs with
    | nil => exact absurd rfl hxs
    | cons x xs => exact hx.1
  · rw [List.getLast?_append, List.getLast?_eq_some_getLast hys, Option.some_or,
      ← List.getLast?_eq_some_getLast hys]
    exact hy.2

theorem trimEnd_append_blanks (cs : List Char) :
    ∃ bs, cs = trimEnd cs ++ bs ∧ ∀ c ∈ bs, isBlank c = true := by
  refine ⟨(cs.reverse.takeWhile isBlank).reverse, ?_, fun c hc => ?_⟩
  · rw [trimEnd, ← List.reverse_append, List.takeWhile_append_dropWhile, List.reverse_reverse]
  · exact List.all_eq_true.1 List.all_takeWhile c (List.mem_reverse.1 hc)

theorem trimmed_trim (cs : List Char) : Trimmed (trim cs) := by
  constructor
  · intro c hc
    obtain ⟨bs, h, -⟩ := trimEnd_append_blanks (trimStart cs)
    refine @isBlank_of_mem_head?_dropWhile cs c ?_
    rw [← trimStart, h]
    rw [trim] at hc
    rw [List.head?_append, Option.mem_def.1 hc]
    rfl
  · intro c hc
    rw [trim, trimEnd, List.getLast?_reverse] at hc
    exact isBlank_of_mem_head?_dropWhile hc

theorem trim_trimStart (cs : List Char) : trim (trimStart cs) = trim cs := by
  rw [trim, trimStart, trimStart,
    dropWhile_isBlank_of_head? fun _ => isBlank_of_mem_head?_dropWhile, ← trimStart, ← trim]

theorem exists_blanks_around (cs : List Char) :
    ∃ bs bs', cs = bs ++ trim cs ++ bs' ∧ (∀ c ∈ bs, isBlank c = true) ∧
      ∀ c ∈ bs', isBlank c = true := by
  obtain ⟨bs', h, hb'⟩ := trimEnd_append_blanks (trimStart cs)
  refine ⟨cs.takeWhile isBlank, bs', ?_, fun c hc => ?_, hb'⟩
  · rw [trim, List.append_assoc, ← h, trimStart, List.takeWhile_append_dropWhile]
  · exact List.all_eq_true.1 List.all_takeWhile c hc

theorem trimStart_sublist (cs : List Char) : (trimStart cs).Sublist cs := List.dropWhile_sublist _

theorem trim_sublist (cs : List Char) : (trim cs).Sublist cs := by
  obtain ⟨bs, h, -⟩ := trimEnd_append_blanks (trimStart cs)
  have hend : (trim cs).Sublist (trimStart cs) := by
    rw [h]
    exact List.sublist_append_left _ bs
  exact hend.trans (trimStart_sublist cs)

theorem trim_around (bs cs bs' : List Char) (hb : ∀ c ∈ bs, isBlank c = true)
    (hb' : ∀ c ∈ bs', isBlank c = true) : trim (bs ++ cs ++ bs') = trim cs := by
  obtain ⟨ds, ds', h, hd, hd'⟩ := exists_blanks_around cs
  have hsplit : bs ++ cs ++ bs' = bs ++ ds ++ trim cs ++ (ds' ++ bs') := by
    conv => lhs; rw [h]
    simp only [List.append_assoc]
  rw [hsplit]
  exact trim_append_append (trimmed_trim cs) _ _ (List.forall_mem_append.mpr ⟨hb, hd⟩)
    (List.forall_mem_append.mpr ⟨hd', hb'⟩)

theorem trim_trimEnd (cs : List Char) : trim (trimEnd cs) = trim cs := by
  obtain ⟨bs, h, hb⟩ := trimEnd_append_blanks cs
  have ht := trim_around [] (trimEnd cs) bs nofun hb
  rw [List.nil_append, ← h] at ht
  exact ht.symm

theorem trim_append {key : List Char} (hk : Trimmed key) (hne : key ≠ []) (cs : List Char) :
    trim (key ++ cs) = key ++ trimEnd cs := by
  have hstart : trimStart (key ++ cs) = key ++ cs := by
    cases key with
    | nil => exact absurd rfl hne
    | cons k key => exact dropWhile_isBlank_of_head? hk.1
  rw [trim, hstart, trimEnd, trimEnd, List.reverse_append, List.dropWhile_append]
  split
  · next h =>
    rw [List.isEmpty_iff.1 h, ← trimEnd, trimEnd_of_getLast? hk.2, List.reverse_nil,
      List.append_nil]
  · rw [List.reverse_append, List.reverse_reverse]

theorem mem_head?_of_mem_head?_trimEnd {cs : List Char} {c : Char}
    (h : c ∈ (trimEnd cs).head?) : c ∈ cs.head? := by
  obtain ⟨bs, hcs, -⟩ := trimEnd_append_blanks cs
  rw [hcs, List.head?_append, Option.mem_def.1 h]
  rfl

theorem exists_blanks_before {cs : List Char} (h : ∀ c ∈ cs.getLast?, isBlank c = false) :
    ∃ bs, cs = bs ++ trim cs ∧ ∀ c ∈ bs, isBlank c = true := by
  refine ⟨cs.takeWhile isBlank, ?_, fun c hc => List.all_eq_true.1 List.all_takeWhile c hc⟩
  have hlast : ∀ c ∈ (trimStart cs).getLast?, isBlank c = false := by
    intro c hc
    refine h c ?_
    rw [← List.takeWhile_append_dropWhile (p := isBlank) (l := cs), List.getLast?_append,
      ← trimStart, Option.mem_def.mp hc, Option.some_or]
    rfl
  rw [trim, trimEnd_of_getLast? hlast, trimStart, List.takeWhile_append_dropWhile]

theorem trimStart_trimEnd_append {bs cs : List Char} (hb : ∀ c ∈ bs, isBlank c = true)
    (hc : Trimmed cs) : trimStart (trimEnd (bs ++ cs)) = cs := by
  by_cases hne : cs = []
  · have hnil : trimEnd ([] ++ bs) = [] := trimEnd_append hb (by simp)
    rw [hne, List.append_nil, ← List.nil_append bs, hnil]
    rfl
  · have hlast : ∀ c ∈ (bs ++ cs).getLast?, isBlank c = false := by
      rw [List.getLast?_append, List.getLast?_eq_some_getLast hne, Option.some_or,
        ← List.getLast?_eq_some_getLast hne]
      exact hc.2
    rw [trimEnd_of_getLast? hlast, trimStart_append hb hc.1]

end Netblock.Text
