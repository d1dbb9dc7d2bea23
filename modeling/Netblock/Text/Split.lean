/-! # Cutting a list at a separator

`cut` divides a list at the first separator, `pieces` at every one. Neither loses an
element other than separators.
-/

namespace Netblock.Text

variable {α : Type} [DecidableEq α]

/-- The parts before and after the first `sep`, or `none` where there is no `sep`. -/
def cut (sep : α) : List α → Option (List α × List α)
  | [] => none
  | x :: xs => if x = sep then some ([], xs) else (cut sep xs).map fun p => (x :: p.1, p.2)

theorem eq_of_cut {sep : α} {xs before after : List α} (h : cut sep xs = some (before, after)) :
    xs = before ++ sep :: after ∧ sep ∉ before := by
  induction xs generalizing before with
  | nil => simp [cut] at h
  | cons x xs ih =>
    rw [cut] at h
    split at h
    · next hx => simp_all
    · next hx =>
      obtain ⟨⟨b, a⟩, hc, he⟩ := Option.map_eq_some_iff.1 h
      obtain ⟨rfl, rfl⟩ := Prod.mk.inj he
      obtain ⟨rfl, hb⟩ := ih hc
      simp [hb, Ne.symm hx]

theorem cut_eq_none_iff {sep : α} {xs : List α} : cut sep xs = none ↔ sep ∉ xs := by
  induction xs with
  | nil => simp [cut]
  | cons x xs ih =>
    by_cases hx : x = sep
    · simp [cut, hx]
    · simp [cut, hx, ih, Ne.symm hx]

theorem cut_append {sep : α} {before after : List α} (h : sep ∉ before) :
    cut sep (before ++ sep :: after) = some (before, after) := by
  induction before with
  | nil => simp [cut]
  | cons x xs ih =>
    simp only [List.mem_cons, not_or] at h
    simp [cut, Ne.symm h.1, ih h.2]

/-- Induction on the parts between separators: a list is the last part, or has one before it. -/
@[elab_as_elim] theorem cut_induction (sep : α) {motive : List α → Prop}
    (last : ∀ xs, sep ∉ xs → motive xs)
    (more : ∀ before after, sep ∉ before → motive after → motive (before ++ sep :: after))
    (xs : List α) : motive xs :=
  match h : cut sep xs with
  | none => last xs (cut_eq_none_iff.mp h)
  | some (before, after) => by
    obtain ⟨rfl, hb⟩ := eq_of_cut h
    exact more before after hb (cut_induction sep last more after)
termination_by xs.length
decreasing_by simp_all; omega

/-- The parts between separators; a list without a separator is one part. -/
def pieces (sep : α) : List α → List (List α)
  | [] => [[]]
  | x :: xs =>
    if x = sep then [] :: pieces sep xs
    else match pieces sep xs with
      | [] => [[x]]
      | p :: ps => (x :: p) :: ps

theorem pieces_ne_nil (sep : α) (xs : List α) : pieces sep xs ≠ [] := by
  cases xs with
  | nil => simp [pieces]
  | cons x xs =>
    rw [pieces]
    split
    · simp
    · split <;> simp

theorem mem_pieces (sep : α) {x : α} {xs : List α} (h : x ∈ xs) :
    x = sep ∨ ∃ p ∈ pieces sep xs, x ∈ p := by
  induction xs with
  | nil => cases h
  | cons y ys ih =>
    obtain ⟨q, qs, hq⟩ := List.exists_cons_of_ne_nil (pieces_ne_nil sep ys)
    rw [hq] at ih
    rw [pieces, hq]
    by_cases hy : y = sep
    · simp only [hy, if_true, List.mem_cons, exists_eq_or_imp] at h ih ⊢
      grind
    · simp only [hy, if_false, List.mem_cons, exists_eq_or_imp] at h ih ⊢
      grind

omit [DecidableEq α] in
theorem forall_mem_intercalate {P : α → Prop} {sep : α} (hsep : P sep) {ps : List (List α)}
    (h : ∀ p ∈ ps, ∀ x ∈ p, P x) : ∀ x ∈ List.intercalate [sep] ps, P x := by
  induction ps with
  | nil => nofun
  | cons p ps ih =>
    obtain ⟨hp, hps⟩ := List.forall_mem_cons.mp h
    cases ps with
    | nil => simpa using hp
    | cons q ps =>
      rw [List.intercalate_cons_cons, List.forall_mem_append, List.forall_mem_append,
        List.forall_mem_singleton]
      exact ⟨⟨hp, hsep⟩, ih hps⟩

theorem pieces_eq_splitOn (sep : α) (xs : List α) : pieces sep xs = xs.splitOn sep := by
  induction xs with
  | nil => rfl
  | cons x xs ih =>
    rw [pieces, List.splitOn_cons_eq_if_modifyHead, ← ih]
    simp only [beq_iff_eq]
    split
    · rfl
    · cases h : pieces sep xs with
      | nil => exact absurd h (pieces_ne_nil sep xs)
      | cons p ps => rfl

/-- A separator divides the parts into those of the two lists that it joins. -/
theorem pieces_append_cons (sep : α) (xs ys : List α) :
    pieces sep (xs ++ sep :: ys) = pieces sep xs ++ pieces sep ys := by
  induction xs with
  | nil => simp [pieces]
  | cons x xs ih =>
    obtain ⟨p, ps, hxs⟩ := List.exists_cons_of_ne_nil (pieces_ne_nil sep xs)
    rw [List.cons_append, pieces, pieces, ih, hxs]
    split <;> rfl

theorem pieces_of_notMem {sep : α} {xs : List α} (h : sep ∉ xs) : pieces sep xs = [xs] := by
  rw [pieces_eq_splitOn, List.splitOn_eq_singleton h]

theorem length_pieces (sep : α) (xs : List α) :
    (pieces sep xs).length = xs.count sep + 1 := by
  induction xs using cut_induction sep with
  | last xs h => rw [pieces_of_notMem h, List.count_eq_zero.mpr h, List.length_singleton]
  | more before after h ih =>
    rw [pieces_append_cons, pieces_of_notMem h, List.singleton_append, List.length_cons, ih,
      List.count_append, List.count_eq_zero.mpr h, List.count_cons_self, Nat.zero_add]

theorem exists_pieces_append (sep : α) (xs : List α) :
    ∃ p ps, pieces sep xs = p :: ps ∧
      ∀ bs, sep ∉ bs → pieces sep (bs ++ xs) = (bs ++ p) :: ps := by
  obtain ⟨p, ps, h⟩ := List.exists_cons_of_ne_nil (pieces_ne_nil sep xs)
  refine ⟨p, ps, h, fun bs hbs => ?_⟩
  induction bs with
  | nil => exact h
  | cons b bs ih =>
    rw [List.mem_cons, not_or] at hbs
    rw [List.cons_append, pieces, if_neg (Ne.symm hbs.1), ih hbs.2]
    rfl

end Netblock.Text
