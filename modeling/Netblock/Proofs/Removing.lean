import Netblock.Forest.Remove
import Netblock.Proofs.Probing

/-! # What removing a key does

A key of a well-formed forest is taken out at its own level, where the children of its node
fit the place that it leaves. Nothing else changes, and without the key nothing changes at all.
-/

namespace Netblock

open Netblock.Interval

variable {f : Family} {V : Type}

namespace Forest

/-- The outcomes of removing a key from a level. -/
inductive Deletion (k : Interval f) :
    Forest f V → Removal (Interval f) V (Forest f V) → Prop where
  | outside {level : Forest f V} (he : enclosing? k level = none) :
      Deletion k level ⟨none, level, []⟩
  | under {A B : Forest f V} {p : Node f V} {r : Removal (Interval f) V (Forest f V)}
      (around : p.key.Contains k) (ne : p.key ≠ k) (h : Deletion k p.forest r) :
      Deletion k (A ++ ⟨p.key, p⟩ :: B) (r.map fun cs => A ++ ⟨p.key, p.withRemaining cs⟩ :: B)
  | promoted {A B : Forest f V} {p : Node f V} (key_eq : p.key = k) :
      Deletion k (A ++ ⟨p.key, p⟩ :: B) ⟨some p.value, A ++ p.forest ++ B,
        if p.forest.isEmpty then [] else [.promoting k p.forest.length]⟩

/-- What is known of the entries once a key has been removed. -/
inductive Removed (k : Interval f) (level : Forest f V) :
    Removal (Interval f) V (Forest f V) → Prop where
  | absent (notMem : k ∉ keys level) : Removed k level ⟨none, level, []⟩
  | found {after : Forest f V} {events : List (Event (Interval f))} {v : V}
      {X Y : List (Interval f × V)} (entries_eq : entries level = X ++ (k, v) :: Y)
      (wellFormed : after.WellFormed) (after_eq : entries after = X ++ Y) :
      Removed k level ⟨some v, after, events⟩

variable {k : Interval f} {p : Node f V} {level A B : Forest f V}
  {r : Removal (Interval f) V (Forest f V)}

theorem Removed.withRemaining (h : Removed k p.forest r) (hp : p.WellFormed) :
    (p.withRemaining r.after).WellFormed := by
  cases h with
  | absent =>
    rw [hp.withRemaining_forest]
    exact hp
  | found entries_eq wellFormed after_eq =>
    refine .withRemaining wellFormed fun i hi => hp.inside_of_mem_keys ?_
    simp only [keys, entries_eq, after_eq, List.map_append, List.mem_append] at hi ⊢
    exact hi.imp_right (List.mem_cons_of_mem _)

theorem Removed.under (h : (A ++ ⟨p.key, p⟩ :: B).WellFormed) (around : p.key.Contains k)
    (ne : p.key ≠ k) (hr : Removed k p.forest r) :
    Removed k (A ++ ⟨p.key, p⟩ :: B) (r.map fun cs => A ++ ⟨p.key, p.withRemaining cs⟩ :: B) := by
  obtain ⟨-, hp, -, -, -⟩ := WellFormed.insert_iff.mp h
  have hwf := h.set (hr.withRemaining hp) (by simp)
  cases hr with
  | absent notMem =>
    simp only [Removal.map, hp.withRemaining_forest]
    refine .absent fun hm => ?_
    rcases h.key_cases (enclosing?_append h.siblings around) hm with hm | hm
    · rcases List.mem_cons.mp hm with hk | hm
      · exact ne hk.symm
      · exact notMem hm
    · exact hm (Contains.refl k).intersects
  | @found after events v X Y entries_eq _ after_eq =>
    refine .found (X := entries A ++ (p.key, p.value) :: X) (Y := Y ++ entries B) ?_ hwf ?_
    · simp [Node.entries, entries_eq]
    · simp [Node.entries, after_eq]

theorem WellFormed.promote (h : (A ++ ⟨p.key, p⟩ :: B).WellFormed) :
    (A ++ p.forest ++ B).WellFormed := by
  obtain ⟨-, hp, hAB, hA, hB⟩ := insert_iff.mp h
  obtain ⟨hwA, hwB, hab⟩ := append_iff.mp hAB
  refine append_iff.mpr ⟨append_iff.mpr ⟨hwA, hp.forest, fun a ha s hs => ?_⟩, hwB, ?_⟩
  · exact (hA a ha).of_contains (.refl _) (hp.inside_of_mem_keys (key_mem_keys hs)).1
  · intro s hs b hb
    rcases List.mem_append.mp hs with hs | hs
    · exact hab s hs b hb
    · exact (hB b hb).of_contains (hp.inside_of_mem_keys (key_mem_keys hs)).1 (.refl _)

/-- Whatever its depth, a deletion is decided by the keys of the forest alone. -/
theorem Deletion.removed (h : Deletion k level r) (hl : level.WellFormed) :
    Removed k level r := by
  induction h with
  | outside he => exact .absent fun hm => hl.not_contains_of_enclosing? he hm (.refl k)
  | under around ne h ih =>
    obtain ⟨-, hp, -, -, -⟩ := WellFormed.insert_iff.mp hl
    exact .under hl around ne (ih hp.forest)
  | @promoted A B p key_eq =>
    refine .found (X := entries A) (Y := entries p.forest ++ entries B) ?_ hl.promote ?_
    · simp [Node.entries, key_eq]
    · simp

theorem Removed.wellFormed (h : Removed k level r) (hl : level.WellFormed) :
    r.after.WellFormed := by
  cases h with
  | absent => exact hl
  | found _ wellFormed _ => exact wellFormed

theorem promote_append (h : (A ++ ⟨p.key, p⟩ :: B).WellFormed) :
    promote p.key (A ++ ⟨p.key, p⟩ :: B) = ⟨some p.value, A ++ p.forest ++ B,
      if p.forest.isEmpty then [] else [.promoting p.key p.forest.length]⟩ := by
  obtain ⟨-, hp, -, -, -⟩ := WellFormed.insert_iff.mp h
  have hex : extract? p.key (A ++ ⟨p.key, p⟩ :: B) = some (p, A ++ B) := h.siblings.extract?_label
  have hall := placeAll_append h.promote.siblings
  cases hp with
  | leaf k v => simp [promote, hex, Node.forest, Node.value]
  | @branch k v cs occupied =>
    have hcs : cs.isEmpty = false := by simpa using occupied
    simp only [Node.forest, Node.key, Node.value] at hall hex ⊢
    simp [promote, hex, hall, hcs]

/-- A removal goes on below the sibling around its key, which gets its slot again. -/
theorem remove_of_around (h : level.WellFormed) (he : enclosing? k level = some p)
    (hk : p.key ≠ k) : occupant? p.key level = some p ∧ remove k level =
      (remove k p.forest).map fun cs => replace p.key.last (p.withRemaining cs) level := by
  obtain ⟨-, A, B, rfl, hA, -⟩ := h.cut_of_enclosing? he
  obtain ⟨-, -, hAB, -, -⟩ := WellFormed.insert_iff.mp h
  have hlast := (WellFormed.append_iff.mp hAB).1.siblings.label_lt_last hA
  have hp : occupant? p.key (A ++ ⟨p.key, p⟩ :: B) = some p := occupant?_append hlast rfl
  exact ⟨hp, remove_of_occupant he hk hp⟩

/-- Every removal from a well-formed forest is a deletion. -/
theorem remove_deletion {level : Forest f V} (h : level.WellFormed) :
    Deletion k level (remove k level) := by
  cases he : enclosing? k level with
  | none =>
    rw [remove_of_none he]
    exact .outside he
  | some p =>
    have hc := contains_of_enclosing? he
    have hlt := count_forest_lt (mem_of_enclosing? he)
    obtain ⟨hp, A, B, rfl, hA, -⟩ := h.cut_of_enclosing? he
    obtain ⟨-, -, hAB, -, -⟩ := WellFormed.insert_iff.mp h
    have hlast := (WellFormed.append_iff.mp hAB).1.siblings.label_lt_last hA
    by_cases hk : p.key = k
    · rw [remove_of_key he hk, ← hk, promote_append h]
      exact .promoted rfl
    · rw [(remove_of_around h he hk).2]
      have hrep (p' : Node f V) :
          replace p.key.last p' (A ++ ⟨p.key, p⟩ :: B) = A ++ ⟨p.key, p'⟩ :: B :=
        replace_append hlast (Nat.le_refl p.key.last)
      simp only [hrep]
      exact .under hc hk (remove_deletion hp.forest)
termination_by count level

theorem remove_removed (h : level.WellFormed) : Removed k level (remove k level) :=
  (remove_deletion h).removed h

end Forest

end Netblock
