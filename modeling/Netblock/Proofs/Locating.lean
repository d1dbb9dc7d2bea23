import Mathlib.Data.List.Nodup
import Netblock.Forest.Search
import Netblock.Proofs.Probing

/-! # Locating an interval

The descent for an interval ends at the innermost node that contains it. The nodes that meet
the interval are around that node or below it, so a search may start there.
-/

namespace Netblock

open Netblock.Interval

variable {f : Family} {V : Type}

namespace Forest

variable {i k : Interval f} {n p : Node f V} {level : Forest f V}

theorem mem_preorder_of_enclosing? (he : enclosing? k level = some p) (hn : n ∈ p.preorder) :
    n ∈ preorder level := by
  obtain ⟨s, hs, rfl⟩ := List.mem_map.mp (mem_of_enclosing? he)
  exact mem_preorder_iff.mpr ⟨s, hs, hn⟩

theorem mem_entries_of_mem_preorder (hn : n ∈ preorder level) : (n.key, n.value) ∈ entries level :=
  List.mem_map_of_mem hn

theorem mem_keys_of_mem_preorder (hn : n ∈ preorder level) : n.key ∈ keys level :=
  mem_keys_of_mem_entries (mem_entries_of_mem_preorder hn)

theorem exists_mem_preorder (hk : k ∈ keys level) : ∃ n ∈ preorder level, n.key = k := by
  rw [← map_key_preorder] at hk
  exact List.mem_map.mp hk

theorem filter_preorder_eq_nil {P : Interval f → Prop} [DecidablePred P]
    (h : ∀ i ∈ keys level, ¬ P i) : ((preorder level).filter fun n => decide (P n.key)) = [] := by
  apply List.filter_eq_nil_iff.mpr
  intro n hn hp
  exact h n.key (mem_keys_of_mem_preorder hn) (of_decide_eq_true hp)

theorem map_key_filter_preorder {P : Interval f → Prop} [DecidablePred P] :
    ((preorder level).filter fun n => decide (P n.key)).map Node.key =
      (keys level).filter fun i => decide (P i) := by
  rw [← map_key_preorder, List.filter_map]
  rfl

/-- A search for nodes that meet an interval may start at the sibling that contains it. -/
theorem filter_preorder_of_enclosing? {P : Node f V → Bool} (h : level.WellFormed)
    (he : enclosing? k level = some p) (hP : ∀ n, P n = true → n.key.Intersects k) :
    (preorder level).filter P = p.preorder.filter P := by
  have hk := contains_of_enclosing? he
  obtain ⟨-, A, B, rfl, hA, hB⟩ := h.cut_of_enclosing? he
  obtain ⟨-, -, hAB, -, -⟩ := WellFormed.insert_iff.mp h
  obtain ⟨hwA, hwB, -⟩ := WellFormed.append_iff.mp hAB
  have hbefore : (preorder A).filter P = [] := by
    apply List.filter_eq_nil_iff.mpr
    intro n hn hm
    have hnp := hwA.before_of_mem_keys hA (mem_keys_of_mem_preorder hn)
    exact (hnp.of_contains (.refl _) hk).not_intersects (hP n hm)
  have hafter : (preorder B).filter P = [] := by
    apply List.filter_eq_nil_iff.mpr
    intro n hn hm
    have hpn := hwB.after_of_mem_keys hB (mem_keys_of_mem_preorder hn)
    exact (hpn.of_contains hk (.refl _)).not_intersects (hP n hm).symm
  rw [preorder_append, preorder_cons, List.filter_append, List.filter_append, hbefore, hafter]
  simp

theorem filter_below_of_enclosing? {P : Node f V → Bool} (h : level.WellFormed)
    (he : enclosing? k level = some p) (hP : ∀ n, P n = true → n.key.Intersects k)
    (hp : ¬ P p = true) : (preorder level).filter P = (preorder p.forest).filter P := by
  rw [filter_preorder_of_enclosing? h he hP, Node.preorder_eq, List.filter_cons_of_neg hp]

/-- A node that contains an interval and is inside all others that do. -/
structure Innermost (k : Interval f) (level : Forest f V) (n : Node f V) : Prop where
  mem : n ∈ preorder level
  contains : n.key.Contains k
  inner : ∀ i ∈ keys level, i.Contains k → i.Contains n.key

theorem Innermost.key_eq (h : Innermost k level n) (hk : k ∈ keys level) : n.key = k :=
  h.contains.antisymm (h.inner k hk (.refl k))

theorem nearest?_eq_none_iff : nearest? k level = none ↔ enclosing? k level = none := by
  cases he : enclosing? k level with
  | none => simp [nearest?_of_none he]
  | some p => simp [nearest?_of_some he]

theorem innermost_of_enclosing? (h : level.WellFormed) (he : enclosing? k level = some p)
    (hn : nearest? k p.forest = none) : Innermost k level p := by
  obtain ⟨hp, -⟩ := h.cut_of_enclosing? he
  refine ⟨mem_preorder_of_enclosing? he (by simp [Node.preorder_eq]),
    contains_of_enclosing? he, fun i hi hik => ?_⟩
  rcases h.key_cases he hi with hi | hi
  · rcases List.mem_cons.mp hi with rfl | hi
    · exact .refl _
    · have hnone := nearest?_eq_none_iff.mp hn
      exact absurd hik (hp.forest.not_contains_of_enclosing? hnone hi)
  · exact absurd hik.intersects hi

theorem Innermost.of_enclosing? (h : level.WellFormed) (he : enclosing? k level = some p)
    (hn : Innermost k p.forest n) : Innermost k level n := by
  obtain ⟨hp, -⟩ := h.cut_of_enclosing? he
  refine ⟨mem_preorder_of_enclosing? he (by simp [Node.preorder_eq, hn.mem]),
    hn.contains, fun i hi hik => ?_⟩
  rcases h.key_cases he hi with hi | hi
  · rcases List.mem_cons.mp hi with rfl | hi
    · exact (hp.inside_of_mem_keys (mem_keys_of_mem_preorder hn.mem)).1
    · exact hn.inner i hi hik
  · exact absurd hik.intersects hi

/-- The descent ends at the innermost node that contains the interval. -/
theorem innermost_of_nearest? (h : level.WellFormed) (hn : nearest? k level = some n) :
    Innermost k level n := by
  fun_induction nearest? k level with
  | case1 => simp at hn
  | case2 level p he ih =>
    obtain ⟨hp, -⟩ := h.cut_of_enclosing? he
    cases hr : nearest? k p.forest with
    | none =>
      obtain rfl : p = n := by simpa [hr] using hn
      exact innermost_of_enclosing? h he hr
    | some m =>
      obtain rfl : m = n := by simpa [hr] using hn
      exact (ih hp.forest hr).of_enclosing? h he

theorem exists_nearest? (h : level.WellFormed) (hk : k ∈ keys level) :
    ∃ n, nearest? k level = some n ∧ n.key = k := by
  cases hn : nearest? k level with
  | none =>
    have he := nearest?_eq_none_iff.mp hn
    exact absurd (Contains.refl k) (h.not_contains_of_enclosing? he hk)
  | some n => exact ⟨n, rfl, (innermost_of_nearest? h hn).key_eq hk⟩

theorem WellFormed.value_unique {v w : V} (h : level.WellFormed) (hv : (k, v) ∈ entries level)
    (hw : (k, w) ∈ entries level) : v = w := by
  exact congrArg Prod.snd (List.inj_on_of_nodup_map h.nodup_keys hv hw rfl)

end Forest

end Netblock
