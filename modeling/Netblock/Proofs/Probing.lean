import Netblock.Forest.Search
import Netblock.Proofs.WellFormed

/-! # Probing a forest

The sibling that contains an interval tells where the keys are that meet it: below that
sibling, or nowhere else. The probes of one level so decide for all keys of a well-formed
forest.
-/

namespace Netblock.Forest

open Netblock.Interval

variable {f : Family} {V : Type} {i k : Interval f} {n : Node f V} {level A B : Forest f V}

namespace WellFormed

theorem of_mem_nodes (h : level.WellFormed) (hn : n ∈ Forest.nodes level) : n.WellFormed := by
  obtain ⟨s, hs, rfl⟩ := List.mem_map.mp hn
  exact h.nodes s hs

theorem of_mem_preorder (h : level.WellFormed) (hn : n ∈ preorder level) : n.WellFormed := by
  obtain ⟨s, hs, hn⟩ := mem_preorder_iff.mp hn
  exact (h.nodes s hs).of_mem_preorder hn

theorem exists_of_mem_keys (h : level.WellFormed) (hi : i ∈ keys level) :
    ∃ n ∈ Forest.nodes level, i ∈ n.keys ∧ n.key.Contains i := by
  obtain ⟨s, hs, hi⟩ := mem_keys_iff.mp hi
  exact ⟨s.node, List.mem_map_of_mem hs, hi, (h.nodes s hs).contains_of_mem_keys hi⟩

theorem exists_enclosing? (h : level.WellFormed) (hi : i ∈ keys level) (hk : i.Contains k) :
    ∃ n, enclosing? k level = some n ∧ i ∈ n.keys := by
  obtain ⟨n, hn, hi, hc⟩ := h.exists_of_mem_keys hi
  exact ⟨n, (enclosing?_eq_some_iff h.siblings).mpr ⟨hn, hc.trans hk⟩, hi⟩

theorem not_contains_of_enclosing? (h : level.WellFormed) (he : enclosing? k level = none)
    (hi : i ∈ keys level) : ¬ i.Contains k := by
  intro hk
  obtain ⟨n, hn, -⟩ := h.exists_enclosing? hi hk
  rw [he] at hn
  exact absurd hn (by simp)

theorem cut_of_enclosing? (h : level.WellFormed) (he : enclosing? k level = some n) :
    n.WellFormed ∧ ∃ A B, level = A ++ ⟨n.key, n⟩ :: B ∧
      (∀ a ∈ A, a.node.key.Before n.key) ∧ ∀ b ∈ B, n.key.Before b.node.key := by
  have hn := mem_of_enclosing? he
  exact ⟨h.of_mem_nodes hn, h.siblings.exists_cut hn⟩

theorem before_of_mem_keys (h : A.WellFormed) (hA : ∀ a ∈ A, a.node.key.Before k)
    (hi : i ∈ keys A) : i.Before k := by
  obtain ⟨s, hs, hi⟩ := mem_keys_iff.mp hi
  exact (hA s hs).of_contains ((h.nodes s hs).contains_of_mem_keys hi) (.refl k)

theorem after_of_mem_keys (h : B.WellFormed) (hB : ∀ b ∈ B, k.Before b.node.key)
    (hi : i ∈ keys B) : k.Before i := by
  obtain ⟨s, hs, hi⟩ := mem_keys_iff.mp hi
  exact (hB s hs).of_contains (.refl k) ((h.nodes s hs).contains_of_mem_keys hi)

/-- Apart from the node that contains `k` and those below it, no node meets `k`. -/
theorem key_cases (h : level.WellFormed) (he : enclosing? k level = some n)
    (hi : i ∈ keys level) : i ∈ n.keys ∨ ¬ i.Intersects k := by
  have hk := contains_of_enclosing? he
  obtain ⟨-, A, B, rfl, hA, hB⟩ := h.cut_of_enclosing? he
  obtain ⟨-, -, hAB, -, -⟩ := insert_iff.mp h
  obtain ⟨hwA, hwB, -⟩ := append_iff.mp hAB
  rw [keys_append, keys_cons, List.mem_append, List.mem_append] at hi
  rcases hi with hi | hi | hi
  · have hb := (hwA.before_of_mem_keys hA hi).of_contains (.refl i) hk
    exact .inr hb.not_intersects
  · exact .inl hi
  · have hb := (hwB.after_of_mem_keys hB hi).of_contains hk (.refl i)
    exact .inr fun hm => hb.not_intersects hm.symm

end WellFormed

theorem mem_keys_of_enclosing? (he : enclosing? k level = some n) (hi : i ∈ n.keys) :
    i ∈ keys level := by
  obtain ⟨s, hs, rfl⟩ := List.mem_map.mp (mem_of_enclosing? he)
  exact mem_keys_iff.mpr ⟨s, hs, hi⟩

/-- A level accepts an interval that is no key and partly overlaps no key of the forest. -/
theorem accepts_iff (h : level.WellFormed) :
    accepts k level = true ↔ ∀ i ∈ keys level, i ≠ k ∧ ¬ k.PartlyOverlaps i := by
  fun_induction accepts k level with
  | case1 level he =>
    rw [List.isEmpty_iff, conflicts_eq_nil_iff h.siblings]
    constructor
    · intro hc i hi
      refine ⟨fun hk => h.not_contains_of_enclosing? he hi (hk ▸ .refl i), fun hp => ?_⟩
      obtain ⟨n, hn, -, hni⟩ := h.exists_of_mem_keys hi
      have hnk := (enclosing?_eq_none_iff h.siblings).mp he n hn
      exact hc n hn (hp.symm.of_contains hni hnk).symm
    · intro hk n hn
      obtain ⟨s, hs, rfl⟩ := List.mem_map.mp hn
      exact (hk _ (key_mem_keys hs)).2
  | case2 level n he hk =>
    refine iff_of_false (by simp) fun ha => ?_
    exact (ha n.key (mem_keys_of_enclosing? he n.key_mem_keys)).1 hk
  | case3 level n he hk ih =>
    obtain ⟨hn, -⟩ := h.cut_of_enclosing? he
    rw [ih hn.forest]
    constructor
    · intro ha i hi
      rcases h.key_cases he hi with hi | hi
      · rcases List.mem_cons.mp hi with rfl | hi
        · exact ⟨hk, fun hp => hp.2.2 (contains_of_enclosing? he)⟩
        · exact ha i hi
      · exact ⟨fun he => hi (he ▸ (Contains.refl i).intersects), fun hp => hi hp.1.symm⟩
    · intro ha i hi
      exact ha i (mem_keys_of_enclosing? he (List.mem_cons_of_mem _ hi))

end Netblock.Forest
