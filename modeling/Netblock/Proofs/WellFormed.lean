import Netblock.Proofs.Preorder
import Netblock.Proofs.Siblings

/-! # Well-formed forests

The invariant of nodes and forests, at every level. In a well-formed forest the keys below a
node are strictly inside its own, the subtrees of two siblings are apart, and the walk lists
the keys in the order of intervals.
-/

namespace Netblock

open Netblock.Interval

variable {f : Family} {V : Type}

/-- A node that is not a leaf has children, which are siblings strictly inside it. -/
inductive Node.WellFormed : Node f V → Prop where
  | leaf (k : Interval f) (v : V) : WellFormed (leaf k v)
  | branch {k : Interval f} {v : V} {cs : Forest f V} (occupied : cs ≠ [])
      (siblings : Forest.Siblings cs)
      (inside : ∀ s ∈ cs, k.Contains s.node.key ∧ s.node.key ≠ k)
      (below : ∀ s ∈ cs, s.node.WellFormed) : WellFormed (branch k v cs)

structure Forest.WellFormed (level : Forest f V) : Prop where
  siblings : Siblings level
  nodes : ∀ s ∈ level, s.node.WellFormed

namespace Forest.WellFormed

variable {level A B : Forest f V} {s : Slot f (Node f V)}

theorem nil : WellFormed ([] : Forest f V) := ⟨.nil, by simp⟩

theorem append_iff : WellFormed (A ++ B) ↔ WellFormed A ∧ WellFormed B ∧
    ∀ a ∈ A, ∀ b ∈ B, a.node.key.Before b.node.key := by
  constructor
  · rintro ⟨hs, hn⟩
    obtain ⟨hA, hB, hAB⟩ := Siblings.append_iff.mp hs
    obtain ⟨hnA, hnB⟩ := List.forall_mem_append.mp hn
    exact ⟨⟨hA, hnA⟩, ⟨hB, hnB⟩, hAB⟩
  · rintro ⟨hA, hB, hAB⟩
    exact ⟨Siblings.append_iff.mpr ⟨hA.siblings, hB.siblings, hAB⟩,
      List.forall_mem_append.mpr ⟨hA.nodes, hB.nodes⟩⟩

theorem insert_iff : WellFormed (A ++ s :: B) ↔ s.label = s.node.key ∧ s.node.WellFormed ∧
    WellFormed (A ++ B) ∧ (∀ a ∈ A, a.node.key.Before s.node.key) ∧
    ∀ b ∈ B, s.node.key.Before b.node.key := by
  constructor
  · rintro ⟨hs, hn⟩
    obtain ⟨hl, hAB, hAs, hsB⟩ := Siblings.insert_iff.mp hs
    obtain ⟨hnA, hnB⟩ := List.forall_mem_append.mp hn
    obtain ⟨hns, hnB⟩ := List.forall_mem_cons.mp hnB
    exact ⟨hl, hns, ⟨hAB, List.forall_mem_append.mpr ⟨hnA, hnB⟩⟩, hAs, hsB⟩
  · rintro ⟨hl, hns, hAB, hAs, hsB⟩
    obtain ⟨hnA, hnB⟩ := List.forall_mem_append.mp hAB.nodes
    exact ⟨Siblings.insert_iff.mpr ⟨hl, hAB.siblings, hAs, hsB⟩,
      List.forall_mem_append.mpr ⟨hnA, List.forall_mem_cons.mpr ⟨hns, hnB⟩⟩⟩

theorem cons_iff : WellFormed (s :: B) ↔ s.label = s.node.key ∧ s.node.WellFormed ∧
    WellFormed B ∧ ∀ b ∈ B, s.node.key.Before b.node.key := by
  simpa using insert_iff (A := []) (s := s) (B := B)

theorem set {p : Node f V} (h : WellFormed (A ++ s :: B)) (hp : p.WellFormed)
    (hk : p.key = s.node.key) : WellFormed (A ++ ⟨s.label, p⟩ :: B) := by
  obtain ⟨hl, -, hAB, hAs, hsB⟩ := insert_iff.mp h
  refine insert_iff.mpr ⟨hl.trans hk.symm, hp, hAB, ?_, ?_⟩
  · simpa only [hk] using hAs
  · simpa only [hk] using hsB

end Forest.WellFormed

namespace Node.WellFormed

variable {n m : Node f V} {i j : Interval f} {cs : Forest f V}

theorem forest (h : n.WellFormed) : n.forest.WellFormed := by
  cases h with
  | leaf => exact .nil
  | branch _ hs _ hb => exact ⟨hs, hb⟩

theorem of_mem_preorder (h : n.WellFormed) (hm : m ∈ n.preorder) : m.WellFormed := by
  induction h with
  | leaf k v =>
    obtain rfl : m = .leaf k v := by simpa [Node.preorder] using hm
    exact .leaf k v
  | @branch k v cs ho hs hin hb ih =>
    rw [Node.preorder_eq, List.mem_cons, Forest.mem_preorder_iff] at hm
    rcases hm with rfl | ⟨s, hs, hm⟩
    · exact .branch ho ‹_› hin hb
    · exact ih s hs hm

/-- The keys below a node are strictly inside its own. -/
theorem inside_of_mem_keys (h : n.WellFormed) (hi : i ∈ Forest.keys n.forest) :
    n.key.Contains i ∧ i ≠ n.key := by
  induction h with
  | leaf => simp [Node.forest] at hi
  | @branch k v cs _ _ hin _ ih =>
    obtain ⟨s, hs, hi⟩ := Forest.mem_keys_iff.mp hi
    obtain ⟨hc, hne⟩ := hin s hs
    rcases List.mem_cons.mp hi with rfl | hi
    · exact ⟨hc, hne⟩
    · have hsi := (ih s hs hi).1
      refine ⟨hc.trans hsi, ?_⟩
      rintro rfl
      exact hne (hsi.antisymm hc)

theorem contains_of_mem_keys (h : n.WellFormed) (hi : i ∈ n.keys) : n.key.Contains i := by
  rcases List.mem_cons.mp hi with rfl | hi
  · exact .refl _
  · exact (h.inside_of_mem_keys hi).1

theorem before_of_mem_keys (hn : n.WellFormed) (hm : m.WellFormed) (h : n.key.Before m.key)
    (hi : i ∈ n.keys) (hj : j ∈ m.keys) : i.Before j :=
  h.of_contains (hn.contains_of_mem_keys hi) (hm.contains_of_mem_keys hj)

end Node.WellFormed

theorem Forest.WellFormed.pairwise_of_nodes {level : Forest f V} (h : level.WellFormed)
    (hn : ∀ s ∈ level, s.node.keys.Pairwise Leads) : (keys level).Pairwise Leads := by
  induction level with
  | nil => simp
  | cons s level ih =>
    obtain ⟨-, hs, hl, hb⟩ := cons_iff.mp h
    obtain ⟨hns, hn⟩ := List.forall_mem_cons.mp hn
    rw [keys_cons]
    refine List.pairwise_append.mpr ⟨hns, ih hl hn, fun i hi j hj => .inl ?_⟩
    obtain ⟨t, ht, hj⟩ := mem_keys_iff.mp hj
    exact hs.before_of_mem_keys (hl.nodes t ht) (hb t ht) hi hj

theorem Node.WellFormed.pairwise_leads {n : Node f V} (h : n.WellFormed) :
    n.keys.Pairwise Leads := by
  have hroot (n : Node f V) (h : n.WellFormed) : ∀ i ∈ Forest.keys n.forest, n.key.Leads i :=
    fun i hi => .inr (h.inside_of_mem_keys hi)
  induction h with
  | leaf k v => simp [Node.keys, Node.forest]
  | @branch k v cs ho hs hin hb ih =>
    have h : (Node.branch k v cs).WellFormed := .branch ho hs hin hb
    exact List.pairwise_cons.mpr ⟨hroot _ h, h.forest.pairwise_of_nodes ih⟩

namespace Forest.WellFormed

variable {level : Forest f V}

theorem pairwise_leads (h : level.WellFormed) : (keys level).Pairwise Leads :=
  h.pairwise_of_nodes fun s hs => (h.nodes s hs).pairwise_leads

theorem pairwise_leads_preorder (h : level.WellFormed) :
    (preorder level).Pairwise fun n m => n.key.Leads m.key := by
  rw [← List.pairwise_map, map_key_preorder]
  exact h.pairwise_leads

/-- The walk lists the keys in strictly increasing order. -/
theorem pairwise_precedes (h : level.WellFormed) : (keys level).Pairwise Precedes :=
  h.pairwise_leads.imp Leads.precedes

theorem not_partlyOverlaps {i j : Interval f} (h : level.WellFormed) (hi : i ∈ keys level)
    (hj : j ∈ keys level) : ¬ i.PartlyOverlaps j := by
  have hp : (keys level).Pairwise fun i j => ¬ i.PartlyOverlaps j :=
    h.pairwise_leads.imp Leads.not_partlyOverlaps
  exact List.Pairwise.forall_of_forall_of_flip (fun i _ => not_partlyOverlaps_self i) hp
    (hp.imp fun hij hji => hij hji.symm) hi hj

theorem nodup_keys (h : level.WellFormed) : (keys level).Nodup := by
  refine h.pairwise_precedes.imp fun {i j} hp => ?_
  rintro rfl
  exact Precedes.irrefl i hp

theorem nodup_map_key (h : level.WellFormed) : ((preorder level).map Node.key).Nodup := by
  rw [map_key_preorder]
  exact h.nodup_keys

end Forest.WellFormed

namespace Node.WellFormed

variable {n m : Node f V} {i j : Interval f} {cs : Forest f V}

theorem withValue (h : n.WellFormed) (v : V) : (n.withValue v).WellFormed := by
  cases h with
  | leaf => exact .leaf _ _
  | branch ho hs hin hb => exact .branch ho hs hin hb

theorem withForest (hcs : cs.WellFormed) (hne : cs ≠ [])
    (hin : ∀ i ∈ Forest.keys cs, n.key.Contains i ∧ i ≠ n.key) : (n.withForest cs).WellFormed :=
  .branch hne hcs.siblings (fun _ hs => hin _ (Forest.key_mem_keys hs)) hcs.nodes

theorem withRemaining (hcs : cs.WellFormed)
    (hin : ∀ i ∈ Forest.keys cs, n.key.Contains i ∧ i ≠ n.key) :
    (n.withRemaining cs).WellFormed := by
  cases cs with
  | nil => exact .leaf _ _
  | cons _ _ => exact withForest hcs (by simp) hin

theorem withForest_forest (h : n.WellFormed) (hne : n.forest ≠ []) : n.withForest n.forest = n := by
  cases h with
  | leaf => exact absurd rfl hne
  | branch => rfl

theorem withRemaining_forest (h : n.WellFormed) : n.withRemaining n.forest = n := by
  cases h with
  | leaf => rfl
  | @branch k v cs ho =>
    cases cs with
    | nil => exact absurd rfl ho
    | cons => rfl

end Node.WellFormed

namespace Node

variable (n : Node f V) (v : V) (cs : Forest f V)

@[simp] theorem key_withValue : (n.withValue v).key = n.key := by cases n <;> rfl

@[simp] theorem value_withValue : (n.withValue v).value = v := by cases n <;> rfl

@[simp] theorem forest_withValue : (n.withValue v).forest = n.forest := by cases n <;> rfl

@[simp] theorem key_withForest : (n.withForest cs).key = n.key := rfl

@[simp] theorem value_withForest : (n.withForest cs).value = n.value := rfl

@[simp] theorem forest_withForest : (n.withForest cs).forest = cs := rfl

@[simp] theorem key_withRemaining : (n.withRemaining cs).key = n.key := by cases cs <;> rfl

@[simp] theorem value_withRemaining : (n.withRemaining cs).value = n.value := by cases cs <;> rfl

@[simp] theorem forest_withRemaining : (n.withRemaining cs).forest = cs := by cases cs <;> rfl

end Node

end Netblock
