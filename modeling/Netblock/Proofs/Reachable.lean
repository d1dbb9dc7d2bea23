import Netblock.Proofs.Entries

/-! # What histories of edits reach

Nodes, levels and maps that are built up by edits are well-formed, whether the edits
succeeded or were refused. A subtree built in this way is added to a level as a whole or
not at all, and the probes of a level answer for all its siblings.
-/

namespace Netblock

open Netblock.Interval

variable {f : Family} {V : Type}

/-- The nodes that edits make out of leaves. -/
inductive Node.Reachable : Node f V → Prop where
  | leaf (k : Interval f) (v : V) : Reachable (leaf k v)
  | add {p n : Node f V} (hp : Reachable p) (hn : Reachable n) : Reachable (p.add n).after
  | remove {p : Node f V} (hp : Reachable p) (k : Interval f) : Reachable (p.remove k).after

inductive Forest.Reachable : Forest f V → Prop where
  | empty : Reachable []
  | add {level : Forest f V} {n : Node f V} (h : Reachable level) (hn : n.Reachable) :
      Reachable (level.add n).after
  | remove {level : Forest f V} (h : Reachable level) (k : Interval f) :
      Reachable (remove k level).after

inductive IntervalMap.Reachable : IntervalMap f V → Prop where
  | empty : Reachable empty
  | insert {m : IntervalMap f V} (h : Reachable m) (k : Interval f) (v : V) :
      Reachable (m.insert k v).after
  | erase {m : IntervalMap f V} (h : Reachable m) (k : Interval f) : Reachable (m.erase k).after
  | eraseValue [DecidableEq V] {m : IntervalMap f V} (h : Reachable m) (k : Interval f) (v : V) :
      Reachable (m.eraseValue k v).after
  | clear {m : IntervalMap f V} (h : Reachable m) : Reachable m.clear

namespace Node.WellFormed

variable {n p : Node f V}

theorem add (hp : p.WellFormed) (hn : n.WellFormed) : (p.add n).after.WellFormed := by
  rw [Node.add, addBy]
  split
  case isTrue => exact hp.withValue n.value
  case isFalse hk =>
    split
    case isTrue hc => exact (Forest.add_added hn hp.forest).withForest hp hn hc hk
    case isFalse => exact hp

theorem remove (hp : p.WellFormed) (k : Interval f) : (p.remove k).after.WellFormed := by
  rw [Node.remove]
  split
  case isTrue => exact (Forest.remove_removed hp.forest).withRemaining hp
  case isFalse => exact hp

end Node.WellFormed

theorem Node.Reachable.wellFormed {n : Node f V} (h : n.Reachable) : n.WellFormed := by
  induction h with
  | leaf k v => exact .leaf k v
  | add _ _ hp hn => exact hp.add hn
  | remove _ k hp => exact hp.remove k

theorem Forest.Reachable.wellFormed {level : Forest f V} (h : level.Reachable) :
    level.WellFormed := by
  induction h with
  | empty => exact .nil
  | add _ hn h => exact (add_added hn.wellFormed h).wellFormed h
  | remove _ k h => exact (remove_removed h).wellFormed h

theorem IntervalMap.Reachable.wellFormed {m : IntervalMap f V} (h : m.Reachable) :
    m.WellFormed := by
  induction h with
  | empty => exact .empty
  | insert _ k v h => exact (insert_inserted h k v).wellFormed h
  | erase _ k h => exact (erase_erased h k).wellFormed h
  | eraseValue _ k v h =>
    rw [IntervalMap.eraseValue]
    split
    case isTrue => exact (erase_erased h k).wellFormed h
    case isFalse => exact h
  | clear => exact .empty

/-- Nodes, levels and maps satisfy the invariant at every level, whatever edits they went
through and however those ended. -/
theorem reachable_wellFormed : (∀ n : Node f V, n.Reachable → n.WellFormed) ∧
    (∀ level : Forest f V, level.Reachable → level.WellFormed) ∧
    ∀ m : IntervalMap f V, m.Reachable → m.roots.WellFormed :=
  ⟨fun _ h => h.wellFormed, fun _ h => h.wellFormed, fun _ h => h.wellFormed.roots⟩

theorem wellFormed_ends_below_whole :
    let k := whole .v4
    let i := k.start
    let j := ofAddress k.lastAddress
    let n : Node .v4 Nat := .branch k 2 [⟨j, .leaf j 3⟩]
    let level : Forest .v4 Nat := [⟨k, .branch k 2 [⟨i, .leaf i 1⟩, ⟨j, .leaf j 3⟩]⟩]
    let m : IntervalMap .v4 Nat := ⟨[⟨k, .branch k 2 [⟨i, .leaf i 1⟩]⟩], 2⟩
    (n.Reachable ∧ n.WellFormed) ∧ (level.Reachable ∧ level.WellFormed) ∧
      m.Reachable ∧ m.roots.WellFormed := by
  intro k i j n level m
  have hn : n.Reachable := (Node.Reachable.leaf k 2).add (.leaf j 3)
  have hl : level.Reachable := by
    have he : (Forest.add [⟨i, .leaf i 1⟩] n).after = level := by decide +kernel
    exact he ▸ (Forest.Reachable.empty.add (.leaf i 1)).add hn
  have hm : m.Reachable := by
    have he : (IntervalMap.insert ⟨[⟨i, .leaf i 1⟩], 1⟩ k 2).after = m := by decide +kernel
    exact he ▸ (IntervalMap.Reachable.empty.insert i 1).insert k 2
  obtain ⟨hnode, hforest, hmap⟩ := reachable_wellFormed (f := .v4) (V := Nat)
  exact ⟨⟨hn, hnode n hn⟩, ⟨hl, hforest level hl⟩, hm, hmap m hm⟩

/-- A subtree is added as a whole or refused without a change. -/
theorem add_subtree {level : Forest f V} {n : Node f V} (h : level.Reachable) (hn : n.Reachable)
    (hk : n.key ∉ Forest.keys level) :
    ((∃ old, (level.add n).result = .ok old) ↔ Forest.Admits level n) ∧
    (∀ old, (level.add n).result = .ok old → old = none ∧
      (Forest.entries (level.add n).after).Perm (n.entries ++ Forest.entries level)) ∧
    ∀ e, (level.add n).result = .error e → (∃ cs, e = .overlap n.key cs) ∧
      (level.add n).after = level := by
  have ha := Forest.add_added hn.wellFormed h.wellFormed
  generalize level.add n = e at ha
  cases ha with
  | fresh _ admits _ perm => simp [admits, perm]
  | replaced entries_eq =>
    refine absurd ?_ hk
    simp [Forest.keys, entries_eq]
  | refused _ not_admits => simp [not_admits]

theorem add_subtree_around_sibling :
    let k := whole .v4
    let i := k.start
    let j := ofAddress k.lastAddress
    let n : Node .v4 Nat := .branch k 2 [⟨j, .leaf j 3⟩]
    let level : Forest .v4 Nat := [⟨i, .leaf i 1⟩]
    n.key ∉ Forest.keys level ∧ Forest.Admits level n ∧
      (Forest.entries (level.add n).after).Perm [(k, 2), (j, 3), (i, 1)] := by
  intro k i j n level
  have hn : n.Reachable := (Node.Reachable.leaf k 2).add (.leaf j 3)
  have hl : level.Reachable := Forest.Reachable.empty.add (.leaf i 1)
  have hk : n.key ∉ Forest.keys level := by decide
  have ha : Forest.Admits level n := by unfold Forest.Admits; decide
  obtain ⟨hiff, hok, -⟩ := add_subtree hl hn hk
  obtain ⟨old, hr⟩ := hiff.mpr ha
  exact ⟨hk, ha, (hok old hr).2⟩

namespace Forest

/-- A level and those below it, one for each node. -/
def levels (level : Forest f V) : List (Forest f V) := level :: (preorder level).map Node.forest

theorem WellFormed.of_mem_levels {level cs : Forest f V} (h : level.WellFormed)
    (hcs : cs ∈ levels level) : cs.WellFormed := by
  rcases List.mem_cons.mp hcs with rfl | hcs
  · exact h
  · obtain ⟨n, hn, rfl⟩ := List.mem_map.mp hcs
    exact (h.of_mem_preorder hn).forest

end Forest

/-- At each level the probes decide for all siblings, and the descent for all nodes below. -/
theorem probes_exact {level : Forest f V} (h : level.Reachable) (k : Interval f) :
    ∀ cs ∈ Forest.levels level,
      (∀ n ∈ Forest.nodes cs, n.key.Contains k → Forest.enclosing? k cs = some n ∧
        ∀ m ∈ Forest.nodes cs, m.key.Contains k → m = n) ∧
      ((∀ n ∈ Forest.nodes cs, ¬ n.key.Contains k) → Forest.enclosing? k cs = none) ∧
      (Forest.conflicts k cs =
          ((Forest.nodes cs).filter fun n => decide (k.PartlyOverlaps n.key)).map Node.key ∧
        (Forest.conflicts k cs).Pairwise Before ∧ (Forest.conflicts k cs).length ≤ 2) ∧
      (Forest.accepts k cs = true ↔ ∀ i ∈ Forest.keys cs, i ≠ k ∧ ¬ k.PartlyOverlaps i) := by
  intro cs hcs
  have hw := h.wellFormed.of_mem_levels hcs
  have hs := hw.siblings
  have henc {n : Node f V} := Forest.enclosing?_eq_some_iff (k := k) (n := n) hs
  refine ⟨fun n hn hk => ?_, (Forest.enclosing?_eq_none_iff hs).mpr, ?_, Forest.accepts_iff hw⟩
  · have he := henc.mpr ⟨hn, hk⟩
    exact ⟨he, fun m hm hmk => Option.some_inj.mp ((henc.mpr ⟨hm, hmk⟩).symm.trans he)⟩
  · exact ⟨Forest.conflicts_eq_filter hs, Forest.conflicts_pairwise hs,
      Forest.length_conflicts_le hs⟩

theorem probes_exact_below_whole :
    let i : Interval .v4 := ⟨0, 5, by decide, by decide⟩
    let j : Interval .v4 := ⟨8, 12, by decide, by decide⟩
    let k : Interval .v4 := ⟨3, 10, by decide, by decide⟩
    let l : Interval .v4 := ⟨9, 9, by decide, by decide⟩
    let cs : Forest .v4 Nat := [⟨i, .leaf i 1⟩, ⟨j, .leaf j 2⟩]
    let level : Forest .v4 Nat := [⟨whole .v4, .branch (whole .v4) 3 cs⟩]
    level.Reachable ∧ cs ∈ Forest.levels level ∧ Forest.conflicts k cs = [i, j] ∧
      ¬ Forest.accepts k cs = true ∧ Forest.accepts l level = true ∧
      Forest.enclosing? l cs = some (.leaf j 2) := by
  intro i j k l cs level
  have h : level.Reachable := by
    have he : (Forest.add cs (.leaf (whole .v4) 3)).after = level := by decide +kernel
    exact he ▸ ((Forest.Reachable.empty.add (.leaf i 1)).add (.leaf j 2)).add (.leaf _ 3)
  have hcs : cs ∈ Forest.levels level := by decide +kernel
  obtain ⟨-, -, ⟨hconflicts, -⟩, hk⟩ := probes_exact h k cs hcs
  obtain ⟨hl, -⟩ := probes_exact h l cs hcs
  obtain ⟨-, -, -, hlevel⟩ := probes_exact h l level List.mem_cons_self
  refine ⟨h, hcs, hconflicts.trans (by decide), ?_, ?_, ?_⟩
  · exact fun ha => (hk.mp ha i (by decide)).2 (by decide)
  · exact hlevel.mpr (by decide)
  · exact (hl (.leaf j 2) (by decide) (by decide)).1

end Netblock
