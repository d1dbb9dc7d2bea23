import Netblock.Proofs.Reachable

/-! # Less specific intervals

The descent for an interval passes exactly the nodes that contain it, each strictly around
the next. The one sibling that a level is asked for is the only one that can contain the
interval, so no node is missed.
-/

namespace Netblock

open Netblock.Interval

variable {f : Family} {V : Type}

namespace Forest

variable {k : Interval f} {m n : Node f V} {level : Forest f V} {l l' : List (Node f V)}

/-- The descent passes all nodes that contain the interval, in the order of the walk. -/
theorem chain_eq_filter (h : level.WellFormed) :
    chain k level = (preorder level).filter fun n => decide (n.key.Contains k) := by
  fun_induction chain k level with
  | case1 level he =>
    symm
    exact filter_preorder_eq_nil (P := fun i => i.Contains k) fun i hi =>
      h.not_contains_of_enclosing? he hi
  | case2 level p he ih =>
    obtain ⟨hp, -⟩ := h.cut_of_enclosing? he
    have hk := contains_of_enclosing? he
    rw [filter_preorder_of_enclosing? h he fun n hn => (of_decide_eq_true hn).intersects,
      Node.preorder_eq, List.filter_cons_of_pos (by simpa using hk), ih hp.forest]

/-- The descent that collects nodes and the one that keeps the last alone agree. -/
theorem nearest?_eq_getLast? (k : Interval f) (level : Forest f V) :
    nearest? k level = (chain k level).getLast? := by
  fun_induction nearest? k level with
  | case1 level he => rw [chain_of_none he, List.getLast?_nil]
  | case2 level p he ih => rw [chain_of_some he, List.getLast?_cons, ih]

/-- Nodes that contain an interval, each strictly around all that follow it. -/
structure Nested (k : Interval f) (l : List (Node f V)) : Prop where
  contains : ∀ n ∈ l, n.key.Contains k
  around : l.Pairwise fun n m => n.key.Contains m.key ∧ m.key ≠ n.key

namespace Nested

theorem sublist (h : Nested k l) (hl : l'.Sublist l) : Nested k l' :=
  ⟨fun n hn => h.contains n (hl.subset hn), h.around.sublist hl⟩

theorem contains_last (h : Nested k l) (hn : l.getLast? = some n) (hm : m ∈ l) :
    m.key.Contains n.key := by
  obtain ⟨l, rfl⟩ := List.getLast?_eq_some_iff.mp hn
  rcases List.mem_append.mp hm with hm | hm
  · exact ((List.pairwise_append.mp h.around).2.2 m hm n (by simp)).1
  · rw [List.mem_singleton.mp hm]
    exact .refl _

theorem ne_of_append (h : Nested k (l ++ [n])) (hm : m ∈ l) : m.key ≠ k := by
  rintro rfl
  obtain ⟨hc, hne⟩ := (List.pairwise_append.mp h.around).2.2 m hm n (by simp)
  exact hne ((h.contains n (by simp)).antisymm hc)

end Nested

theorem nested_chain (h : level.WellFormed) : Nested k (chain k level) := by
  have hcontains : ∀ n ∈ chain k level, n.key.Contains k := by
    intro n hn
    rw [chain_eq_filter h] at hn
    exact of_decide_eq_true (List.mem_filter.mp hn).2
  have hleads : (chain k level).Pairwise fun n m => n.key.Leads m.key := by
    rw [chain_eq_filter h]
    exact h.pairwise_leads_preorder.sublist List.filter_sublist
  exact ⟨hcontains, hleads.imp_of_mem fun hn hm hnm => hnm.resolve_left fun hb =>
    (hb.of_contains (hcontains _ hn) (hcontains _ hm)).ne rfl⟩

end Forest

namespace IntervalMap

open Forest

variable {m : IntervalMap f V} {k : Interval f} {n : Node f V} {v : V}

theorem around_eq_filter (h : m.WellFormed) (k : Interval f) :
    m.around k = (preorder m.roots).filter fun n => decide (n.key.Contains k ∧ n.key ≠ k) := by
  have hn := nested_chain (k := k) h.roots
  have hf : (preorder m.roots).filter (fun n => decide (n.key.Contains k ∧ n.key ≠ k)) =
      (chain k m.roots).filter fun n => decide (n.key ≠ k) := by
    simp [chain_eq_filter h.roots, List.filter_filter, Bool.and_comm]
  rw [hf, around]
  generalize chain k m.roots = l at hn
  rcases List.eq_nil_or_concat' l with rfl | ⟨l, n, rfl⟩
  · rfl
  · have hl : l.filter (fun n => decide (n.key ≠ k)) = l :=
      List.filter_eq_self.mpr fun m hm => decide_eq_true (hn.ne_of_append hm)
    rw [List.filter_append, hl]
    by_cases hk : n.key = k <;> simp [hk]

theorem mem_around_iff (h : m.WellFormed) :
    n ∈ m.around k ↔ n ∈ preorder m.roots ∧ n.key.Contains k ∧ n.key ≠ k := by
  rw [around_eq_filter h, List.mem_filter, decide_eq_true_iff]

theorem nested_around (h : m.WellFormed) : Nested k (m.around k) := by
  refine (nested_chain (k := k) h.roots).sublist ?_
  rw [around]
  split
  · split
    · exact List.dropLast_sublist _
    · exact .refl _
  · exact .refl _

structure SmallestAround (m : IntervalMap f V) (k i : Interval f) : Prop where
  contains : i.Contains k
  ne : i ≠ k
  inner : ∀ e ∈ m.toList, e.1.Contains k → e.1 ≠ k → e.1.Contains i

theorem mem_toList_iff {e : Interval f × V} :
    e ∈ m.toList ↔ ∃ n ∈ preorder m.roots, (n.key, n.value) = e := by
  rw [toList_eq, entries, List.mem_map]

theorem firstLess?_eq_some_iff (h : m.WellFormed) :
    m.firstLess? k = some v ↔ ∃ i, (i, v) ∈ m.toList ∧ SmallestAround m k i := by
  have hnested := nested_around (k := k) h
  constructor
  · intro hf
    obtain ⟨n, hn, rfl⟩ := Option.map_eq_some_iff.mp hf
    obtain ⟨hm, hk, hne⟩ := (mem_around_iff h).mp (List.mem_of_getLast? hn)
    refine ⟨n.key, mem_toList_iff.mpr ⟨n, hm, rfl⟩, hk, hne, fun e he hek hne' => ?_⟩
    obtain ⟨p, hp, rfl⟩ := mem_toList_iff.mp he
    exact hnested.contains_last hn ((mem_around_iff h).mpr ⟨hp, hek, hne'⟩)
  · rintro ⟨i, hv, hi⟩
    obtain ⟨p, hp, he⟩ := mem_toList_iff.mp hv
    obtain ⟨rfl, rfl⟩ := Prod.mk.inj he
    have hpa := (mem_around_iff h).mpr ⟨hp, hi.contains, hi.ne⟩
    obtain ⟨n, hn⟩ := Option.ne_none_iff_exists'.mp
      (mt List.getLast?_eq_none_iff.mp (List.ne_nil_of_mem hpa))
    obtain ⟨hm, hk, hne⟩ := (mem_around_iff h).mp (List.mem_of_getLast? hn)
    have hv' := mem_toList_iff.mpr ⟨n, hm, rfl⟩
    have hkey : n.key = p.key := (hi.inner _ hv' hk hne).antisymm (hnested.contains_last hn hpa)
    rw [hkey] at hv'
    rw [toList_eq] at hv hv'
    simp [firstLess?, hn, h.roots.value_unique hv' hv]

theorem firstLess?_eq_none_iff (h : m.WellFormed) :
    m.firstLess? k = none ↔ ∀ e ∈ m.toList, e.1.Contains k → e.1 = k := by
  rw [firstLess?, Option.map_eq_none_iff, List.getLast?_eq_none_iff, around_eq_filter h,
    List.filter_eq_nil_iff]
  simp [mem_toList_iff]

theorem exactOrFirstLess?_eq_or (m : IntervalMap f V) (k : Interval f) :
    m.exactOrFirstLess? k = (m.get? k).or (m.firstLess? k) := by
  rw [exactOrFirstLess?, get?, firstLess?, around, nearest?, nearest?_eq_getLast?]
  cases hn : (chain k m.roots).getLast? with
  | none => simp [hn]
  | some n => by_cases hk : n.key = k <;> simp [Option.filter, hn, hk]

/-- The queries for an interval and for those around it are filters and lookups on the entries,
the larger intervals first. -/
theorem less_specific_eq_filter (h : m.Reachable) (k : Interval f) :
    ((m.toList.filter fun e => decide (e.1.Contains k)).Pairwise fun a b =>
      a.1.Contains b.1 ∧ b.1 ≠ a.1) ∧
    m.exactAndAllLess k = (m.toList.filter fun e => decide (e.1.Contains k)).map Prod.snd ∧
    m.allLess k = (m.toList.filter fun e => decide (e.1.Contains k ∧ e.1 ≠ k)).map Prod.snd ∧
    (∀ v, m.firstLess? k = some v ↔ ∃ i, (i, v) ∈ m.toList ∧ SmallestAround m k i) ∧
    (m.firstLess? k = none ↔ ∀ e ∈ m.toList, e.1.Contains k → e.1 = k) ∧
    (∀ v, m.get? k = some v ↔ (k, v) ∈ m.toList) ∧
    m.exactOrFirstLess? k = (m.get? k).or (m.firstLess? k) := by
  have hw := h.wellFormed
  have hchain : (m.toList.filter fun e => decide (e.1.Contains k)) =
      (chain k m.roots).map fun n => (n.key, n.value) := by
    rw [toList_eq, entries, List.filter_map, chain_eq_filter hw.roots]
    rfl
  refine ⟨?_, ?_, ?_, fun v => firstLess?_eq_some_iff hw, firstLess?_eq_none_iff hw,
    fun v => get?_eq_some_iff hw, exactOrFirstLess?_eq_or m k⟩
  · rw [hchain, List.pairwise_map]
    exact (nested_chain hw.roots).around
  · rw [hchain, List.map_map, exactAndAllLess]
    rfl
  · rw [allLess, around_eq_filter hw, toList_eq, entries, List.filter_map, List.map_map]
    rfl

theorem less_specific_of_start :
    let k := whole .v4
    let i := k.start
    let m : IntervalMap .v4 Nat := ⟨[⟨k, .branch k 2 [⟨i, .leaf i 1⟩]⟩], 2⟩
    m.exactAndAllLess i = [2, 1] ∧ m.allLess i = [2] ∧ m.firstLess? i = some 2 ∧
      m.get? i = some 1 ∧ m.firstLess? k = none := by
  intro k i m
  have hm : m.Reachable := by
    have he : (IntervalMap.insert ⟨[⟨i, .leaf i 1⟩], 1⟩ k 2).after = m := by decide +kernel
    exact he ▸ (Reachable.empty.insert i 1).insert k 2
  have hl : m.toList = [(k, 2), (i, 1)] := by rw [toList_eq]; rfl
  obtain ⟨-, hall, hless, hfirst, -, hget, -⟩ := less_specific_eq_filter hm i
  obtain ⟨-, -, -, -, hnone, -, -⟩ := less_specific_eq_filter hm k
  rw [hl] at hall hless
  refine ⟨hall, hless, (hfirst 2).mpr ⟨k, by simp [hl], ?_⟩, (hget 1).mpr (by simp [hl]),
    hnone.mpr ?_⟩
  · refine ⟨by decide, by decide, ?_⟩
    rw [hl]
    decide
  · rw [hl]
    decide

end IntervalMap

end Netblock
