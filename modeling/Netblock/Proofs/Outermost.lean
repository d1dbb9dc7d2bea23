import Mathlib.Data.List.Sort
import Netblock.Proofs.MoreSpecific

/-! # Outermost intervals

Among the intervals of a well-formed forest that have a property, those inside no other one
are apart, and every one with the property is inside exactly one of them. The scan for the
outermost intervals strictly inside a given one lists them in order.
-/

namespace Netblock

open Netblock.Interval

variable {f : Family} {V : Type}

/-- `i` has the property, and is inside no other of these intervals that has it. -/
def Interval.Outermost (P : Interval f → Prop) (is : List (Interval f)) (i : Interval f) : Prop :=
  P i ∧ ∀ j ∈ is, P j → j.Contains i → j = i

instance {P : Interval f → Prop} [DecidablePred P] (is : List (Interval f)) (i : Interval f) :
    Decidable (Interval.Outermost P is i) := by unfold Outermost; infer_instance

namespace Forest

variable {P : Interval f → Prop} {k : Interval f} {m n : Node f V}
  {walk walk' ns ms : List (Node f V)} {level : Forest f V}

/-- Nodes of a walk with a property that are apart, and around all others that have it. -/
structure Frontier (P : Interval f → Prop) (walk ns : List (Node f V)) : Prop where
  sublist : ns.Sublist walk
  property : ∀ n ∈ ns, P n.key
  covers : ∀ m ∈ walk, P m.key → ∃ n ∈ ns, n.key.Contains m.key
  apart : ns.Pairwise fun n m => n.key.Before m.key

namespace Frontier

theorem of_forall_not (h : ∀ n ∈ walk, ¬ P n.key) : Frontier P walk [] :=
  ⟨List.nil_sublist _, by simp, fun m hm hp => absurd hp (h m hm), .nil⟩

theorem append (h : Frontier P walk ns) (h' : Frontier P walk' ms)
    (hb : ∀ n ∈ walk, ∀ m ∈ walk', n.key.Before m.key) :
    Frontier P (walk ++ walk') (ns ++ ms) := by
  constructor
  · exact h.sublist.append h'.sublist
  · exact List.forall_mem_append.mpr ⟨h.property, h'.property⟩
  · intro m hm hp
    rcases List.mem_append.mp hm with hm | hm
    · obtain ⟨n, hn, hc⟩ := h.covers m hm hp
      exact ⟨n, List.mem_append_left ms hn, hc⟩
    · obtain ⟨n, hn, hc⟩ := h'.covers m hm hp
      exact ⟨n, List.mem_append_right ns hn, hc⟩
  · apply List.pairwise_append.mpr ⟨h.apart, h'.apart, ?_⟩
    intro n hn m hm
    exact hb n (h.sublist.subset hn) m (h'.sublist.subset hm)

theorem root (hn : n.WellFormed) (hp : P n.key) : Frontier P n.preorder [n] := by
  constructor
  · simp [Node.preorder_eq]
  · simpa using hp
  · intro m hm _
    exact ⟨n, List.mem_singleton_self n, hn.contains_of_mem_preorder hm⟩
  · exact List.pairwise_singleton _ _

theorem skip (h : Frontier P (preorder n.forest) ns) (hp : ¬ P n.key) :
    Frontier P n.preorder ns := by
  rw [Node.preorder_eq]
  constructor
  · exact h.sublist.cons n
  · exact h.property
  · intro m hm hpm
    rcases List.mem_cons.mp hm with rfl | hm
    · exact absurd hpm hp
    · exact h.covers m hm hpm
  · exact h.apart

theorem eq_of_intersects (h : Frontier P walk ns) (hn : n ∈ ns) (hm : m ∈ ns)
    (hi : n.key.Intersects m.key) : n = m := by
  have hb : ns.Pairwise fun n m => n = m ∨ ¬ n.key.Intersects m.key :=
    h.apart.imp fun hnm => .inr hnm.not_intersects
  have hall := List.Pairwise.forall_of_forall_of_flip (fun n _ => .inl rfl) hb
    (hb.imp fun hnm => hnm.imp Eq.symm fun hi hk => hi hk.symm)
  exact (hall hn hm).resolve_right fun hne => hne hi

theorem mem_iff (h : Frontier P (preorder level) ns) (hl : level.WellFormed) :
    n ∈ ns ↔ n ∈ preorder level ∧ Outermost P (keys level) n.key := by
  constructor
  · intro hn
    refine ⟨h.sublist.subset hn, h.property n hn, ?_⟩
    intro j hj hp hjn
    obtain ⟨m, hm, rfl⟩ := exists_mem_preorder hj
    obtain ⟨n', hn', hc⟩ := h.covers m hm hp
    obtain rfl := h.eq_of_intersects hn' hn (hc.trans hjn).intersects
    exact hjn.antisymm hc
  · rintro ⟨hn, hp, hout⟩
    obtain ⟨n', hn', hc⟩ := h.covers n hn hp
    have hmem := h.sublist.subset hn'
    have hk := hout n'.key (mem_keys_of_mem_preorder hmem) (h.property n' hn') hc
    obtain rfl := List.inj_on_of_nodup_map hl.nodup_map_key hmem hn hk
    exact hn'

/-- A frontier is determined by the property. -/
theorem eq_filter [DecidablePred P] (h : Frontier P (preorder level) ns) (hl : level.WellFormed) :
    ns = (preorder level).filter fun n => decide (Outermost P (keys level) n.key) := by
  have hns : (ns.filter fun n => decide (Outermost P (keys level) n.key)) = ns :=
    List.filter_eq_self.mpr fun n hn => decide_eq_true ((h.mem_iff hl).mp hn).2
  have hsub := h.sublist.filter fun n => decide (Outermost P (keys level) n.key)
  rw [hns] at hsub
  have hnodup := hl.nodup_map_key.of_map.filter fun n => decide (Outermost P (keys level) n.key)
  refine hsub.eq_of_length_le (List.subperm_of_subset hnodup fun n hn => ?_).length_le
  obtain ⟨hn, hout⟩ := List.mem_filter.mp hn
  exact (h.mem_iff hl).mpr ⟨hn, of_decide_eq_true hout⟩

theorem of_filter_eq [DecidablePred P] (h : Frontier P walk ns)
    (hw : (walk.filter fun n => decide (P n.key)) = walk'.filter fun n => decide (P n.key)) :
    Frontier P walk' ns := by
  constructor
  · have hns : (ns.filter fun n => decide (P n.key)) = ns :=
      List.filter_eq_self.mpr fun n hn => decide_eq_true (h.property n hn)
    rw [← hns]
    exact (hw ▸ h.sublist.filter _).trans List.filter_sublist
  · exact h.property
  · intro m hm hp
    have hm : m ∈ walk'.filter fun n => decide (P n.key) :=
      List.mem_filter.mpr ⟨hm, decide_eq_true hp⟩
    rw [← hw] at hm
    exact h.covers m (List.mem_filter.mp hm).1 hp
  · exact h.apart

end Frontier

theorem outermost_of_nodes (h : level.WellFormed) (hk : k ∉ keys level)
    (hn : ∀ s ∈ level, Frontier (fun i => k.Contains i ∧ i ≠ k) (preorder s.node.forest)
      (s.node.outermostBelow k)) :
    Frontier (fun i => k.Contains i ∧ i ≠ k) (preorder level) (outermost k level) := by
  induction level with
  | nil => exact .of_forall_not (by simp)
  | cons s level ih =>
    obtain ⟨hl, hs, hr, hb⟩ := WellFormed.cons_iff.mp h
    obtain ⟨hns, hn⟩ := List.forall_mem_cons.mp hn
    rw [keys_cons, List.mem_append, not_or] at hk
    have ih := ih hr hk.2 hn
    have hapart : ∀ n ∈ s.node.preorder, ∀ m ∈ preorder level, n.key.Before m.key := by
      intro n hn m hm
      have hsn := hs.contains_of_mem_preorder hn
      exact (hr.after_of_mem_keys hb (mem_keys_of_mem_preorder hm)).of_contains hsn (.refl _)
    rw [preorder_cons, outermost, hl]
    split
    case isTrue hks =>
      have hbk : s.node.key.Before k := hks
      have hnone : Frontier (fun i => k.Contains i ∧ i ≠ k) s.node.preorder [] := by
        refine .of_forall_not fun n hn hkn => ?_
        have hsn := hs.contains_of_mem_preorder hn
        exact (hbk.of_contains hsn (.refl k)).not_contains' hkn.1
      exact hnone.append ih hapart
    case isFalse hks =>
      split
      case isTrue hc =>
        have hne : s.node.key ≠ k := fun he => hk.1 (he ▸ s.node.key_mem_keys)
        exact (Frontier.root hs ⟨hc, hne⟩).append ih hapart
      case isFalse hc =>
        split
        case isTrue hi => exact (hns.skip fun hp => hc hp.1).append ih hapart
        case isFalse hi =>
          have hks : k.Before s.node.key := (not_intersects_iff.mp hi).resolve_right hks
          have hall : ∀ t ∈ s :: level, k.Before t.node.key :=
            List.forall_mem_cons.mpr ⟨hks, fun t ht => hks.trans (hb t ht)⟩
          rw [← preorder_cons]
          exact .of_forall_not fun n hn hkn =>
            (h.after_of_mem_keys hall (mem_keys_of_mem_preorder hn)).not_contains hkn.1

theorem outermostBelow_frontier (h : n.WellFormed) (hk : k ∉ keys n.forest) :
    Frontier (fun i => k.Contains i ∧ i ≠ k) (preorder n.forest) (n.outermostBelow k) := by
  induction h with
  | leaf => exact .of_forall_not (by simp [Node.forest])
  | branch ho hs hin hb ih =>
    exact outermost_of_nodes ⟨hs, hb⟩ hk fun s hs =>
      ih s hs fun hm => hk (mem_keys_iff.mpr ⟨s, hs, List.mem_cons_of_mem _ hm⟩)

theorem outermost_frontier (h : level.WellFormed) (hk : k ∉ keys level) :
    Frontier (fun i => k.Contains i ∧ i ≠ k) (preorder level) (outermost k level) :=
  outermost_of_nodes h hk fun s hs => outermostBelow_frontier (h.nodes s hs) fun hm =>
    hk (mem_keys_iff.mpr ⟨s, hs, List.mem_cons_of_mem _ hm⟩)

theorem filter_strictly_inside_of_nearest? (h : level.WellFormed)
    (hn : nearest? k level = some n) : n.WellFormed ∧
      ((preorder n.forest).filter fun m => decide (k.Contains m.key ∧ m.key ≠ k)) =
        (preorder level).filter fun m => decide (k.Contains m.key ∧ m.key ≠ k) := by
  obtain ⟨hw, hf⟩ := filter_preorder_of_nearest? h hn
  have hself : ¬ (k.Contains n.key ∧ n.key ≠ k) := fun ⟨hc, hne⟩ =>
    hne ((innermost_of_nearest? h hn).contains.antisymm hc)
  have hfilter (l : List (Node f V)) : (l.filter fun m => decide (k.Contains m.key ∧ m.key ≠ k)) =
      (l.filter fun m => decide (k.Contains m.key)).filter fun m => decide (m.key ≠ k) := by
    simp [List.filter_filter, Bool.and_comm]
  refine ⟨hw, ?_⟩
  rw [hfilter (preorder level), hf, ← hfilter, Node.preorder_eq,
    List.filter_cons_of_neg (by simpa using hself)]

theorem notMem_keys_of_nearest? (h : level.WellFormed) (hn : nearest? k level = some n) :
    k ∉ keys n.forest := by
  intro hk
  obtain ⟨hw, hf⟩ := filter_preorder_of_nearest? h hn
  have hne := (hw.inside_of_mem_keys hk).2
  obtain ⟨m, hm, rfl⟩ := exists_mem_preorder hk
  have hmem : m ∈ n.preorder.filter fun p => decide (m.key.Contains p.key) :=
    List.mem_filter.mpr ⟨by simp [Node.preorder_eq, hm], decide_eq_true (.refl _)⟩
  have hkey := mem_keys_of_mem_preorder (List.mem_filter.mp (hf ▸ hmem)).1
  exact hne ((innermost_of_nearest? h hn).key_eq hkey).symm

end Forest

namespace IntervalMap

open Forest

variable {m : IntervalMap f V} {k : Interval f}

/-- The nodes that the query for the outermost intervals strictly inside `k` answers. -/
theorem exists_firstMore_frontier (h : m.WellFormed) (k : Interval f) :
    ∃ ns, m.firstMore k = ns.map Node.value ∧
      Frontier (fun i => k.Contains i ∧ i ≠ k) (preorder m.roots) ns := by
  refine ⟨_, rfl, ?_⟩
  cases hn : m.nearest? k with
  | none =>
    have he := nearest?_eq_none_iff.mp hn
    exact outermost_frontier h.roots fun hk => h.roots.not_contains_of_enclosing? he hk (.refl k)
  | some n =>
    obtain ⟨hw, hf⟩ := filter_strictly_inside_of_nearest? h.roots hn
    exact (outermost_frontier hw.forest (notMem_keys_of_nearest? h.roots hn)).of_filter_eq hf

def outermostEntries (m : IntervalMap f V) (k : Interval f) : List (Interval f × V) :=
  m.toList.filter fun e =>
    decide (Outermost (fun i => k.Contains i ∧ i ≠ k) (m.toList.map Prod.fst) e.1)

theorem exists_outermostEntries_frontier (h : m.WellFormed) (k : Interval f) :
    ∃ ns, m.firstMore k = ns.map Node.value ∧
      m.outermostEntries k = ns.map (fun n => (n.key, n.value)) ∧
      Frontier (fun i => k.Contains i ∧ i ≠ k) (preorder m.roots) ns := by
  obtain ⟨ns, hns, hf⟩ := exists_firstMore_frontier h k
  refine ⟨ns, hns, ?_, hf⟩
  rw [hf.eq_filter h.roots, outermostEntries, toList_eq, entries, List.filter_map, keys, entries]
  rfl

/-- The query for the outermost intervals strictly inside `k` answers those inside no other such
interval. They are apart and in order, and each interval strictly inside `k` is in just one. -/
theorem first_more_specific_eq_filter (h : m.Reachable) (k : Interval f) :
    m.firstMore k = (m.outermostEntries k).map Prod.snd ∧
    (m.outermostEntries k).Pairwise (fun a b => a.1.Before b.1) ∧
    ∀ e ∈ m.toList, k.Contains e.1 → e.1 ≠ k →
      ∃! a, a ∈ m.outermostEntries k ∧ a.1.Contains e.1 := by
  obtain ⟨ns, hns, hent, hf⟩ := exists_outermostEntries_frontier h.wellFormed k
  rw [hns, hent, List.map_map, List.pairwise_map]
  refine ⟨rfl, hf.apart, ?_⟩
  intro e he hk hne
  rw [toList_eq] at he
  obtain ⟨p, hp, rfl⟩ := List.mem_map.mp he
  obtain ⟨n, hn, hc⟩ := hf.covers p hp ⟨hk, hne⟩
  refine ⟨(n.key, n.value), ⟨List.mem_map_of_mem hn, hc⟩, ?_⟩
  rintro a ⟨ha, hac⟩
  obtain ⟨q, hq, rfl⟩ := List.mem_map.mp ha
  rw [hf.eq_of_intersects hq hn (hac.intersects_of_contains hc)]

theorem first_more_specific_of_whole :
    let k := whole .v4
    let i := k.start
    let j := ofAddress k.lastAddress
    let m : IntervalMap .v4 Nat := ⟨[⟨k, .branch k 2 [⟨i, .leaf i 1⟩, ⟨j, .leaf j 3⟩]⟩], 3⟩
    m.firstMore k = [1, 3] ∧ ∃! a, a ∈ m.outermostEntries k ∧ a.1.Contains j := by
  intro k i j m
  have hm : m.Reachable := by
    have he : (IntervalMap.insert ⟨[⟨i, .leaf i 1⟩, ⟨j, .leaf j 3⟩], 2⟩ k 2).after = m := by
      decide +kernel
    exact he ▸ ((Reachable.empty.insert i 1).insert j 3).insert k 2
  have hl : m.toList = [(k, 2), (i, 1), (j, 3)] := by rw [toList_eq]; rfl
  obtain ⟨hall, -, hin⟩ := first_more_specific_eq_filter hm k
  refine ⟨?_, hin (j, 3) (by simp [hl]) (by decide) (by decide)⟩
  rw [hall, outermostEntries, hl]
  decide

end IntervalMap

end Netblock
