import Netblock.Proofs.Reachable

/-! # More specific intervals

The scan for the nodes inside an interval answers exactly those nodes, in the order of the
walk. What it leaves out, before the first sibling that it looks at and after the last, does
not meet the interval.
-/

namespace Netblock

open Netblock.Interval

variable {f : Family} {V : Type}

namespace Node

variable {k : Interval f} {m n : Node f V}

theorem mem_keys_of_mem_preorder (hm : m ∈ n.preorder) : m.key ∈ n.keys := by
  rw [preorder_eq] at hm
  exact List.mem_cons.mpr ((List.mem_cons.mp hm).imp (congrArg key) Forest.mem_keys_of_mem_preorder)

namespace WellFormed

theorem contains_of_mem_preorder (h : n.WellFormed) (hm : m ∈ n.preorder) :
    n.key.Contains m.key :=
  h.contains_of_mem_keys (mem_keys_of_mem_preorder hm)

theorem filter_inside_of_not_intersects (h : n.WellFormed) (hk : ¬ k.Intersects n.key) :
    (n.preorder.filter fun m => decide (k.Contains m.key)) = [] := by
  apply List.filter_eq_nil_iff.mpr
  intro m hm hc
  have hmk := (of_decide_eq_true hc).intersects
  exact hk (hmk.symm.of_contains (h.contains_of_mem_preorder hm)).symm

theorem filter_inside_of_contains (h : n.WellFormed) (hk : k.Contains n.key) :
    (n.preorder.filter fun m => decide (k.Contains m.key)) = n.preorder := by
  refine List.filter_eq_self.mpr fun m hm => decide_eq_true ?_
  exact hk.trans (h.contains_of_mem_preorder hm)

end WellFormed

end Node

namespace Forest

variable {k : Interval f} {n p : Node f V} {level : Forest f V}

theorem WellFormed.filter_inside_of_before (h : level.WellFormed)
    (hk : ∀ s ∈ level, k.Before s.node.key) :
    ((preorder level).filter fun m => decide (k.Contains m.key)) = [] :=
  filter_preorder_eq_nil fun _ hi => (h.after_of_mem_keys hk hi).not_contains

theorem inside_of_nodes (h : level.WellFormed) (hn : ∀ s ∈ level, s.node.insideBelow k =
      (preorder s.node.forest).filter fun m => decide (k.Contains m.key)) :
    inside k level = (preorder level).filter fun m => decide (k.Contains m.key) := by
  induction level with
  | nil => simp [inside]
  | cons s level ih =>
    obtain ⟨hl, hs, hr, hb⟩ := WellFormed.cons_iff.mp h
    obtain ⟨hns, hn⟩ := List.forall_mem_cons.mp hn
    have ih := ih hr hn
    rw [preorder_cons, List.filter_append, inside, hl]
    split
    case isTrue hk =>
      have hbk : s.node.key.Before k := hk
      rw [hs.filter_inside_of_not_intersects fun hi => hbk.not_intersects hi.symm, ih]
      rfl
    case isFalse hk =>
      split
      case isTrue hc => rw [hs.filter_inside_of_contains hc, ih]
      case isFalse hc =>
        split
        case isTrue hi =>
          rw [hns, ih, Node.preorder_eq, List.filter_cons_of_neg (by simpa using hc)]
        case isFalse hi =>
          -- No later sibling meets the interval, so the scan may stop here.
          have hks : k.Before s.node.key := (not_intersects_iff.mp hi).resolve_right hk
          rw [hs.filter_inside_of_not_intersects hi,
            hr.filter_inside_of_before fun t ht => hks.trans (hb t ht)]
          rfl

theorem insideBelow_eq_filter (h : n.WellFormed) : n.insideBelow k =
    (preorder n.forest).filter fun m => decide (k.Contains m.key) := by
  induction h with
  | leaf => simp [Node.insideBelow, Node.forest]
  | branch ho hs hin hb ih =>
    rw [Node.insideBelow]
    exact inside_of_nodes ⟨hs, hb⟩ ih

/-- The scan of a level answers the nodes inside the interval. -/
theorem inside_eq_filter (h : level.WellFormed) :
    inside k level = (preorder level).filter fun m => decide (k.Contains m.key) :=
  inside_of_nodes h fun s hs => insideBelow_eq_filter (h.nodes s hs)

/-- All nodes inside an interval are below the innermost node that contains it. -/
theorem filter_preorder_of_nearest? (h : level.WellFormed) (hn : nearest? k level = some n) :
    n.WellFormed ∧ ((preorder level).filter fun m => decide (k.Contains m.key)) =
      n.preorder.filter fun m => decide (k.Contains m.key) := by
  fun_induction nearest? k level with
  | case1 => simp at hn
  | case2 level p he ih =>
    obtain ⟨hp, -⟩ := h.cut_of_enclosing? he
    rw [filter_preorder_of_enclosing? h he fun n hn =>
      (of_decide_eq_true hn).intersects.symm]
    cases hr : nearest? k p.forest with
    | none =>
      obtain rfl : p = n := by simpa [hr] using hn
      exact ⟨hp, rfl⟩
    | some m =>
      obtain rfl : m = n := by simpa [hr] using hn
      have hm := innermost_of_nearest? hp.forest hr
      have hpk : ¬ k.Contains p.key := by
        intro hc
        obtain ⟨hpm, hne⟩ := hp.inside_of_mem_keys (mem_keys_of_mem_preorder hm.mem)
        exact hne ((hm.contains.trans hc).antisymm hpm)
      rw [Node.preorder_eq p, List.filter_cons_of_neg (by simpa using hpk)]
      exact ih hp.forest hr

end Forest

namespace IntervalMap

open Forest

variable {m : IntervalMap f V} {k : Interval f} {n : Node f V}

variable {withExact : Bool}

theorem filter_of_forall_ne {l : List (Node f V)} (h : ∀ n ∈ l, n.key ≠ k) :
    (l.filter fun n => decide (k.Contains n.key ∧ (withExact = true ∨ n.key ≠ k))) =
      l.filter fun n => decide (k.Contains n.key) := by
  refine List.filter_congr fun n hn => ?_
  simp [h n hn]

theorem filter_filter_inside (l : List (Node f V)) :
    ((l.filter fun n => decide (k.Contains n.key)).filter fun n =>
        decide (withExact = true ∨ n.key ≠ k)) =
      l.filter fun n => decide (k.Contains n.key ∧ (withExact = true ∨ n.key ≠ k)) := by
  simp [List.filter_filter, Bool.and_comm]

theorem filter_preorder_self (h : n.WellFormed) :
    (n.preorder.filter fun m =>
        decide (n.key.Contains m.key ∧ (withExact = true ∨ m.key ≠ n.key))) =
      (if withExact then [n] else []) ++ preorder n.forest := by
  have hbelow : ((preorder n.forest).filter fun m =>
      decide (n.key.Contains m.key ∧ (withExact = true ∨ m.key ≠ n.key))) = preorder n.forest := by
    apply List.filter_eq_self.mpr
    intro m hm
    obtain ⟨hc, hne⟩ := h.inside_of_mem_keys (mem_keys_of_mem_preorder hm)
    simp [hc, hne]
  rw [Node.preorder_eq, List.filter_cons, hbelow]
  cases withExact <;> simp [Contains.refl]

theorem inside_eq_filter (h : m.WellFormed) (k : Interval f) (withExact : Bool) :
    m.inside k withExact = (preorder m.roots).filter fun n =>
      decide (k.Contains n.key ∧ (withExact = true ∨ n.key ≠ k)) := by
  rw [inside]
  cases hn : m.nearest? k with
  | none =>
    have he := nearest?_eq_none_iff.mp hn
    have hne : ∀ n ∈ preorder m.roots, n.key ≠ k := by
      intro n hn hk
      exact h.roots.not_contains_of_enclosing? he (mem_keys_of_mem_preorder hn) (hk ▸ .refl _)
    rw [filter_of_forall_ne hne, ← Forest.inside_eq_filter h.roots]
  | some n =>
    have hin := innermost_of_nearest? h.roots hn
    obtain ⟨hw, hf⟩ := filter_preorder_of_nearest? h.roots hn
    by_cases hk : n.key = k
    · subst hk
      rw [← filter_filter_inside, hf, filter_filter_inside, filter_preorder_self hw]
      simp
    · have hne : ∀ m' ∈ preorder m.roots, m'.key ≠ k := by
        rintro m' hm rfl
        exact hk (hin.key_eq (mem_keys_of_mem_preorder hm))
      have hnk : ¬ k.Contains n.key := fun hc => hk (hin.contains.antisymm hc)
      rw [filter_of_forall_ne hne, hf, Node.preorder_eq,
        List.filter_cons_of_neg (by simpa using hnk), ← Forest.inside_eq_filter hw.forest]
      simp [hk]

/-- The two queries for more specific intervals are filters on the entries. -/
theorem more_specific_eq_filter (h : m.Reachable) (k : Interval f) :
    (m.toList.Pairwise fun a b => a.1.Precedes b.1) ∧
    m.exactAndAllMore k = (m.toList.filter fun e => decide (k.Contains e.1)).map Prod.snd ∧
    m.allMore k =
      (m.toList.filter fun e => decide (k.Contains e.1 ∧ e.1 ≠ k)).map Prod.snd := by
  have hw := h.wellFormed
  refine ⟨hw.sorted, ?_, ?_⟩
  · rw [exactAndAllMore, inside_eq_filter hw, toList_eq, entries, List.filter_map, List.map_map]
    simp [Function.comp_def]
  · rw [allMore, inside_eq_filter hw, toList_eq, entries, List.filter_map, List.map_map]
    simp [Function.comp_def]

theorem more_specific_of_whole :
    let k := whole .v4
    let i := k.start
    let m : IntervalMap .v4 Nat := ⟨[⟨k, .branch k 2 [⟨i, .leaf i 1⟩]⟩], 2⟩
    m.exactAndAllMore k = [2, 1] ∧ m.allMore k = [1] := by
  intro k i m
  have hm : m.Reachable := by
    have he : (IntervalMap.insert ⟨[⟨i, .leaf i 1⟩], 1⟩ k 2).after = m := by decide +kernel
    exact he ▸ (Reachable.empty.insert i 1).insert k 2
  obtain ⟨-, hall, hmore⟩ := more_specific_eq_filter hm k
  rw [toList_eq] at hall hmore
  exact ⟨hall, hmore⟩

end IntervalMap

end Netblock
