import Netblock.Proofs.Independence
import Netblock.Proofs.LessSpecific
import Netblock.Proofs.Outermost

/-! # Queries as searches

Whether an entry answers a query is told from its interval and from the intervals of all entries.
A query answers the values of the entries that do, in the order of the entries.
-/

namespace Netblock

open Netblock.Interval

variable {f : Family} {V : Type}

/-- `i` has the property, and is inside all others of these intervals that have it. -/
def Interval.Smallest (P : Interval f → Prop) (is : List (Interval f)) (i : Interval f) : Prop :=
  P i ∧ ∀ j ∈ is, P j → j.Contains i

instance {P : Interval f → Prop} [DecidablePred P] (is : List (Interval f)) (i : Interval f) :
    Decidable (Interval.Smallest P is i) := by unfold Smallest; infer_instance

theorem Interval.Smallest.unique {P : Interval f → Prop} {is : List (Interval f)}
    {i j : Interval f} (hi : Smallest P is i) (hj : Smallest P is j) (hmem : i ∈ is)
    (hmem' : j ∈ is) : i = j :=
  (hj.2 i hmem hi.1).antisymm (hi.2 j hmem' hj.1)

/-- Whether `i`, one of the intervals `is`, answers a query for `k`. -/
def Query.Matches (q : Query) (is : List (Interval f)) (k i : Interval f) : Prop :=
  match q with
  | exact => i = k
  | firstLess => Smallest (fun j => j.Contains k ∧ j ≠ k) is i
  | exactOrFirstLess => i = k ∨ k ∉ is ∧ Smallest (fun j => j.Contains k ∧ j ≠ k) is i
  | allLess => i.Contains k ∧ i ≠ k
  | exactAndAllLess => i.Contains k
  | firstMore => Outermost (fun j => k.Contains j ∧ j ≠ k) is i
  | allMore => k.Contains i ∧ i ≠ k
  | exactAndAllMore => k.Contains i

instance (q : Query) (is : List (Interval f)) (k : Interval f) :
    DecidablePred (q.Matches is k) := fun i => by
  cases q <;> unfold Query.Matches <;> infer_instance

def Query.matching (q : Query) (es : List (Interval f × V)) (k : Interval f) :
    List (Interval f × V) :=
  es.filter fun e => decide (q.Matches (es.map Prod.fst) k e.1)

namespace IntervalMap

open Forest

variable {m : IntervalMap f V} {k : Interval f} {es : List (Interval f × V)}

theorem toList_eq_filter {o : Option V} {P : Interval f → Prop} [DecidablePred P]
    (nodup : (es.map Prod.fst).Nodup)
    (unique : ∀ i ∈ es.map Prod.fst, ∀ j ∈ es.map Prod.fst, P i → P j → i = j)
    (h : ∀ v, o = some v ↔ ∃ i, (i, v) ∈ es ∧ P i) :
    o.toList = (es.filter fun e => decide (P e.1)).map Prod.snd := by
  cases o with
  | none =>
    have hnone : (es.filter fun e => decide (P e.1)) = [] := by
      apply List.filter_eq_nil_iff.mpr
      intro e he hp
      exact nomatch (h e.2).mpr ⟨e.1, he, of_decide_eq_true hp⟩
    rw [hnone]
    rfl
  | some v =>
    obtain ⟨i, hi, hp⟩ := (h v).mp rfl
    have hperm : (es.filter fun e => decide (P e.1)).Perm [(i, v)] := by
      apply (List.perm_ext_iff_of_nodup (nodup.of_map.filter _) (List.nodup_singleton _)).mpr
      intro e
      rw [List.mem_filter, decide_eq_true_iff, List.mem_singleton]
      constructor
      · rintro ⟨he, hpe⟩
        have hkey := unique e.1 (List.mem_map_of_mem he) i (List.mem_map_of_mem hi) hpe hp
        exact List.inj_on_of_nodup_map nodup he hi hkey
      · rintro rfl
        exact ⟨hi, hp⟩
    rw [List.perm_singleton.mp hperm]
    rfl

theorem smallestAround_iff {i : Interval f} : m.SmallestAround k i ↔
    Smallest (fun j => j.Contains k ∧ j ≠ k) (m.toList.map Prod.fst) i := by
  constructor
  · intro h
    refine ⟨⟨h.contains, h.ne⟩, fun j hj hp => ?_⟩
    obtain ⟨e, he, rfl⟩ := List.mem_map.mp hj
    exact h.inner e he hp.1 hp.2
  · rintro ⟨⟨hc, hne⟩, hinner⟩
    exact ⟨hc, hne, fun e he hek hne' => hinner e.1 (List.mem_map_of_mem he) ⟨hek, hne'⟩⟩

theorem get?_eq_none_iff (h : m.WellFormed) : m.get? k = none ↔ k ∉ m.toList.map Prod.fst := by
  rw [Option.eq_none_iff_forall_ne_some]
  simp [get?_eq_some_iff h]

theorem toList_get? (h : m.WellFormed) (k : Interval f) :
    (m.get? k).toList = (Query.exact.matching m.toList k).map Prod.snd := by
  apply toList_eq_filter h.nodup
  · rintro i - j - rfl rfl
    rfl
  · intro v
    rw [get?_eq_some_iff h]
    constructor
    · intro hv
      exact ⟨k, hv, rfl⟩
    · rintro ⟨i, hv, rfl⟩
      exact hv

theorem toList_firstLess? (h : m.WellFormed) (k : Interval f) :
    (m.firstLess? k).toList = (Query.firstLess.matching m.toList k).map Prod.snd := by
  apply toList_eq_filter h.nodup
  · intro i hi j hj hpi hpj
    exact Smallest.unique (P := fun j => j.Contains k ∧ j ≠ k) hpi hpj hi hj
  · intro v
    simp only [firstLess?_eq_some_iff h, smallestAround_iff]
    rfl

theorem toList_exactOrFirstLess? (h : m.WellFormed) (k : Interval f) :
    (m.exactOrFirstLess? k).toList =
      (Query.exactOrFirstLess.matching m.toList k).map Prod.snd := by
  apply toList_eq_filter h.nodup
  · rintro i hi j hj (rfl | ⟨hk, hpi⟩) (rfl | ⟨hk', hpj⟩)
    · rfl
    · exact absurd hi hk'
    · exact absurd hj hk
    · exact hpi.unique hpj hi hj
  · intro v
    rw [exactOrFirstLess?_eq_or, Option.or_eq_some_iff, get?_eq_some_iff h, get?_eq_none_iff h]
    simp only [firstLess?_eq_some_iff h, smallestAround_iff]
    constructor
    · rintro (hv | ⟨hk, i, hv, hi⟩)
      · exact ⟨k, hv, .inl rfl⟩
      · exact ⟨i, hv, .inr ⟨hk, hi⟩⟩
    · rintro ⟨i, hv, rfl | ⟨hk, hi⟩⟩
      · exact .inl hv
      · exact .inr ⟨hk, i, hv, hi⟩

theorem map_value_filter (m : IntervalMap f V) {q : Query} {P : Interval f → Prop} [DecidablePred P]
    (h : ∀ i, P i ↔ q.Matches (m.toList.map Prod.fst) k i) :
    ((preorder m.roots).filter fun n => decide (P n.key)).map Node.value =
      (q.matching m.toList k).map Prod.snd := by
  have hfilter : q.matching m.toList k = m.toList.filter fun e => decide (P e.1) :=
    List.filter_congr fun e _ => decide_eq_decide.mpr (h e.1).symm
  rw [hfilter, toList_eq, entries, List.filter_map, List.map_map]
  rfl

theorem pairwise_contains_filter (h : m.WellFormed) (k : Interval f) :
    (m.toList.filter fun e => decide (e.1.Contains k)).Pairwise fun a b =>
      a.1.Contains b.1 ∧ b.1 ≠ a.1 := by
  have hchain : (m.toList.filter fun e => decide (e.1.Contains k)) =
      (chain k m.roots).map fun n => (n.key, n.value) := by
    rw [toList_eq, entries, List.filter_map, chain_eq_filter h.roots]
    rfl
  rw [hchain, List.pairwise_map]
  exact (nested_chain h.roots).around

/-- A query answers what a search through all entries finds. -/
theorem runMap_eq_matching (h : m.WellFormed) (q : Query) (k : Interval f) :
    q.runMap m k = (q.matching m.toList k).map Prod.snd := by
  cases q with
  | exact => exact toList_get? h k
  | firstLess => exact toList_firstLess? h k
  | exactOrFirstLess => exact toList_exactOrFirstLess? h k
  | allLess =>
    rw [Query.runMap, allLess, around_eq_filter h]
    exact map_value_filter m (P := fun i => i.Contains k ∧ i ≠ k) fun i => Iff.rfl
  | exactAndAllLess =>
    rw [Query.runMap, exactAndAllLess, chain_eq_filter h.roots]
    exact map_value_filter m (P := fun i => i.Contains k) fun i => Iff.rfl
  | firstMore =>
    obtain ⟨ns, hns, hent, -⟩ := exists_outermostEntries_frontier h k
    have hmatching : Query.firstMore.matching m.toList k = m.outermostEntries k :=
      List.filter_congr fun e _ => decide_eq_decide.mpr Iff.rfl
    rw [Query.runMap, hns, hmatching, hent, List.map_map]
    rfl
  | allMore =>
    rw [Query.runMap, allMore, inside_eq_filter h]
    refine map_value_filter m (P := fun i => k.Contains i ∧ (false = true ∨ i ≠ k)) fun i => ?_
    simp [Query.Matches]
  | exactAndAllMore =>
    rw [Query.runMap, exactAndAllMore, inside_eq_filter h]
    refine map_value_filter m (P := fun i => k.Contains i ∧ (true = true ∨ i ≠ k)) fun i => ?_
    simp [Query.Matches]

end IntervalMap

end Netblock
