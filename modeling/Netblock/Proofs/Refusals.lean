import Netblock.Proofs.Families
import Netblock.Proofs.Outermost

/-! # What a refusal names

A node that partly overlaps keys of a forest is refused in the name of the outermost of
these, of which there are at most two. A node that overlaps none, but brings along keys that
clash with those inside it, is refused in the name of the first of these.
-/

namespace Netblock

open Netblock.Interval

variable {f : Family} {V : Type}

/-- The outermost of these intervals that partly overlap `k`. -/
def Interval.outermostOverlaps (is : List (Interval f)) (k : Interval f) : List (Interval f) :=
  is.filter fun i => decide (Outermost (fun j => j.PartlyOverlaps k) is i)

/-- `i` is inside the key of a node, and equals or partly overlaps a key below the node. -/
def Node.Clashes (n : Node f V) (i : Interval f) : Prop :=
  n.key.Contains i ∧ ∃ j ∈ Forest.keys n.forest, i = j ∨ i.PartlyOverlaps j

instance (n : Node f V) (i : Interval f) : Decidable (n.Clashes i) := by
  unfold Node.Clashes; infer_instance

namespace Forest

variable {k : Interval f} {n p : Node f V} {level A run B : Forest f V}
  {cs : List (Interval f)} {e : Edit (Interval f) V (Forest f V)}

inductive Named (n : Node f V) (level : Forest f V) : List (Interval f) → Prop where
  | overlaps {ns : List (Node f V)}
      (frontier : Frontier (fun i => i.PartlyOverlaps n.key) (preorder level) ns)
      (ne_nil : ns ≠ []) (length_le : ns.length ≤ 2) : Named n level (ns.map Node.key)
  | clash {m : Node f V} (nests : ∀ i ∈ keys level, ¬ i.PartlyOverlaps n.key)
      (first : (preorder level).find? (fun m => decide (n.Clashes m.key)) = some m) :
      Named n level [m.key]

theorem preorder_sublist (level : Forest f V) : (nodes level).Sublist (preorder level) := by
  induction level with
  | nil => simp [nodes]
  | cons s level ih =>
    rw [preorder_cons, Node.preorder_eq, nodes, List.map_cons, List.cons_append]
    exact (ih.trans (List.sublist_append_right _ _)).cons_cons s.node

theorem exists_conflicts_frontier (h : level.WellFormed) (he : enclosing? k level = none) :
    ∃ ns, conflicts k level = ns.map Node.key ∧
      Frontier (fun i => i.PartlyOverlaps k) (preorder level) ns := by
  refine ⟨_, conflicts_eq_filter h.siblings, ?_⟩
  constructor
  · exact List.filter_sublist.trans (preorder_sublist level)
  · intro n hn
    exact (of_decide_eq_true (List.mem_filter.mp hn).2).symm
  · intro m hm hk
    obtain ⟨n, hn, -, hc⟩ := h.exists_of_mem_keys (mem_keys_of_mem_preorder hm)
    have hnk := (enclosing?_eq_none_iff h.siblings).mp he n hn
    exact ⟨n, List.mem_filter.mpr ⟨hn, decide_eq_true (hk.of_contains hc hnk).symm⟩, hc⟩
  · exact h.siblings.pairwise_before_nodes.sublist List.filter_sublist

theorem accepts_eq_false_iff {i : Interval f} (hn : n.WellFormed) (hi : n.key.Contains i) :
    accepts i n.forest = false ↔ n.Clashes i := by
  rw [← Bool.not_eq_true, accepts_iff hn.forest]
  simp only [Node.Clashes, hi, true_and, not_forall, not_and_or, not_not, ne_eq, exists_prop,
    eq_comm]

theorem CutAround.exists_first (c : CutAround n.key A run B) (h : (A ++ run ++ B).WellFormed)
    (hn : n.WellFormed) (hm : misfit? n run = some k) : ∃ m, m.key = k ∧
      (preorder (A ++ run ++ B)).find? (fun m => decide (n.Clashes m.key)) = some m := by
  have hrun : ((preorder run).filter fun m => decide (n.Clashes m.key)) =
      (preorder run).filter fun m => !accepts m.key n.forest := by
    refine List.filter_congr fun m hm => ?_
    have hi := (c.inside_of_mem_keys h.of_cut (mem_keys_of_mem_preorder hm)).1
    rw [Bool.eq_iff_iff, decide_eq_true_iff, Bool.not_eq_true', accepts_eq_false_iff hn hi]
  rw [misfit?, List.find?_map] at hm
  obtain ⟨m, hm, hk⟩ := Option.map_eq_some_iff.mp hm
  refine ⟨m, hk, ?_⟩
  rw [← List.head?_filter, c.filter_preorder h fun m hm => (of_decide_eq_true hm).1, hrun,
    List.head?_filter]
  exact hm

theorem Named.under (h : (A ++ ⟨p.key, p⟩ :: B).WellFormed) (around : p.key.Contains n.key)
    (ne : p.key ≠ n.key) (hn : Named n p.forest cs) : Named n (A ++ ⟨p.key, p⟩ :: B) cs := by
  have he := enclosing?_append (k := n.key) h.siblings around
  cases hn with
  | overlaps frontier ne_nil length_le =>
    refine .overlaps (frontier.of_filter_eq ?_) ne_nil length_le
    exact (filter_below_of_enclosing? h he (fun m hm => (of_decide_eq_true hm).1)
      fun hp => (of_decide_eq_true hp).2.1 around).symm
  | clash nests first =>
    refine .clash (fun i hi hpo => ?_) ?_
    · rcases h.key_cases he hi with hi | hi
      · rcases List.mem_cons.mp hi with rfl | hi
        · exact hpo.2.1 around
        · exact nests i hi hpo
      · exact hi hpo.1
    · have hf := filter_below_of_enclosing? (P := fun m => decide (n.Clashes m.key)) h he
        (fun m hm => (of_decide_eq_true hm).1.intersects.symm)
        fun hp => ne (around.antisymm (of_decide_eq_true hp).1)
      rw [← List.head?_filter, hf, List.head?_filter, first]

/-- Whatever the depth at which a node is refused, the refusal names keys of the whole forest. -/
theorem Insertion.named (h : Insertion n level e) (hl : level.WellFormed) (hn : n.WellFormed)
    {err : EditError (Interval f)} (he : e.result = .error err) :
    ∃ cs, err = .overlap n.key cs ∧ Named n level cs := by
  induction h with
  | under around ne h ih =>
    obtain ⟨-, hp, -, -, -⟩ := WellFormed.insert_iff.mp hl
    obtain ⟨cs, herr, hcs⟩ := ih hp.forest he
    exact ⟨cs, herr, hcs.under hl around ne⟩
  | onto => cases he
  | @overlap level c cs outside conflicts_eq =>
    cases he
    obtain ⟨ns, hns, hf⟩ := exists_conflicts_frontier hl outside
    have hlen := length_conflicts_le (k := n.key) hl.siblings
    rw [← conflicts_eq, hns]
    rw [hns, List.length_map] at hlen
    refine ⟨_, rfl, .overlaps hf ?_ hlen⟩
    rintro rfl
    simp [hns] at conflicts_eq
  | misfit cut misfit_eq =>
    cases he
    obtain ⟨m, rfl, hm⟩ := cut.exists_first hl hn misfit_eq
    refine ⟨_, rfl, .clash (fun i hi hpo => ?_) hm⟩
    rcases cut.key_cases hl hi with hr | hni
    · exact hpo.2.2 (cut.inside_of_mem_keys hl.of_cut hr).1
    · exact hni hpo.1
  | among => cases he

theorem Named.eq_outermostOverlaps (h : Named n level cs) (hl : level.WellFormed)
    (ho : ∃ i ∈ keys level, i.PartlyOverlaps n.key) :
    cs = outermostOverlaps (keys level) n.key ∧ cs.Pairwise Before ∧
      (cs.length = 1 ∨ cs.length = 2) := by
  cases h with
  | @overlaps ns frontier ne_nil length_le =>
    refine ⟨?_, List.pairwise_map.mpr frontier.apart, ?_⟩
    · rw [frontier.eq_filter hl, map_key_filter_preorder, outermostOverlaps]
    · rw [List.length_map]
      have := List.length_pos_iff.mpr ne_nil
      omega
  | clash nests =>
    obtain ⟨i, hi, hk⟩ := ho
    exact absurd hk (nests i hi)

theorem Named.eq_first_clash (h : Named n level cs) (hl : level.WellFormed)
    (ho : ∀ i ∈ keys level, ¬ i.PartlyOverlaps n.key) : ∃ i ∈ keys level, cs = [i] ∧
      n.Clashes i ∧ ∀ j ∈ keys level, n.Clashes j → j = i ∨ i.Precedes j := by
  cases h with
  | @overlaps ns frontier ne_nil _ =>
    obtain ⟨p, hp⟩ := List.exists_mem_of_ne_nil ns ne_nil
    exact absurd (frontier.property p hp)
      (ho p.key (mem_keys_of_mem_preorder (frontier.sublist.subset hp)))
  | @clash m _ first =>
    have hm := mem_keys_of_mem_preorder (List.mem_of_find?_eq_some first)
    obtain ⟨hc, as, bs, hsplit, has⟩ := List.find?_eq_some_iff_append.mp first
    have hsorted := hl.pairwise_leads_preorder
    rw [hsplit, List.pairwise_append, List.pairwise_cons] at hsorted
    refine ⟨m.key, hm, rfl, of_decide_eq_true hc, fun j hj hjc => ?_⟩
    obtain ⟨p, hp, rfl⟩ := exists_mem_preorder hj
    rw [hsplit] at hp
    rcases List.mem_append.mp hp with hp | hp
    · exact absurd hjc (by simpa using has p hp)
    · rcases List.mem_cons.mp hp with rfl | hp
      · exact .inl rfl
      · exact .inr (hsorted.2.1.1 p hp).precedes

end Forest

open Forest

theorem Node.not_clashes_leaf (k i : Interval f) (v : V) : ¬ (Node.leaf k v).Clashes i := by
  simp [Clashes, forest]

theorem IntervalMap.refusal_of_insert {m : IntervalMap f V} {k : Interval f} {v : V}
    {err : EditError (Interval f)} (h : m.Reachable) (he : (m.insert k v).result = .error err) :
    ∃ cs, err = .overlap k cs ∧ cs = outermostOverlaps (m.toList.map Prod.fst) k ∧
      cs.Pairwise Before ∧ (cs.length = 1 ∨ cs.length = 2) := by
  have hw := h.wellFormed.roots
  have hi := add_insertion (.leaf k v) hw
  obtain ⟨cs, herr, hcs⟩ := hi.named hw (.leaf k v) he
  refine ⟨cs, herr, ?_⟩
  rw [toList_eq]
  refine hcs.eq_outermostOverlaps hw ?_
  by_contra hno
  obtain ⟨i, -, -, hc, -⟩ := hcs.eq_first_clash hw (by simpa using hno)
  exact Node.not_clashes_leaf k i v hc

theorem Registry.refusal_of_insert {r : Registry V} {b : Block} {v : V} {err : EditError Block}
    (h : r.Reachable) (he : (r.insert b v).result = .error err) :
    ∃ cs, err = .overlap b (cs.map (Block.mk b.family)) ∧
      cs = outermostOverlaps ((r.map b.family).toList.map Prod.fst) b.interval ∧
      cs.Pairwise Before ∧ (cs.length = 1 ∨ cs.length = 2) := by
  have hr : (r.insert b v).result = ((r.map b.family).insert b.interval v).result.mapError
      (EditError.mapKeys (Block.mk b.family)) := rfl
  rw [hr] at he
  cases hm : ((r.map b.family).insert b.interval v).result with
  | ok old =>
    rw [hm] at he
    cases he
  | error refusal =>
    obtain ⟨cs, rfl, hcs⟩ := IntervalMap.refusal_of_insert (h.map b.family) hm
    rw [hm] at he
    exact ⟨cs, (Except.error.inj he).symm, hcs⟩

/-- Refusals of nodes, of entries of a map and of entries of a registry name the key that was
refused, and the outermost keys that it partly overlaps. Where there are none, they name the
first key that clashes with a key below the node. -/
theorem refusal_names_conflicts :
    (∀ (level : Forest f V) (n : Node f V) (err : EditError (Interval f)), level.Reachable →
      n.Reachable → (level.add n).result = .error err → ∃ cs, err = .overlap n.key cs ∧
        ((∃ i ∈ keys level, i.PartlyOverlaps n.key) →
          cs = outermostOverlaps (keys level) n.key ∧ cs.Pairwise Before ∧
            (cs.length = 1 ∨ cs.length = 2)) ∧
        ((∀ i ∈ keys level, ¬ i.PartlyOverlaps n.key) → ∃ i ∈ keys level, cs = [i] ∧
          n.Clashes i ∧ ∀ j ∈ keys level, n.Clashes j → j = i ∨ i.Precedes j)) ∧
    (∀ (m : IntervalMap f V) (k : Interval f) (v : V) (err : EditError (Interval f)),
      m.Reachable → (m.insert k v).result = .error err →
      ∃ cs, err = .overlap k cs ∧ cs = outermostOverlaps (m.toList.map Prod.fst) k ∧
        cs.Pairwise Before ∧ (cs.length = 1 ∨ cs.length = 2)) ∧
    ∀ (r : Registry V) (b : Block) (v : V) (err : EditError Block), r.Reachable →
      (r.insert b v).result = .error err →
      ∃ cs, err = .overlap b (cs.map (Block.mk b.family)) ∧
        cs = outermostOverlaps ((r.map b.family).toList.map Prod.fst) b.interval ∧
        cs.Pairwise Before ∧ (cs.length = 1 ∨ cs.length = 2) := by
  refine ⟨?_, ?_, ?_⟩
  · intro level n err hl hn he
    have hw := hl.wellFormed
    obtain ⟨cs, herr, hcs⟩ := (add_insertion hn.wellFormed hw).named hw hn.wellFormed he
    exact ⟨cs, herr, hcs.eq_outermostOverlaps hw, hcs.eq_first_clash hw⟩
  · intro m k v err h he
    exact IntervalMap.refusal_of_insert h he
  · intro r b v err h he
    exact Registry.refusal_of_insert h he

theorem refusal_names_conflicts_of_siblings :
    let i : Interval .v4 := ⟨0, 5, by decide, by decide⟩
    let j : Interval .v4 := ⟨8, 12, by decide, by decide⟩
    let k : Interval .v4 := ⟨3, 10, by decide, by decide⟩
    let level : Forest .v4 Nat := [⟨i, .leaf i 1⟩, ⟨j, .leaf j 2⟩]
    let n : Node .v4 Nat := .branch (whole .v4) 4 [⟨j, .leaf j 3⟩]
    let m : IntervalMap .v4 Nat := ⟨level, 2⟩
    let r : Registry Nat := ⟨m, .empty⟩
    (level.add (.leaf k 3)).result = .error (.overlap k [i, j]) ∧
      [i, j] = outermostOverlaps (keys level) k ∧ n.Clashes j ∧ ¬ n.Clashes i ∧
      (level.add n).result = .error (.overlap n.key [j]) ∧
      (m.insert k 3).result = .error (.overlap k [i, j]) ∧
      [i, j] = outermostOverlaps (m.toList.map Prod.fst) k ∧
      (r.insert ⟨.v4, k⟩ 3).result = .error (.overlap ⟨.v4, k⟩ [⟨.v4, i⟩, ⟨.v4, j⟩]) ∧
      [⟨.v4, i⟩, ⟨.v4, j⟩] =
        (outermostOverlaps ((r.map .v4).toList.map Prod.fst) k).map (Block.mk .v4) := by
  intro i j k level n m r
  have hl : level.Reachable := by
    have he : (Forest.add [⟨i, .leaf i 1⟩] (.leaf j 2)).after = level := by decide +kernel
    exact he ▸ (Forest.Reachable.empty.add (.leaf i 1)).add (.leaf j 2)
  have hn : n.Reachable := (Node.Reachable.leaf (whole .v4) 4).add (.leaf j 3)
  have hm : m.Reachable := by
    have he : (IntervalMap.insert ⟨[⟨i, .leaf i 1⟩], 1⟩ j 2).after = m := by decide +kernel
    exact he ▸ (IntervalMap.Reachable.empty.insert i 1).insert j 2
  have hr : r.Reachable := by
    have he : (Registry.insert ⟨⟨[⟨i, .leaf i 1⟩], 1⟩, .empty⟩ ⟨.v4, j⟩ 2).after = r := by
      decide +kernel
    exact he ▸ (Registry.Reachable.empty.insert ⟨.v4, i⟩ 1).insert ⟨.v4, j⟩ 2
  have hk : (level.add (.leaf k 3)).result = .error (.overlap k [i, j]) := by decide +kernel
  have hc : (level.add n).result = .error (.overlap n.key [j]) := by decide +kernel
  have hmk : (m.insert k 3).result = .error (.overlap k [i, j]) := by decide +kernel
  have hrk : (r.insert ⟨.v4, k⟩ 3).result =
      .error (.overlap ⟨.v4, k⟩ [⟨.v4, i⟩, ⟨.v4, j⟩]) := by decide +kernel
  obtain ⟨hlevels, hmaps, hregistries⟩ := refusal_names_conflicts (f := .v4) (V := Nat)
  obtain ⟨cs, hcs, hover, -⟩ := hlevels level _ _ hl (.leaf k 3) hk
  obtain rfl : [i, j] = cs := (EditError.overlap.inj hcs).2
  obtain ⟨ds, hds, -, hclash⟩ := hlevels level n _ hl hn hc
  obtain rfl : [j] = ds := (EditError.overlap.inj hds).2
  obtain ⟨j', -, hj', hnj, -⟩ := hclash (by decide)
  obtain rfl : j = j' := List.singleton_inj.mp hj'
  obtain ⟨es, hes, hmap, -⟩ := hmaps m k 3 _ hm hmk
  obtain rfl : [i, j] = es := (EditError.overlap.inj hes).2
  obtain ⟨fs, hfs, hregistry, -⟩ := hregistries r ⟨.v4, k⟩ 3 _ hr hrk
  exact ⟨hk, (hover (by decide)).1, hnj, by decide, hc, hmk, hmap, hrk,
    hregistry ▸ (EditError.overlap.inj hfs).2⟩

end Netblock
