import Netblock.Proofs.Below
import Netblock.Proofs.Calls
import Netblock.Proofs.Outermost

/-! # The trace of an edit

The events of an edit count the nodes that it moves. These are the outermost ones strictly
inside its key, at whatever level the edit takes place. Siblings that move below a leaf come
in order and beside each other, and so have nothing to tell themselves.
-/

namespace Netblock

open Netblock.Interval

variable {f : Family} {V : Type}

/-- What is told of setting the value of `k`, with `c` nodes that a new one moves below it. -/
inductive Traced {K σ : Type} (k : K) (c : Nat) : Edit K V σ → Prop where
  | refused {after : σ} {cs : List K} :
      Traced k c ⟨.error (.overlap k cs), after, [.refusedOverlap k cs]⟩
  | replaced {after : σ} {old : V} : Traced k c ⟨.ok (some old), after, []⟩
  | fresh {after : σ} : Traced k c ⟨.ok none, after, if c = 0 then [] else [.absorbing k c]⟩

namespace Traced

variable {K L σ τ : Type} {k : K} {c : Nat} {e : Edit K V σ}

theorem map (h : Traced k c e) (g : σ → τ) : Traced k c (e.map g) := by
  cases h with
  | refused => exact .refused
  | replaced => exact .replaced
  | fresh => exact .fresh

theorem mapKeys (h : Traced k c e) (g : K → L) : Traced (g k) c (e.mapKeys g) := by
  cases h with
  | refused => exact .refused
  | replaced => exact .replaced
  | fresh =>
    rw [Edit.mapKeys, apply_ite (List.map (Event.mapKeys g))]
    exact .fresh

end Traced

namespace Forest

section Frontiers

variable {P : Interval f → Prop} {k : Interval f} {p : Node f V} {ns ms : List (Node f V)}
  {level A run B : Forest f V}

theorem nodes_frontier (h : level.WellFormed) (hP : ∀ s ∈ level, P s.node.key) :
    Frontier P (preorder level) (nodes level) := by
  induction level with
  | nil => exact .of_forall_not (by simp)
  | cons s level ih =>
    obtain ⟨-, hs, hl, hb⟩ := WellFormed.cons_iff.mp h
    obtain ⟨hPs, hP⟩ := List.forall_mem_cons.mp hP
    rw [preorder_cons]
    refine (Frontier.root hs hPs).append (ih hl hP) fun n hn m hm => ?_
    exact (hl.after_of_mem_keys hb (mem_keys_of_mem_preorder hm)).of_contains
      (hs.contains_of_mem_preorder hn) (.refl _)

theorem filter_strictly_inside_of_enclosing? (h : level.WellFormed)
    (he : enclosing? k level = some p) :
    ((preorder level).filter fun n => decide (k.Contains n.key ∧ n.key ≠ k)) =
      (preorder p.forest).filter fun n => decide (k.Contains n.key ∧ n.key ≠ k) := by
  have hself : ¬ (k.Contains p.key ∧ p.key ≠ k) := fun ⟨hk, hne⟩ =>
    hne ((contains_of_enclosing? he).antisymm hk)
  exact filter_below_of_enclosing? h he
    (fun n hn => (of_decide_eq_true hn).1.intersects.symm) (by simpa using hself)

theorem Frontier.below (hf : Frontier (fun i => k.Contains i ∧ i ≠ k) (preorder level) ns)
    (h : level.WellFormed) (he : enclosing? k level = some p) :
    Frontier (fun i => k.Contains i ∧ i ≠ k) (preorder p.forest) ns :=
  hf.of_filter_eq (filter_strictly_inside_of_enclosing? h he)

theorem children_frontier (h : level.WellFormed) (he : enclosing? p.key level = some p) :
    Frontier (fun i => p.key.Contains i ∧ i ≠ p.key) (preorder level) (nodes p.forest) := by
  have hp := h.of_mem_nodes (mem_of_enclosing? he)
  have hf : Frontier (fun i => p.key.Contains i ∧ i ≠ p.key) (preorder p.forest)
      (nodes p.forest) :=
    nodes_frontier hp.forest fun s hs => hp.inside_of_mem_keys (key_mem_keys hs)
  exact hf.of_filter_eq (filter_strictly_inside_of_enclosing? h he).symm

theorem CutAround.frontier (c : CutAround k A run B) (h : (A ++ run ++ B).WellFormed) :
    Frontier (fun i => k.Contains i ∧ i ≠ k) (preorder (A ++ run ++ B)) (nodes run) := by
  have hf : Frontier (fun i => k.Contains i ∧ i ≠ k) (preorder run) (nodes run) :=
    nodes_frontier h.of_cut c.inside
  exact hf.of_filter_eq (c.filter_preorder h fun n hn => (of_decide_eq_true hn).1).symm

theorem Frontier.unique [DecidablePred P] (h : Frontier P (preorder level) ns)
    (h' : Frontier P (preorder level) ms) (hl : level.WellFormed) : ns = ms :=
  (h.eq_filter hl).trans (h'.eq_filter hl).symm

end Frontiers

section Moves

variable {n : Node f V} {k : Interval f} {s : Slot f (Node f V)} {level A run B : Forest f V}

theorem contained_of_forall_before (h : ∀ s ∈ level, s.label.Before k) :
    contained k level = [] := by
  induction level with
  | nil => rfl
  | cons s level ih =>
    obtain ⟨hs, h⟩ := List.forall_mem_cons.mp h
    rw [contained_cons_of_before hs, ih h]

theorem add_last (h : WellFormed (level ++ [s])) :
    level.add s.node = ⟨.ok none, level ++ [s], []⟩ := by
  obtain ⟨hl, hs, hlevel, hbefore, -⟩ := WellFormed.insert_iff.mp h
  rw [List.append_nil] at hlevel
  have hnode (n : Node f V) (hn : n ∈ nodes level) : n.key.Before s.node.key := by
    obtain ⟨t, ht, rfl⟩ := List.mem_map.mp hn
    exact hbefore t ht
  have houtside : enclosing? s.node.key level = none :=
    (enclosing?_eq_none_iff hlevel.siblings).mpr fun n hn => (hnode n hn).not_contains
  have hapart : conflicts s.node.key level = [] :=
    (conflicts_eq_nil_iff hlevel.siblings).mpr fun n hn hk =>
      (hnode n hn).not_partlyOverlaps hk.symm
  have hcontained : contained s.node.key level = [] := by
    refine contained_of_forall_before fun t ht => ?_
    rw [hlevel.siblings.labelled t ht]
    exact hbefore t ht
  have hplace : place s.node level = (none, level ++ [s]) := by
    have hall := place_append (B := []) (hlevel.siblings.label_lt_last hbefore) (by simp)
    rwa [List.append_nil, ← hl] at hall
  rw [add_eq_addBy hs hlevel]
  simp only [addBy, houtside, hapart, hcontained, settle, hplace]

/-- Siblings that come after all nodes below the one that they move below tell nothing. -/
theorem events_absorb (hn : WellFormed (n.forest ++ run)) (h : (A ++ run ++ B).WellFormed)
    (hin : ∀ s ∈ run, n.key.Contains s.node.key ∧ s.node.key ≠ n.key) :
    (absorb adder (run.map Slot.label) n (A ++ run ++ B)).events = [] := by
  -- A sibling that is moved goes last below the node, and before those that are left.
  induction run generalizing n with
  | nil => rfl
  | cons s run ih =>
    obtain ⟨⟨hc, hne⟩, hin⟩ := List.forall_mem_cons.mp hin
    have h : (A ++ s :: (run ++ B)).WellFormed := by simpa using h
    obtain ⟨-, -, hAB, -, -⟩ := WellFormed.insert_iff.mp h
    have hextract : extract? s.label (A ++ s :: run ++ B) = some (s.node, A ++ run ++ B) := by
      simpa using h.siblings.extract?_label
    have hn : WellFormed (n.forest ++ [s] ++ run) := by simpa using hn
    have hmove : Node.addBy adder s.node n =
        ⟨.ok none, n.withForest (n.forest ++ [s]), []⟩ := by
      have hlast := add_last (WellFormed.append_iff.mp hn).1
      rw [Node.addBy, if_neg hne.symm, if_pos hc, adder, hlast, Edit.map]
    have ih := ih (n := n.withForest (n.forest ++ [s])) hn (by simpa using hAB) hin
    simp only [List.map_cons, absorb, hextract, hmove, ih, List.append_nil]

end Moves

section Additions

variable {n : Node f V} {k : Interval f} {v : V} {ns : List (Node f V)} {level : Forest f V}

theorem events_settle (n : Node f V) (level : Forest f V) (events : List (Event (Interval f))) :
    (settle n level events).events = events := by
  unfold settle
  split <;> rfl

theorem Clear.add_leaf_traced (clear : Clear (.leaf k v) level) (h : level.WellFormed) :
    Traced k (contained k level).length (level.add (.leaf k v)) := by
  obtain ⟨A, B, hlevel, cut⟩ : ∃ A B, level = A ++ contained k level ++ B ∧
      CutAround k A (contained k level) B := h.exists_cutAround clear.outside clear.apart
  obtain ⟨going, -, -, hresult⟩ := (clear.undisturbed (.leaf k v) h).settles
  have hmoves : (absorb adder (labelsInside (.leaf k v) level) (.leaf k v) level).events = [] := by
    have hcut := hlevel ▸ h
    have hevents : (absorb adder ((contained k level).map Slot.label) (.leaf k v)
        (A ++ contained k level ++ B)).events = [] :=
      events_absorb (n := .leaf k v) hcut.of_cut hcut cut.inside
    rwa [← hlevel] at hevents
  have hevents : (level.add (.leaf k v)).events =
      if (contained k level).length = 0 then [] else [.absorbing k (contained k level).length] := by
    rw [add_eq_addBy (.leaf k v) h, clear.addBy_eq_settle going, events_settle, hmoves]
    simp [labelsInside, Node.key]
  have hadd : level.add (.leaf k v) = ⟨(level.add (.leaf k v)).result,
      (level.add (.leaf k v)).after, (level.add (.leaf k v)).events⟩ := rfl
  rw [hadd, hresult, hevents]
  exact .fresh

/-- Whatever the level at which a leaf is added, the nodes that move below it are the outermost
ones strictly inside it. -/
theorem add_leaf_traced {level : Forest f V} (h : level.WellFormed)
    (hf : Frontier (fun i => k.Contains i ∧ i ≠ k) (preorder level) ns) :
    Traced k ns.length (level.add (.leaf k v)) := by
  cases he : enclosing? k level with
  | some p =>
    have hlt := count_forest_lt (mem_of_enclosing? he)
    have hcontains := contains_of_enclosing? he
    rw [add_of_enclosing? (.leaf k v) h he]
    by_cases hk : p.key = k
    · rw [Node.add_of_key_eq hk]
      exact .replaced
    · have hp := (h.of_mem_nodes (mem_of_enclosing? he)).forest
      rw [Node.add_of_contains (m := .leaf k v) hcontains hk]
      exact ((add_leaf_traced hp (hf.below h he)).map _).map _
  | none =>
    cases hc : conflicts k level with
    | cons c cs =>
      rw [add_of_conflicts (.leaf k v) h he hc]
      exact .refused
    | nil =>
      obtain ⟨A, B, hlevel, cut⟩ := h.exists_cutAround he hc
      have hrun := cut.frontier (hlevel ▸ h)
      rw [← hlevel] at hrun
      have hfits : misfit? (.leaf k v) (contained k level) = none :=
        (misfit?_eq_none_iff (.leaf k v)).mpr (by simp [Fits, Node.forest])
      have hns : ns.length = (contained k level).length := by
        rw [hf.unique hrun h, nodes, List.length_map]
      rw [hns]
      exact Clear.add_leaf_traced ⟨he, hc, hfits⟩ h
termination_by count level

end Additions

/-- Whatever the level at which a node is removed, its children are the outermost nodes
strictly inside its key. -/
theorem Deletion.events_eq {k : Interval f} {ns : List (Node f V)} {level : Forest f V}
    {r : Removal (Interval f) V (Forest f V)} (h : Deletion k level r) (hl : level.WellFormed)
    (hf : Frontier (fun i => k.Contains i ∧ i ≠ k) (preorder level) ns) :
    r.events = if r.removed.isSome ∧ 0 < ns.length then [.promoting k ns.length] else [] := by
  induction h with
  | outside => rfl
  | under around ne h ih =>
    obtain ⟨-, hp, -, -, -⟩ := WellFormed.insert_iff.mp hl
    exact ih hp.forest (hf.below hl (enclosing?_append hl.siblings around))
  | @promoted A B p key_eq =>
    subst key_eq
    have hchildren := children_frontier hl (enclosing?_append hl.siblings (.refl p.key))
    rw [hf.unique hchildren hl, nodes, List.length_map]
    cases p.forest with
    | nil => rfl
    | cons s cs => simp

end Forest

namespace IntervalMap

open Forest

variable {m : IntervalMap f V} {k : Interval f}

theorem insert_traced (h : m.WellFormed) (k : Interval f) (v : V) :
    Traced k (m.outermostEntries k).length (m.insert k v) := by
  obtain ⟨ns, -, hns, hf⟩ := exists_outermostEntries_frontier h k
  rw [hns, List.length_map, insert]
  exact (add_leaf_traced h.roots hf).map _

theorem events_erase (h : m.WellFormed) (k : Interval f) :
    let c := (m.outermostEntries k).length
    (m.erase k).events = if k ∈ m.toList.map Prod.fst then
      (if 0 < c then [.promoting k c] else []) ++ [.removed k] else [] := by
  obtain ⟨ns, -, hns, hf⟩ := exists_outermostEntries_frontier h k
  have hevents := (remove_deletion h.roots).events_eq h.roots hf
  have hremoved := remove_removed (k := k) h.roots
  rw [hns, List.length_map, toList_eq, erase]
  generalize Forest.remove k m.roots = r at hevents hremoved
  cases hremoved with
  | absent notMem => exact (if_neg notMem).symm
  | found entries_eq =>
    have hmem : k ∈ (entries m.roots).map Prod.fst := by simp [entries_eq]
    simpa [hmem] using hevents

/-- Setting a value tells its refusal, or else how many of the outermost entries strictly inside
its key move below a new one. Removing an entry tells how many move out, and then the key. -/
theorem edits_tell_moves [DecidableEq V] (h : m.Reachable) (k : Interval f) (v : V) :
    let c := (m.outermostEntries k).length
    (∀ err, (m.insert k v).result = .error err →
      ∃ cs, err = .overlap k cs ∧ (m.insert k v).events = [.refusedOverlap k cs]) ∧
    (∀ old, (m.insert k v).result = .ok old → (m.insert k v).events =
      if k ∉ m.toList.map Prod.fst ∧ 0 < c then [.absorbing k c] else []) ∧
    (m.erase k).events = (if k ∈ m.toList.map Prod.fst then
      (if 0 < c then [.promoting k c] else []) ++ [.removed k] else []) ∧
    (m.eraseValue k v).events = if (k, v) ∈ m.toList then (m.erase k).events else [] := by
  intro c
  have hw := h.wellFormed
  refine ⟨?_, ?_, events_erase hw k, ?_⟩
  · intro err herr
    have ht := insert_traced hw k v
    generalize m.insert k v = e at herr ht
    cases ht with
    | refused =>
      cases herr
      exact ⟨_, rfl, rfl⟩
    | replaced => cases herr
    | fresh => cases herr
  · intro old hold
    have ht := insert_traced hw k v
    have hi := insert_inserted hw k v
    generalize m.insert k v = e at hold ht hi
    rw [toList_eq]
    cases ht with
    | refused => cases hold
    | replaced =>
      cases hi with
      | replaced toList_eq =>
        have hmem : k ∈ (entries m.roots).map Prod.fst := by
          rw [← IntervalMap.toList_eq, toList_eq]
          simp
        simp [hmem]
    | fresh =>
      cases hi with
      | fresh notMem =>
        have hnot : k ∉ (entries m.roots).map Prod.fst := notMem
        simp [hnot, c, Nat.pos_iff_ne_zero]
  · simp only [eraseValue, ← get?_eq_some_iff hw]
    split <;> rfl

theorem edits_tell_moves_of_whole :
    let i : Interval .v4 := ⟨0, 5, by decide, by decide⟩
    let j : Interval .v4 := ⟨8, 12, by decide, by decide⟩
    let k : Interval .v4 := ⟨3, 10, by decide, by decide⟩
    let l := whole .v4
    let m : IntervalMap .v4 Nat := ⟨[⟨i, .leaf i 1⟩, ⟨j, .leaf j 2⟩], 2⟩
    let n : IntervalMap .v4 Nat := (m.insert l 3).after
    (m.insert k 3).events = [.refusedOverlap k [i, j]] ∧
      (m.insert l 3).events = [.absorbing l 2] ∧
      (n.erase l).events = [.promoting l 2, .removed l] ∧
      (n.eraseValue l 4).events = [] := by
  intro i j k l m n
  have hm : m.Reachable := by
    have he : (insert ⟨[⟨i, .leaf i 1⟩], 1⟩ j 2).after = m := by decide +kernel
    exact he ▸ (Reachable.empty.insert i 1).insert j 2
  have hml : m.toList = [(i, 1), (j, 2)] := by rw [toList_eq]; decide
  have hnl : n.toList = [(l, 3), (i, 1), (j, 2)] := by rw [toList_eq]; decide +kernel
  have hmc : (m.outermostEntries l).length = 2 := by rw [outermostEntries, hml]; decide
  have hnc : (n.outermostEntries l).length = 2 := by rw [outermostEntries, hnl]; decide
  obtain ⟨hrefused, -⟩ := edits_tell_moves hm k 3
  obtain ⟨-, hinsert, -⟩ := edits_tell_moves hm l 3
  obtain ⟨-, -, herase, heraseValue⟩ := edits_tell_moves (hm.insert l 3) l 4
  have hk : (m.insert k 3).result = .error (.overlap k [i, j]) := by decide +kernel
  have hl : (m.insert l 3).result = .ok none := by decide +kernel
  refine ⟨?_, ?_, ?_, ?_⟩
  · obtain ⟨cs, hcs, hevents⟩ := hrefused _ hk
    obtain rfl : [i, j] = cs := (EditError.overlap.inj hcs).2
    exact hevents
  · rw [hinsert none hl, hmc, hml]
    decide
  · rw [herase, hnc, hnl]
    decide
  · rw [heraseValue, hnl]
    exact if_neg (by decide)

end IntervalMap

end Netblock
