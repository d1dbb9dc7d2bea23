import Netblock.Forest.Level
import Netblock.Proofs.Nesting

/-! # Levels of siblings that are apart

The siblings of a level stand one before the other, each in a slot labelled with its own
key. A look at one or two slots then decides for the whole level which sibling contains an
interval and which ones partly overlap it, and every operation on slots is told by where
it cuts the level.
-/

namespace Netblock.Forest

open Netblock.Interval

variable {f : Family} {V : Type} {k : Interval f} {n p : Node f V}
  {s : Slot f (Node f V)} {level A B cs : Forest f V}

/-- Siblings are in their own slots, ordered by their ends, and no two share an address. -/
structure Siblings (level : Forest f V) : Prop where
  labelled : ∀ s ∈ level, s.label = s.node.key
  apart : level.Pairwise fun s t =>
    s.label.last < t.label.last ∧ ¬ s.node.key.Intersects t.node.key

namespace Siblings

theorem nil : Siblings ([] : Forest f V) := ⟨by simp, .nil⟩

theorem pairwise_before (h : Siblings level) :
    level.Pairwise fun s t => s.node.key.Before t.node.key := by
  refine h.apart.imp_of_mem fun {s t} hs ht hst => before_iff.mpr ⟨?_, hst.2⟩
  rw [← h.labelled s hs, ← h.labelled t ht]
  exact hst.1

theorem pairwise_before_nodes (h : Siblings level) :
    (Forest.nodes level).Pairwise fun n m => n.key.Before m.key :=
  List.pairwise_map.mpr h.pairwise_before

theorem of_before (hl : ∀ s ∈ level, s.label = s.node.key)
    (hb : level.Pairwise fun s t => s.node.key.Before t.node.key) : Siblings level := by
  refine ⟨hl, hb.imp_of_mem fun {s t} hs ht hst => ⟨?_, hst.not_intersects⟩⟩
  rw [hl s hs, hl t ht]
  exact hst.last_lt

theorem append_iff : Siblings (A ++ B) ↔ Siblings A ∧ Siblings B ∧
    ∀ a ∈ A, ∀ b ∈ B, a.node.key.Before b.node.key := by
  constructor
  · intro h
    have hp := List.pairwise_append.mp h.pairwise_before
    exact ⟨of_before (fun s hs => h.labelled s (List.mem_append_left B hs)) hp.1,
      of_before (fun s hs => h.labelled s (List.mem_append_right A hs)) hp.2.1, hp.2.2⟩
  · rintro ⟨ha, hb, hab⟩
    refine of_before (fun s hs => ?_) (List.pairwise_append.mpr
      ⟨ha.pairwise_before, hb.pairwise_before, hab⟩)
    rcases List.mem_append.mp hs with hs | hs
    · exact ha.labelled s hs
    · exact hb.labelled s hs

theorem cons_iff : Siblings (s :: level) ↔ s.label = s.node.key ∧ Siblings level ∧
    ∀ t ∈ level, s.node.key.Before t.node.key := by
  constructor
  · intro h
    have hp := List.pairwise_cons.mp h.pairwise_before
    exact ⟨h.labelled s List.mem_cons_self,
      of_before (fun t ht => h.labelled t (List.mem_cons_of_mem s ht)) hp.2, hp.1⟩
  · rintro ⟨hs, h, hb⟩
    exact of_before (List.forall_mem_cons.mpr ⟨hs, h.labelled⟩)
      (List.pairwise_cons.mpr ⟨hb, h.pairwise_before⟩)

theorem insert_iff : Siblings (A ++ s :: B) ↔ s.label = s.node.key ∧ Siblings (A ++ B) ∧
    (∀ a ∈ A, a.node.key.Before s.node.key) ∧ ∀ b ∈ B, s.node.key.Before b.node.key := by
  simp only [append_iff, cons_iff, List.forall_mem_cons]
  constructor
  · rintro ⟨hA, ⟨hs, hB, hsB⟩, hAB⟩
    exact ⟨hs, ⟨hA, hB, fun a ha => (hAB a ha).2⟩, fun a ha => (hAB a ha).1, hsB⟩
  · rintro ⟨hs, ⟨hA, hB, hAB⟩, hAs, hsB⟩
    exact ⟨hA, ⟨hs, hB, hsB⟩, fun a ha => ⟨hAs a ha, hAB a ha⟩⟩

/-- The level is cut at a sibling, with those that stand before it and after it. -/
theorem exists_cut (h : Siblings level) (hn : n ∈ nodes level) :
    ∃ A B, level = A ++ ⟨n.key, n⟩ :: B ∧ (∀ a ∈ A, a.node.key.Before n.key) ∧
      ∀ b ∈ B, n.key.Before b.node.key := by
  obtain ⟨s, hs, rfl⟩ := List.mem_map.mp hn
  obtain ⟨A, B, rfl⟩ := List.append_of_mem hs
  obtain ⟨hl, -, hA, hB⟩ := insert_iff.mp h
  refine ⟨A, B, ?_, hA, hB⟩
  rw [← hl]

theorem label_lt_first (h : Siblings A) (hA : ∀ a ∈ A, a.node.key.Before k) :
    ∀ a ∈ A, a.label.last < k.first := by
  intro a ha
  rw [h.labelled a ha]
  exact hA a ha

theorem label_lt_last (h : Siblings A) (hA : ∀ a ∈ A, a.node.key.Before k) :
    ∀ a ∈ A, a.label.last < k.last :=
  fun a ha => Nat.lt_of_lt_of_le (h.label_lt_first hA a ha) k.first_le_last

theorem last_lt_label (h : Siblings B) (hB : ∀ b ∈ B, k.Before b.node.key) :
    ∀ b ∈ B, k.last < b.label.last := by
  intro b hb
  rw [h.labelled b hb]
  exact (hB b hb).last_lt

end Siblings

theorem ceiling?_append {x : Nat} (hA : ∀ a ∈ A, a.label.last < x) (hs : x ≤ s.label.last) :
    ceiling? x (A ++ s :: B) = some s.node := by
  have hnone : A.find? (fun s => decide (x ≤ s.label.last)) = none := by
    apply List.find?_eq_none.mpr
    intro a ha
    simpa using hA a ha
  simp [ceiling?, List.find?_append, hnone, hs]

theorem occupant?_append (hA : ∀ a ∈ A, a.label.last < k.last) (hs : s.label.last = k.last) :
    occupant? k (A ++ s :: B) = some s.node := by
  have hnone : A.find? (fun s => decide (s.label.last = k.last)) = none := by
    apply List.find?_eq_none.mpr
    intro a ha
    simpa using Nat.ne_of_lt (hA a ha)
  simp [occupant?, List.find?_append, hnone, hs]

theorem replace_append {x : Nat} (hA : ∀ a ∈ A, a.label.last < x) (hs : x ≤ s.label.last) :
    replace x p (A ++ s :: B) = A ++ ⟨s.label, p⟩ :: B := by
  induction A with
  | nil => simp [replace, hs]
  | cons a A ih =>
    obtain ⟨ha, hA⟩ := List.forall_mem_cons.mp hA
    simp [replace, Nat.not_le.mpr ha, ih hA]

theorem extract?_append (hA : ∀ a ∈ A, a.label.last < k.last) (hs : s.label.last = k.last) :
    extract? k (A ++ s :: B) = some (s.node, A ++ B) := by
  induction A with
  | nil => simp [extract?, hs]
  | cons a A ih =>
    obtain ⟨ha, hA⟩ := List.forall_mem_cons.mp hA
    simp [extract?, Nat.ne_of_lt ha, ih hA]

theorem Siblings.extract?_label (h : Siblings (A ++ s :: B)) :
    extract? s.label (A ++ s :: B) = some (s.node, A ++ B) := by
  obtain ⟨hl, hAB, hA, -⟩ := Siblings.insert_iff.mp h
  exact extract?_append (hl ▸ (Siblings.append_iff.mp hAB).1.label_lt_last hA) rfl

/-- Between siblings that are apart from it, a node finds its slot free. -/
theorem place_append (hA : ∀ a ∈ A, a.label.last < n.key.last)
    (hB : ∀ b ∈ B, n.key.last < b.label.last) :
    place n (A ++ B) = (none, A ++ ⟨n.key, n⟩ :: B) := by
  induction A with
  | nil =>
    cases B with
    | nil => rfl
    | cons b B => simp [place, hB b List.mem_cons_self]
  | cons a A ih =>
    obtain ⟨ha, hA⟩ := List.forall_mem_cons.mp hA
    simp [place, Nat.lt_asymm ha, Nat.ne_of_gt ha, ih hA]

theorem placeAll_append (h : Siblings (A ++ cs ++ B)) :
    placeAll (nodes cs) (A ++ B) = A ++ cs ++ B := by
  induction cs generalizing A with
  | nil => simp [placeAll, nodes]
  | cons s cs ih =>
    obtain ⟨hA, hc, -⟩ := Siblings.append_iff.mp (List.append_assoc A _ B ▸ h)
    obtain ⟨-, hB, -⟩ := Siblings.append_iff.mp (Siblings.cons_iff.mp hc).2.1
    obtain ⟨hl, -, hAs, hsB⟩ := Siblings.insert_iff.mp (List.append_assoc A _ B ▸ h)
    have hp : place s.node (A ++ B) = (none, A ++ ⟨s.node.key, s.node⟩ :: B) :=
      place_append (hA.label_lt_last hAs)
        (hB.last_lt_label fun b hb => hsB b (List.mem_append_right cs hb))
    have ih := ih (A := A ++ [s]) (by simpa using h)
    simpa [placeAll, nodes, hp, ← hl] using ih

theorem enclosing?_append (h : Siblings (A ++ s :: B)) (hk : s.node.key.Contains k) :
    enclosing? k (A ++ s :: B) = some s.node := by
  obtain ⟨hl, hAB, hA, -⟩ := Siblings.insert_iff.mp h
  have hlt := (Siblings.append_iff.mp hAB).1.label_lt_first hA
  have hc : ceiling? k.first (A ++ s :: B) = some s.node := by
    refine ceiling?_append (fun a ha => Nat.lt_of_lt_of_le (hlt a ha) hk.1) ?_
    rw [hl]
    exact Nat.le_trans k.first_le_last hk.2
  simp [enclosing?, hc, hk]

/-- One probe finds the sibling that contains an interval. -/
theorem enclosing?_eq_some_iff (h : Siblings level) :
    enclosing? k level = some n ↔ n ∈ nodes level ∧ n.key.Contains k := by
  refine ⟨fun he => ⟨mem_of_enclosing? he, contains_of_enclosing? he⟩, fun ⟨hn, hk⟩ => ?_⟩
  obtain ⟨A, B, rfl, -, -⟩ := h.exists_cut hn
  exact enclosing?_append h hk

theorem enclosing?_eq_none_iff (h : Siblings level) :
    enclosing? k level = none ↔ ∀ n ∈ nodes level, ¬ n.key.Contains k := by
  simp only [Option.eq_none_iff_forall_ne_some, ne_eq, enclosing?_eq_some_iff h, not_and]

theorem mem_conflicts_of_append (h : Siblings (A ++ s :: B))
    (hk : k.PartlyOverlaps s.node.key) : s.node.key ∈ conflicts k (A ++ s :: B) := by
  obtain ⟨hl, hAB, hA, -⟩ := Siblings.insert_iff.mp h
  have hlt := (Siblings.append_iff.mp hAB).1.label_lt_first hA
  have hp : ceiling? k.first (A ++ s :: B) = some s.node ∨
      ceiling? k.last (A ++ s :: B) = some s.node := by
    obtain ⟨⟨hfirst, hlast⟩, hc, hc'⟩ := hk
    rw [← hl] at hfirst hlast hc hc'
    unfold Contains at hc hc'
    rcases Nat.lt_or_ge k.first s.label.first with hf | hf
    · right
      refine ceiling?_append (fun a ha => ?_) (by omega)
      have := hlt a ha
      rw [← hl] at this
      omega
    · left
      refine ceiling?_append (fun a ha => ?_) (by omega)
      have := hlt a ha
      rw [← hl] at this
      omega
  have hd : decide (k.PartlyOverlaps s.node.key) = true := decide_eq_true hk
  rw [conflicts, List.mem_eraseDups, List.mem_filter, List.mem_map]
  refine ⟨⟨s.node, ?_, rfl⟩, hd⟩
  rcases hp with hp | hp <;> simp [hp]

theorem mem_conflicts_iff (h : Siblings level) {i : Interval f} :
    i ∈ conflicts k level ↔ ∃ n ∈ nodes level, n.key = i ∧ k.PartlyOverlaps i := by
  constructor
  · intro hi
    rw [conflicts, List.mem_eraseDups, List.mem_filter, List.mem_map] at hi
    obtain ⟨⟨n, hn, rfl⟩, hk⟩ := hi
    refine ⟨n, ?_, rfl, of_decide_eq_true hk⟩
    obtain ⟨o, ho, hp⟩ := List.mem_filterMap.mp hn
    have hp : o = some n := hp
    rcases List.mem_cons.mp ho with rfl | ho
    · exact mem_of_ceiling? hp
    · rw [List.mem_singleton.mp ho] at hp
      exact mem_of_ceiling? hp
  · rintro ⟨n, hn, rfl, hk⟩
    obtain ⟨A, B, rfl, -, -⟩ := h.exists_cut hn
    exact mem_conflicts_of_append h hk

theorem conflicts_eq_nil_iff (h : Siblings level) :
    conflicts k level = [] ↔ ∀ n ∈ nodes level, ¬ k.PartlyOverlaps n.key := by
  simp only [List.eq_nil_iff_forall_not_mem, mem_conflicts_iff h]
  constructor
  · intro hc n hn hk
    exact hc n.key ⟨n, hn, rfl, hk⟩
  · rintro hc _ ⟨n, hn, rfl, hk⟩
    exact hc n hn hk

theorem eq_or_before_of_ceiling? {x y : Nat} (h : Siblings level) (hxy : x ≤ y)
    (hn : ceiling? x level = some n) (hp : ceiling? y level = some p) :
    n = p ∨ n.key.Before p.key := by
  induction level with
  | nil => simp [ceiling?] at hn
  | cons s level ih =>
    obtain ⟨-, hl, hs⟩ := Siblings.cons_iff.mp h
    by_cases hx : x ≤ s.label.last
    · obtain rfl : s.node = n := by simpa [ceiling?, hx] using hn
      rcases List.mem_cons.mp (mem_of_ceiling? hp) with rfl | hp
      · exact .inl rfl
      · obtain ⟨t, ht, rfl⟩ := List.mem_map.mp hp
        exact .inr (hs t ht)
    · have hy : ¬ y ≤ s.label.last := by omega
      exact ih hl (by simpa [ceiling?, hx] using hn) (by simpa [ceiling?, hy] using hp)

theorem conflicts_cases (h : Siblings level) : conflicts k level = [] ∨
    (∃ i, conflicts k level = [i]) ∨ ∃ i j, i.Before j ∧ conflicts k level = [i, j] := by
  rw [conflicts]
  cases hf : ceiling? k.first level with
  | none =>
    cases hl : ceiling? k.last level with
    | none => simp
    | some p => by_cases hp : k.PartlyOverlaps p.key <;> simp [hp, List.eraseDups_cons]
  | some n =>
    cases hl : ceiling? k.last level with
    | none => by_cases hn : k.PartlyOverlaps n.key <;> simp [hn, List.eraseDups_cons]
    | some p =>
      rcases eq_or_before_of_ceiling? h k.first_le_last hf hl with rfl | hnp
      · by_cases hn : k.PartlyOverlaps n.key <;> simp [hn, List.eraseDups_cons]
      · have hne := hnp.ne
        by_cases hn : k.PartlyOverlaps n.key <;> by_cases hp : k.PartlyOverlaps p.key <;>
          simp [hn, hp, List.eraseDups_cons, hnp, hne.symm]

theorem conflicts_pairwise (h : Siblings level) : (conflicts k level).Pairwise Before := by
  rcases conflicts_cases (k := k) h with hc | ⟨i, hc⟩ | ⟨i, j, hij, hc⟩
  · simp [hc]
  · simp [hc]
  · simpa [hc] using hij

theorem length_conflicts_le (h : Siblings level) : (conflicts k level).length ≤ 2 := by
  rcases conflicts_cases (k := k) h with hc | ⟨i, hc⟩ | ⟨i, j, -, hc⟩ <;> simp [hc]

/-- The two probes answer the siblings that partly overlap an interval, in order. -/
theorem conflicts_eq_filter (h : Siblings level) : conflicts k level =
    ((nodes level).filter fun n => decide (k.PartlyOverlaps n.key)).map Node.key := by
  have hc := conflicts_pairwise (k := k) h
  have hf : (((nodes level).filter fun n => decide (k.PartlyOverlaps n.key)).map
      Node.key).Pairwise Before := by
    rw [List.pairwise_map]
    exact h.pairwise_before_nodes.sublist List.filter_sublist
  refine List.Perm.eq_of_pairwise (fun i j _ _ hij hji => absurd hji.precedes hij.precedes.asymm)
    hc hf ((List.perm_ext_iff_of_nodup (hc.imp Before.ne) (hf.imp Before.ne)).mpr fun i => ?_)
  rw [mem_conflicts_iff h, List.mem_map]
  constructor
  · rintro ⟨n, hn, rfl, hk⟩
    exact ⟨n, List.mem_filter.mpr ⟨hn, decide_eq_true hk⟩, rfl⟩
  · rintro ⟨n, hn, rfl⟩
    obtain ⟨hn, hk⟩ := List.mem_filter.mp hn
    exact ⟨n, hn, rfl, of_decide_eq_true hk⟩

theorem contained_cons_of_before (hs : s.label.Before k) :
    contained k (s :: level) = contained k level := by
  have hs : s.label.last < k.first := hs
  simp [contained, hs]

theorem contained_cons_of_contains (h : Siblings (s :: level)) (hk : k.Contains s.node.key) :
    contained k (s :: level) = s :: contained k level := by
  obtain ⟨hl, hr, hs⟩ := Siblings.cons_iff.mp h
  have hdrop : level.dropWhile (fun t => decide (t.label.last < k.first)) = level := by
    cases level with
    | nil => rfl
    | cons t rest =>
      have ht : k.first ≤ t.label.last := by
        rw [hr.labelled t List.mem_cons_self]
        have := (hs t List.mem_cons_self).last_lt
        have := hk.1
        have := s.node.key.first_le_last
        omega
      simp [Nat.not_lt.mpr ht]
  have hf : ¬ s.label.last < k.first := by
    rw [hl]
    exact Nat.not_lt.mpr (Nat.le_trans hk.1 s.node.key.first_le_last)
  have hc : k.Contains s.label := hl ▸ hk
  rw [contained, contained, hdrop]
  simp [hf, hc]

theorem contained_of_before (h : Siblings level) (hk : ∀ n ∈ nodes level, k.Before n.key) :
    contained k level = [] := by
  cases level with
  | nil => rfl
  | cons s rest =>
    have hs : k.Before s.label := by
      rw [h.labelled s List.mem_cons_self]
      exact hk _ List.mem_cons_self
    have hf : ¬ s.label.last < k.first :=
      Nat.not_lt.mpr (Nat.le_trans k.first_le_last (Nat.le_of_lt hs.last_lt))
    simp [contained, hf, hs.not_contains]

/-- Where an interval contains or leaves apart every sibling, those inside it are one run. -/
theorem contained_cut (h : Siblings level)
    (hk : ∀ n ∈ nodes level, ¬ k.PartlyOverlaps n.key ∧ ¬ n.key.Contains k) :
    ∃ A B, level = A ++ contained k level ++ B ∧ (∀ a ∈ A, a.node.key.Before k) ∧
      (∀ s ∈ contained k level, k.Contains s.node.key) ∧ ∀ b ∈ B, k.Before b.node.key := by
  induction level with
  | nil => exact ⟨[], [], by simp [contained]⟩
  | cons s level ih =>
    obtain ⟨hl, hr, hs⟩ := Siblings.cons_iff.mp h
    obtain ⟨⟨hp, hc⟩, hk⟩ := List.forall_mem_cons.mp hk
    obtain ⟨A, B, he, hA, hin, hB⟩ := ih hr hk
    rcases before_or_before_or hp with hb | hb | hb | hb
    · have hafter : ∀ n ∈ nodes (s :: level), k.Before n.key := by
        refine List.forall_mem_cons.mpr ⟨hb, fun n hn => ?_⟩
        obtain ⟨t, ht, rfl⟩ := List.mem_map.mp hn
        exact hb.trans (hs t ht)
      rw [contained_of_before h hafter]
      refine ⟨[], s :: level, by simp, by simp, by simp, fun b hb => ?_⟩
      exact hafter _ (List.mem_map_of_mem hb)
    · rw [contained_cons_of_before (hl ▸ hb)]
      exact ⟨s :: A, B, by rw [List.cons_append, List.cons_append, ← he],
        List.forall_mem_cons.mpr ⟨hb, hA⟩, hin, hB⟩
    · have hA : A = [] := by
        apply List.eq_nil_iff_forall_not_mem.mpr
        intro a ha
        have hsa := hs a (he ▸ List.mem_append_left B (List.mem_append_left _ ha))
        exact (hsa.trans (hA a ha)).not_contains' hb
      subst hA
      rw [contained_cons_of_contains h hb]
      rw [List.nil_append] at he
      exact ⟨[], B, by rw [List.nil_append, List.cons_append, ← he], by simp,
        List.forall_mem_cons.mpr ⟨hb, hin⟩, hB⟩
    · exact absurd hb hc

end Netblock.Forest
