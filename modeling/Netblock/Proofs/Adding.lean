import Netblock.Forest.Add
import Netblock.Proofs.Locating

/-! # What adding a node does

Adding a node to a well-formed forest has five outcomes, and `Insertion` lists them with all
that is known of each. Every addition is one of them, at any depth of the recursion, and the
moves of siblings below the new node are never refused.
-/

namespace Netblock

open Netblock.Interval
open scoped List

variable {f : Family} {V : Type}

namespace Forest

/-- A level is cut around an interval: siblings before it, strictly inside it and after it. -/
structure CutAround (k : Interval f) (A run B : Forest f V) : Prop where
  before : ∀ a ∈ A, a.node.key.Before k
  inside : ∀ s ∈ run, k.Contains s.node.key ∧ s.node.key ≠ k
  after : ∀ b ∈ B, k.Before b.node.key

/-- The subtrees of a run of siblings nest with all that is below a node. -/
def Fits (n : Node f V) (run : Forest f V) : Prop :=
  ∀ i ∈ keys run, ∀ j ∈ keys n.forest, j ≠ i ∧ ¬ i.PartlyOverlaps j

/-- `p` is the node `n` with a run of siblings moved below it. -/
structure Absorbed (n : Node f V) (run : Forest f V) (p : Node f V) : Prop where
  wellFormed : p.WellFormed
  key_eq : p.key = n.key
  value_eq : p.value = n.value
  perm : (entries p.forest).Perm (entries n.forest ++ entries run)

/-- The outcomes of adding a node to a level. -/
inductive Insertion (n : Node f V) :
    Forest f V → Edit (Interval f) V (Forest f V) → Prop where
  | under {A B : Forest f V} {p : Node f V} {e : Edit (Interval f) V (Forest f V)}
      (around : p.key.Contains n.key) (ne : p.key ≠ n.key) (h : Insertion n p.forest e) :
      Insertion n (A ++ ⟨p.key, p⟩ :: B) (e.map fun cs => A ++ ⟨p.key, p.withForest cs⟩ :: B)
  | onto {A B : Forest f V} {p : Node f V} (key_eq : p.key = n.key) :
      Insertion n (A ++ ⟨p.key, p⟩ :: B)
        ⟨.ok (some p.value), A ++ ⟨p.key, p.withValue n.value⟩ :: B, []⟩
  | overlap {level : Forest f V} {c : Interval f} {cs : List (Interval f)}
      (outside : enclosing? n.key level = none) (conflicts_eq : conflicts n.key level = c :: cs) :
      Insertion n level
        ⟨.error (.overlap n.key (c :: cs)), level, [.refusedOverlap n.key (c :: cs)]⟩
  | misfit {A run B : Forest f V} {k : Interval f} (cut : CutAround n.key A run B)
      (misfit_eq : misfit? n run = some k) :
      Insertion n (A ++ run ++ B)
        ⟨.error (.overlap n.key [k]), A ++ run ++ B, [.refusedSubtree n.key k]⟩
  | among {A run B : Forest f V} {p : Node f V} {events : List (Event (Interval f))}
      (cut : CutAround n.key A run B) (fits : Fits n run) (absorbed : Absorbed n run p) :
      Insertion n (A ++ run ++ B) ⟨.ok none, A ++ ⟨p.key, p⟩ :: B, events⟩

section Cuts

variable {i k : Interval f} {n p : Node f V} {level A run B : Forest f V}

theorem WellFormed.exists_cutAround (h : level.WellFormed) (he : enclosing? k level = none)
    (hc : conflicts k level = []) :
    ∃ A B, level = A ++ contained k level ++ B ∧ CutAround k A (contained k level) B := by
  have hp := (conflicts_eq_nil_iff h.siblings).mp hc
  have hn := (enclosing?_eq_none_iff h.siblings).mp he
  obtain ⟨A, B, hl, hA, hin, hB⟩ := contained_cut h.siblings fun n hm => ⟨hp n hm, hn n hm⟩
  refine ⟨A, B, hl, hA, fun s hs => ⟨hin s hs, ?_⟩, hB⟩
  have hm : s ∈ level := hl ▸ List.mem_append_left B (List.mem_append_right A hs)
  rintro hk
  exact hn s.node (List.mem_map_of_mem hm) (hk ▸ .refl _)

theorem CutAround.inside_of_mem_keys (c : CutAround k A run B) (h : run.WellFormed)
    (hi : i ∈ keys run) : k.Contains i ∧ i ≠ k := by
  obtain ⟨s, hs, hsi⟩ := mem_keys_iff.mp hi
  have hc := (h.nodes s hs).contains_of_mem_keys hsi
  obtain ⟨hks, hne⟩ := c.inside s hs
  refine ⟨hks.trans hc, ?_⟩
  rintro rfl
  exact hne (hc.antisymm hks)

theorem CutAround.key_cases (c : CutAround k A run B) (h : (A ++ run ++ B).WellFormed)
    (hi : i ∈ keys (A ++ run ++ B)) : i ∈ keys run ∨ ¬ i.Intersects k := by
  obtain ⟨hAr, hB, -⟩ := WellFormed.append_iff.mp h
  obtain ⟨hA, -, -⟩ := WellFormed.append_iff.mp hAr
  rw [keys_append, keys_append, List.mem_append, List.mem_append] at hi
  rcases hi with (hi | hi) | hi
  · exact .inr (hA.before_of_mem_keys c.before hi).not_intersects
  · exact .inl hi
  · exact .inr fun hm => (hB.after_of_mem_keys c.after hi).not_intersects hm.symm

theorem WellFormed.of_cut (h : (A ++ run ++ B).WellFormed) : run.WellFormed :=
  (append_iff.mp (append_iff.mp h).1).2.1

theorem CutAround.filter_preorder {P : Node f V → Bool} (c : CutAround k A run B)
    (h : (A ++ run ++ B).WellFormed) (hP : ∀ n, P n = true → k.Contains n.key) :
    (preorder (A ++ run ++ B)).filter P = (preorder run).filter P := by
  obtain ⟨hAr, hwB, -⟩ := WellFormed.append_iff.mp h
  obtain ⟨hwA, -, -⟩ := WellFormed.append_iff.mp hAr
  have hA : (preorder A).filter P = [] := by
    refine List.filter_eq_nil_iff.mpr fun n hn hp => ?_
    exact (hwA.before_of_mem_keys c.before (mem_keys_of_mem_preorder hn)).not_contains' (hP n hp)
  have hB : (preorder B).filter P = [] := by
    refine List.filter_eq_nil_iff.mpr fun n hn hp => ?_
    exact (hwB.after_of_mem_keys c.after (mem_keys_of_mem_preorder hn)).not_contains (hP n hp)
  simp only [preorder_append, List.filter_append, hA, hB, List.nil_append, List.append_nil]

theorem CutAround.key_notMem (c : CutAround k A run B) (h : (A ++ run ++ B).WellFormed) :
    k ∉ keys (A ++ run ++ B) := by
  intro hk
  rcases c.key_cases h hk with hr | hn
  · exact (c.inside_of_mem_keys h.of_cut hr).2 rfl
  · exact hn (Contains.refl k).intersects

end Cuts

/-- All keys of a level nest with a node, and those inside it nest with all that is below it
and are no keys there. -/
def Admits (level : Forest f V) (n : Node f V) : Prop :=
  (∀ i ∈ keys level, ¬ i.PartlyOverlaps n.key) ∧
    ∀ i ∈ keys level, n.key.Contains i → ∀ j ∈ keys n.forest, i ≠ j ∧ ¬ i.PartlyOverlaps j

inductive Added (n : Node f V) (level : Forest f V) :
    Edit (Interval f) V (Forest f V) → Prop where
  | fresh {after : Forest f V} {events : List (Event (Interval f))}
      (notMem : n.key ∉ keys level) (admits : Admits level n) (wellFormed : after.WellFormed)
      (perm : (entries after).Perm (n.entries ++ entries level)) :
      Added n level ⟨.ok none, after, events⟩
  | replaced {after : Forest f V} {events : List (Event (Interval f))} {old : V}
      {X Y : List (Interval f × V)} (entries_eq : entries level = X ++ (n.key, old) :: Y)
      (wellFormed : after.WellFormed) (after_eq : entries after = X ++ (n.key, n.value) :: Y) :
      Added n level ⟨.ok (some old), after, events⟩
  | refused {cs : List (Interval f)} {events : List (Event (Interval f))}
      (notMem : n.key ∉ keys level) (not_admits : ¬ Admits level n) :
      Added n level ⟨.error (.overlap n.key cs), level, events⟩

section Results

variable {k : Interval f} {n p : Node f V} {level A run B cs : Forest f V}
  {e : Edit (Interval f) V (Forest f V)}

theorem admits_nil (n : Node f V) : Admits [] n := ⟨by simp, by simp⟩

theorem admits_under_iff (h : (A ++ ⟨p.key, p⟩ :: B).WellFormed) (hp : p.key.Contains n.key)
    (hne : p.key ≠ n.key) : Admits (A ++ ⟨p.key, p⟩ :: B) n ↔ Admits p.forest n := by
  have he := enclosing?_append (k := n.key) h.siblings hp
  constructor
  · rintro ⟨ho, hf⟩
    have hm (i) (hi : i ∈ keys p.forest) : i ∈ keys (A ++ ⟨p.key, p⟩ :: B) :=
      mem_keys_of_enclosing? he (List.mem_cons_of_mem _ hi)
    exact ⟨fun i hi => ho i (hm i hi), fun i hi => hf i (hm i hi)⟩
  · rintro ⟨ho, hf⟩
    constructor
    · intro i hi hpo
      rcases h.key_cases he hi with hi | hi
      · rcases List.mem_cons.mp hi with rfl | hi
        · exact hpo.2.1 hp
        · exact ho i hi hpo
      · exact hi hpo.1
    · intro i hi hni
      rcases h.key_cases he hi with hi | hi
      · rcases List.mem_cons.mp hi with rfl | hi
        · exact absurd (hp.antisymm hni) hne
        · exact hf i hi hni
      · exact absurd hni.intersects.symm hi

theorem CutAround.admits_iff (c : CutAround n.key A run B) (h : (A ++ run ++ B).WellFormed) :
    Admits (A ++ run ++ B) n ↔ Fits n run := by
  constructor
  · rintro ⟨-, ha⟩ i hi j hj
    obtain ⟨hne, hpo⟩ := ha i (by simp [hi]) (c.inside_of_mem_keys h.of_cut hi).1 j hj
    exact ⟨hne.symm, hpo⟩
  · intro hf
    constructor
    · intro i hi hpo
      rcases c.key_cases h hi with hr | hn
      · exact hpo.2.2 (c.inside_of_mem_keys h.of_cut hr).1
      · exact hn hpo.1
    · intro i hi hni j hj
      rcases c.key_cases h hi with hr | hn
      · exact ⟨(hf i hr j hj).1.symm, (hf i hr j hj).2⟩
      · exact absurd hni.intersects.symm hn

theorem perm_between {α : Type} {X Y N : List α} (h : X.Perm (N ++ Y)) (A B : List α) :
    (A ++ X ++ B).Perm (N ++ (A ++ Y ++ B)) := by
  calc A ++ X ++ B
    _ ~ A ++ (N ++ Y) ++ B := (h.append_left A).append_right B
    _ = A ++ (N ++ (Y ++ B)) := by simp
    _ ~ N ++ (A ++ (Y ++ B)) := List.perm_append_comm_assoc A N (Y ++ B)
    _ = N ++ (A ++ Y ++ B) := by simp

theorem keys_perm (perm : (entries cs).Perm (n.entries ++ entries level)) :
    (keys cs).Perm (n.keys ++ keys level) := by
  simpa only [Node.keys_eq, keys, List.map_append] using perm.map Prod.fst

theorem WellFormed.withForest_of_perm (hcs : cs.WellFormed) (hn : n.WellFormed)
    (hp : p.WellFormed) (around : p.key.Contains n.key) (ne : n.key ≠ p.key)
    (perm : (entries cs).Perm (n.entries ++ entries p.forest)) : (p.withForest cs).WellFormed := by
  refine Node.WellFormed.withForest hcs ?_ fun i hi => ?_
  · rintro rfl
    exact absurd perm.symm.eq_nil (by simp [Node.entries])
  · rcases List.mem_append.mp ((keys_perm perm).mem_iff.mp hi) with hi | hi
    · have hc := hn.contains_of_mem_keys hi
      refine ⟨around.trans hc, ?_⟩
      rintro rfl
      exact ne (hc.antisymm around)
    · exact hp.inside_of_mem_keys hi

theorem misfit?_eq_none_iff (hn : n.WellFormed) : misfit? n run = none ↔ Fits n run := by
  simp [misfit?, map_key_preorder, List.find?_eq_none, accepts_iff hn.forest, Fits]

theorem Added.withForest (h : Added n p.forest e) (hp : p.WellFormed) (hn : n.WellFormed)
    (around : p.key.Contains n.key) (ne : p.key ≠ n.key) : (p.withForest e.after).WellFormed := by
  cases h with
  | fresh _ _ wellFormed perm => exact wellFormed.withForest_of_perm hn hp around ne.symm perm
  | @replaced after _ _ _ _ entries_eq wellFormed after_eq =>
    have hkeys : keys after = keys p.forest := by simp [keys, entries_eq, after_eq]
    refine .withForest wellFormed ?_ fun i hi => hp.inside_of_mem_keys (hkeys ▸ hi)
    rintro rfl
    simp at after_eq
  | refused _ not_admits =>
    have hne : p.forest ≠ [] := fun hnil => not_admits (hnil ▸ admits_nil n)
    rw [hp.withForest_forest hne]
    exact hp

theorem Added.under (h : (A ++ ⟨p.key, p⟩ :: B).WellFormed) (hn : n.WellFormed)
    (around : p.key.Contains n.key) (ne : p.key ≠ n.key) (ha : Added n p.forest e) :
    Added n (A ++ ⟨p.key, p⟩ :: B) (e.map fun cs => A ++ ⟨p.key, p.withForest cs⟩ :: B) := by
  obtain ⟨-, hp, -, -, -⟩ := WellFormed.insert_iff.mp h
  have hwf := h.set (ha.withForest hp hn around ne) rfl
  have hmem : n.key ∈ keys (A ++ ⟨p.key, p⟩ :: B) → n.key ∈ keys p.forest := by
    intro hm
    rcases h.key_cases (enclosing?_append h.siblings around) hm with hm | hm
    · exact (List.mem_cons.mp hm).resolve_left fun hk => ne hk.symm
    · exact absurd (Contains.refl n.key).intersects hm
  cases ha with
  | @fresh after events notMem admits _ perm =>
    refine .fresh (fun hm => notMem (hmem hm)) ((admits_under_iff h around ne).mpr admits) hwf ?_
    have hp : ((p.key, p.value) :: entries after).Perm
        (n.entries ++ (p.key, p.value) :: entries p.forest) :=
      (perm.cons _).trans List.perm_middle.symm
    simpa [Node.entries] using perm_between hp (entries A) (entries B)
  | @replaced after events old X Y entries_eq _ after_eq =>
    refine .replaced (X := entries A ++ (p.key, p.value) :: X) (Y := Y ++ entries B) ?_ hwf ?_
    · simp [Node.entries, entries_eq]
    · simp [Node.entries, after_eq]
  | refused notMem not_admits =>
    have hne : p.forest ≠ [] := fun hnil => not_admits (hnil ▸ admits_nil n)
    simp only [Edit.map, hp.withForest_forest hne]
    exact .refused (fun hm => notMem (hmem hm)) fun ha =>
      not_admits ((admits_under_iff h around ne).mp ha)

theorem Added.onto (h : (A ++ ⟨p.key, p⟩ :: B).WellFormed) (key_eq : p.key = n.key) :
    Added n (A ++ ⟨p.key, p⟩ :: B)
      ⟨.ok (some p.value), A ++ ⟨p.key, p.withValue n.value⟩ :: B, []⟩ := by
  obtain ⟨-, hp, -, -, -⟩ := WellFormed.insert_iff.mp h
  refine .replaced (X := entries A) (Y := entries p.forest ++ entries B) ?_
    (h.set (hp.withValue n.value) (by simp)) ?_
  · simp [Node.entries, key_eq]
  · simp [Node.entries, key_eq]

theorem Added.overlap {cs : List (Interval f)} {events : List (Event (Interval f))}
    (h : level.WellFormed) (hp : p ∈ nodes level) (hk : n.key.PartlyOverlaps p.key) :
    Added n level ⟨.error (.overlap n.key cs), level, events⟩ := by
  obtain ⟨s, hs, rfl⟩ := List.mem_map.mp hp
  have hm := key_mem_keys hs
  exact .refused (fun hn => h.not_partlyOverlaps hn hm hk) fun ha => ha.1 _ hm hk.symm

theorem Added.among {events : List (Event (Interval f))} (h : (A ++ run ++ B).WellFormed)
    (cut : CutAround n.key A run B) (fits : Fits n run) (absorbed : Absorbed n run p) :
    Added n (A ++ run ++ B) ⟨.ok none, A ++ ⟨p.key, p⟩ :: B, events⟩ := by
  obtain ⟨hA, hB, hAB⟩ := WellFormed.append_iff.mp h
  obtain ⟨hA, -, -⟩ := WellFormed.append_iff.mp hA
  refine .fresh (cut.key_notMem h) ((cut.admits_iff h).mpr fits) ?_ ?_
  · refine WellFormed.insert_iff.mpr ⟨rfl, absorbed.wellFormed, WellFormed.append_iff.mpr
      ⟨hA, hB, fun a ha b hb => hAB a (List.mem_append_left run ha) b hb⟩, ?_, ?_⟩
    · simpa only [absorbed.key_eq] using cut.before
    · simpa only [absorbed.key_eq] using cut.after
  · have hp : p.entries.Perm (n.entries ++ entries run) := by
      rw [Node.entries, Node.entries, absorbed.key_eq, absorbed.value_eq]
      exact absorbed.perm.cons _
    simpa using perm_between hp (entries A) (entries B)

/-- Whatever its depth, an insertion is decided by the keys of the forest alone. -/
theorem Insertion.added (h : Insertion n level e) (hl : level.WellFormed) (hn : n.WellFormed) :
    Added n level e := by
  induction h with
  | under around ne h ih =>
    obtain ⟨-, hp, -, -, -⟩ := WellFormed.insert_iff.mp hl
    exact .under hl hn around ne (ih hp.forest)
  | onto key_eq => exact .onto hl key_eq
  | @overlap level c cs _ conflicts_eq =>
    have hc : c ∈ conflicts n.key level := conflicts_eq ▸ List.mem_cons_self
    obtain ⟨p, hp, rfl, hk⟩ := (mem_conflicts_iff hl.siblings).mp hc
    exact .overlap hl hp hk
  | misfit cut misfit_eq =>
    refine .refused (cut.key_notMem hl) fun ha => ?_
    rw [(misfit?_eq_none_iff hn).mpr ((cut.admits_iff hl).mp ha)] at misfit_eq
    exact absurd misfit_eq (by simp)
  | among cut fits absorbed => exact .among hl cut fits absorbed

theorem Added.wellFormed (h : Added n level e) (hl : level.WellFormed) : e.after.WellFormed := by
  cases h with
  | fresh _ _ wellFormed _ => exact wellFormed
  | replaced _ wellFormed _ => exact wellFormed
  | refused => exact hl

end Results

section Moves

variable {n p : Node f V} {s : Slot f (Node f V)} {level A run rest B : Forest f V}
  {add : Adder f V} {e : Edit (Interval f) V (Forest f V)}

theorem Added.of_fits (h : Added s.node n.forest e) (hfit : Fits n (s :: run)) :
    ∃ after events, e = ⟨.ok none, after, events⟩ ∧ after.WellFormed ∧
      (entries after).Perm (s.node.entries ++ entries n.forest) := by
  have hs : ∀ i ∈ s.node.keys, ∀ j ∈ keys n.forest, j ≠ i ∧ ¬ i.PartlyOverlaps j :=
    fun i hi j hj => hfit i (by simp [hi]) j hj
  cases h with
  | @fresh after events _ _ wellFormed perm => exact ⟨after, events, rfl, wellFormed, perm⟩
  | replaced entries_eq =>
    have hm : s.node.key ∈ keys n.forest := by simp [keys, entries_eq]
    exact absurd rfl (hs _ s.node.key_mem_keys _ hm).1
  | refused notMem not_admits =>
    refine absurd ⟨fun i hi hp => ?_, fun i hi _ j hj => ?_⟩ not_admits
    · exact (hs _ s.node.key_mem_keys i hi).2 hp.symm
    · obtain ⟨hne, hp⟩ := hs j (List.mem_cons_of_mem _ hj) i hi
      exact ⟨hne, fun hij => hp hij.symm⟩

theorem Fits.of_perm (h : Fits n (run ++ rest)) (hr : WellFormed (run ++ rest))
    (perm : (entries p.forest).Perm (entries n.forest ++ entries run)) : Fits p rest := by
  obtain ⟨hrun, hrest, hapart⟩ := WellFormed.append_iff.mp hr
  have hkeys : (keys p.forest).Perm (keys n.forest ++ keys run) := by
    simpa only [keys, List.map_append] using perm.map Prod.fst
  intro i hi j hj
  rcases List.mem_append.mp (hkeys.mem_iff.mp hj) with hj | hj
  · exact h i (by simp [hi]) j hj
  · obtain ⟨t, ht, hi⟩ := mem_keys_iff.mp hi
    have hji := (hrun.before_of_mem_keys (fun s hs => hapart s hs t ht) hj).of_contains
      (.refl j) ((hrest.nodes t ht).contains_of_mem_keys hi)
    exact ⟨hji.ne, fun hp => hji.not_partlyOverlaps hp.symm⟩

theorem count_withForest_of_perm {after : Forest f V}
    (perm : (entries after).Perm (p.entries ++ entries n.forest)) :
    (n.withForest after).count = p.count + n.count := by
  have hlen := perm.length_eq
  rw [List.length_append, ← count_eq_length, ← Node.count_eq_length, ← count_eq_length] at hlen
  rw [Node.count_eq, Node.count_eq n, Node.forest_withForest, hlen, Nat.add_assoc]

/-- The moves of a run of siblings below a node, where `add` does what it should on all that
is smaller. Each move makes the node larger by what the run gets smaller. -/
theorem absorb_append
    (hadd : ∀ m cs, m.count + count cs < n.count + count run → m.WellFormed → WellFormed cs →
      Insertion m cs (add m cs))
    (hn : n.WellFormed) (h : (A ++ run ++ B).WellFormed)
    (hin : ∀ s ∈ run, n.key.Contains s.node.key ∧ s.node.key ≠ n.key) (hfit : Fits n run) :
    ∃ p events, absorb add (run.map Slot.label) n (A ++ run ++ B) = ⟨none, p, A ++ B, events⟩ ∧
      Absorbed n run p := by
  induction run generalizing n with
  | nil => exact ⟨n, [], by simp [absorb], hn, rfl, rfl, by simp⟩
  | cons s run ih =>
    obtain ⟨⟨hc, hne⟩, hin⟩ := List.forall_mem_cons.mp hin
    have hr := h.of_cut
    have h : (A ++ s :: (run ++ B)).WellFormed := by simpa using h
    obtain ⟨-, hs, hAB, -, -⟩ := WellFormed.insert_iff.mp h
    have hex : extract? s.label (A ++ s :: run ++ B) = some (s.node, A ++ run ++ B) := by
      simpa using h.siblings.extract?_label
    have hlt : s.node.count + count n.forest < n.count + count (s :: run) := by
      rw [Node.count_eq n, count_cons]
      omega
    obtain ⟨after, events, he, hafter, perm⟩ :=
      ((hadd s.node n.forest hlt hs hn.forest).added hn.forest hs).of_fits hfit
    have hmove : Node.addBy add s.node n = ⟨.ok none, n.withForest after, events⟩ := by
      rw [Node.addBy, if_neg hne.symm, if_pos hc, he, Edit.map]
    have hrest : Fits (n.withForest after) run := by
      have hfit : Fits n ([s] ++ run) := hfit
      exact hfit.of_perm hr (by simpa using perm.trans List.perm_append_comm)
    have hcount : (n.withForest after).count + count run = n.count + count (s :: run) := by
      rw [count_withForest_of_perm perm, count_cons]
      omega
    obtain ⟨p, events', hp, hwf, hk, hv, hperm⟩ := ih (n := n.withForest after)
      (fun m cs hm => hadd m cs (hcount ▸ hm)) (hafter.withForest_of_perm hs hn hc hne perm)
      (by simpa using hAB) hin hrest
    refine ⟨p, events ++ events', ?_, hwf, hk, hv, ?_⟩
    · simp only [List.map_cons, absorb, hex, hmove, hp]
    · have hall := hperm.trans (perm.append_right (entries run))
      rw [entries_cons, ← List.append_assoc]
      exact hall.trans (List.perm_append_comm.append_right _)

theorem settle_insertion {events : List (Event (Interval f))} (h : (A ++ run ++ B).WellFormed)
    (cut : CutAround n.key A run B) (fits : Fits n run) (absorbed : Absorbed n run p) :
    Insertion n (A ++ run ++ B) (settle p (A ++ B) events) := by
  obtain ⟨hA, hB, -⟩ := WellFormed.append_iff.mp h
  obtain ⟨hA, -, -⟩ := WellFormed.append_iff.mp hA
  have hp : place p (A ++ B) = (none, A ++ ⟨p.key, p⟩ :: B) := by
    refine place_append ?_ ?_
    · simpa only [absorbed.key_eq] using hA.siblings.label_lt_last cut.before
    · simpa only [absorbed.key_eq] using hB.siblings.last_lt_label cut.after
  rw [settle, hp]
  exact .among cut fits absorbed

end Moves

section Steps

variable {n p : Node f V} {level A run B : Forest f V} {add : Adder f V}

theorem addBy_insertion_of_enclosing?
    (hadd : ∀ cs, count cs < count level → WellFormed cs → Insertion n cs (add n cs))
    (h : level.WellFormed) (he : enclosing? n.key level = some p) :
    Insertion n level (addBy add n level) := by
  have hc := contains_of_enclosing? he
  have hlt := count_forest_lt (mem_of_enclosing? he)
  obtain ⟨hp, A, B, rfl, hA, -⟩ := h.cut_of_enclosing? he
  obtain ⟨-, -, hAB, -, -⟩ := WellFormed.insert_iff.mp h
  have hrep (p' : Node f V) :
      replace n.key.first p' (A ++ ⟨p.key, p⟩ :: B) = A ++ ⟨p.key, p'⟩ :: B := by
    have hA := (WellFormed.append_iff.mp hAB).1.siblings.label_lt_first hA
    refine replace_append (fun a ha => Nat.lt_of_lt_of_le (hA a ha) hc.1) ?_
    exact Nat.le_trans n.key.first_le_last hc.2
  simp only [addBy, he, Edit.map, hrep]
  by_cases hk : p.key = n.key
  · rw [Node.addBy, if_pos hk]
    exact .onto hk
  · rw [Node.addBy, if_neg hk, if_pos hc]
    exact .under hc hk (hadd p.forest hlt hp.forest)

/-- One step of an addition, where `add` does what it should on all that is smaller. -/
theorem addBy_insertion
    (hadd : ∀ m cs, m.count + count cs < n.count + count level → m.WellFormed → WellFormed cs →
      Insertion m cs (add m cs))
    (hn : n.WellFormed) (h : level.WellFormed) : Insertion n level (addBy add n level) := by
  cases he : enclosing? n.key level with
  | some p => exact addBy_insertion_of_enclosing? (fun cs hcs => hadd n cs (by omega) hn) h he
  | none =>
    cases hc : conflicts n.key level with
    | cons c cs =>
      simp only [addBy, he, hc]
      exact .overlap he hc
    | nil =>
      obtain ⟨A, B, hl, cut⟩ := h.exists_cutAround he hc
      generalize hrun : contained n.key level = run at hl cut
      subst hl
      cases run with
      | nil =>
        simp only [addBy, he, hc, hrun]
        simpa using settle_insertion h cut (by simp [Fits]) ⟨hn, rfl, rfl, by simp⟩
      | cons s run =>
        cases hm : misfit? n (s :: run) with
        | some k =>
          simp only [addBy, he, hc, hrun, hm]
          exact .misfit cut hm
        | none =>
          have hfit := (misfit?_eq_none_iff hn).mp hm
          have hle : count (s :: run) ≤ count (A ++ s :: run ++ B) := by
            simp only [count_eq_length, entries_append, List.length_append]
            omega
          obtain ⟨p, events, hp, absorbed⟩ :=
            absorb_append (fun m cs hm => hadd m cs (by omega)) hn h cut.inside hfit
          simp only [addBy, he, hc, hrun, hm, hp]
          exact settle_insertion h cut hfit absorbed

theorem addWithin_insertion {fuel : Nat} (hf : n.count + count level ≤ fuel) (hn : n.WellFormed)
    (h : level.WellFormed) : Insertion n level (addWithin fuel n level) := by
  induction fuel generalizing n level with
  | zero =>
    rw [Node.count_eq] at hf
    omega
  | succ fuel ih => exact addBy_insertion (fun m cs hm => ih (by omega)) hn h

/-- Every addition to a well-formed forest is an insertion. -/
theorem add_insertion (hn : n.WellFormed) (h : level.WellFormed) :
    Insertion n level (level.add n) :=
  addWithin_insertion (Nat.le_refl _) hn h

theorem add_added (hn : n.WellFormed) (h : level.WellFormed) : Added n level (level.add n) :=
  (add_insertion hn h).added h hn

end Steps

end Forest

end Netblock
