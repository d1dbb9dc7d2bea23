import Netblock.Proofs.WellFormed
import Netblock.Forest.Children

/-! # Levels in the order of their ends

At every level, each slot ends where its node ends, and the slots stand in the order of
their ends. Every edit keeps this, of whatever shape the forest is: siblings may overlap,
and a branch may have lost all its children.
-/

namespace Netblock

variable {f : Family} {V : Type}

/-- Slots that end where their nodes end, in the order of these ends. -/
structure Forest.Ascending (level : Forest f V) : Prop where
  labelled : ∀ s ∈ level, s.label.last = s.node.key.last
  ends : level.Pairwise fun s t => s.label.last < t.label.last

inductive Node.Ordered : Node f V → Prop where
  | leaf (k : Interval f) (v : V) : Ordered (leaf k v)
  | branch {k : Interval f} {v : V} {cs : Forest f V} (ascending : cs.Ascending)
      (below : ∀ s ∈ cs, s.node.Ordered) : Ordered (branch k v cs)

structure Forest.Ordered (level : Forest f V) : Prop where
  ascending : level.Ascending
  below : ∀ s ∈ level, s.node.Ordered

namespace Node.Ordered

variable {n : Node f V} {cs : Forest f V}

theorem forest (h : n.Ordered) : n.forest.Ordered := by
  cases h with
  | leaf => exact ⟨⟨by simp [Node.forest], .nil⟩, by simp [Node.forest]⟩
  | branch ha hb => exact ⟨ha, hb⟩

theorem withValue (h : n.Ordered) (v : V) : (n.withValue v).Ordered := by
  cases h with
  | leaf k => exact .leaf k v
  | branch ha hb => exact .branch ha hb

theorem withForest (n : Node f V) (h : cs.Ordered) : (n.withForest cs).Ordered :=
  .branch h.ascending h.below

theorem withRemaining (n : Node f V) (h : cs.Ordered) : (n.withRemaining cs).Ordered := by
  cases cs with
  | nil => exact .leaf _ _
  | cons => exact withForest n h

end Node.Ordered

namespace Forest

variable {level rest : Forest f V} {s : Slot f (Node f V)} {n m p : Node f V}
  {k : Interval f} {x y : Nat}

namespace Ordered

theorem nil : Ordered ([] : Forest f V) := ⟨⟨by simp, .nil⟩, by simp⟩

theorem cons_iff : Ordered (s :: rest) ↔ s.label.last = s.node.key.last ∧ s.node.Ordered ∧
    rest.Ordered ∧ ∀ t ∈ rest, s.label.last < t.label.last := by
  constructor
  · rintro ⟨⟨hl, he⟩, hb⟩
    obtain ⟨hs, hl⟩ := List.forall_mem_cons.mp hl
    obtain ⟨hlt, he⟩ := List.pairwise_cons.mp he
    obtain ⟨hn, hb⟩ := List.forall_mem_cons.mp hb
    exact ⟨hs, hn, ⟨⟨hl, he⟩, hb⟩, hlt⟩
  · rintro ⟨hs, hn, ⟨⟨hl, he⟩, hb⟩, hlt⟩
    exact ⟨⟨List.forall_mem_cons.mpr ⟨hs, hl⟩, List.pairwise_cons.mpr ⟨hlt, he⟩⟩,
      List.forall_mem_cons.mpr ⟨hn, hb⟩⟩

theorem of_mem_nodes (h : level.Ordered) (hn : n ∈ nodes level) : n.Ordered := by
  obtain ⟨s, hs, rfl⟩ := List.mem_map.mp hn
  exact h.below s hs

theorem pairwise_nodes (h : level.Ordered) :
    (nodes level).Pairwise fun n m => n.key.last < m.key.last := by
  refine List.pairwise_map.mpr (h.ascending.ends.imp_of_mem fun {s t} hs ht hst => ?_)
  rwa [← h.ascending.labelled s hs, ← h.ascending.labelled t ht]

end Ordered

theorem lt_label_place (hn : x < n.key.last) (hl : ∀ s ∈ level, x < s.label.last) :
    ∀ t ∈ (place n level).2, x < t.label.last := by
  fun_induction place n level with
  | case1 => simpa using hn
  | case2 s rest => simpa using ⟨hn, by simpa using hl⟩
  | case3 s rest => simpa using hl
  | case4 s rest _ _ displaced placed hp ih =>
    obtain ⟨hs, hl⟩ := List.forall_mem_cons.mp hl
    rw [hp] at ih
    exact List.forall_mem_cons.mpr ⟨hs, ih hl⟩

theorem Ordered.place (h : level.Ordered) (hn : n.Ordered) : (place n level).2.Ordered := by
  fun_induction Forest.place n level with
  | case1 => exact cons_iff.mpr ⟨rfl, hn, .nil, by simp⟩
  | case2 s rest hlt =>
    refine cons_iff.mpr ⟨rfl, hn, h, List.forall_mem_cons.mpr ⟨hlt, fun t ht => ?_⟩⟩
    exact Nat.lt_trans hlt ((cons_iff.mp h).2.2.2 t ht)
  | case3 s rest _ he =>
    obtain ⟨-, -, hr, hlt⟩ := cons_iff.mp h
    exact cons_iff.mpr ⟨he.symm, hn, hr, hlt⟩
  | case4 s rest hge hne displaced placed hp ih =>
    obtain ⟨hl, hs, hr, hlt⟩ := cons_iff.mp h
    have hgt : s.label.last < n.key.last := by omega
    have hlt := lt_label_place hgt hlt
    rw [hp] at ih hlt
    exact cons_iff.mpr ⟨hl, hs, ih hr, hlt⟩

theorem Ordered.placeAll {ns : List (Node f V)} (h : level.Ordered) (hns : ∀ n ∈ ns, n.Ordered) :
    (placeAll ns level).Ordered := by
  rw [Forest.placeAll]
  induction ns generalizing level with
  | nil => exact h
  | cons n ns ih =>
    obtain ⟨hn, hns⟩ := List.forall_mem_cons.mp hns
    exact ih (h.place hn) hns

theorem extract?_sublist (h : extract? k level = some (m, rest)) :
    rest.Sublist level ∧ m ∈ nodes level := by
  induction level generalizing rest with
  | nil => simp [extract?] at h
  | cons s level ih =>
    rw [extract?] at h
    split at h
    case isTrue =>
      obtain ⟨rfl, rfl⟩ : s.node = m ∧ level = rest := by simpa using h
      exact ⟨List.sublist_cons_self s level, List.mem_cons_self⟩
    case isFalse =>
      obtain ⟨⟨m', rest'⟩, he, heq⟩ := Option.map_eq_some_iff.mp h
      obtain ⟨rfl, rfl⟩ : m' = m ∧ s :: rest' = rest := by simpa using heq
      obtain ⟨hr, hm⟩ := ih he
      exact ⟨hr.cons_cons s, List.mem_cons_of_mem _ hm⟩

theorem Ordered.extract? (h : level.Ordered) (he : extract? k level = some (m, rest)) :
    m.Ordered ∧ rest.Ordered := by
  obtain ⟨hr, hm⟩ := extract?_sublist he
  exact ⟨h.of_mem_nodes hm, ⟨fun s hs => h.ascending.labelled s (hr.subset hs),
    h.ascending.ends.sublist hr⟩, fun s hs => h.below s (hr.subset hs)⟩

theorem lt_label_replace (hl : ∀ s ∈ level, y < s.label.last) :
    ∀ t ∈ replace x p level, y < t.label.last := by
  fun_induction replace x p level with
  | case1 => exact hl
  | case2 s rest => simpa using hl
  | case3 s rest _ ih =>
    obtain ⟨hs, hl⟩ := List.forall_mem_cons.mp hl
    exact List.forall_mem_cons.mpr ⟨hs, ih hl⟩

theorem Ordered.replace (h : level.Ordered) (hm : ceiling? x level = some m) (hp : p.Ordered)
    (hk : p.key.last = m.key.last) : (replace x p level).Ordered := by
  induction level with
  | nil => exact h
  | cons s rest ih =>
    obtain ⟨hl, hs, hr, hlt⟩ := cons_iff.mp h
    rw [Forest.replace]
    split
    case isTrue hx =>
      obtain rfl : s.node = m := by simpa [ceiling?, hx] using hm
      exact cons_iff.mpr ⟨hl.trans hk.symm, hp, hr, hlt⟩
    case isFalse hx =>
      have hm : ceiling? x rest = some m := by simpa [ceiling?, hx] using hm
      exact cons_iff.mpr ⟨hl, hs, ih hr hm, lt_label_replace hlt⟩

theorem Ordered.ceiling?_of_occupant? (h : level.Ordered) (hm : occupant? k level = some m) :
    ceiling? k.last level = some m := by
  induction level with
  | nil => simp [occupant?] at hm
  | cons s rest ih =>
    obtain ⟨-, -, hr, hlt⟩ := cons_iff.mp h
    by_cases he : s.label.last = k.last
    · simpa [ceiling?, occupant?, he] using hm
    · have hm : occupant? k rest = some m := by simpa [occupant?, he] using hm
      obtain ⟨t, ht, -⟩ := Option.map_eq_some_iff.mp hm
      have htk : t.label.last = k.last := by simpa using List.find?_some ht
      have hst := hlt t (List.mem_of_find?_eq_some ht)
      have hsk : ¬ k.last ≤ s.label.last := by omega
      simpa [ceiling?, hsk] using ih hr hm

end Forest

def Adder.KeepsOrder (adder : Adder f V) : Prop :=
  ∀ n level, n.Ordered → level.Ordered → (adder n level).after.Ordered

variable {adder : Adder f V} {n p : Node f V} {level : Forest f V}

theorem Node.key_addBy (adder : Adder f V) (n p : Node f V) :
    (addBy adder n p).after.key = p.key := by
  rw [addBy]
  split
  case isTrue => exact p.key_withValue n.value
  case isFalse => split <;> rfl

theorem Node.Ordered.addBy (ha : adder.KeepsOrder) (hn : n.Ordered) (hp : p.Ordered) :
    (Node.addBy adder n p).after.Ordered := by
  rw [Node.addBy]
  split
  case isTrue => exact hp.withValue n.value
  case isFalse =>
    split
    case isTrue => exact withForest p (ha n p.forest hn hp.forest)
    case isFalse => exact hp

namespace Forest.Ordered

theorem absorb (ha : adder.KeepsOrder) (labels : List (Interval f)) (hn : n.Ordered)
    (h : level.Ordered) : (absorb adder labels n level).node.Ordered ∧
      (absorb adder labels n level).remaining.Ordered := by
  fun_induction Forest.absorb adder labels n level with
  | case1 n level => exact ⟨hn, h⟩
  | case2 label labels n level _ ih => exact ih hn h
  | case3 label labels n level sibling remaining hx =>
    obtain ⟨hs, hr⟩ := h.extract? hx
    exact ⟨Node.Ordered.addBy ha hs hn, hr⟩
  | case4 label labels n level sibling remaining hx _ _ _ _ ih =>
    obtain ⟨hs, hr⟩ := h.extract? hx
    exact ih (Node.Ordered.addBy ha hs hn) hr

theorem settle (h : level.Ordered) (hn : n.Ordered) (events : List (Event (Interval f))) :
    (settle n level events).after.Ordered := by
  have hp := h.place hn
  rw [Forest.settle]
  split <;> simpa [*] using hp

theorem addBy (ha : adder.KeepsOrder) : (addBy adder).KeepsOrder := by
  intro n level hn h
  rw [Forest.addBy]
  split
  case h_1 parent hparent =>
    have hc := (Option.filter_eq_some_iff.mp hparent).1
    have hp := Node.Ordered.addBy ha hn (h.of_mem_nodes (mem_of_enclosing? hparent))
    exact h.replace hc hp (by rw [Node.key_addBy])
  case h_2 =>
    split
    case h_1 => exact h
    case h_2 =>
      split
      case h_1 => exact h.settle hn []
      case h_2 s run _ =>
        split
        case h_1 => exact h
        case h_2 =>
          obtain ⟨hnode, hremaining⟩ := absorb ha ((s :: run).map Slot.label) hn h
          dsimp only
          split
          · exact hremaining
          · exact hremaining.settle hnode _

theorem addWithin (fuel : Nat) : (addWithin fuel : Adder f V).KeepsOrder := by
  induction fuel with
  | zero => exact fun _ _ _ h => h
  | succ fuel ih => exact addBy ih

theorem add (h : level.Ordered) (hn : n.Ordered) : (level.add n).after.Ordered :=
  addWithin _ n level hn h

theorem promote (h : level.Ordered) (k : Interval f) : (promote k level).after.Ordered := by
  rw [Forest.promote]
  split
  case h_1 => exact h
  case h_2 removed remaining hx =>
    obtain ⟨hm, hr⟩ := h.extract? hx
    cases hm with
    | leaf => exact hr
    | branch ha hb => exact hr.placeAll fun n hn => of_mem_nodes ⟨ha, hb⟩ hn

theorem remove (h : level.Ordered) (k : Interval f) : (remove k level).after.Ordered := by
  fun_induction Forest.remove k level with
  | case1 => exact h
  | case2 => exact h.promote k
  | case3 => exact h
  | case4 level n _ _ m hm ih =>
    have hcs := ih (h.of_mem_nodes (mem_of_occupant? hm)).forest
    exact h.replace (h.ceiling?_of_occupant? hm) (Node.Ordered.withRemaining m hcs)
      (by rw [Node.key_withRemaining])

end Forest.Ordered

namespace Node.Ordered

theorem add (hp : p.Ordered) (hn : n.Ordered) : (p.add n).after.Ordered :=
  addBy (fun _ _ hn h => h.add hn) hn hp

theorem remove (hp : p.Ordered) (k : Interval f) : (p.remove k).after.Ordered := by
  rw [Node.remove]
  split
  case isTrue => exact withRemaining p (hp.forest.remove k)
  case isFalse => exact hp

end Node.Ordered

end Netblock
