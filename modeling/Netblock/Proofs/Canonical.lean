import Netblock.Proofs.History

/-! # Maps with the same entries are equal

The entries of a well-formed forest fix its shape: those below its first node are the ones
inside the key of that node. So the order of edits leaves no trace in a map, and neither
does an edit that has been undone.
-/

namespace Netblock

open Netblock.Interval

variable {f : Family} {V : Type}

mutual

/-- Nodes of the same key and value, either both leaves or with children that are alike. -/
def Node.Alike : Node f V → Node f V → Prop
  | .leaf k v, .leaf k' v' => k = k' ∧ v = v'
  | .branch k v cs, .branch k' v' cs' => k = k' ∧ v = v' ∧ Forest.Alike cs cs'
  | _, _ => False

/-- Levels whose nodes are alike one by one, whatever the labels of the slots. -/
def Forest.Alike : Forest f V → Forest f V → Prop
  | [], [] => True
  | ⟨_, n⟩ :: rest, ⟨_, n'⟩ :: rest' => n.Alike n' ∧ Forest.Alike rest rest'
  | _, _ => False

end

mutual

theorem Node.Alike.refl : ∀ n : Node f V, n.Alike n
  | .leaf _ _ => by simp [Node.Alike]
  | .branch _ _ cs => by simp [Node.Alike, Forest.Alike.refl cs]

theorem Forest.Alike.refl : ∀ level : Forest f V, level.Alike level
  | [] => by simp [Forest.Alike]
  | ⟨_, n⟩ :: rest => by simp [Forest.Alike, Node.Alike.refl n, Forest.Alike.refl rest]

end

mutual

theorem Node.Alike.entries_eq : ∀ {n n' : Node f V}, n.Alike n' → n.entries = n'.entries
  | .leaf _ _, .leaf _ _, h => by
    obtain ⟨rfl, rfl⟩ := by simpa only [Node.Alike] using h
    rfl
  | .branch _ _ _, .branch _ _ _, h => by
    obtain ⟨rfl, rfl, hcs⟩ := by simpa only [Node.Alike] using h
    simp only [Node.entries, Node.forest, Node.key, Node.value, Forest.Alike.entries_eq hcs]
  | .leaf _ _, .branch _ _ _, h => by simp [Node.Alike] at h
  | .branch _ _ _, .leaf _ _, h => by simp [Node.Alike] at h

theorem Forest.Alike.entries_eq :
    ∀ {level level' : Forest f V}, level.Alike level' → level.entries = level'.entries
  | [], [], _ => rfl
  | ⟨_, _⟩ :: _, ⟨_, _⟩ :: _, h => by
    obtain ⟨hn, hrest⟩ := by simpa only [Forest.Alike] using h
    simp only [Forest.entries_cons, Node.Alike.entries_eq hn, Forest.Alike.entries_eq hrest]
  | [], _ :: _, h => by simp [Forest.Alike] at h
  | _ :: _, [], h => by simp [Forest.Alike] at h

end

theorem Node.WellFormed.eq_of_forest {n n' : Node f V} (h : n.WellFormed) (h' : n'.WellFormed)
    (hk : n.key = n'.key) (hv : n.value = n'.value) (hf : n.forest = n'.forest) : n = n' := by
  rw [← h.withRemaining_forest, ← h'.withRemaining_forest, hf]
  cases n'.forest <;> simp [Node.withRemaining, hk, hv]

namespace Forest

variable {s : Slot f (Node f V)} {rest : Forest f V}

theorem WellFormed.filter_entries (h : WellFormed (s :: rest)) :
    ((entries s.node.forest ++ entries rest).filter fun e => decide (s.node.key.Contains e.1)) =
      entries s.node.forest ∧
    ((entries s.node.forest ++ entries rest).filter fun e => !decide (s.node.key.Contains e.1)) =
      entries rest := by
  obtain ⟨-, hs, hr, hb⟩ := cons_iff.mp h
  have hin : ∀ e ∈ entries s.node.forest, s.node.key.Contains e.1 :=
    fun e he => (hs.inside_of_mem_keys (mem_keys_of_mem_entries he)).1
  have hout : ∀ e ∈ entries rest, ¬ s.node.key.Contains e.1 :=
    fun e he => (hr.after_of_mem_keys hb (mem_keys_of_mem_entries he)).not_contains
  rw [List.filter_append, List.filter_append]
  constructor
  · rw [List.filter_eq_self.mpr (by simpa using hin),
      List.filter_eq_nil_iff.mpr (by simpa using hout), List.append_nil]
  · rw [List.filter_eq_nil_iff.mpr (by simpa using hin),
      List.filter_eq_self.mpr (by simpa using hout), List.nil_append]

/-- The entries of a well-formed forest determine it. -/
theorem WellFormed.eq_of_entries : ∀ {level level' : Forest f V}, level.WellFormed →
    level'.WellFormed → entries level = entries level' → level = level'
  | [], [], _, _, _ => rfl
  | [], _ :: _, _, _, he => by simp [Node.entries] at he
  | _ :: _, [], _, _, he => by simp [Node.entries] at he
  | ⟨i, n⟩ :: rest, ⟨i', n'⟩ :: rest', h, h', he => by
    obtain ⟨hl, hn, hr, -⟩ := cons_iff.mp h
    obtain ⟨hl', hn', hr', -⟩ := cons_iff.mp h'
    obtain ⟨hin, hout⟩ := h.filter_entries
    obtain ⟨hin', hout'⟩ := h'.filter_entries
    simp only [entries_cons, Node.entries, List.cons_append, List.cons.injEq, Prod.mk.injEq] at he
    obtain ⟨⟨hk, hv⟩, he⟩ := he
    simp only [he, hk] at hin hout
    have hforest := eq_of_entries hn.forest hn'.forest (hin.symm.trans hin')
    have hrest := eq_of_entries hr hr' (hout.symm.trans hout')
    have hnode := hn.eq_of_forest hn' hk hv hforest
    have hlabel := hl.trans (hk.trans hl'.symm)
    exact congrArg₂ List.cons (congrArg₂ Slot.mk hlabel hnode) hrest
termination_by level => count level
decreasing_by
  · exact count_forest_lt List.mem_cons_self
  · rw [count_cons, Node.count_eq]
    omega

theorem WellFormed.alike_iff {level level' : Forest f V} (h : level.WellFormed)
    (h' : level'.WellFormed) : level.Alike level' ↔ level = level' :=
  ⟨fun ha => h.eq_of_entries h' ha.entries_eq, fun he => he ▸ .refl level⟩

end Forest

namespace IntervalMap

open Forest

variable {m m' : IntervalMap f V} {k k' : Interval f} {v v' : V} {M : Reference f V}

def Alike (m m' : IntervalMap f V) : Prop := m.roots.Alike m'.roots ∧ m.size = m'.size

theorem WellFormed.eq_of_toList (h : m.WellFormed) (h' : m'.WellFormed)
    (he : m.toList = m'.toList) : m = m' := by
  have hsize : m.size = m'.size := by rw [h.size_eq_length, h'.size_eq_length, he]
  rw [toList_eq, toList_eq] at he
  have hroots := h.roots.eq_of_entries h'.roots he
  cases m
  cases m'
  congr

theorem WellFormed.alike_iff (h : m.WellFormed) (h' : m'.WellFormed) : m.Alike m' ↔ m = m' := by
  rw [Alike, h.roots.alike_iff h'.roots]
  cases m
  cases m'
  rw [mk.injEq]

theorem WellFormed.eq_of_perm (h : m.WellFormed) (h' : m'.WellFormed)
    (hp : m.toList.Perm m'.toList) : m = m' :=
  h.eq_of_toList h' <| hp.eq_of_pairwise (fun _ _ _ _ hab hba => absurd hba hab.asymm)
    h.sorted h'.sorted

theorem Represents.eq (h : Represents m M) (h' : Represents m' M) (hm : m.WellFormed)
    (hm' : m'.WellFormed) : m = m' := by
  refine hm.eq_of_perm hm' ((List.perm_ext_iff_of_nodup hm.nodup.of_map hm'.nodup.of_map).mpr ?_)
  rintro ⟨k, v⟩
  rw [h.mem_iff, h'.mem_iff]

def insertAll (m : IntervalMap f V) (es : List (Interval f × V)) : IntervalMap f V :=
  es.foldl (fun m e => (m.insert e.1 e.2).after) m

theorem nests_insert_iff : Nests (M.insert k v) k' ↔ ¬ k.PartlyOverlaps k' ∧ Nests M k' := by
  simp [Nests, Finmap.mem_keys]

section Orders

variable [DecidableEq V]

/-- Insertions of nested or disjoint keys commute. -/
theorem Command.effect_insert_comm (M : Reference f V) (hne : k ≠ k')
    (hn : ¬ k.PartlyOverlaps k') :
    (insert k' v').effect ((insert k v).effect M) =
      (insert k v).effect ((insert k' v').effect M) := by
  have hn' : ¬ k'.PartlyOverlaps k := fun hp => hn hp.symm
  by_cases hk : Nests M k <;> by_cases hk' : Nests M k' <;>
    simp [effect, hk, hk', nests_insert_iff, hn, hn', Finmap.insert_insert_of_ne _ hne.symm]

theorem Reachable.exists_represents (h : m.Reachable) : ∃ M, Represents m M := by
  induction h with
  | empty => exact ⟨∅, .empty⟩
  | insert h k v ih =>
    obtain ⟨M, hM⟩ := ih
    exact ⟨_, (agrees_insert h.wellFormed hM k v).after⟩
  | erase h k ih =>
    obtain ⟨M, hM⟩ := ih
    exact ⟨_, (agrees_erase h.wellFormed hM k).after⟩
  | eraseValue h k v ih =>
    obtain ⟨M, hM⟩ := ih
    exact ⟨_, (agrees_eraseValue h.wellFormed hM k v).after⟩
  | clear => exact ⟨∅, .empty⟩

theorem represents_insertAll (h : m.WellFormed) (hM : Represents m M)
    (es : List (Interval f × V)) : (m.insertAll es).WellFormed ∧
      Represents (m.insertAll es) (es.foldl (fun M e => (Command.insert e.1 e.2).effect M) M) := by
  induction es generalizing m M with
  | nil => exact ⟨h, hM⟩
  | cons e es ih =>
    exact ih ((insert_inserted h e.1 e.2).wellFormed h) (agrees_insert h hM e.1 e.2).after

end Orders

theorem insertAll_eq_of_perm (h : m.Reachable) {es es' : List (Interval f × V)}
    (hp : es.Perm es') (hk : (es.map Prod.fst).Nodup)
    (hn : ∀ a ∈ es, ∀ b ∈ es, ¬ a.1.PartlyOverlaps b.1) : m.insertAll es = m.insertAll es' := by
  classical
  obtain ⟨M, hM⟩ := h.exists_represents
  obtain ⟨hw, hr⟩ := represents_insertAll h.wellFormed hM es
  obtain ⟨hw', hr'⟩ := represents_insertAll h.wellFormed hM es'
  have hcomm : ∀ a ∈ es, ∀ b ∈ es, ∀ M : Reference f V,
      (Command.insert b.1 b.2).effect ((Command.insert a.1 a.2).effect M) =
        (Command.insert a.1 a.2).effect ((Command.insert b.1 b.2).effect M) := by
    intro a ha b hb M
    by_cases hab : a.1 = b.1
    · rw [List.inj_on_of_nodup_map hk ha hb hab]
    · exact Command.effect_insert_comm M hab (hn a ha b hb)
  rw [← hp.foldl_eq' hcomm M] at hr'
  exact hr.eq hr' hw hw'

section Undone

variable [DecidableEq V]

theorem Command.effect_erase_insert (hn : Nests M k) (hk : M.lookup k = none) :
    (erase k).effect ((insert k v).effect M) = M := by
  have hi : (insert k v).effect M = M.insert k v := if_pos hn
  refine Finmap.ext_lookup fun i => ?_
  rw [hi, effect]
  by_cases hi : i = k
  · rw [hi, Finmap.lookup_erase, hk]
  · rw [Finmap.lookup_erase_ne hi, Finmap.lookup_insert_of_ne _ hi]

theorem Command.effect_insert_erase (hn : Nests M k) (hk : M.lookup k = some v) :
    (insert k v).effect ((erase k).effect M) = M := by
  have hn' : Nests (M.erase k) k := by
    intro i hi
    rw [Finmap.mem_keys, Finmap.mem_erase] at hi
    exact hn i (Finmap.mem_keys.mpr hi.2)
  have hi : (insert k v).effect ((erase k).effect M) = (M.erase k).insert k v := if_pos hn'
  refine Finmap.ext_lookup fun i => ?_
  rw [hi]
  by_cases hi : i = k
  · rw [hi, Finmap.lookup_insert, hk]
  · rw [Finmap.lookup_insert_of_ne _ hi, Finmap.lookup_erase_ne hi]

end Undone

theorem erase_insert_cancel {old : Option V} (h : m.Reachable) (hk : k ∉ m.toList.map Prod.fst)
    (hr : (m.insert k v).result = .ok old) : ((m.insert k v).after.erase k).after = m := by
  classical
  obtain ⟨M, hM⟩ := h.exists_represents
  rw [toList_eq] at hk
  have hi := agrees_insert h.wellFormed hM k v
  have he := agrees_erase (h.insert k v).wellFormed hi.after k
  have hn : Nests M k := by
    by_contra hn
    obtain ⟨cs, hc⟩ := by simpa only [Command.Answers, if_neg hn] using hi.answer
    rw [hr] at hc
    cases hc
  have hM' := Command.effect_erase_insert (v := v) hn (hM.lookup_eq_none hk)
  exact Represents.eq (hM' ▸ he.after) hM ((h.insert k v).erase k).wellFormed h.wellFormed

theorem insert_erase_cancel (h : m.Reachable) (hk : k ∈ m.toList.map Prod.fst) :
    ∃ v, (m.erase k).removed = some v ∧ ((m.erase k).after.insert k v).after = m := by
  classical
  obtain ⟨M, hM⟩ := h.exists_represents
  obtain ⟨⟨k, v⟩, hv, rfl⟩ := List.mem_map.mp hk
  rw [toList_eq] at hk
  have hsome : M.lookup k = some v := (hM.mem_iff k v).mp hv
  have hn : Nests M k :=
    hM.nests_iff.mpr fun i hi => h.wellFormed.roots.not_partlyOverlaps hi hk
  have he := agrees_erase h.wellFormed hM k
  have hi := agrees_insert (h.erase k).wellFormed he.after k v
  have hM' := Command.effect_insert_erase hn hsome
  refine ⟨v, ?_, Represents.eq (hM' ▸ hi.after) hM ((h.erase k).insert k v).wellFormed
    h.wellFormed⟩
  have hr : (m.erase k).toEdit.result = .ok (M.lookup k) := he.answer
  rw [hsome] at hr
  exact Except.ok.inj hr

/-- Maps that are alike at every level are those with the same entries, whatever the edits that
led to them. -/
theorem canonical_form :
    (∀ m m' : IntervalMap f V, m.Reachable → m'.Reachable →
      (m.Alike m' ↔ m.toList = m'.toList) ∧ (m.Alike m' ↔ m = m')) ∧
    (∀ level level' : Forest f V, level.Reachable → level'.Reachable →
      (level.Alike level' ↔ (Cursor.ofForest level).toList.map (fun n => (n.key, n.value)) =
        (Cursor.ofForest level').toList.map fun n => (n.key, n.value)) ∧
      (level.Alike level' ↔ level = level')) ∧
    (∀ (m : IntervalMap f V) (es es' : List (Interval f × V)), m.Reachable → es.Perm es' →
      (es.map Prod.fst).Nodup → (∀ a ∈ es, ∀ b ∈ es, ¬ a.1.PartlyOverlaps b.1) →
      m.insertAll es = m.insertAll es') ∧
    (∀ (m : IntervalMap f V) (k : Interval f) (v : V) (old : Option V), m.Reachable →
      k ∉ m.toList.map Prod.fst → (m.insert k v).result = .ok old →
      ((m.insert k v).after.erase k).after = m) ∧
    ∀ (m : IntervalMap f V), m.Reachable → ∀ k ∈ m.toList.map Prod.fst,
      ∃ v, (m.erase k).removed = some v ∧ ((m.erase k).after.insert k v).after = m := by
  refine ⟨?_, ?_, ?_, ?_, ?_⟩
  · intro m m' h h'
    have heq := h.wellFormed.alike_iff h'.wellFormed
    exact ⟨heq.trans ⟨fun he => he ▸ rfl, h.wellFormed.eq_of_toList h'.wellFormed⟩, heq⟩
  · intro level level' h h'
    have heq := h.wellFormed.alike_iff h'.wellFormed
    rw [Cursor.toList_ofForest, Cursor.toList_ofForest]
    exact ⟨heq.trans ⟨fun he => he ▸ rfl, h.wellFormed.eq_of_entries h'.wellFormed⟩, heq⟩
  · intro m es es' h
    exact insertAll_eq_of_perm h
  · intro m k v old h
    exact erase_insert_cancel h
  · intro m h k
    exact insert_erase_cancel h

theorem canonical_form_around_start :
    let k := whole .v4
    let i := k.start
    let j := ofAddress k.lastAddress
    let level : Forest .v4 Nat := [⟨k, .branch k 2 [⟨i, .leaf i 1⟩]⟩]
    let m : IntervalMap .v4 Nat := ⟨level, 2⟩
    let m' := ((m.insert j 3).after.erase j).after
    let level' := (Forest.remove j (level.add (.leaf j 3)).after).after
    m.toList = m'.toList ∧ m.Alike m' ∧ level.Alike level' ∧
      empty.insertAll [(k, 2), (i, 1)] = empty.insertAll [(i, 1), (k, 2)] ∧
      ((m.insert j 3).after.erase j).after = m ∧
      ∃ v, (m.erase k).removed = some v ∧ ((m.erase k).after.insert k v).after = m := by
  intro k i j level m m' level'
  have hm : m.Reachable := by
    have he : (IntervalMap.insert ⟨[⟨i, .leaf i 1⟩], 1⟩ k 2).after = m := by decide +kernel
    exact he ▸ (Reachable.empty.insert i 1).insert k 2
  have hl : level.Reachable := by
    have he : (Forest.add [⟨i, .leaf i 1⟩] (.leaf k 2)).after = level := by decide +kernel
    exact he ▸ (Forest.Reachable.empty.add (.leaf i 1)).add (.leaf k 2)
  have hlist : m.toList = [(k, 2), (i, 1)] := by rw [toList_eq]; rfl
  have hlist' : m.toList = m'.toList := by rw [toList_eq, toList_eq]; decide +kernel
  obtain ⟨hmaps, hlevels, horders, hinsert, herase⟩ := canonical_form (f := .v4) (V := Nat)
  refine ⟨hlist', (hmaps m m' hm ((hm.insert j 3).erase j)).1.mpr hlist',
    (hlevels level level' hl ((hl.add (.leaf j 3)).remove j)).1.mpr ?_,
    horders empty _ _ .empty (.swap _ _ _) (by decide) (by decide),
    hinsert m j 3 none hm ?_ (by decide +kernel), herase m hm k ?_⟩
  · rw [Cursor.toList_ofForest, Cursor.toList_ofForest]
    decide +kernel
  · rw [hlist]
    decide
  · rw [hlist]
    decide

end IntervalMap

end Netblock
