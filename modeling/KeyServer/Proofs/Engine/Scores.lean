import KeyServer.Proofs.Engine.Plain
import KeyServer.Proofs.SortedSet.Queries

/-! # Sorted sets have scores

`s.Lists items scores` says that a sorted set has the nodes `items` and that their members
are the names of `scores`, each with its score.  Then the members come in the order of
`scores.sorted` (`Lists.sorted_eq`), and what the operations of the set answer and change
can be told from the scores alone:

* **`Lists.find`** for the node, the score and the position of a name;
* **`Lists.insert`** and **`Lists.delete`**;
* **`Lists.countBetween`** and **`Lists.rangeStart`**.
-/

namespace KeyServer

/-! ## Members of a finite map -/

namespace Scores

variable {s : Scores} {name : Bytes} {score : Double}

theorem mem_members {m : Member} : m ∈ s.members ↔ s.lookup m.name = some m.score := by
  rw [← Option.mem_def, AList.mem_lookup_iff, members, List.mem_map]
  constructor
  · rintro ⟨e, he, rfl⟩
    exact he
  · exact fun h => ⟨_, h, rfl⟩

/-- Erasing a key keeps the entries of all others. -/
theorem kerase_eq_filter {l : List (Sigma fun _ : Bytes => Double)} (h : l.NodupKeys) :
    l.kerase name = l.filter (·.1 != name) := by
  induction l with
  | nil => rfl
  | cons e l ih =>
    obtain ⟨hnot, hnodup⟩ := List.nodupKeys_cons.mp h
    by_cases he : name = e.1
    · have hrest : l.filter (·.1 != name) = l := by
        refine List.filter_eq_self.mpr fun e' he' => ?_
        rw [bne_iff_ne, he]
        exact fun heq => hnot (heq ▸ List.mem_map_of_mem he')
      rw [List.kerase_cons_eq he, List.filter_cons, if_neg (by simp [he]), hrest]
    · rw [List.kerase_cons_ne he, ih hnodup, List.filter_cons, if_pos (by simpa using Ne.symm he)]

theorem members_erase (s : Scores) (name : Bytes) :
    members (s.erase name) = s.members.filter (·.name != name) := by
  show (s.entries.kerase name).map _ = _
  rw [kerase_eq_filter s.nodupKeys, members, List.filter_map]
  rfl

theorem members_insert (s : Scores) (name : Bytes) (score : Double) :
    members (s.insert name score) = ⟨name, score⟩ :: s.members.filter (·.name != name) := by
  rw [← members_erase, members, AList.entries_insert]
  rfl

theorem sorted_perm (s : Scores) : s.sorted.Perm s.members := List.mergeSort_perm _ _

end Scores

/-! ## Two orders -/

namespace Member

theorem before_iff_below {a b : Member} (ha : a.score.isNaN = false) (hb : b.score.isNaN = false) :
    a.before b = a.below b := by
  rw [Bool.eq_iff_iff, before, pairBefore_iff, below_iff]
  exact ⟨fun h => h.2.2, fun h => ⟨ha, hb, h⟩⟩

theorem sorted_mergeSort (l : List Member) :
    (l.mergeSort fun a b => !b.below a).Pairwise fun a b => b.below a = false := by
  refine (List.pairwise_mergeSort ?_ ?_ l).imp fun h => by simpa using h
  · intro a b c hab hbc
    rw [Bool.not_eq_true', ← Bool.not_eq_true] at *
    intro hca
    rcases below_trichotomy b a with hlt | hlt | heq
    · exact hab hlt
    · exact hbc (below_trans hca hlt)
    · refine hbc (below_iff.mpr ?_)
      rw [heq.1, heq.2]
      exact below_iff.mp hca
  · intro a b
    rw [Bool.or_eq_true, Bool.not_eq_true', Bool.not_eq_true', ← Bool.not_eq_true,
      ← Bool.not_eq_true, ← not_and_or]
    rintro ⟨hba, hab⟩
    have hself := below_iff.mp (below_trans hab hba)
    rcases hself with hlt | ⟨-, hlt⟩
    · exact absurd hlt (by omega)
    · exact List.lt_irrefl _ hlt

end Member

namespace SortedSet

namespace Holds

variable {s : SortedSet} {items : List (Nat × Member)} (h : s.Holds items)

include h

/-- Each member is below the later ones. -/
theorem sorted_below : items.Pairwise fun a b => a.2.below b.2 := by
  refine h.sorted.imp_of_mem fun ha hb hab => ?_
  rwa [Member.before_iff_below (h.numbers _ ha) (h.numbers _ hb)] at hab

/-- What is before a pair is below it. -/
theorem isBefore_eq_below (start : Member) (hstart : start.score.isNaN = false)
    {e : Nat × Member} (he : e ∈ items) :
    isBefore start.score start.name e = e.2.below start :=
  Member.before_iff_below (h.numbers e he) hstart

theorem countP_isBefore (start : Member) (hstart : start.score.isNaN = false) :
    items.countP (isBefore start.score start.name) = items.countP (·.2.below start) := by
  refine List.countP_congr fun e he => ?_
  rw [h.isBefore_eq_below start hstart he]

/-- **Counting** what is not below one member but below another. -/
theorem countBetween_below (low high : Member) (hlow : low.score.isNaN = false)
    (hhigh : high.score.isNaN = false) :
    s.countBetween (low.score, low.name) (high.score, high.name)
      = .ok (items.countP fun e => !e.2.below low && e.2.below high) := by
  rw [h.countBetween]
  congr 1
  refine List.countP_congr fun e he => ?_
  rw [h.isBefore_eq_below low hlow he, h.isBefore_eq_below high hhigh he]

end Holds

/-- A set with some nodes whose members have some scores. -/
structure Lists (s : SortedSet) (items : List (Nat × Member)) (scores : Scores) : Prop where
  holds : s.Holds items
  perm : (items.map (·.2)).Perm scores.members

theorem lists_empty : empty.Lists [] ∅ := ⟨holds_empty, .nil⟩

namespace Lists

variable {s : SortedSet} {items : List (Nat × Member)} {scores : Scores}

theorem length_eq (h : s.Lists items scores) : items.length = scores.members.length := by
  rw [← h.perm.length_eq, List.length_map]

theorem mem_items (h : s.Lists items scores) {id : Nat} {m : Member} (hmem : (id, m) ∈ items) :
    scores.lookup m.name = some m.score :=
  Scores.mem_members.mp (h.perm.mem_iff.mp (List.mem_map_of_mem (f := (·.2)) hmem))

theorem number (h : s.Lists items scores) {m : Member} (hm : m ∈ scores.members) :
    m.score.isNaN = false := by
  obtain ⟨e, he, rfl⟩ := List.mem_map.mp (h.perm.mem_iff.mpr hm)
  exact h.holds.numbers e he

theorem lookup_eq_none (h : s.Lists items scores) {name : Bytes}
    (hnone : ∀ e ∈ items, e.2.name ≠ name) : scores.lookup name = none := by
  rw [Option.eq_none_iff_forall_ne_some]
  intro score hscore
  have hm : (⟨name, score⟩ : Member) ∈ scores.members := Scores.mem_members.mpr hscore
  obtain ⟨e, he, heq⟩ := List.mem_map.mp (h.perm.mem_iff.mpr hm)
  exact hnone e he (by rw [heq])

/-- **The members are in order.** -/
theorem sorted_eq (h : s.Lists items scores) : items.map (·.2) = scores.sorted := by
  have hperm : (items.map (·.2)).Perm scores.sorted := h.perm.trans (scores.sorted_perm).symm
  apply eq_of_perm_of_sorted hperm (List.pairwise_map.mpr h.holds.sorted)
  have hnames : (scores.sorted.map (·.name)).Nodup := by
    rw [← (hperm.map _).nodup_iff, List.map_map]
    exact h.holds.names
  have hdistinct : scores.sorted.Pairwise fun a b => a.name ≠ b.name := List.pairwise_map.mp hnames
  apply ((Member.sorted_mergeSort scores.members).and hdistinct).imp_of_mem
  rintro a b ha hb ⟨hnot, hne⟩
  rw [Member.before_iff_below (h.number (scores.sorted_perm.mem_iff.mp ha))
    (h.number (scores.sorted_perm.mem_iff.mp hb))]
  rcases Member.below_trichotomy a b with hlt | hlt | heq
  · exact hlt
  · rw [hnot] at hlt
    cases hlt
  · exact absurd heq.2 hne

theorem countP_isBefore (h : s.Lists items scores) {score : Double} (hscore : score.isNaN = false)
    (name : Bytes) :
    items.countP (isBefore score name) = scores.sorted.countP (·.below ⟨name, score⟩) := by
  rw [← h.sorted_eq, List.countP_map]
  exact h.holds.countP_isBefore ⟨name, score⟩ hscore

/-! ## Operations -/

/-- **Finding** a name: its node, its score and its position. -/
theorem find (h : s.Lists items scores) (name : Bytes) :
    ∃ r s', s.lookup name = .ok (r, s') ∧ s'.Lists items scores ∧
      (r = none → scores.lookup name = none ∧ scores.sorted.findIdx? (·.name == name) = none) ∧
      ∀ id, r = some id → ∃ n score, items[n]? = some (id, ⟨name, score⟩) ∧
        scores.lookup name = some score ∧ scores.sorted.findIdx? (·.name == name) = some n := by
  obtain ⟨r, s', hlookup, hholds, hsome, hnone⟩ := h.holds.lookup name
  have h' : s'.Lists items scores := ⟨hholds, h.perm⟩
  refine ⟨r, s', hlookup, h', fun hr => ⟨h.lookup_eq_none (hnone hr), ?_⟩, fun id hr => ?_⟩
  · rw [← h.sorted_eq, List.findIdx?_eq_none_iff]
    intro m hm
    obtain ⟨e, he, rfl⟩ := List.mem_map.mp hm
    simpa using hnone hr e he
  · obtain ⟨⟨name', score⟩, hmem, rfl⟩ := hsome id hr
    obtain ⟨n, hlt, heq⟩ := List.getElem_of_mem hmem
    refine ⟨n, score, List.getElem?_eq_some_iff.mpr ⟨hlt, heq⟩, h.mem_items hmem, ?_⟩
    rw [← h.sorted_eq, List.findIdx?_eq_some_iff_getElem]
    refine ⟨by simpa using hlt, by simp [heq], fun k hk => ?_⟩
    -- An earlier member of the same name would be the same one.
    have hnodup := List.pairwise_iff_getElem.mp h.holds.names k n (by simp; omega) (by simpa) hk
    simpa [heq] using hnodup

/-- **Inserting** gives a name its score. -/
theorem insert (h : s.Lists items scores) (name : Bytes) {score : Double}
    (hscore : score.isNaN = false) :
    ∃ s' items', s.insert name score = .ok ((scores.lookup name).isNone, s') ∧
      s'.Lists items' (scores.insert name score) := by
  obtain ⟨isNew, s', items', id, hinsert, hholds, hperm, hnew, -⟩ := h.holds.insert name hscore
  have hisNew : isNew = (scores.lookup name).isNone := by
    rw [Bool.eq_iff_iff, hnew, Option.isNone_iff_eq_none]
    refine ⟨h.lookup_eq_none, fun hnone e he hname => ?_⟩
    have := h.mem_items he
    rw [hname, hnone] at this
    cases this
  refine ⟨s', items', hisNew ▸ hinsert, hholds, ?_⟩
  rw [Scores.members_insert]
  apply (hperm.map (·.2)).trans
  rw [List.map_cons]
  refine .cons _ ?_
  have := (h.perm.filter (·.name != name))
  rwa [List.filter_map] at this

/-- **Deleting** the node of a name takes its score away. -/
theorem delete (h : s.Lists items scores) {n id : Nat} {m : Member}
    (hn : items[n]? = some (id, m)) :
    ∃ r s' items', s.delete id = .ok (r, s') ∧ s'.Lists items' (scores.erase m.name) := by
  have hmem := List.mem_of_getElem? hn
  obtain ⟨s', hdelete, hholds⟩ := h.holds.delete hmem
  refine ⟨m, s', _, hdelete, hholds, ?_⟩
  rw [← h.holds.filter_name hmem, Scores.members_erase]
  have := (h.perm.filter (·.name != m.name))
  rwa [List.filter_map] at this

/-- **Counting** between two pairs. -/
theorem countBetween (h : s.Lists items scores) {low high : Double × Bytes}
    (hlow : low.1.isNaN = false) (hhigh : high.1.isNaN = false) :
    s.countBetween low high = .ok (scores.members.countP fun e =>
      !e.below ⟨low.2, low.1⟩ && e.below ⟨high.2, high.1⟩) := by
  have hcount := h.holds.countBetween_below ⟨low.2, low.1⟩ ⟨high.2, high.1⟩ hlow hhigh
  rw [← h.perm.countP_eq, List.countP_map]
  exact hcount

/-- **The first position** of a range. -/
theorem rangeStart (h : s.Lists items scores) {score : Double} (hscore : score.isNaN = false)
    (name : Bytes) (offset limit : Int) :
    ∃ start, Answers scores.members.length (s.rangeStart score name offset)
        (items[start]?.map (·.1)) ∧
      (scores.sorted.drop start).take limit.toNat = scores.range ⟨name, score⟩ offset limit := by
  have hstart := h.holds.rangeStart score name offset
  rw [h.countP_isBefore hscore, h.length_eq] at hstart
  unfold Scores.range
  rw [(scores.sorted_perm).length_eq]
  have hlength := h.length_eq
  split at hstart
  · next hlt =>
    by_cases hneg : 0 ≤ (scores.sorted.countP (·.below ⟨name, score⟩) : Int) + offset
    · refine ⟨_, ?_, by rw [if_pos ⟨hlt, hneg⟩]⟩
      rw [RankTree.idAt, if_pos hneg] at hstart
      exact hstart
    · refine ⟨items.length, ?_, ?_⟩
      · rw [RankTree.idAt, if_neg hneg] at hstart
        rwa [List.getElem?_eq_none (Nat.le_refl _)]
      · rw [if_neg fun hand => hneg hand.2, hlength, ← (scores.sorted_perm).length_eq,
          List.drop_length]
        simp
  · next hge =>
    refine ⟨items.length, ?_, ?_⟩
    · rwa [List.getElem?_eq_none (Nat.le_refl _)]
    · rw [if_neg fun hand => hge hand.1, hlength, ← (scores.sorted_perm).length_eq,
        List.drop_length]
      simp

end Lists

end SortedSet

end KeyServer
