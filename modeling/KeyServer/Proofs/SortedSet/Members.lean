import KeyServer.Proofs.HashTable.Operations
import KeyServer.Proofs.RankTree.Positions
import KeyServer.Proofs.SortedSet.Order
import Mathlib.Data.List.Nodup

/-! # The members of a sorted set

`s.Holds items` says that the tree of a sorted set has the nodes `items` in order, each
with its member, and that the hash table has exactly these nodes, each under the name of
its member (`Indexes`).  The operations keep the two together:

* **`Holds.lookup`** finds the node of a name and changes no member.
* **`Holds.insert`** leaves one member of the name, on the node it was on before.
* **`Holds.delete`** takes one member out of both.
-/

namespace KeyServer.SortedSet

/-! ## The table of names -/

/-- A table has exactly the nodes of some pairs, each under the hash code of its name. -/
structure Indexes (table : HashTable Nat) (pairs : List (Nat × Bytes)) : Prop where
  valid : table.Valid
  indexed : ∀ i slot, table.content i = some slot →
    ∃ name, (slot.item, name) ∈ pairs ∧ slot.hash = hashBytes name
  listed : ∀ id name, (id, name) ∈ pairs → ∃ i, table.content i = some ⟨hashBytes name, id⟩
  once : ∀ i j slot slot', table.content i = some slot → table.content j = some slot' →
    slot.item = slot'.item → i = j

theorem indexes_empty : Indexes HashTable.empty [] where
  valid := HashTable.valid_empty
  indexed := by simp
  listed := by simp
  once := by simp

namespace Indexes

variable {table : HashTable Nat} {pairs : List (Nat × Bytes)}

theorem congr {pairs' : List (Nat × Bytes)} (h : Indexes table pairs)
    (hmem : ∀ e, e ∈ pairs' ↔ e ∈ pairs) : Indexes table pairs' where
  valid := h.valid
  indexed i slot hi := by
    obtain ⟨name, hname, hhash⟩ := h.indexed i slot hi
    exact ⟨name, (hmem _).mpr hname, hhash⟩
  listed id name hpair := h.listed id name ((hmem _).mp hpair)
  once := h.once

theorem of_content {table' : HashTable Nat} (h : Indexes table pairs) (hvalid : table'.Valid)
    (hcontent : table'.content = table.content) : Indexes table' pairs where
  valid := hvalid
  indexed := hcontent ▸ h.indexed
  listed := hcontent ▸ h.listed
  once := hcontent ▸ h.once

/-- A new node under its name. -/
theorem insert (h : Indexes table pairs) {id : Nat} (hid : id ∉ pairs.map (·.1)) (name : Bytes) :
    ∃ i table', table.insert (hashBytes name) id = .ok (i, table') ∧
      Indexes table' ((id, name) :: pairs) := by
  obtain ⟨i, table', hinsert, hvalid, hfree, hcontent, -⟩ := h.valid.insert (hashBytes name) id
  have hold : ∀ j slot, table.content j = some slot → j ≠ i ∧ slot.item ≠ id := by
    intro j slot hj
    obtain ⟨name', hpair, -⟩ := h.indexed j slot hj
    refine ⟨?_, fun he => hid (he ▸ List.mem_map_of_mem (f := (·.1)) hpair)⟩
    rintro rfl
    rw [hfree] at hj
    cases hj
  have hnew : ∀ j slot, table'.content j = some slot →
      (j = i ∧ slot = ⟨hashBytes name, id⟩) ∨ (j ≠ i ∧ table.content j = some slot) := by
    intro j slot hj
    rw [hcontent, Function.update_apply] at hj
    split at hj
    · next he => exact .inl ⟨he, (Option.some_inj.mp hj).symm⟩
    · next he => exact .inr ⟨he, hj⟩
  refine ⟨i, table', hinsert, hvalid, ?_, ?_, ?_⟩
  · intro j slot hj
    rcases hnew j slot hj with ⟨rfl, rfl⟩ | ⟨-, hj⟩
    · exact ⟨name, List.mem_cons_self, rfl⟩
    · obtain ⟨name', hpair, hhash⟩ := h.indexed j slot hj
      exact ⟨name', List.mem_cons_of_mem _ hpair, hhash⟩
  · intro id' name' hpair
    rcases List.mem_cons.mp hpair with he | hpair
    · cases he
      exact ⟨i, by rw [hcontent, Function.update_self]⟩
    · obtain ⟨j, hj⟩ := h.listed id' name' hpair
      exact ⟨j, by rw [hcontent, Function.update_of_ne (hold j _ hj).1, hj]⟩
  · intro j k slot slot' hj hk heq
    rcases hnew j slot hj with ⟨rfl, rfl⟩ | ⟨-, hj⟩ <;>
      rcases hnew k slot' hk with ⟨rfl, rfl⟩ | ⟨-, hk⟩
    · rfl
    · exact absurd heq.symm (hold k slot' hk).2
    · exact absurd heq (hold j slot hj).2
    · exact h.once j k slot slot' hj hk heq

/-- A node that is in the table is taken out. -/
theorem delete (h : Indexes table pairs) {id : Nat} {name : Bytes} (hmem : (id, name) ∈ pairs) :
    ∃ table', table.delete (hashBytes name) (· == id) = .ok (some id, table') ∧
      Indexes table' (pairs.filter (·.1 != id)) := by
  obtain ⟨r, table', hdelete, hvalid, hsome, hnone⟩ := h.valid.delete (hashBytes name) (· == id)
  obtain ⟨j, hj⟩ := h.listed id name hmem
  cases r with
  | none =>
    have := (hnone rfl).2 j _ hj rfl
    simp at this
  | some item =>
    obtain ⟨i, slot, hi, -, hitem, rfl, hcontent⟩ := hsome item rfl
    have hitem : slot.item = id := by simpa using hitem
    refine ⟨table', by rw [hdelete, hitem], hvalid, ?_, ?_, ?_⟩
    · intro k slot' hk
      rw [hcontent, Function.update_apply] at hk
      split at hk
      · cases hk
      · next hne =>
        obtain ⟨name', hpair, hhash⟩ := h.indexed k slot' hk
        refine ⟨name', List.mem_filter.mpr ⟨hpair, ?_⟩, hhash⟩
        rw [bne_iff_ne]
        intro he
        exact hne (h.once k i slot' slot hk hi (he.trans hitem.symm))
    · intro id' name' hpair
      obtain ⟨hpair, hne⟩ := List.mem_filter.mp hpair
      obtain ⟨k, hk⟩ := h.listed id' name' hpair
      refine ⟨k, ?_⟩
      rw [hcontent, Function.update_of_ne, hk]
      rintro rfl
      rw [hi, Option.some_inj] at hk
      rw [hk] at hitem
      have hitem : id' = id := hitem
      simp [hitem] at hne
    · intro k l slot₁ slot₂ hk hl heq
      rw [hcontent, Function.update_apply] at hk hl
      split at hk
      · cases hk
      · split at hl
        · cases hl
        · exact h.once k l slot₁ slot₂ hk hl heq

/-- The table counts the nodes. -/
theorem size_eq (h : Indexes table pairs) (hnodup : (pairs.map (·.1)).Nodup) :
    table.size = pairs.length := by
  -- The slots in the chains correspond to the nodes.
  obtain ⟨a, r, hlinked⟩ := h.valid.linked
  have hlive : ∀ {i : Nat}, i ∈ a.flatten ++ r.flatten → ∃ slot, table.content i = some slot :=
    fun hi => Option.isSome_iff_exists.mp ((hlinked.mem_chains _).mp hi)
  let node (i : Nat) : Nat := ((table.content i).map (·.item)).getD 0
  have hnode : ∀ {i : Nat} {slot : Hashed Nat}, table.content i = some slot → node i = slot.item :=
    fun hi => by simp [node, hi]
  have hperm : ((a.flatten ++ r.flatten).map node).Perm (pairs.map (·.1)) := by
    refine (List.perm_ext_iff_of_nodup ?_ hnodup).mpr fun id => ?_
    · refine List.Nodup.map_on ?_ hlinked.nodup
      intro i hi j hj heq
      obtain ⟨slot, hslot⟩ := hlive hi
      obtain ⟨slot', hslot'⟩ := hlive hj
      rw [hnode hslot, hnode hslot'] at heq
      exact h.once i j slot slot' hslot hslot' heq
    · rw [List.mem_map, List.mem_map]
      constructor
      · rintro ⟨i, hi, rfl⟩
        obtain ⟨slot, hslot⟩ := hlive hi
        obtain ⟨name, hpair, -⟩ := h.indexed i slot hslot
        exact ⟨_, hpair, (hnode hslot).symm⟩
      · rintro ⟨⟨id, name⟩, hpair, rfl⟩
        obtain ⟨i, hi⟩ := h.listed id name hpair
        exact ⟨i, (hlinked.mem_chains i).mpr (by simp [hi]), hnode hi⟩
  have hlen := hperm.length_eq
  rw [List.length_map, List.length_map] at hlen
  rw [hlinked.size_eq, hlen]

end Indexes

/-! ## Both together -/

/-- Node ids with the names of their members. -/
def namesOf (items : List (Nat × Member)) : List (Nat × Bytes) := items.map fun e => (e.1, e.2.name)

theorem mem_namesOf {items : List (Nat × Member)} {id : Nat} {name : Bytes} :
    (id, name) ∈ namesOf items ↔ ∃ m, (id, m) ∈ items ∧ m.name = name := by
  simp [namesOf]

theorem map_namesOf (items : List (Nat × Member)) :
    (namesOf items).map (·.1) = items.map (·.1) := by
  rw [namesOf, List.map_map]
  rfl

/-- The tree has the nodes `items` in order, and the table has the same ones. -/
structure Holds (s : SortedSet) (items : List (Nat × Member)) : Prop where
  tree : ∃ term, s.tree.Holds term [] ∧ term.items = items
  table : Indexes s.byName (namesOf items)
  sorted : items.Pairwise fun a b => a.2.before b.2
  numbers : ∀ e ∈ items, e.2.score.isNaN = false
  names : (items.map (·.2.name)).Nodup

theorem holds_empty : empty.Holds [] where
  tree := ⟨.leaf, RankTree.holds_empty, rfl⟩
  table := indexes_empty
  sorted := .nil
  numbers := by simp
  names := by simp

/-- Linking a member in its place keeps the order. -/
theorem sorted_attach {term : RankTree.Tree Member} {id : Nat} {m : Member}
    (hsorted : term.items.Pairwise fun a b => a.2.before b.2)
    (hnumbers : ∀ e ∈ term.items, e.2.score.isNaN = false) (hm : m.score.isNaN = false)
    (hnames : ∀ e ∈ term.items, e.2.name ≠ m.name) :
    (term.attach Member.before id m).items.Pairwise fun a b => a.2.before b.2 := by
  have hitems := RankTree.Tree.items_eq_descend Member.before m term
  have hcut : term.items.Pairwise fun a b => m.before a.2 → m.before b.2 :=
    hsorted.imp fun hab hma => Member.before_trans _ _ _ hma hab
  have hbefore : ∀ e ∈ RankTree.before (RankTree.descend Member.before m term []),
      m.before e.2 = false :=
    RankTree.before_descend [] hcut (by simp [RankTree.before])
  have hafter : ∀ e ∈ RankTree.after (RankTree.descend Member.before m term []),
      m.before e.2 = true :=
    RankTree.after_descend [] hcut (by simp [RankTree.after])
  rw [RankTree.Tree.items_attach]
  rw [hitems] at hsorted hnumbers hnames
  generalize RankTree.before (RankTree.descend Member.before m term []) = a at *
  generalize RankTree.after (RankTree.descend Member.before m term []) = b at *
  obtain ⟨ha, hb, hab⟩ := List.pairwise_append.mp hsorted
  refine List.pairwise_append.mpr ⟨ha, List.pairwise_cons.mpr ⟨hafter, hb⟩, ?_⟩
  intro e he e' he'
  rcases List.mem_cons.mp he' with rfl | he'
  · have hmem : e ∈ a ++ b := List.mem_append_left b he
    rcases Member.pairBefore_total (hnumbers e hmem) hm (hnames e hmem) with hlt | hlt
    · exact hlt
    · have := hbefore e he
      rw [Member.before, hlt] at this
      cases this
  · exact hab e he e' he'

namespace Holds

variable {s : SortedSet} {items : List (Nat × Member)}

theorem nodup_ids (h : s.Holds items) : (items.map (·.1)).Nodup := by
  obtain ⟨term, hterm, rfl⟩ := h.tree
  exact hterm.nodup_ids

theorem size_eq (h : s.Holds items) : s.size = items.length := by
  have := h.table.size_eq (by rw [map_namesOf]; exact h.nodup_ids)
  rwa [namesOf, List.length_map] at this

theorem get (h : s.Holds items) {id : Nat} {m : Member} (hmem : (id, m) ∈ items) :
    s.tree.get id = .ok m := by
  obtain ⟨term, hterm, rfl⟩ := h.tree
  exact hterm.get hmem

/-- Two nodes do not have the same name. -/
theorem eq_of_name (h : s.Holds items) {e e' : Nat × Member} (he : e ∈ items) (he' : e' ∈ items)
    (hname : e.2.name = e'.2.name) : e = e' :=
  List.inj_on_of_nodup_map h.names he he' hname

/-- Whether a node has a member, and that one a name. -/
def isNamed (tree : RankTree Member) (name : Bytes) (id : Nat) : Bool :=
  (tree.get id).toOption.any (·.name == name)

/-- **Looking up** finds the node of a name, and meets no node without a member. -/
theorem lookup (h : s.Holds items) (name : Bytes) :
    ∃ r s', s.lookup name = .ok (r, s') ∧ s'.Holds items ∧
      (∀ id, r = some id → ∃ m, (id, m) ∈ items ∧ m.name = name) ∧
      (r = none → ∀ e ∈ items, e.2.name ≠ name) := by
  have hholds := h
  obtain ⟨⟨term, hterm, hitems⟩, htable, hsorted, hnumbers, hnames⟩ := h
  unfold SortedSet.lookup
  split
  · next hempty =>
    rw [hterm.isEmpty_eq] at hempty
    subst hempty hitems
    exact ⟨none, s, rfl, hholds, by simp, by simp⟩
  · have hhas : ∀ i slot, s.byName.content i = some slot →
        ∃ m, (slot.item, m) ∈ items ∧ slot.hash = hashBytes m.name := by
      intro i slot hi
      obtain ⟨name', hpair, hhash⟩ := htable.indexed i slot hi
      obtain ⟨m, hm, rfl⟩ := mem_namesOf.mp hpair
      exact ⟨m, hm, hhash⟩
    have hnamed : ∀ {id m}, (id, m) ∈ items → isNamed s.tree name id = (m.name == name) :=
      fun hm => by rw [isNamed, hholds.get hm]; rfl
    have hdecides : s.byName.Decides (hashBytes name) (fun _ => hasName s.tree name)
        fun _ => isNamed s.tree name := by
      intro i slot hi _
      obtain ⟨m, hm, -⟩ := hhas i slot hi
      simp only [hasName, hholds.get hm, hnamed hm]
      rfl
    obtain ⟨r, table', hlookup, hvalid, hcontent, hsome, hnone⟩ :=
      htable.valid.lookupBy hdecides
    refine ⟨r.bind table'.get?, { s with byName := table' }, by rw [hlookup]; rfl,
      ⟨⟨term, hterm, hitems⟩, htable.of_content hvalid hcontent, hsorted, hnumbers, hnames⟩,
      ?_, ?_⟩
    · intro id hid
      obtain ⟨i, rfl, hget⟩ := Option.bind_eq_some_iff.mp hid
      obtain ⟨slot, hi, -, hname⟩ := hsome i rfl
      rw [HashTable.get?_eq, hcontent, hi] at hget
      cases hget
      obtain ⟨m, hm, -⟩ := hhas i slot hi
      rw [hnamed hm] at hname
      exact ⟨m, hm, beq_iff_eq.mp hname⟩
    · intro hr e he hname
      cases r with
      | none =>
        obtain ⟨i, hi⟩ := htable.listed e.1 e.2.name (mem_namesOf.mpr ⟨e.2, he, rfl⟩)
        have hfalse := hnone rfl i _ hi (by rw [hname])
        rw [hnamed he, hname] at hfalse
        simp at hfalse
      | some i =>
        obtain ⟨slot, hi, -⟩ := hsome i rfl
        rw [Option.bind_some, HashTable.get?_eq, hcontent, hi] at hr
        cases hr

/-- The members of other names are the ones on other nodes. -/
theorem filter_name (h : s.Holds items) {id : Nat} {m : Member} (hmem : (id, m) ∈ items) :
    items.filter (·.2.name != m.name) = items.filter (·.1 != id) := by
  refine List.filter_congr fun e he => ?_
  rw [Bool.eq_iff_iff, bne_iff_ne, bne_iff_ne, not_iff_not]
  constructor
  · intro hname
    rw [h.eq_of_name he hmem hname]
  · intro hid
    rw [List.inj_on_of_nodup_map h.nodup_ids he hmem hid]

/-- A node that is taken out leaves the others. -/
theorem filter_ids (h : s.Holds items) {a b : List (Nat × Member)} {id : Nat} {m : Member}
    (hitems : items = a ++ (id, m) :: b) : items.filter (·.1 != id) = a ++ b := by
  have hnodup := h.nodup_ids
  rw [hitems, List.map_append, List.map_cons, List.nodup_append, List.nodup_cons] at hnodup
  obtain ⟨-, ⟨hb, -⟩, ha⟩ := hnodup
  rw [hitems, List.filter_append, List.filter_cons, if_neg (by simp)]
  congr 1
  · refine List.filter_eq_self.mpr fun e he => ?_
    rw [bne_iff_ne]
    exact ha e.1 (List.mem_map_of_mem (f := (·.1)) he) id List.mem_cons_self
  · refine List.filter_eq_self.mpr fun e he => ?_
    rw [bne_iff_ne]
    exact fun heq => hb (heq ▸ List.mem_map_of_mem (f := (·.1)) he)

/-- Linking a node whose name no other one has. -/
theorem attach {term : RankTree.Tree Member} {table : HashTable Nat} {id : Nat} {m : Member}
    (h : s.Holds items) (hsub : term.items.Sublist items) (hm : m.score.isNaN = false)
    (hnames : ∀ e ∈ term.items, e.2.name ≠ m.name) {tree : RankTree Member}
    (htree : tree.Holds (term.attach Member.before id m) [])
    (htable : Indexes table (namesOf ((id, m) :: term.items))) :
    ∃ items', Holds ⟨tree, table⟩ items' ∧ items'.Perm ((id, m) :: term.items) := by
  have hperm : (term.attach Member.before id m).items.Perm ((id, m) :: term.items) := by
    rw [RankTree.Tree.items_attach, RankTree.Tree.items_eq_descend Member.before m term]
    exact List.perm_middle
  have hnumbers : ∀ e ∈ term.items, e.2.score.isNaN = false := fun e he =>
    h.numbers e (hsub.subset he)
  refine ⟨_, ⟨⟨_, htree, rfl⟩, htable.congr fun e => ?_,
    sorted_attach (h.sorted.sublist hsub) hnumbers hm hnames, fun e he => ?_, ?_⟩, hperm⟩
  · exact (hperm.map _).mem_iff
  · rcases List.mem_cons.mp (hperm.mem_iff.mp he) with rfl | he
    · exact hm
    · exact hnumbers e he
  · rw [(hperm.map _).nodup_iff, List.map_cons, List.nodup_cons]
    refine ⟨fun hname => ?_, h.names.sublist (hsub.map _)⟩
    obtain ⟨e, he, heq⟩ := List.mem_map.mp hname
    exact hnames e he heq

/-- **Inserting** leaves one member of the name: on the node that the name was on before,
or on a new one. -/
theorem insert (h : s.Holds items) (name : Bytes) {score : Double}
    (hscore : score.isNaN = false) :
    ∃ isNew s' items' id, s.insert name score = .ok (isNew, s') ∧ s'.Holds items' ∧
      items'.Perm ((id, ⟨name, score⟩) :: items.filter (·.2.name != name)) ∧
      (isNew = true ↔ ∀ e ∈ items, e.2.name ≠ name) ∧
      ∀ e ∈ items, e.2.name = name → e.1 = id := by
  obtain ⟨r, ⟨tree, table⟩, hlookup, h', hsome, hnone⟩ := h.lookup name
  obtain ⟨term, hterm, hitems⟩ := h'.tree
  cases r with
  | some id =>
    obtain ⟨m, hmem, rfl⟩ := hsome id rfl
    rw [← hitems] at hmem
    -- The node is taken out, gets the new score and is linked again.
    obtain ⟨t₁, term', hdetach, hunlinks, h₁⟩ := hterm.detach hmem
    obtain ⟨t₂, hset, h₂⟩ := h₁.setLoose fun n => { n with score }
    obtain ⟨t₃, hattach, h₃⟩ := h₂.attach Member.before
    obtain ⟨a, b, hsplit, hsplit'⟩ := hunlinks.items hterm.nodup_ids
    rw [hitems] at hsplit hmem
    have hrest : term'.items = items.filter (·.2.name != m.name) := by
      rw [h'.filter_name hmem, h'.filter_ids hsplit, hsplit']
    have hsub : term'.items.Sublist items := hrest ▸ List.filter_sublist
    have hperm : items.Perm ((id, m) :: term'.items) := by
      rw [hsplit, hsplit']
      exact List.perm_middle
    have htable : Indexes table (namesOf ((id, ⟨m.name, score⟩) :: term'.items)) :=
      h'.table.congr fun e => ((hperm.map fun e => (e.1, e.2.name)).mem_iff).symm
    have hnames : ∀ e ∈ term'.items, e.2.name ≠ m.name := by
      intro e he
      rw [hrest] at he
      simpa using (List.mem_filter.mp he).2
    obtain ⟨items', hholds, hperm'⟩ := h'.attach (m := ⟨m.name, score⟩) hsub hscore hnames h₃ htable
    rw [hrest] at hperm'
    refine ⟨false, _, items', id, ?_, hholds, hperm', ?_, fun e he hname => ?_⟩
    · simp [SortedSet.insert, hlookup, hdetach, hset, hattach]
    · simpa using ⟨id, m, hmem, rfl⟩
    · rw [h'.eq_of_name he hmem hname]
  | none =>
    have hfresh := hnone rfl
    obtain ⟨id, t₁, hinsert, hfree, h₁⟩ := hterm.insert ⟨name, score⟩ Member.before
    have hid : id ∉ (namesOf items).map (·.1) := by
      intro hi
      rw [map_namesOf, ← hitems] at hi
      rw [← Option.not_isSome_iff_eq_none] at hfree
      exact hfree (hterm.rep.isSome id hi)
    obtain ⟨i, table', htable, hindexes⟩ := h'.table.insert hid name
    have hrest : items.filter (·.2.name != name) = items :=
      List.filter_eq_self.mpr fun e he => by simpa using hfresh e he
    rw [← hitems] at hfresh hindexes
    obtain ⟨items', hholds, hperm⟩ := h'.attach (m := ⟨name, score⟩)
      (hitems ▸ List.Sublist.refl _) hscore hfresh h₁ hindexes
    rw [hitems] at hfresh hperm
    refine ⟨true, _, items', id, ?_, hholds, by rwa [hrest],
      by simpa using fun a b => hfresh (a, b),
      fun e he hname => absurd hname (hfresh e he)⟩
    simp [SortedSet.insert, hlookup, hinsert, htable]

/-- **Deleting** takes the member of a node out of the tree and the table. -/
theorem delete (h : s.Holds items) {id : Nat} {m : Member} (hmem : (id, m) ∈ items) :
    ∃ s', s.delete id = .ok (m, s') ∧ s'.Holds (items.filter (·.1 != id)) := by
  have hholds := h
  obtain ⟨⟨term, hterm, hitems⟩, htable, hsorted, hnumbers, hnames⟩ := h
  have hmem' := hmem
  rw [← hitems] at hmem'
  obtain ⟨table', hdelete, hindexes⟩ := htable.delete (mem_namesOf.mpr ⟨m, hmem, rfl⟩)
  obtain ⟨t₁, term', hremove, hunlinks, h₁⟩ := hterm.remove hmem'
  obtain ⟨a, b, hsplit, hsplit'⟩ := hunlinks.items hterm.nodup_ids
  rw [hitems] at hsplit
  have hrest : term'.items = items.filter (·.1 != id) := by
    rw [hholds.filter_ids hsplit, hsplit']
  refine ⟨⟨t₁, table'⟩, ?_, ⟨term', h₁, hrest⟩, ?_, hsorted.sublist List.filter_sublist,
    fun e he => hnumbers e (List.mem_of_mem_filter he), hnames.sublist (List.filter_sublist.map _)⟩
  · simp [SortedSet.delete, hholds.get hmem, hdelete, hremove]
  · have hfilter : namesOf (items.filter (·.1 != id)) = (namesOf items).filter (·.1 != id) := by
      rw [namesOf, namesOf, List.filter_map]
      rfl
    rw [hfilter]
    exact hindexes

end Holds

end KeyServer.SortedSet
