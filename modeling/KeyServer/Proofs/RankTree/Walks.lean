import KeyServer.Proofs.RankTree.Arrangement

/-! # Walks in every tree

A tree is `Reachable` if operations have led to it from the empty tree, each on a node that it is
meant for.  What orders they brought along plays no part, and values may change under way.  The
nodes that the links down lead to are then in some order (`InOrder`), and walks find their way in
it (`Walks`).

* **`Holds.call`**: every call on a node that it is meant for succeeds and leads to a tree again.
* **`Reachable.exists_walks`**: ranks are positions, moving some positions finds the node there,
  if there is one, and successors list all nodes.
-/

namespace KeyServer.RankTree

variable {α : Type}

/-! ## Reachable trees -/

/-- The trees that operations lead to.  Each may bring another order along, or what is no order
at all. -/
inductive Reachable : RankTree α → Prop where
  | empty : Reachable empty
  | call {t t' : RankTree α} {c : Call α} {answer : Answer α} (less : α → α → Bool)
      (ht : Reachable t) (hc : t.Allows c) (hcall : call less t c = .ok (answer, t')) : Reachable t'
  /-- A linked node gets another value and stays where it is. -/
  | set {t t' : RankTree α} {id : Nat} {v : α} (ht : Reachable t) (hid : t.Linked id)
      (hset : t.set id v = .ok t') : Reachable t'
  | fix {t t' : RankTree α} {id top : Nat} (ht : Reachable t) (hid : t.Linked id)
      (hfix : t.fix id = .ok (t', top)) : Reachable t'

section Steps

variable {t : RankTree α} {tree : Tree α} {loose : List (Nat × α)}

/-- A linked node can get another value. -/
theorem Holds.setLinked {path : List (Crumb α)} {id : Nat} {v : α} {l r : Tree α}
    (h : t.Holds (plug path (.node id v l r)) loose) (w : α) :
    ∃ t', t.set id w = .ok t' ∧ t'.Holds (plug path (.node id w l r)) loose := by
  obtain ⟨⟨hid, hl, hr⟩, haround⟩ := h.rep.split
  obtain ⟨hnode, -, hapart⟩ := nodup_plug.mp h.nodup_ids
  obtain ⟨hidl, hidr, -⟩ := Tree.nodup_join (s := .left).mp hnode
  have hpath : id ∉ pathIds path := hapart id (by simp)
  have hids : (plug path (.node id w l r)).ids = (plug path (.node id v l r)).ids := by
    simp [Tree.ids, items_plug]
  have htop : (plug path (.node id w l r)).top? = (plug path (.node id v l r)).top? := by
    cases path with
    | nil => rfl
    | cons k path => exact top?_plug_cons ..
  have hmem : id ∈ (plug path (.node id v l r)).ids := mem_ids_plug.mpr (.inl (by simp))
  have hother : ∀ i, i ≠ id → ∀ n, (t.put id n).content i = t.content i := by
    intro i hi n
    exact content_put_ne hi n
  refine ⟨_, change_eq_ok hid _, h.regroup (.put (List.mem_append_left _ hmem) _) (by rw [hids])
    (h.root.trans htop.symm) ?_ fun e he => ?_⟩
  · refine h.rep.replug rfl rfl ⟨content_put_self hid, hl.put hidl _, hr.put hidr _⟩
      (haround.congr fun i hi => hother i (fun heq => hpath (heq ▸ hi)) _) fun k hk => ?_
    rw [hother k.id fun heq => hpath (heq ▸ id_mem_pathIds hk)]
  · have hne : e.1 ≠ id := by
      intro heq
      exact (List.nodup_append.mp h.nodup).2.2 id hmem e.1 (List.mem_map_of_mem he) heq.symm
    rw [hother e.1 hne, h.single e he]

/-- **Every call** on a node it is meant for succeeds, whatever order it brings along.  It takes one
place more only when none is free. -/
theorem Holds.callWith (h : t.Holds tree loose) (hbalanced : tree.Balanced) (less : α → α → Bool)
    {c : Call α} (hc : t.Allows c) :
    ∃ answer t' tree' loose',
      Gives (max tree.size tree'.size) (RankTree.callWith less t c) (answer, t') ∧
      t'.Holds tree' loose' ∧ tree'.Balanced ∧ tree'.size ≤ 1 + tree.size ∧
      (t'.nodes.size = t.nodes.size ∨ t'.nodes.size = t.nodes.size + 1 ∧ t'.free = []) := by
  cases c with
  | insert v =>
    obtain ⟨id, t', hinsert, -, h', hplaces⟩ := h.insertWith v less
    have hsize := Tree.size_attach less id v tree
    refine ⟨.node id, t', _, _, fun add hadd => ?_, h', hbalanced.attach less id v,
      Nat.le_of_eq hsize, hplaces⟩
    rw [hsize] at hadd
    simp [RankTree.callWith, hinsert add (hadd.mono (Nat.le_max_right ..))]
  | remove id =>
    obtain ⟨⟨id, v⟩, hmem, rfl⟩ := List.mem_map.mp (h.linked_iff.mp hc)
    obtain ⟨t', tree', hremove, hunlinks, h', hplaces⟩ := h.removeWith hmem
    have hsize := hunlinks.size_eq h.nodup_ids
    refine ⟨.value v, t', _, _, fun add hadd => ?_, h', hunlinks.balanced hbalanced, by omega,
      .inl hplaces⟩
    simp [RankTree.callWith, hremove add (hadd.mono (Nat.le_max_left ..))]
  | detach id =>
    obtain ⟨⟨id, v⟩, hmem, rfl⟩ := List.mem_map.mp (h.linked_iff.mp hc)
    obtain ⟨t', tree', hdetach, hunlinks, h', hplaces⟩ := h.detachWith hmem
    have hsize := hunlinks.size_eq h.nodup_ids
    refine ⟨.root tree'.top?, t', _, _, fun add hadd => ?_, h', hunlinks.balanced hbalanced,
      by omega, .inl hplaces.size⟩
    simp [RankTree.callWith, hdetach add (hadd.mono (Nat.le_max_left ..))]
  | set id w =>
    obtain ⟨⟨id, v⟩, hmem, rfl⟩ := List.mem_map.mp (h.loose_iff.mp hc)
    obtain ⟨c, d, rfl⟩ := List.mem_iff_append.mp hmem
    obtain ⟨t', hchange, h'⟩ := (h.perm_loose List.perm_middle.symm).setLoose fun _ => w
    have hset : t.set id w = .ok t' := hchange
    exact ⟨.done, t', _, _, fun _ _ => by simp [RankTree.callWith, hset], h', hbalanced,
      Nat.le_add_left .., .inl (samePlaces_of_change hchange).size⟩
  | attach id =>
    obtain ⟨⟨id, v⟩, hmem, rfl⟩ := List.mem_map.mp (h.loose_iff.mp hc)
    obtain ⟨c, d, rfl⟩ := List.mem_iff_append.mp hmem
    obtain ⟨t', hattach, h', hplaces⟩ := (h.perm_loose List.perm_middle.symm).attachWith less
    have hsize := Tree.size_attach less id v tree
    refine ⟨.done, t', _, _, fun add hadd => ?_, h', hbalanced.attach less id v,
      Nat.le_of_eq hsize, .inl hplaces.size⟩
    rw [hsize] at hadd
    simp [RankTree.callWith, hattach add (hadd.mono (Nat.le_max_right ..))]

theorem Holds.call (h : t.Holds tree loose) (hbalanced : tree.Balanced) (less : α → α → Bool)
    {c : Call α} (hc : t.Allows c) :
    ∃ answer t' tree' loose', RankTree.call less t c = .ok (answer, t') ∧
      t'.Holds tree' loose' ∧ tree'.Balanced ∧
      (t'.nodes.size = t.nodes.size ∨ t'.nodes.size = t.nodes.size + 1 ∧ t'.free = []) := by
  obtain ⟨answer, t', tree', loose', hcall, h', hbalanced', -, hplaces⟩ :=
    h.callWith hbalanced less hc
  exact ⟨answer, t', tree', loose', (callWith_exactly ..).symm.trans hcall.exactly, h',
    hbalanced', hplaces⟩

end Steps

namespace Reachable

variable {t : RankTree α}

/-- The links of a reachable tree form a balanced term. -/
theorem exists_holds (h : t.Reachable) : ∃ tree loose, t.Holds tree loose ∧ tree.Balanced := by
  induction h with
  | empty => exact ⟨.leaf, [], holds_empty, trivial⟩
  | call less _ hc hcall ih =>
    obtain ⟨tree, loose, hholds, hbalanced⟩ := ih
    obtain ⟨answer, t', tree', loose', hcall', h', hbalanced', -⟩ := hholds.call hbalanced less hc
    cases hcall'.symm.trans hcall
    exact ⟨tree', loose', h', hbalanced'⟩
  | @set _ _ id w _ hid hset ih =>
    obtain ⟨tree, loose, hholds, hbalanced⟩ := ih
    obtain ⟨⟨id, v⟩, hmem, rfl⟩ := List.mem_map.mp (hholds.linked_iff.mp hid)
    obtain ⟨path, l, r, rfl⟩ := exists_place hmem
    obtain ⟨t', hset', h'⟩ := hholds.setLinked w
    cases hset'.symm.trans hset
    have hnode : (Tree.node id v l r).Balanced := hbalanced.of_plug
    exact ⟨_, loose, h', hbalanced.replug (x := .node id w l r) hnode rfl⟩
  | fix _ hid hfix ih =>
    obtain ⟨tree, loose, hholds, hbalanced⟩ := ih
    obtain ⟨top, -, hfix'⟩ := hholds.fix hbalanced (hholds.linked_iff.mp hid)
    cases hfix'.symm.trans hfix
    exact ⟨tree, loose, hholds, hbalanced⟩

end Reachable

/-! ## Walks -/

/-- The nodes below a link in order: what is on the left, the node itself, what is on the right. -/
inductive InOrder (t : RankTree α) : Option Nat → List (Nat × α) → Prop where
  | none : InOrder t none []
  | node {id : Nat} {n : Node α} {a b : List (Nat × α)} (hn : t.content id = some n)
      (hl : InOrder t n.left a) (hr : InOrder t n.right b) :
      InOrder t (some id) (a ++ (id, n.value) :: b)

/-- Walks through a tree whose nodes are in some order.  Positions count from zero. -/
structure Walks (t : RankTree α) (order : List (Nat × α)) : Prop where
  first : t.first = .ok (order[0]?.map (·.1))
  successor : ∀ pos id v, order[pos]? = some (id, v) →
    t.successor id = .ok (order[pos + 1]?.map (·.1))
  /-- Successors list the nodes and come to an end. -/
  listed : t.toList = .ok order
  rank : ∀ pos id v, order[pos]? = some (id, v) → t.rank id = .ok pos
  /-- No position on the way overflows if the number of nodes does not. -/
  offset : order.length < 0x8000000000000000 →
    ∀ (pos id : Nat) (v : α) (k : Int), order[pos]? = some (id, v) →
      t.offset id k = .ok (if 0 ≤ pos + k then order[(pos + k).toNat]?.map (·.1) else none)

theorem Rep.inOrder {t : RankTree α} {p : Option Nat} {tree : Tree α} (h : Rep t.content p tree) :
    t.InOrder tree.top? tree.items := by
  induction tree generalizing p with
  | leaf => exact .none
  | node id v l r ihl ihr =>
    obtain ⟨hid, hl, hr⟩ := h
    exact .node hid (ihl hl) (ihr hr)

/-- **Walks** in an arena that holds a tree. -/
theorem Holds.walks {t : RankTree α} {tree : Tree α} {loose : List (Nat × α)}
    (h : t.Holds tree loose) : t.Walks tree.items where
  first := by rw [h.first, List.head?_eq_getElem?]
  successor pos id v hpos := by rw [h.successor (split_at hpos).1, List.head?_drop]
  listed := h.toList
  rank pos id v hpos := by rw [h.rank (split_at hpos).1, (split_at hpos).2]
  offset hlength pos id v k hpos := by
    obtain ⟨hsplit, hbefore⟩ := split_at hpos
    rcases h.offset hsplit k with hoffset | ⟨-, hlarge⟩
    · rw [hoffset, hbefore, idAt]
    · rw [Tree.length_items] at hlength
      omega

/-- **Walks are exact** in every tree that operations lead to: its nodes are in some order, each
linked node once, and every walk from a node goes by the position of the node in it. -/
theorem Reachable.exists_walks {t : RankTree α} (h : t.Reachable) :
    ∃ order, t.InOrder t.root order ∧ (order.map (·.1)).Nodup ∧
      (∀ id, t.Linked id ↔ id ∈ order.map (·.1)) ∧ t.Walks order := by
  obtain ⟨tree, loose, hholds, -⟩ := h.exists_holds
  have hinOrder : t.InOrder t.root tree.items := by
    rw [hholds.root]
    exact hholds.rep.inOrder
  exact ⟨tree.items, hinOrder, hholds.nodup_ids, fun id => hholds.linked_iff, hholds.walks⟩

/-- A tree of two nodes that were inserted by opposite orders. -/
theorem Reachable.exists_walks_two :
    let t : RankTree Nat :=
      ⟨#[some ⟨none, some 1, none, 2, 2, 5⟩, some ⟨some 0, none, none, 1, 1, 7⟩], [], some 0⟩
    t.Reachable ∧ ∃ order, t.InOrder t.root order ∧ (order.map (·.1)).Nodup ∧
      (∀ id, t.Linked id ↔ id ∈ order.map (·.1)) ∧ t.Walks order := by
  intro t
  have ht : t.Reachable := by
    have hone : Reachable ⟨#[some (Node.single 5)], [], some 0⟩ :=
      .call (c := .insert 5) (fun a b => a < b) .empty trivial rfl
    exact .call (c := .insert 7) (fun a b => b < a) hone trivial rfl
  exact ⟨ht, ht.exists_walks⟩

end KeyServer.RankTree
