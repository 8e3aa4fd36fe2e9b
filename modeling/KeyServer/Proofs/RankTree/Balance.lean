import KeyServer.Proofs.RankTree.Unlinking

/-! # Trees stay balanced

In a `Balanced` tree the two sides of every node differ by at most one level.  Linking and
unlinking put a subtree into a place of a balanced tree that is at most one level higher or
lower than the one before it.  On the way up this stays so: rebalancing a node whose sides
differ by two levels leaves its subtree as high as it was before, or one level off.

* **`Balanced.fixUp_plug`** says so of a whole way up, hence `Balanced.attach` and
  `Unlinks.balanced`.
* **`Holds.fix`**: in a balanced tree there is nothing to restore.
-/

namespace KeyServer.RankTree

variable {α : Type}

namespace Tree

/-- No node has a side that is more than one level higher than the other. -/
def Balanced : Tree α → Prop
  | leaf => True
  | node _ _ l r => l.Balanced ∧ r.Balanced ∧ l.height ≤ r.height + 1 ∧ r.height ≤ l.height + 1

variable {s : Side} {id : Nat} {v : α} {near far l r t : Tree α}

theorem balanced_join :
    (join s id v near far).Balanced ↔
      near.Balanced ∧ far.Balanced ∧ near.height ≤ far.height + 1 ∧
        far.height ≤ near.height + 1 := by
  cases s with
  | left => rfl
  | right =>
    show far.Balanced ∧ near.Balanced ∧ _ ↔ _
    rw [and_left_comm, and_comm (a := far.height ≤ near.height + 1)]

/-- **Lightening** a tree whose sides are balanced balances it; it may lose a level. -/
theorem balanced_lighten (s : Side) (id : Nat) (v : α) (hnear : near.Balanced)
    (hfar : far.Balanced) (h : near.height = far.height + 2) :
    (lighten s (join s id v near far)).Balanced ∧
      near.height ≤ (lighten s (join s id v near far)).height ∧
      (lighten s (join s id v near far)).height ≤ near.height + 1 := by
  obtain ⟨c, w, outer, inner, rfl⟩ := exists_join s (show 0 < near.height by omega)
  obtain ⟨houter, hinner, hle, hle'⟩ := balanced_join.mp hnear
  rw [height_join] at h
  rw [lighten_join]
  by_cases hheavy : outer.height < inner.height
  · obtain ⟨top, u, a, b, rfl⟩ := exists_join s (Nat.zero_lt_of_lt hheavy)
    obtain ⟨ha, hb, hab, hba⟩ := balanced_join.mp hinner
    rw [height_join] at hheavy h hle hle'
    rw [height_join s top, if_pos hheavy, rotate_join, ← join_other s id, ← join_other s top,
      rotate_join]
    simp only [balanced_join, height_join]
    refine ⟨⟨⟨hfar, hb, ?_, ?_⟩, ⟨houter, ha, ?_, ?_⟩, ?_, ?_⟩, ?_, ?_⟩ <;> omega
  · rw [if_neg hheavy, ← join_other s id, ← join_other s c, rotate_join]
    simp only [balanced_join, height_join]
    refine ⟨⟨⟨hfar, hinner, ?_, ?_⟩, houter, ?_, ?_⟩, ?_, ?_⟩ <;> omega

/-- **Rebalancing** balances a tree whose sides are balanced and differ by at most two
levels.  If they differ by two, the tree may lose a level; else nothing changes. -/
theorem balanced_rebalance (s : Side) (id : Nat) (v : α) (hnear : near.Balanced)
    (hfar : far.Balanced)
    (h : near.height ≤ far.height + 2) (h' : far.height ≤ near.height + 2) :
    (join s id v near far).rebalance.Balanced ∧
      max near.height far.height ≤ (join s id v near far).rebalance.height ∧
      (join s id v near far).rebalance.height ≤ 1 + max near.height far.height ∧
      (near.height ≤ far.height + 1 → far.height ≤ near.height + 1 →
        (join s id v near far).rebalance = join s id v near far) := by
  -- It is enough to look at a node as it is written.
  suffices hnode : ∀ {l r : Tree α}, l.Balanced → r.Balanced → l.height ≤ r.height + 2 →
      r.height ≤ l.height + 2 → (node id v l r).rebalance.Balanced ∧
        max l.height r.height ≤ (node id v l r).rebalance.height ∧
        (node id v l r).rebalance.height ≤ 1 + max l.height r.height ∧
        (l.height ≤ r.height + 1 → r.height ≤ l.height + 1 →
          (node id v l r).rebalance = node id v l r) by
    cases s with
    | left => exact hnode hnear hfar h h'
    | right =>
      obtain ⟨hbalanced, hmin, hmax, hsame⟩ := hnode hfar hnear h' h
      rw [Nat.max_comm near.height]
      exact ⟨hbalanced, hmin, hmax, fun hle hle' => hsame hle' hle⟩
  intro l r hl hr hlr hrl
  rw [rebalance]
  by_cases hleft : l.height = r.height + 2
  · rw [if_pos hleft]
    obtain ⟨hbalanced, hmin, hmax⟩ := balanced_lighten .left id v hl hr hleft
    rw [show join .left id v l r = node id v l r from rfl] at hbalanced hmin hmax
    refine ⟨hbalanced, Nat.max_le.mpr ⟨hmin, by omega⟩, ?_, fun _ _ => by omega⟩
    exact Nat.le_trans hmax (by omega)
  · rw [if_neg hleft]
    by_cases hright : r.height = l.height + 2
    · rw [if_pos hright]
      obtain ⟨hbalanced, hmin, hmax⟩ := balanced_lighten .right id v hr hl hright
      rw [show join .right id v r l = node id v l r from rfl] at hbalanced hmin hmax
      refine ⟨hbalanced, Nat.max_le.mpr ⟨by omega, hmin⟩, ?_, fun _ _ => by omega⟩
      exact Nat.le_trans hmax (by omega)
    · rw [if_neg hright]
      refine ⟨⟨hl, hr, by omega, by omega⟩, ?_, Nat.le_refl _, fun _ _ => rfl⟩
      rw [height]
      omega

end Tree

/-! ## Places in balanced trees -/

/-- What is in a place of a balanced tree is balanced. -/
theorem Tree.Balanced.of_plug {path : List (Crumb α)} {t : Tree α} (h : (plug path t).Balanced) :
    t.Balanced := by
  induction path generalizing t with
  | nil => exact h
  | cons k path ih => exact (Tree.balanced_join.mp (ih h)).1

/-- A subtree can be exchanged for one of the same height. -/
theorem Tree.Balanced.replug {path : List (Crumb α)} {x y : Tree α} (h : (plug path y).Balanced)
    (hx : x.Balanced) (hheight : x.height = y.height) : (plug path x).Balanced := by
  induction path generalizing x y with
  | nil => exact hx
  | cons k path ih =>
    have hfill : (plug path (k.fill y)).Balanced := h
    obtain ⟨-, hsibling, hle, hle'⟩ := Tree.balanced_join.mp (Tree.Balanced.of_plug hfill)
    refine ih hfill (Tree.balanced_join.mpr ⟨hx, hsibling, ?_, ?_⟩) ?_
    · omega
    · omega
    · rw [Crumb.fill, Crumb.fill, Tree.height_join, Tree.height_join, hheight]

/-- **Restoring balance on the way up** works from a place whose subtree became at most one
level higher or lower. -/
theorem Tree.Balanced.fixUp_plug {path : List (Crumb α)} {x y : Tree α} (h : (plug path y).Balanced)
    (hx : x.Balanced) (hxy : x.height ≤ y.height + 1) (hyx : y.height ≤ x.height + 1) :
    (fixUp path x).Balanced := by
  induction path generalizing x y with
  | nil => exact hx
  | cons k path ih =>
    have hfill : (plug path (k.fill y)).Balanced := h
    obtain ⟨-, hsibling, hle, hle'⟩ := Tree.balanced_join.mp (Tree.Balanced.of_plug hfill)
    obtain ⟨hbalanced, hmin, hmax, hsame⟩ := Tree.balanced_rebalance k.side k.id k.value hx
      hsibling (by omega) (by omega)
    rw [← Crumb.fill] at hbalanced hmin hmax hsame
    -- Either the node needs no rotation, or its two sides differ by two levels.
    have hheight : x.height ≤ k.sibling.height + 1 → k.sibling.height ≤ x.height + 1 →
        (k.fill x).rebalance.height = 1 + max x.height k.sibling.height := fun hle hle' => by
      rw [hsame hle hle', Crumb.fill, Tree.height_join]
    have hold : (k.fill y).height = 1 + max y.height k.sibling.height := Tree.height_join ..
    exact ih hfill hbalanced (by omega) (by omega)

/-- **Linking** a node keeps the tree balanced. -/
theorem Tree.Balanced.attach {tree : Tree α} (h : tree.Balanced) (less : α → α → Bool) (id : Nat)
    (v : α) : (tree.attach less id v).Balanced := by
  have hplug : (plug (descend less v tree []) .leaf).Balanced := by rwa [plug_descend]
  have hnode : (Tree.node id v .leaf .leaf : Tree α).Balanced :=
    ⟨trivial, trivial, Nat.zero_le _, Nat.zero_le _⟩
  exact hplug.fixUp_plug (x := .node id v .leaf .leaf) hnode (Nat.le_refl 1) (Nat.zero_le 2)

/-- **Unlinking** a node keeps the tree balanced. -/
theorem Unlinks.balanced {id : Nat} {v : α} {tree tree' : Tree α} (h : Unlinks id v tree tree')
    (hbalanced : tree.Balanced) : tree'.Balanced := by
  -- A node with one child is one level higher than the child.
  have hnarrow : ∀ {path : List (Crumb α)} {s : Side} {id : Nat} {v : α} {sub : Tree α},
      (plug path (.join s id v sub .leaf)).Balanced → (fixUp path sub).Balanced := by
    intro path s id v sub hplug
    have hjoin := Tree.height_join s id v sub .leaf
    have hleaf : (Tree.leaf : Tree α).height = 0 := rfl
    exact hplug.fixUp_plug (Tree.balanced_join.mp hplug.of_plug).1 (by omega) (by omega)
  cases h with
  | narrow path s sub => exact hnarrow hbalanced
  | @heir path l q path' heir w sub l' r' hq hrest =>
    have hplug : (plug (q ++ ⟨.right, id, v, l⟩ :: path)
        (.join .right heir w sub .leaf)).Balanced := by
      rw [plug_append]
      exact hbalanced
    have hfix := hnarrow hplug
    rw [hrest] at hfix
    have hheir : (Tree.node heir w l' r').Balanced :=
      Tree.Balanced.of_plug (t := .node id v l' r') hfix
    exact hfix.replug hheir rfl

/-! ## Nothing to restore -/

variable {t : RankTree α} {tree : Tree α} {loose : List (Nat × α)}

/-- Putting a node where it is already changes nothing. -/
theorem put_eq_self {id : Nat} {n : Node α} (h : t.content id = some n) : t.put id n = t := by
  obtain ⟨nodes, free, root⟩ := t
  simp only [content, Option.join_eq_some_iff] at h
  have hsame : nodes.setIfInBounds id (some n) = nodes := by
    apply Array.ext_getElem?
    intro i
    rw [Array.getElem?_setIfInBounds]
    split
    · next hi =>
      subst hi
      rw [h, if_pos (Array.getElem?_eq_some_iff.mp h).1]
    · rfl
  rw [put, hsame]

/-- A balanced node with right measures is left as it is. -/
theorem rebalance_eq_self {p : Option Nat} {id : Nat} {v : α} {l r : Tree α}
    (h : Rep t.content p (.node id v l r)) (hbalanced : (Tree.node id v l r).Balanced) :
    t.rebalance id = .ok (t, id) := by
  obtain ⟨hid, hl, hr⟩ := h
  obtain ⟨-, -, hle, hle'⟩ := hbalanced
  have hmeasure : t.measure id = .ok t := by
    rw [← measureWith_exactly, (measure_spec (s := .left) hid hl hr).exactly, nodeOf,
      put_eq_self hid]
  rw [rebalance, hmeasure, ok_bind, node_eq_ok hid, ok_bind, hl.heightAt, ok_bind, hr.heightAt,
    ok_bind, if_neg (by omega), if_neg (by omega)]
  rfl

/-- The way up from a node in a balanced tree changes nothing. -/
theorem fixWithin_eq_self {path : List (Crumb α)} : ∀ {steps id : Nat} {v : α} {l r : Tree α},
    Rep t.content none (plug path (.node id v l r)) → (plug path (.node id v l r)).Balanced →
    (plug path (.node id v l r)).ids.Nodup → t.root = (plug path (.node id v l r)).top? →
    path.length < steps → ∃ top, t.root = some top ∧ t.fixWithin steps id = .ok (t, top) := by
  induction path with
  | nil =>
    rintro (_ | steps) id v l r hrep hbalanced - hroot hsteps
    · cases hsteps
    refine ⟨id, hroot, ?_⟩
    have hsame : { t with root := some id } = t := by
      rw [← show t.root = some id from hroot]
    simp [fixWithin, node_eq_ok hrep.1, rebalance_eq_self hrep hbalanced, hsame]
  | cons k path ih =>
    rintro (_ | steps) id v l r hrep hbalanced hnodup hroot hsteps
    · cases hsteps
    obtain ⟨hnode, haround⟩ := hrep.split
    have hrebalance := rebalance_eq_self hnode hbalanced.of_plug
    -- The node above links to this one already.
    have hfill : Rep t.content none (plug path (k.fill (.node id v l r))) := hrep
    obtain ⟨hk, -, -⟩ := rep_join.mp hfill.split.1
    have hfar : k.sibling.top? ≠ some id := by
      intro he
      have hplugged : (plug path (k.fill (.node id v l r))).ids.Nodup := hnodup
      obtain ⟨-, -, -, -, hdisjoint⟩ := Tree.nodup_join.mp (nodup_plug.mp hplugged).1
      exact hdisjoint id (by simp) (Tree.top?_mem_ids he)
    have hrelink : t.relink k.id id (some id) = .ok t := by
      rw [relink_spec hk hfar, ← Tree.top?_node id v l r, put_eq_self hk]
    obtain ⟨l', r', hjoin⟩ : ∃ l' r', k.fill (.node id v l r) = .node k.id k.value l' r' := by
      cases hs : k.side <;> exact ⟨_, _, by rw [Crumb.fill, hs, Tree.join]⟩
    rw [plug_cons, hjoin] at hrep hbalanced hnodup hroot
    obtain ⟨top, htop, hfix⟩ := ih hrep hbalanced hnodup hroot (Nat.lt_of_succ_lt_succ hsteps)
    refine ⟨top, htop, ?_⟩
    simp [fixWithin, node_eq_ok hnode.1, hrebalance, hrelink, hfix]

/-- **Restoring** a balanced tree from any node changes nothing. -/
theorem Holds.fix (h : t.Holds tree loose) (hbalanced : tree.Balanced) {id : Nat}
    (hid : id ∈ tree.ids) : ∃ top, t.root = some top ∧ t.fix id = .ok (t, top) := by
  obtain ⟨⟨id, v⟩, hmem, rfl⟩ := List.mem_map.mp hid
  obtain ⟨path, l, r, rfl⟩ := exists_place hmem
  have hlen := length_add_size_le path (.node id v l r)
  have hsize := h.size_le
  exact fixWithin_eq_self h.rep hbalanced h.nodup_ids h.root (by
    unfold stepBound
    omega)

end KeyServer.RankTree
