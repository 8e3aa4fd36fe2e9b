import KeyServer.Proofs.RankTree.Unlinking
import KeyServer.RankTree.Walk

/-! # Walks find positions

Walks through an arena that holds a tree, in terms of its order `tree.items`.  A node is
given by what comes before and after it: `tree.items = a ++ (id, v) :: b`.

* `Holds.first` and **`Holds.successor`** go through the order one by one, so
  `Holds.toList` lists it.
* **`Holds.rank`** is the number of nodes before.
* **`Holds.offset`** moves to a position, without ever leaving the machine word unless the
  tree has too many nodes for it.
-/

namespace KeyServer

/-- A computation gives `b`, or it overflows, and then something counts `size` that does not
fit into a machine word. -/
def Answers {β : Type} (size : Nat) (x : Except Fault β) (b : β) : Prop :=
  x = .ok b ∨ x = .error .overflow ∧ 0x8000000000000000 ≤ size

namespace Answers

variable {β γ : Type} {size : Nat}

theorem ok (b : β) : Answers size (.ok b) b := .inl rfl

theorem bind {x : Except Fault β} {a : β} {f : β → Except Fault γ} {b : γ}
    (hx : Answers size x a) (hf : Answers size (f a) b) : Answers size (x >>= f) b := by
  rcases hx with rfl | ⟨rfl, hsize⟩
  · exact hf
  · exact .inr ⟨rfl, hsize⟩

theorem signedWord {i : Int} (h : -(size : Int) ≤ i) (h' : i ≤ size) :
    Answers size (signedWord i) i := by
  unfold KeyServer.signedWord
  split
  · exact .inl rfl
  · exact .inr ⟨rfl, by omega⟩

end Answers

namespace RankTree

variable {α : Type} {t : RankTree α} {tree : Tree α} {loose : List (Nat × α)} {id : Nat} {v : α}

/-! ## Places by order -/

/-- The place of a node, from what comes before and after it. -/
theorem exists_split {a b : List (Nat × α)} (hitems : tree.items = a ++ (id, v) :: b)
    (hnodup : tree.ids.Nodup) :
    ∃ path l r, tree = plug path (.node id v l r) ∧ a = before path ++ l.items ∧
      b = r.items ++ after path := by
  have hmem : (id, v) ∈ tree.items := by simp [hitems]
  obtain ⟨path, l, r, rfl⟩ := exists_place hmem
  rw [Tree.ids, hitems] at hnodup
  have hsame : a ++ (id, v) :: b
      = (before path ++ l.items) ++ (id, v) :: (r.items ++ after path) := by
    rw [← hitems, items_plug, Tree.items_node]
    simp
  obtain ⟨ha, hb⟩ := append_cons_inj_of_nodup hnodup hsame
  exact ⟨path, l, r, rfl, ha, hb⟩

/-- What comes before and after a position. -/
theorem split_at {items : List (Nat × α)} {pos : Nat} {e : Nat × α} (hpos : items[pos]? = some e) :
    items = items.take pos ++ e :: items.drop (pos + 1) ∧ (items.take pos).length = pos := by
  obtain ⟨hlt, heq⟩ := List.getElem?_eq_some_iff.mp hpos
  constructor
  · rw [← heq, List.getElem_cons_drop, List.take_append_drop]
  · rw [List.length_take]
    omega

/-- The id at a position, if there is one. -/
def idAt (items : List (Nat × α)) (pos : Int) : Option Nat :=
  if 0 ≤ pos then items[pos.toNat]?.map (·.1) else none

theorem idAt_natCast (items : List (Nat × α)) (pos : Nat) :
    idAt items pos = items[pos]?.map (·.1) := by
  simp [idAt]

theorem idAt_outside {items : List (Nat × α)} {pos : Int} (h : pos < 0 ∨ items.length ≤ pos) :
    idAt items pos = none := by
  unfold idAt
  split
  · rw [List.getElem?_eq_none (by omega)]
    rfl
  · rfl

/-- Positions in a middle part. -/
theorem idAt_middle (a m b : List (Nat × α)) {pos : Int} (h : 0 ≤ pos) (h' : pos < m.length) :
    idAt (a ++ m ++ b) (a.length + pos) = idAt m pos := by
  unfold idAt
  rw [if_pos (by omega), if_pos h, List.getElem?_append_left (by simp; omega),
    List.getElem?_append_right (by omega)]
  congr 2
  omega

/-! ## One by one -/

/-- Climbing to the nearest node that has the start on its left finds what comes after. -/
theorem climbWithin_spec {path : List (Crumb α)} : ∀ {steps id : Nat} {n : Node α},
    t.content id = some n → n.parent = above path → Around t.content (some id) path →
      (id :: pathIds path).Nodup → path.length < steps →
      t.climbWithin steps id = .ok ((after path).head?.map (·.1)) := by
  induction path with
  | nil =>
    rintro (_ | steps) id n hid hparent - - hsteps
    · cases hsteps
    rw [climbWithin, node_eq_ok hid, ok_bind, hparent]
    rfl
  | cons k path ih =>
    rintro (_ | steps) id n hid hparent ⟨⟨h, z, hk⟩, -, haround⟩ hnodup hsteps
    · cases hsteps
    obtain ⟨hnot, hpath⟩ := List.nodup_cons.mp hnodup
    obtain ⟨side, kid, kv, sibling⟩ := k
    rw [climbWithin, node_eq_ok hid, ok_bind, hparent]
    simp only [above_cons, node_eq_ok hk, ok_bind]
    cases side with
    | left => simp [nodeOf, after]
    | right =>
      have hne : sibling.top? ≠ some id := fun he =>
        hnot (by simp [pathIds, Tree.top?_mem_ids he])
      have hkid : (kid :: pathIds path).Nodup :=
        hpath.sublist (List.Sublist.cons_cons _ (List.sublist_append_right _ _))
      rw [nodeOf, if_neg hne, ih hk rfl haround hkid (Nat.lt_of_succ_lt_succ hsteps), after]

namespace Holds

theorem get (h : t.Holds tree loose) (hmem : (id, v) ∈ tree.items) : t.get id = .ok v := by
  obtain ⟨path, l, r, rfl⟩ := exists_place hmem
  rw [RankTree.get, node_eq_ok h.rep.split.1.1]
  rfl

/-- The bounds on walks suffice for the paths of the tree. -/
theorem path_lt {path : List (Crumb α)} {sub : Tree α} (h : t.Holds (plug path sub) loose) :
    path.length + sub.size < t.stepBound := by
  have := length_add_size_le path sub
  have := h.size_le
  unfold stepBound
  omega

theorem leftmost {path : List (Crumb α)} {l r : Tree α}
    (h : t.Holds (plug path (.node id v l r)) loose) :
    t.leftmost id = .ok (((Tree.node id v l r).items.head?.map (·.1)).getD id) := by
  have hpath := h.path_lt
  have hheight := l.height_le_size
  rw [Tree.size] at hpath
  obtain ⟨q, first, w, r', hleftmost, hplug, hq⟩ :=
    leftmostWithin_spec h.rep.split.1 (show l.height < t.stepBound by omega)
  rw [RankTree.leftmost, hleftmost, hplug, items_plug, hq]
  rfl

/-- **The first node** is the first in the order. -/
theorem first (h : t.Holds tree loose) : t.first = .ok (tree.items.head?.map (·.1)) := by
  cases tree with
  | leaf =>
    rw [RankTree.first, h.root]
    rfl
  | node id v l r =>
    rw [RankTree.first, h.root]
    have hplace : t.Holds (plug [] (.node id v l r)) loose := h
    simp only [Tree.top?_node, hplace.leftmost, ok_bind, pure_eq_ok]
    cases hl : l.items <;> simp [hl]

/-- **The successor** of a node comes right after it. -/
theorem successor {a b : List (Nat × α)} (h : t.Holds tree loose)
    (hitems : tree.items = a ++ (id, v) :: b) : t.successor id = .ok (b.head?.map (·.1)) := by
  obtain ⟨path, l, r, rfl, -, rfl⟩ := exists_split hitems h.nodup_ids
  obtain ⟨⟨hid, -⟩, haround⟩ := h.rep.split
  rw [RankTree.successor, node_eq_ok hid, ok_bind]
  cases r with
  | leaf =>
    have hpath := h.path_lt
    obtain ⟨hnode, hpathnodup, hapart⟩ := nodup_plug.mp h.nodup_ids
    exact climbWithin_spec hid rfl haround
      (List.nodup_cons.mpr ⟨hapart id (by simp), hpathnodup⟩) (by omega)
  | node idr w rl rr =>
    have hright : t.Holds (plug (⟨.right, id, v, l⟩ :: path) (.node idr w rl rr)) loose := h
    simp only [Tree.top?_node, hright.leftmost, ok_bind, pure_eq_ok]
    cases hrl : rl.items <;> simp [hrl]

theorem listWithin (h : t.Holds tree loose) : ∀ {b a : List (Nat × α)} {steps : Nat},
    tree.items = a ++ b → b.length < steps →
      t.listWithin steps (b.head?.map (·.1)) a.reverse = .ok tree.items := by
  intro b
  induction b with
  | nil =>
    intro a steps hitems _
    rw [hitems]
    simp [RankTree.listWithin]
  | cons e b ih =>
    rintro a (_ | steps) hitems hsteps
    · cases hsteps
    obtain ⟨id, v⟩ := e
    have hitems' : tree.items = (a ++ [(id, v)]) ++ b := by simp [hitems]
    have hnext := ih hitems' (Nat.lt_of_succ_lt_succ hsteps)
    rw [List.reverse_append] at hnext
    rw [List.head?_cons, Option.map_some, RankTree.listWithin, h.successor hitems, ok_bind,
      h.get (v := v) (by simp [hitems]), ok_bind]
    exact hnext

/-- **Listing** goes through the whole order. -/
theorem toList (h : t.Holds tree loose) : t.toList = .ok tree.items := by
  have hbound : tree.items.length < t.stepBound := by
    have := h.size_le
    rw [Tree.length_items]
    unfold stepBound
    omega
  rw [RankTree.toList, h.first, ok_bind]
  exact h.listWithin (a := []) rfl hbound

end Holds

/-! ## Ranks -/

theorem rankWithin_spec {path : List (Crumb α)} : ∀ {steps id rank : Nat} {n : Node α},
    t.content id = some n → n.parent = above path → Around t.content (some id) path →
      (id :: pathIds path).Nodup → path.length < steps →
      t.rankWithin steps id rank = .ok (rank + (before path).length) := by
  induction path with
  | nil =>
    rintro (_ | steps) id rank n hid hparent - - hsteps
    · cases hsteps
    rw [rankWithin, node_eq_ok hid, ok_bind, hparent]
    rfl
  | cons k path ih =>
    rintro (_ | steps) id rank n hid hparent ⟨⟨h, z, hk⟩, hsibling, haround⟩ hnodup hsteps
    · cases hsteps
    obtain ⟨hnot, hpath⟩ := List.nodup_cons.mp hnodup
    obtain ⟨side, kid, kv, sibling⟩ := k
    have hkid : (kid :: pathIds path).Nodup :=
      hpath.sublist (List.Sublist.cons_cons _ (List.sublist_append_right _ _))
    have hnext : ∀ rank, t.rankWithin steps kid rank = .ok (rank + (before path).length) :=
      fun _ => ih hk (nodeOf_parent ..) haround hkid (Nat.lt_of_succ_lt_succ hsteps)
    rw [rankWithin, node_eq_ok hid, ok_bind, hparent]
    simp only [above_cons, node_eq_ok hk, ok_bind]
    cases side with
    | left =>
      have hne : sibling.top? ≠ some id := fun he =>
        hnot (by simp [pathIds, Tree.top?_mem_ids he])
      rw [nodeOf, if_neg hne, hnext, before]
    | right =>
      rw [nodeOf, if_pos rfl, hsibling.sizeAt, ok_bind, hnext, before]
      simp only [List.length_append, Tree.length_items, List.length_singleton]
      congr 1
      omega

/-- **The rank** of a node is the number of nodes before it. -/
theorem Holds.rank {a b : List (Nat × α)} (h : t.Holds tree loose)
    (hitems : tree.items = a ++ (id, v) :: b) : t.rank id = .ok a.length := by
  obtain ⟨path, l, r, rfl, rfl, -⟩ := exists_split hitems h.nodup_ids
  obtain ⟨⟨hid, hl, -⟩, haround⟩ := h.rep.split
  obtain ⟨hnode, hpathnodup, hapart⟩ := nodup_plug.mp h.nodup_ids
  have hpath := h.path_lt
  rw [RankTree.rank, node_eq_ok hid, ok_bind, hl.sizeAt, ok_bind,
    rankWithin_spec hid rfl haround (List.nodup_cons.mpr ⟨hapart id (by simp), hpathnodup⟩)
      (by omega), List.length_append, Tree.length_items, Nat.add_comm]

/-! ## Offsets -/

theorem height_le_plug (path : List (Crumb α)) (sub : Tree α) :
    sub.height ≤ (plug path sub).height := by
  induction path generalizing sub with
  | nil => exact Nat.le_refl _
  | cons k path ih =>
    have := ih (k.fill sub)
    rw [Crumb.fill, Tree.height_join] at this
    exact Nat.le_trans (by omega) this

variable {p : Option Nat} {l r : Tree α} {target pos : Int} {steps size : Nat}

/-- To a later position in the subtree, the walk goes right. -/
theorem offsetWithin_right (h : Rep t.content p (.node id v l r)) (hlt : pos < target)
    (hle : target ≤ pos + r.size) (hlow : -(size : Int) ≤ pos) (hhigh : pos + r.size ≤ size) :
    ∃ c w rl rr, r = .node c w rl rr ∧ ∀ answer,
      Answers size (t.offsetWithin target steps c (pos + (rl.size + 1))) answer →
      Answers size (t.offsetWithin target (steps + 1) id pos) answer := by
  obtain ⟨hid, -, hr⟩ := h
  cases r with
  | leaf =>
    rw [Tree.size] at hle
    omega
  | node c w rl rr =>
    refine ⟨c, w, rl, rr, rfl, fun answer hanswer => ?_⟩
    have hreach : t.sizeAt (some c) = .ok (1 + rl.size + rr.size) := hr.sizeAt
    have hinner : t.sizeAt rl.top? = .ok rl.size := hr.2.1.sizeAt
    rw [Tree.size] at hle hhigh
    rw [offsetWithin, if_neg (by omega), node_eq_ok hid, ok_bind]
    simp only [if_pos hlt, Node.child, Tree.top?_node, hreach, ok_bind]
    refine .bind (.signedWord (by omega) (by omega)) ?_
    rw [pure_eq_ok, ok_bind, if_pos (by simpa using hle)]
    simp only [node_eq_ok hr.1, ok_bind, Side.other, hinner, if_true]
    exact .bind (.signedWord (by omega) (by omega)) hanswer

/-- To an earlier position in the subtree, the walk goes left. -/
theorem offsetWithin_left (h : Rep t.content p (.node id v l r)) (hlt : target < pos)
    (hle : pos - l.size ≤ target) (hlow : -(size : Int) ≤ pos - l.size) (hhigh : pos ≤ size) :
    ∃ c w ll lr, l = .node c w ll lr ∧ ∀ answer,
      Answers size (t.offsetWithin target steps c (pos - (lr.size + 1))) answer →
      Answers size (t.offsetWithin target (steps + 1) id pos) answer := by
  obtain ⟨hid, hl, -⟩ := h
  cases l with
  | leaf =>
    rw [Tree.size] at hle
    omega
  | node c w ll lr =>
    refine ⟨c, w, ll, lr, rfl, fun answer hanswer => ?_⟩
    have hreach : t.sizeAt (some c) = .ok (1 + ll.size + lr.size) := hl.sizeAt
    have hinner : t.sizeAt lr.top? = .ok lr.size := hl.2.2.sizeAt
    rw [Tree.size] at hle hlow
    rw [offsetWithin, if_neg (by omega), node_eq_ok hid, ok_bind]
    simp only [if_neg (show ¬pos < target by omega), Node.child, Tree.top?_node, hreach, ok_bind]
    refine .bind (.signedWord (by omega) (by omega)) ?_
    rw [pure_eq_ok, ok_bind, if_pos (by simpa using hle)]
    simp only [node_eq_ok hl.1, ok_bind, Side.other, hinner, reduceCtorEq, if_false]
    exact .bind (.signedWord (by omega) (by omega)) hanswer

/-- To a position outside of the subtree, the walk goes up. -/
theorem offsetWithin_up (h : Rep t.content p (.node id v l r))
    (houtside : target < pos - l.size ∨ pos + r.size < target)
    (hlow : -(size : Int) ≤ pos - l.size) (hhigh : pos + r.size ≤ size) {answer : Option Nat}
    (hanswer : Answers size
      (match p with
        | none => pure none
        | some q => do
          if (← t.node q).right = some id then
            t.offsetWithin target steps q (← signedWord (pos - (l.size + 1)))
          else
            t.offsetWithin target steps q (← signedWord (pos + (r.size + 1)))) answer) :
    Answers size (t.offsetWithin target (steps + 1) id pos) answer := by
  obtain ⟨hid, hl, hr⟩ := h
  rw [offsetWithin, if_neg (by omega), node_eq_ok hid, ok_bind]
  by_cases hlt : pos < target
  · simp only [if_pos hlt, Node.child, hl.sizeAt, hr.sizeAt, ok_bind]
    refine .bind (.signedWord (by omega) (by omega)) ?_
    rw [pure_eq_ok, ok_bind, if_neg (by simp; omega)]
    exact hanswer
  · simp only [if_neg hlt, Node.child, hl.sizeAt, hr.sizeAt, ok_bind]
    refine .bind (.signedWord (by omega) (by omega)) ?_
    rw [pure_eq_ok, ok_bind, if_neg (by simp; omega)]
    exact hanswer

/-- A position in a subtree is found there. -/
theorem offsetWithin_inside {sub : Tree α} : ∀ {steps : Nat} {p : Option Nat} {id : Nat} {v : α}
    {l r : Tree α} {pos : Int}, sub = .node id v l r → Rep t.content p sub →
      pos - l.size ≤ target → target ≤ pos + r.size → -(size : Int) ≤ pos - l.size →
      pos + r.size ≤ size → sub.height ≤ steps →
      Answers size (t.offsetWithin target steps id pos)
        (idAt sub.items (l.size + (target - pos))) := by
  induction sub with
  | leaf => exact fun h => by cases h
  | node id v l r ihl ihr =>
    rintro (_ | steps) p _ _ _ _ pos ⟨⟩ hrep hlow hhigh hmin hmax hsteps
    · simp [Tree.height] at hsteps
    rw [Tree.height] at hsteps
    have hitems : ((Tree.node id v l r).items : List (Nat × α))
        = l.items ++ [(id, v)] ++ r.items := by
      simp
    rcases Int.lt_trichotomy pos target with hlt | rfl | hlt
    · obtain ⟨c, w, rl, rr, rfl, hgo⟩ := offsetWithin_right hrep hlt hhigh (by omega) hmax
      rw [Tree.size] at hhigh hmax
      have hnext := ihr rfl hrep.2.2 (show pos + (rl.size + 1) - rl.size ≤ target by omega)
        (by omega) (by omega) (by omega) (show _ ≤ steps by omega)
      have hpos : (l.size : Int) + (target - pos)
          = ((l.items ++ [(id, v)]).length : Int)
            + (rl.size + (target - (pos + (rl.size + 1)))) := by
        rw [List.length_append, Tree.length_items, List.length_singleton]
        omega
      apply hgo _
      rw [hitems, hpos, ← List.append_nil (l.items ++ [(id, v)] ++ _), idAt_middle _ _ _ (by omega)]
      · exact hnext
      · rw [Tree.length_items, Tree.size]
        omega
    · rw [offsetWithin, if_pos rfl, hitems, List.append_assoc, Int.sub_self, Int.add_zero,
        idAt_natCast, ← Tree.length_items]
      simp [Answers.ok]
    · obtain ⟨c, w, ll, lr, rfl, hgo⟩ := offsetWithin_left hrep hlt hlow hmin (by omega)
      rw [Tree.size] at hlow hmin
      have hnext := ihl rfl hrep.2.1 (show pos - (lr.size + 1) - ll.size ≤ target by omega)
        (by omega) (by omega) (by omega) (show _ ≤ steps by omega)
      have hpos : ((Tree.node c w ll lr).size : Int) + (target - pos)
          = (([] : List (Nat × α)).length : Int)
            + (ll.size + (target - (pos - (lr.size + 1)))) := by
        rw [Tree.size, List.length_nil]
        omega
      apply hgo _
      rw [hitems, hpos, List.append_assoc, ← List.nil_append (Tree.items _ ++ _),
        ← List.append_assoc, idAt_middle _ _ _ (by omega)]
      · exact hnext
      · rw [Tree.length_items, Tree.size]
        omega

/-- A position in a subtree of the tree is found there. -/
theorem offsetWithin_found {path : List (Crumb α)}
    (hrep : Rep t.content none (plug path (.node id v l r)))
    (hlow : pos - l.size ≤ target) (hhigh : target ≤ pos + r.size)
    (hmin : -(size : Int) ≤ pos - l.size) (hmax : pos + r.size ≤ size)
    (hsteps : (plug path (.node id v l r)).height ≤ steps) :
    Answers size (t.offsetWithin target steps id pos)
      (idAt (plug path (.node id v l r)).items
        ((before path).length + l.size + (target - pos))) := by
  have hheight := height_le_plug path (.node id v l r)
  rw [items_plug, Int.add_assoc, idAt_middle _ _ _ (by omega)]
  · exact offsetWithin_inside rfl hrep.split.1 hlow hhigh hmin hmax (Nat.le_trans hheight hsteps)
  · rw [Tree.length_items, Tree.size]
    omega

/-- A position in the tree is found from every node. -/
theorem offsetWithin_spec {path : List (Crumb α)} : ∀ {steps id : Nat} {v : α} {l r : Tree α}
    {pos : Int}, Rep t.content none (plug path (.node id v l r)) →
      (plug path (.node id v l r)).ids.Nodup → (plug path (.node id v l r)).size ≤ size →
      0 ≤ ((before path).length + l.size : Int) - pos →
      ((before path).length + l.size : Int) - pos < (plug path (.node id v l r)).size →
      path.length + (plug path (.node id v l r)).height ≤ steps →
      Answers size (t.offsetWithin target steps id pos)
        (idAt (plug path (.node id v l r)).items
          ((before path).length + l.size + (target - pos))) := by
  induction path with
  | nil =>
    rintro (_ | steps) id v l r pos hrep hnodup hsize hmin hmax hsteps
    · simp [Tree.height] at hsteps
    rw [plug_nil, Tree.size] at hsize hmax
    simp only [before, List.length_nil] at hmin hmax
    by_cases hin : pos - l.size ≤ target ∧ target ≤ pos + r.size
    · exact offsetWithin_found hrep hin.1 hin.2 (by omega) (by omega) (by omega)
    · refine offsetWithin_up (p := none) hrep (by omega) (by omega) (by omega) ?_
      rw [idAt_outside (by
        simp only [before, List.length_nil, plug_nil, Tree.length_items, Tree.size]
        omega)]
      exact .ok none
  | cons k path ih =>
    rintro (_ | steps) id v l r pos hrep hnodup hsize hmin hmax hsteps
    · simp at hsteps
    have hlen := congrArg List.length (items_plug (k :: path) (.node id v l r))
    simp only [List.length_append, Tree.length_items, Tree.size] at hlen
    by_cases hin : pos - l.size ≤ target ∧ target ≤ pos + r.size
    · exact offsetWithin_found hrep hin.1 hin.2 (by omega) (by omega) (by omega)
    · -- The walk goes up; the position of the node above follows from the size of the subtree
      -- on the way.
      obtain ⟨side, kid, kv, sibling⟩ := k
      have hfill : Rep t.content none (plug path (.join side kid kv (.node id v l r) sibling)) :=
        hrep
      obtain ⟨hkid, hsub, -⟩ := rep_join.mp hfill.split.1
      have hne : sibling.top? ≠ some id := by
        intro he
        obtain ⟨-, -, hapart⟩ := nodup_plug.mp hnodup
        exact hapart id (by simp) (by simp [pathIds, Tree.top?_mem_ids he])
      apply offsetWithin_up hsub (by omega) (by omega) (by omega)
      simp only [node_eq_ok hkid, ok_bind]
      rw [List.length_cons] at hsteps
      cases side with
      | left =>
        simp only [plug_cons, Crumb.fill, Tree.join, before]
          at hrep hnodup hsize hmin hmax hsteps hlen ⊢
        have hgo : Answers size (t.offsetWithin target steps kid (pos + (r.size + 1)))
            (idAt (plug path (.node kid kv (.node id v l r) sibling)).items
              ((before path).length + (Tree.node id v l r).size
                + (target - (pos + (r.size + 1))))) :=
          ih hrep hnodup hsize (by rw [Tree.size]; omega) (by rw [Tree.size]; omega) (by omega)
        have hpos : ((before path).length + l.size + (target - pos) : Int)
            = (before path).length + (Tree.node id v l r).size
              + (target - (pos + (r.size + 1))) := by
          rw [Tree.size]
          omega
        rw [nodeOf, if_neg hne, hpos]
        exact .bind (.signedWord (by omega) (by omega)) hgo
      | right =>
        simp only [plug_cons, Crumb.fill, Tree.join, before, List.length_append, Tree.length_items,
          List.length_singleton] at hrep hnodup hsize hmin hmax hsteps hlen ⊢
        have hgo : Answers size (t.offsetWithin target steps kid (pos - (l.size + 1)))
            (idAt (plug path (.node kid kv sibling (.node id v l r))).items
              ((before path).length + sibling.size + (target - (pos - (l.size + 1))))) :=
          ih hrep hnodup hsize (by omega) (by omega) (by omega)
        have hpos :
            (((before path).length + sibling.size + 1 : Nat) + l.size + (target - pos) : Int)
              = (before path).length + sibling.size + (target - (pos - (l.size + 1))) := by
          omega
        rw [nodeOf, if_pos (Tree.top?_node ..), hpos]
        exact .bind (.signedWord (by omega) (by omega)) hgo

/-- **Moving some positions** finds the node there, if there is one. -/
theorem Holds.offset {a b : List (Nat × α)} (h : t.Holds tree loose)
    (hitems : tree.items = a ++ (id, v) :: b) (k : Int) :
    Answers tree.size (t.offset id k) (idAt tree.items (a.length + k)) := by
  obtain ⟨path, l, r, rfl, rfl, -⟩ := exists_split hitems h.nodup_ids
  have hlen := congrArg List.length (items_plug path (.node id v l r))
  simp only [List.length_append, Tree.length_items, Tree.size] at hlen
  have hheight := (plug path (.node id v l r)).height_le_size
  have hsize := h.size_le
  have hpath := length_add_size_le path (.node id v l r)
  have hsteps : path.length + (plug path (.node id v l r)).height ≤ t.stepBound := by
    unfold stepBound
    omega
  have hgo : Answers (plug path (.node id v l r)).size (t.offsetWithin k t.stepBound id 0)
      (idAt (plug path (.node id v l r)).items ((before path).length + l.size + (k - 0))) :=
    offsetWithin_spec h.rep h.nodup_ids (Nat.le_refl _) (by omega) (by omega) hsteps
  rw [Int.sub_zero] at hgo
  rw [List.length_append, Tree.length_items, Int.natCast_add]
  exact hgo

end RankTree

end KeyServer
