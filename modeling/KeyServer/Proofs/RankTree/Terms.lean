import KeyServer.RankTree
import Mathlib.Data.List.Basic

/-! # Trees as terms

What the nodes of an arena form together is a term: a node has an id, a value and two
subtrees.  Heights and sizes are functions of the term, and so is its order (`Tree.items`).

A place in a tree is a path of `Crumb`s: the nodes from it up to the root, each with the
subtree on its other side.  `plug` puts a subtree in the place, and `fixUp` does so and
restores the balance of every node on the way up.

* **Restoring balance keeps the order** (`items_rebalance`, `items_fixUp`).
* **What is around a place** is before it or after it (`items_plug`).
-/

namespace KeyServer

namespace RankTree

variable {α : Type}

/-- A tree whose nodes have ids and values. -/
inductive Tree (α : Type) where
  | leaf
  | node (id : Nat) (value : α) (left right : Tree α)

namespace Tree

/-- The id of the node on top. -/
def top? : Tree α → Option Nat
  | leaf => none
  | node id _ _ _ => some id

/-- The number of levels. -/
def height : Tree α → Nat
  | leaf => 0
  | node _ _ l r => 1 + max l.height r.height

/-- The number of nodes. -/
def size : Tree α → Nat
  | leaf => 0
  | node _ _ l r => 1 + l.size + r.size

/-- The ids and values of the nodes in order. -/
def items : Tree α → List (Nat × α)
  | leaf => []
  | node id v l r => l.items ++ (id, v) :: r.items

/-- The ids of the nodes in order. -/
def ids (t : Tree α) : List Nat := t.items.map (·.1)

@[simp] theorem top?_leaf : (leaf : Tree α).top? = none := rfl

@[simp] theorem top?_node (id : Nat) (v : α) (l r : Tree α) : (node id v l r).top? = some id := rfl

@[simp] theorem items_leaf : (leaf : Tree α).items = [] := rfl

@[simp] theorem items_node (id : Nat) (v : α) (l r : Tree α) :
    (node id v l r).items = l.items ++ (id, v) :: r.items := rfl

@[simp] theorem ids_leaf : (leaf : Tree α).ids = [] := rfl

@[simp] theorem ids_node (id : Nat) (v : α) (l r : Tree α) :
    (node id v l r).ids = l.ids ++ id :: r.ids := by
  simp [ids]

theorem length_items (t : Tree α) : t.items.length = t.size := by
  induction t with
  | leaf => rfl
  | node id v l r ihl ihr =>
    rw [items_node, List.length_append, List.length_cons, ihl, ihr, size]
    omega

theorem length_ids (t : Tree α) : t.ids.length = t.size := by
  rw [ids, List.length_map, length_items]

theorem height_le_size (t : Tree α) : t.height ≤ t.size := by
  induction t with
  | leaf => exact Nat.le_refl 0
  | node id v l r ihl ihr =>
    rw [height, size]
    omega

theorem top?_mem_ids {t : Tree α} {id : Nat} (h : t.top? = some id) : id ∈ t.ids := by
  cases t with
  | leaf => cases h
  | node id' v l r =>
    cases h
    simp

theorem top?_eq_none {t : Tree α} : t.top? = none ↔ t = leaf := by
  cases t <;> simp

/-! ## Sides

A node is built from what is on one side and what is on the other, so that facts which hold
for both sides need to be said only once. -/

/-- A node with one subtree on a side and one on the other. -/
def join (s : Side) (id : Nat) (v : α) (near far : Tree α) : Tree α :=
  match s with
  | .left => node id v near far
  | .right => node id v far near

theorem join_other (s : Side) (id : Nat) (v : α) (near far : Tree α) :
    join s.other id v near far = join s id v far near := by
  cases s <;> rfl

@[simp] theorem top?_join (s : Side) (id : Nat) (v : α) (near far : Tree α) :
    (join s id v near far).top? = some id := by
  cases s <;> rfl

theorem height_join (s : Side) (id : Nat) (v : α) (near far : Tree α) :
    (join s id v near far).height = 1 + max near.height far.height := by
  cases s with
  | left => rfl
  | right =>
    show 1 + max far.height near.height = _
    rw [Nat.max_comm]

theorem size_join (s : Side) (id : Nat) (v : α) (near far : Tree α) :
    (join s id v near far).size = 1 + near.size + far.size := by
  cases s with
  | left => rfl
  | right =>
    show 1 + far.size + near.size = _
    omega

theorem ids_join_perm (s : Side) (id : Nat) (v : α) (near far : Tree α) :
    (join s id v near far).ids.Perm (id :: near.ids ++ far.ids) := by
  cases s with
  | left =>
    rw [join, ids_node]
    exact List.perm_middle
  | right =>
    rw [join, ids_node]
    exact List.perm_middle.trans (List.perm_append_comm.cons id)

theorem mem_ids_join {s : Side} {id : Nat} {v : α} {near far : Tree α} {i : Nat} :
    i ∈ (join s id v near far).ids ↔ i = id ∨ i ∈ near.ids ∨ i ∈ far.ids := by
  rw [(ids_join_perm s id v near far).mem_iff]
  simp

theorem nodup_join {s : Side} {id : Nat} {v : α} {near far : Tree α} :
    (join s id v near far).ids.Nodup ↔
      id ∉ near.ids ∧ id ∉ far.ids ∧ near.ids.Nodup ∧ far.ids.Nodup ∧
        ∀ i ∈ near.ids, i ∉ far.ids := by
  rw [(ids_join_perm s id v near far).nodup_iff, List.cons_append, List.nodup_cons,
    List.mem_append, List.nodup_append]
  constructor
  · rintro ⟨hid, hnear, hfar, hne⟩
    exact ⟨fun h => hid (.inl h), fun h => hid (.inr h), hnear, hfar,
      fun i hi hi' => hne i hi i hi' rfl⟩
  · rintro ⟨hid, hid', hnear, hfar, hne⟩
    refine ⟨fun h => h.elim hid hid', hnear, hfar, ?_⟩
    rintro i hi _ hj rfl
    exact hne i hi hj

/-- A tree with something in it has a node on top, from whichever side it is looked at. -/
theorem exists_join (s : Side) {t : Tree α} (h : 0 < t.height) :
    ∃ id v near far, t = join s id v near far := by
  cases t with
  | leaf => exact absurd h (Nat.lt_irrefl 0)
  | node id v l r =>
    cases s with
    | left => exact ⟨id, v, l, r, rfl⟩
    | right => exact ⟨id, v, r, l, rfl⟩

/-! ## Balance -/

/-- Rotates towards a side: the child of the other side becomes the top. -/
def rotate : Side → Tree α → Tree α
  | .left, node id v l (node top w m r) => node top w (node id v l m) r
  | .right, node id v (node top w l m) r => node top w l (node id v m r)
  | _, t => t

theorem rotate_join (s : Side) (id top : Nat) (v w : α) (near inner far : Tree α) :
    rotate s (join s id v near (join s top w inner far))
      = join s top w (join s id v near inner) far := by
  cases s <;> rfl

@[simp] theorem items_rotate (s : Side) (t : Tree α) : (rotate s t).items = t.items := by
  unfold rotate
  split <;> simp

/-- Restores the balance of a tree that is two higher on one side. -/
def lighten : Side → Tree α → Tree α
  | .left, node id v (node c w a b) r =>
    if a.height < b.height then rotate .right (node id v (rotate .left (node c w a b)) r)
    else rotate .right (node id v (node c w a b) r)
  | .right, node id v l (node c w a b) =>
    if b.height < a.height then rotate .left (node id v l (rotate .right (node c w a b)))
    else rotate .left (node id v l (node c w a b))
  | _, t => t

theorem lighten_join (s : Side) (id c : Nat) (v w : α) (outer inner far : Tree α) :
    lighten s (join s id v (join s c w outer inner) far)
      = if outer.height < inner.height then
          rotate s.other (join s id v (rotate s (join s c w outer inner)) far)
        else rotate s.other (join s id v (join s c w outer inner) far) := by
  cases s <;> rfl

@[simp] theorem items_lighten (s : Side) (t : Tree α) : (lighten s t).items = t.items := by
  unfold lighten
  split
  · split <;> simp
  · split <;> simp
  · rfl

/-- Restores the balance of a tree whose two sides differ by at most two levels. -/
def rebalance : Tree α → Tree α
  | leaf => leaf
  | node id v l r =>
    if l.height = r.height + 2 then lighten .left (node id v l r)
    else if r.height = l.height + 2 then lighten .right (node id v l r)
    else node id v l r

/-- **Restoring balance keeps the order.** -/
@[simp] theorem items_rebalance (t : Tree α) : t.rebalance.items = t.items := by
  unfold rebalance
  split
  · rfl
  · split
    · simp
    · split <;> simp

theorem size_rebalance (t : Tree α) : t.rebalance.size = t.size := by
  rw [← length_items, items_rebalance, length_items]

end Tree

/-! ## Places -/

/-- One step on the way from a place up to the root: the side of a node that was left for
it, the node, and the subtree on its other side. -/
structure Crumb (α : Type) where
  side : Side
  id : Nat
  value : α
  sibling : Tree α

/-- The subtree of the node of a crumb, with `t` on the side of the crumb. -/
def Crumb.fill (c : Crumb α) (t : Tree α) : Tree α := Tree.join c.side c.id c.value t c.sibling

/-- The tree with `t` in a place. -/
def plug : List (Crumb α) → Tree α → Tree α
  | [], t => t
  | c :: path, t => plug path (c.fill t)

/-- The tree with `t` in a place, and with balance restored from there up. -/
def fixUp : List (Crumb α) → Tree α → Tree α
  | [], t => t
  | c :: path, t => fixUp path (c.fill t).rebalance

/-- The node that a place hangs on. -/
def above (path : List (Crumb α)) : Option Nat := path.head?.map (·.id)

/-- What comes before a place in the order. -/
def before : List (Crumb α) → List (Nat × α)
  | [] => []
  | c :: path =>
    match c.side with
    | .left => before path
    | .right => before path ++ c.sibling.items ++ [(c.id, c.value)]

/-- What comes after a place in the order. -/
def after : List (Crumb α) → List (Nat × α)
  | [] => []
  | c :: path =>
    match c.side with
    | .left => (c.id, c.value) :: c.sibling.items ++ after path
    | .right => after path

@[simp] theorem above_nil : above ([] : List (Crumb α)) = none := rfl

@[simp] theorem above_cons (c : Crumb α) (path : List (Crumb α)) : above (c :: path) = some c.id :=
  rfl

@[simp] theorem plug_nil (t : Tree α) : plug [] t = t := rfl

@[simp] theorem plug_cons (c : Crumb α) (path : List (Crumb α)) (t : Tree α) :
    plug (c :: path) t = plug path (c.fill t) := rfl

theorem plug_append (p q : List (Crumb α)) (t : Tree α) : plug (p ++ q) t = plug q (plug p t) := by
  induction p generalizing t with
  | nil => rfl
  | cons c p ih => exact ih (c.fill t)

theorem before_append (p q : List (Crumb α)) : before (p ++ q) = before q ++ before p := by
  induction p with
  | nil => simp [before]
  | cons c p ih =>
    obtain ⟨side, id, v, sibling⟩ := c
    cases side <;> simp [before, ih]

theorem after_append (p q : List (Crumb α)) : after (p ++ q) = after p ++ after q := by
  induction p with
  | nil => simp [after]
  | cons c p ih =>
    obtain ⟨side, id, v, sibling⟩ := c
    cases side <;> simp [after, ih]

/-- **A place splits the order** into what is before, in and after it. -/
theorem items_plug (path : List (Crumb α)) (t : Tree α) :
    (plug path t).items = before path ++ t.items ++ after path := by
  induction path generalizing t with
  | nil => simp [before, after]
  | cons c path ih =>
    obtain ⟨side, id, v, sibling⟩ := c
    rw [plug_cons, ih]
    cases side <;> simp [Crumb.fill, Tree.join, before, after]

/-- **Restoring balance on the way up keeps the order.** -/
theorem items_fixUp (path : List (Crumb α)) (t : Tree α) :
    (fixUp path t).items = (plug path t).items := by
  induction path generalizing t with
  | nil => rfl
  | cons c path ih =>
    rw [fixUp, ih, items_plug, Tree.items_rebalance, ← items_plug, plug_cons]

theorem ids_fixUp (path : List (Crumb α)) (t : Tree α) :
    (fixUp path t).ids = (plug path t).ids := by
  rw [Tree.ids, Tree.ids, items_fixUp]

/-- The ids of the nodes around a place. -/
def pathIds : List (Crumb α) → List Nat
  | [] => []
  | c :: path => c.id :: c.sibling.ids ++ pathIds path

theorem id_mem_pathIds {path : List (Crumb α)} {k : Crumb α} (h : k ∈ path) :
    k.id ∈ pathIds path := by
  induction path with
  | nil => cases h
  | cons c path ih =>
    rw [pathIds, List.cons_append, List.mem_cons, List.mem_append]
    rcases List.mem_cons.mp h with rfl | h
    · exact .inl rfl
    · exact .inr (.inr (ih h))

theorem ids_plug_perm (path : List (Crumb α)) (t : Tree α) :
    (plug path t).ids.Perm (t.ids ++ pathIds path) := by
  induction path generalizing t with
  | nil => simp [pathIds]
  | cons c path ih =>
    have hfill : (c.fill t).ids.Perm (t.ids ++ (c.id :: c.sibling.ids)) :=
      (Tree.ids_join_perm _ _ _ _ _).trans List.perm_middle.symm
    refine (ih (c.fill t)).trans ((hfill.append_right (pathIds path)).trans ?_)
    rw [List.append_assoc]
    exact .refl _

theorem size_plug (path : List (Crumb α)) (t : Tree α) :
    (plug path t).size = t.size + (pathIds path).length := by
  rw [← Tree.length_ids, (ids_plug_perm path t).length_eq, List.length_append, Tree.length_ids]

theorem mem_ids_plug {path : List (Crumb α)} {t : Tree α} {i : Nat} :
    i ∈ (plug path t).ids ↔ i ∈ t.ids ∨ i ∈ pathIds path := by
  rw [(ids_plug_perm path t).mem_iff, List.mem_append]

theorem nodup_plug {path : List (Crumb α)} {t : Tree α} :
    (plug path t).ids.Nodup ↔
      t.ids.Nodup ∧ (pathIds path).Nodup ∧ ∀ i ∈ t.ids, i ∉ pathIds path := by
  rw [(ids_plug_perm path t).nodup_iff, List.nodup_append]
  constructor
  · rintro ⟨ht, hpath, hne⟩
    exact ⟨ht, hpath, fun i hi hi' => hne i hi i hi' rfl⟩
  · rintro ⟨ht, hpath, hne⟩
    refine ⟨ht, hpath, ?_⟩
    rintro i hi _ hj rfl
    exact hne i hi hj

/-- The top of a tree does not depend on what is in a place below it. -/
theorem top?_plug_cons (k : Crumb α) (path : List (Crumb α)) (t t' : Tree α) :
    (plug (k :: path) t).top? = (plug (k :: path) t').top? := by
  induction path generalizing k t t' with
  | nil => rw [plug_cons, plug_cons, plug_nil, plug_nil, Crumb.fill, Crumb.fill, Tree.top?_join,
      Tree.top?_join]
  | cons k' path ih => exact ih k' (k.fill t) (k.fill t')

/-- Where ids do not repeat, a node has one place in the order. -/
theorem append_cons_inj_of_nodup {a b a' b' : List (Nat × α)} {e : Nat × α}
    (hnodup : ((a ++ e :: b).map (·.1)).Nodup) (h : a ++ e :: b = a' ++ e :: b') :
    a = a' ∧ b = b' := by
  rw [List.map_append, List.map_cons, List.nodup_append, List.nodup_cons] at hnodup
  obtain ⟨-, ⟨hid, -⟩, hne⟩ := hnodup
  have ha : e ∉ a := fun he =>
    hne e.1 (List.mem_map_of_mem (f := (·.1)) he) e.1 List.mem_cons_self rfl
  have hb : e ∉ b := fun he => hid (List.mem_map_of_mem (f := (·.1)) he)
  obtain ⟨haa, -, hbb⟩ := (List.append_cons_inj_of_notMem ha hb).mp h
  exact ⟨haa, hbb⟩

/-- Every node of a tree is on top of the subtree in some place. -/
theorem exists_place {t : Tree α} {id : Nat} {v : α} (h : (id, v) ∈ t.items) :
    ∃ path l r, t = plug path (.node id v l r) := by
  induction t with
  | leaf => simp at h
  | node id' v' l r ihl ihr =>
    rw [Tree.items_node, List.mem_append, List.mem_cons] at h
    rcases h with h | h | h
    · obtain ⟨path, l', r', rfl⟩ := ihl h
      exact ⟨path ++ [⟨.left, id', v', r⟩], l', r', by rw [plug_append]; rfl⟩
    · cases h
      exact ⟨[], l, r, rfl⟩
    · obtain ⟨path, l', r', rfl⟩ := ihr h
      exact ⟨path ++ [⟨.right, id', v', l⟩], l', r', by rw [plug_append]; rfl⟩

end RankTree

end KeyServer
