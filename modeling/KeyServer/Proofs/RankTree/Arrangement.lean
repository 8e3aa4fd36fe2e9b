import KeyServer.Proofs.Calls
import KeyServer.Proofs.RankTree.Balance
import KeyServer.Proofs.RankTree.Positions
import Mathlib.Order.Defs.Unbundled

/-! # A tree keeps its nodes in a line

What the operations do is told by an `Arrangement`: the linked nodes in order, the loose ones
and the node on top.  `Arrangement.Step` says what a call may answer and leave; the id of a
new node, and which node comes to the top, are left open.

* **`Holds.linked_iff`**, **`Holds.parent_iff`**: the nodes of the term are the ones that the
  root leads to, and every link up is the inverse of a link down.
* **`run_empty_arranges`**: whatever calls are made on an empty tree, as long as each is made
  on a node it is meant for, none of them fails, the answers are those of the arrangement,
  and the tree always shows it: it is balanced and sorted, and all its links and measures
  are right (`Shows`).
-/

namespace KeyServer.RankTree

variable {α : Type}

/-! ## Links -/

/-- The nodes that the links down from the root lead to. -/
inductive Linked (t : RankTree α) : Nat → Prop where
  | root {id : Nat} (hroot : t.root = some id) : Linked t id
  | child {id c : Nat} {n : Node α} (s : Side) (hid : Linked t id) (hn : t.content id = some n)
      (hc : n.child s = some c) : Linked t c

/-- A node that no link leads to is not linked. -/
theorem not_linked {t : RankTree α} {id : Nat} (hroot : t.root ≠ some id)
    (hchild : ∀ n, some n ∈ t.nodes → n.left ≠ some id ∧ n.right ≠ some id) : ¬t.Linked id := by
  rintro (hid | ⟨s, -, hn, hc⟩)
  · exact hroot hid
  · obtain ⟨hl, hr⟩ := hchild _ (Array.mem_of_getElem? (Option.join_eq_some_iff.mp hn))
    cases s with
    | left => exact hl hc
    | right => exact hr hc

/-- The nodes that are there but not linked. -/
def Loose (t : RankTree α) (id : Nat) : Prop := (t.content id).isSome ∧ ¬t.Linked id

namespace Holds

variable {t : RankTree α} {tree : Tree α} {loose : List (Nat × α)} {id : Nat}

/-- A node of the term, with the place it is in. -/
theorem exists_content (h : t.Holds tree loose) (hid : id ∈ tree.ids) :
    ∃ path v l r, tree = plug path (.node id v l r) ∧
      t.content id = some ⟨above path, l.top?, r.top?, 1 + max l.height r.height,
        1 + l.size + r.size, v⟩ ∧
      Rep t.content (some id) l ∧ Rep t.content (some id) r ∧ Around t.content (some id) path := by
  obtain ⟨⟨id, v⟩, hmem, rfl⟩ := List.mem_map.mp hid
  obtain ⟨path, l, r, rfl⟩ := exists_place hmem
  obtain ⟨⟨hcontent, hl, hr⟩, haround⟩ := h.rep.split
  exact ⟨path, v, l, r, rfl, hcontent, hl, hr, haround⟩

/-- A child of a node of the term is the top of one of the two subtrees. -/
theorem mem_ids_of_child (h : t.Holds tree loose) (hid : id ∈ tree.ids) {n : Node α} {s : Side}
    {c : Nat} (hn : t.content id = some n) (hc : n.child s = some c) :
    c ∈ tree.ids ∧ ∃ m, t.content c = some m ∧ m.parent = some id := by
  obtain ⟨path, v, l, r, rfl, hcontent, hl, hr, -⟩ := h.exists_content hid
  rw [hcontent, Option.some_inj] at hn
  subst hn
  obtain ⟨sub, hsub, htop, hids⟩ : ∃ sub : Tree α, Rep t.content (some id) sub ∧
      sub.top? = some c ∧ ∀ i ∈ sub.ids, i ∈ (plug path (.node id v l r)).ids := by
    cases s with
    | left => exact ⟨l, hl, hc, fun i hi => mem_ids_plug.mpr (.inl (by simp [hi]))⟩
    | right => exact ⟨r, hr, hc, fun i hi => mem_ids_plug.mpr (.inl (by simp [hi]))⟩
  refine ⟨hids c (Tree.top?_mem_ids htop), ?_⟩
  cases sub with
  | leaf => cases htop
  | node c' w a b =>
    cases htop
    exact ⟨_, hsub.1, rfl⟩

/-- **The nodes that the root leads to** are the nodes of the term. -/
theorem linked_iff (h : t.Holds tree loose) : t.Linked id ↔ id ∈ tree.ids := by
  constructor
  · intro hid
    induction hid with
    | root hroot => exact Tree.top?_mem_ids (h.root ▸ hroot)
    | child s _ hn hc ih => exact (h.mem_ids_of_child ih hn hc).1
  · -- From the top of a subtree the links lead to all of its nodes.
    have hdown : ∀ {sub : Tree α} {p : Option Nat}, Rep t.content p sub →
        (∀ top, sub.top? = some top → t.Linked top) → ∀ i ∈ sub.ids, t.Linked i := by
      intro sub
      induction sub with
      | leaf => exact fun _ _ i hi => by simp at hi
      | node id v l r ihl ihr =>
        rintro p ⟨hcontent, hl, hr⟩ htop i hi
        have hid := htop id rfl
        rw [Tree.ids_node, List.mem_append, List.mem_cons] at hi
        rcases hi with hi | rfl | hi
        · exact ihl hl (fun top he => .child .left hid hcontent he) i hi
        · exact hid
        · exact ihr hr (fun top he => .child .right hid hcontent he) i hi
    exact hdown h.rep (fun top he => .root (h.root.trans he)) id

/-- **Links up** are the inverse of links down. -/
theorem parent_iff (h : t.Holds tree loose) (hid : t.Linked id) {n : Node α}
    (hn : t.content id = some n) {p : Nat} :
    n.parent = some p ↔
      ∃ m s, t.Linked p ∧ t.content p = some m ∧ m.child s = some id := by
  constructor
  · intro hparent
    obtain ⟨path, v, l, r, htree, hcontent, -, -, haround⟩ := h.exists_content (h.linked_iff.mp hid)
    rw [hcontent, Option.some_inj] at hn
    subst hn
    cases path with
    | nil => cases hparent
    | cons k path =>
      obtain ⟨⟨height, size, hk⟩, -⟩ := haround
      cases hparent
      refine ⟨_, k.side, h.linked_iff.mpr ?_, hk, nodeOf_child ..⟩
      rw [htree, mem_ids_plug]
      exact .inr (id_mem_pathIds List.mem_cons_self)
  · rintro ⟨m, s, hp, hm, hc⟩
    obtain ⟨-, n', hn', hparent⟩ := h.mem_ids_of_child (h.linked_iff.mp hp) hm hc
    rw [hn, Option.some_inj] at hn'
    rw [hn', hparent]

/-- The root has no link up. -/
theorem parent_root (h : t.Holds tree loose) (hroot : t.root = some id) {n : Node α}
    (hn : t.content id = some n) : n.parent = none := by
  have hrep := h.rep
  rw [h.root] at hroot
  cases tree with
  | leaf => cases hroot
  | node id' v l r =>
    cases hroot
    obtain ⟨hcontent, -⟩ := hrep
    rw [hcontent, Option.some_inj] at hn
    rw [← hn]

theorem loose_iff (h : t.Holds tree loose) : t.Loose id ↔ id ∈ loose.map (·.1) := by
  rw [Loose, h.isSome_iff, h.linked_iff, List.mem_append]
  constructor
  · exact fun hid => hid.1.resolve_left hid.2
  · exact fun hid => ⟨.inr hid, fun hid' => (List.nodup_append.mp h.nodup).2.2 id hid' id hid rfl⟩

/-- The order of the loose nodes does not matter. -/
theorem perm_loose {loose' : List (Nat × α)} (h : t.Holds tree loose) (hperm : loose'.Perm loose) :
    t.Holds tree loose' where
  root := h.root
  rep := h.rep
  single := fun e he => h.single e (hperm.mem_iff.mp he)
  nodup := (((hperm.map _).append_left _).nodup_iff).mpr h.nodup
  live := fun i hi => ((hperm.map _).append_left _).mem_iff.mpr (h.live i hi)
  free_nodup := h.free_nodup
  mem_free := h.mem_free

/-- The values of all nodes, linked or loose. -/
theorem get_iff (h : t.Holds tree loose) {v : α} :
    t.get id = .ok v ↔ (id, v) ∈ tree.items ++ loose := by
  have hget : ∀ w, (id, w) ∈ tree.items ++ loose → t.get id = .ok w := by
    intro w hw
    rcases List.mem_append.mp hw with hw | hw
    · exact h.get hw
    · simp [RankTree.get, node_eq_ok (h.single _ hw), Node.single]
  refine ⟨fun hv => ?_, hget v⟩
  obtain ⟨n, hn, -⟩ := bind_eq_ok_iff.mp hv
  have hid := h.isSome_iff.mp (Option.isSome_iff_exists.mpr ⟨n, node_eq_ok_iff.mp hn⟩)
  rw [Tree.ids, ← List.map_append] at hid
  obtain ⟨⟨id', w⟩, hw, rfl⟩ := List.mem_map.mp hid
  rw [hget w hw] at hv
  cases hv
  exact hw

end Holds

/-! ## Calls -/

/-- A call of an operation. -/
inductive Call (α : Type) where
  | insert (v : α)
  | remove (id : Nat)
  | detach (id : Nat)
  /-- Gives a loose node another value. -/
  | set (id : Nat) (v : α)
  | attach (id : Nat)

/-- What a call answers. -/
inductive Answer (α : Type) where
  | node (id : Nat)
  | value (v : α)
  | root (root : Option Nat)
  | done

/-- Carries out one call. -/
def call (less : α → α → Bool) (t : RankTree α) : Call α → Except Fault (Answer α × RankTree α)
  | .insert v => do
    let (id, t) ← t.insert v less
    return (.node id, t)
  | .remove id => do
    let (v, t) ← t.remove id
    return (.value v, t)
  | .detach id => do
    let (t, root) ← t.detach id
    return (.root root, t)
  | .set id v => return (.done, ← t.set id v)
  | .attach id => return (.done, ← t.attach id less)

/-- Carries out one call with an adder for heights and sizes. -/
def callWith (less : α → α → Bool) (t : RankTree α) :
    Call α → Adder → Except Fault (Answer α × RankTree α)
  | .insert v, add => do
    let (id, t) ← t.insertWith v less add
    return (.node id, t)
  | .remove id, add => do
    let (v, t) ← t.removeWith id add
    return (.value v, t)
  | .detach id, add => do
    let (t, root) ← t.detachWith id add
    return (.root root, t)
  | .set id v, _ => return (.done, ← t.set id v)
  | .attach id, add => return (.done, ← t.attachWith id less add)

theorem callWith_exactly (less : α → α → Bool) (t : RankTree α) (c : Call α) :
    callWith less t c exactly = call less t c := by
  cases c with
  | insert v => simp only [callWith, call, insertWith_exactly]
  | remove id => simp only [callWith, call, removeWith_exactly]
  | detach id => simp only [callWith, call, detachWith_exactly]
  | set id v => rfl
  | attach id => simp only [callWith, call, attachWith_exactly]

/-- Whether a call is made on a node that it is meant for. -/
def Allows (t : RankTree α) : Call α → Prop
  | .insert _ => True
  | .remove id | .detach id => t.Linked id
  | .set id _ | .attach id => t.Loose id

/-! ## Arrangements -/

/-- The nodes of a tree with their values. -/
structure Arrangement (α : Type) where
  /-- The linked nodes in order. -/
  order : List (Nat × α)
  /-- The nodes that were taken out and kept. -/
  loose : List (Nat × α)
  /-- The node that all others are below. -/
  top : Option Nat

namespace Arrangement

/-- The ids in use. -/
def ids (s : Arrangement α) : List Nat := (s.order ++ s.loose).map (·.1)

/-- What a call may answer and leave.  A node goes right behind the values that are not
greater. -/
inductive Step (less : α → α → Bool) :
    Arrangement α → Call α → Answer α → Arrangement α → Prop where
  | insert {a b loose : List (Nat × α)} {top top' : Option Nat} {id : Nat} {v : α}
      (hnew : id ∉ ids ⟨a ++ b, loose, top⟩) (ha : ∀ e ∈ a, less v e.2 = false)
      (hb : ∀ e ∈ b, less v e.2 = true) :
      Step less ⟨a ++ b, loose, top⟩ (.insert v) (.node id) ⟨a ++ (id, v) :: b, loose, top'⟩
  | remove {a b loose : List (Nat × α)} {top top' : Option Nat} {id : Nat} {v : α} :
      Step less ⟨a ++ (id, v) :: b, loose, top⟩ (.remove id) (.value v) ⟨a ++ b, loose, top'⟩
  | detach {a b loose : List (Nat × α)} {top top' : Option Nat} {id : Nat} {v : α} :
      Step less ⟨a ++ (id, v) :: b, loose, top⟩ (.detach id) (.root top')
        ⟨a ++ b, (id, v) :: loose, top'⟩
  | set {order c d : List (Nat × α)} {top : Option Nat} {id : Nat} {v w : α} :
      Step less ⟨order, c ++ (id, v) :: d, top⟩ (.set id w) .done
        ⟨order, c ++ (id, w) :: d, top⟩
  | attach {a b c d : List (Nat × α)} {top top' : Option Nat} {id : Nat} {v : α}
      (ha : ∀ e ∈ a, less v e.2 = false) (hb : ∀ e ∈ b, less v e.2 = true) :
      Step less ⟨a ++ b, c ++ (id, v) :: d, top⟩ (.attach id) .done
        ⟨a ++ (id, v) :: b, c ++ d, top'⟩

/-- The order of the values, where later ones are not smaller. -/
def Sorted (less : α → α → Bool) (s : Arrangement α) : Prop :=
  s.order.Pairwise fun a b => less b.2 a.2 = false

end Arrangement

/-- A tree shows an arrangement in all its links, measures and walks. -/
structure Shows (less : α → α → Bool) (t : RankTree α) (s : Arrangement α) : Prop where
  /-- The root is the node on top, and has no link up. -/
  root : t.root = s.top ∧ ∀ id n, t.root = some id → t.content id = some n → n.parent = none
  /-- The root leads to the linked nodes and to no others. -/
  linked : ∀ id, t.Linked id ↔ id ∈ s.order.map (·.1)
  /-- Every link up is the inverse of a link down. -/
  parent : ∀ id n p, t.Linked id → t.content id = some n →
    (n.parent = some p ↔ ∃ m side, t.Linked p ∧ t.content p = some m ∧ m.child side = some id)
  /-- Heights and sizes are those of the subtrees, whose sides differ by at most one level. -/
  balanced : ∃ tree : Tree α, tree.top? = t.root ∧ Rep t.content none tree ∧
    tree.items = s.order ∧ tree.Balanced
  /-- Walking through the tree lists the linked nodes in order. -/
  listed : t.toList = .ok s.order
  sorted : s.Sorted less
  /-- The arena has these nodes with these values, each once, and no others. -/
  nodes : s.ids.Nodup ∧ ∀ id v, t.get id = .ok v ↔ (id, v) ∈ s.order ++ s.loose
  /-- Restoring the balance from any linked node finds nothing to do. -/
  fixed : ∀ id, t.Linked id → ∃ top, t.root = some top ∧ t.fix id = .ok (t, top)

/-! ## Sorted orders -/

section Sorted

variable {less : α → α → Bool}

/-- In a strict weak order, what is not less than something that is not less is not less. -/
theorem not_less_trans [h : IsStrictWeakOrder α fun a b => less a b] {a b c : α}
    (hab : less a b = false) (hbc : less b c = false) : less a c = false := by
  rw [Bool.eq_false_iff] at hab hbc ⊢
  intro hac
  have hba : ¬less b a := fun hba => hbc (h.trans b a c hba hac)
  have hcb : ¬less c b := fun hcb => hab (h.trans a c b hac hcb)
  exact (h.incomp_trans a b c ⟨hab, hba⟩ ⟨hbc, hcb⟩).1 hac

theorem not_less_of_less [h : IsStrictWeakOrder α fun a b => less a b] {a b : α}
    (hab : less a b = true) : less b a = false := by
  rw [Bool.eq_false_iff]
  exact fun hba => h.irrefl a (h.trans a b a hab hba)

theorem sorted_remove {a b : List (Nat × α)} {e : Nat × α}
    (h : (a ++ e :: b).Pairwise fun a b => less b.2 a.2 = false) :
    (a ++ b).Pairwise fun a b => less b.2 a.2 = false :=
  h.sublist (.append (.refl a) (List.sublist_cons_self e b))

variable [IsStrictWeakOrder α fun a b => less a b] {order : List (Nat × α)}

/-- A value cuts a sorted order in two. -/
theorem cut_of_sorted (h : order.Pairwise fun a b => less b.2 a.2 = false) (v : α) :
    order.Pairwise fun a b => less v a.2 → less v b.2 := by
  refine h.imp fun {a b} hba hva => ?_
  by_contra hvb
  have hva' := not_less_trans (Bool.eq_false_iff.mpr hvb) hba
  rw [hva] at hva'
  cases hva'

/-- A value right behind the ones that are not greater is in order. -/
theorem sorted_insert {a b : List (Nat × α)} {id : Nat} {v : α}
    (h : (a ++ b).Pairwise fun a b => less b.2 a.2 = false) (ha : ∀ e ∈ a, less v e.2 = false)
    (hb : ∀ e ∈ b, less v e.2 = true) :
    (a ++ (id, v) :: b).Pairwise fun a b => less b.2 a.2 = false := by
  obtain ⟨hsa, hsb, hab⟩ := List.pairwise_append.mp h
  refine List.pairwise_append.mpr ⟨hsa, List.pairwise_cons.mpr ⟨fun e he => ?_, hsb⟩, ?_⟩
  · exact not_less_of_less (hb e he)
  · intro e he e' he'
    rcases List.mem_cons.mp he' with rfl | he'
    · exact ha e he
    · exact hab e he e' he'

end Sorted

/-! ## Every call -/

/-- A balanced and sorted term in the arena. -/
structure Arranges (less : α → α → Bool) (t : RankTree α) (s : Arrangement α) : Prop where
  term : ∃ tree : Tree α, t.Holds tree s.loose ∧ tree.items = s.order ∧ tree.Balanced
  sorted : s.Sorted less
  top : s.top = t.root

theorem arranges_empty (less : α → α → Bool) :
    (empty : RankTree α).Arranges less ⟨[], [], none⟩ where
  term := ⟨.leaf, holds_empty, rfl, trivial⟩
  sorted := .nil
  top := rfl

namespace Arranges

variable {less : α → α → Bool} {t : RankTree α} {s : Arrangement α}

theorem shows (h : t.Arranges less s) : t.Shows less s := by
  obtain ⟨⟨tree, hholds, hitems, hbalanced⟩, hsorted, htop⟩ := h
  have hlinked : ∀ id, t.Linked id ↔ id ∈ s.order.map (·.1) := fun id => by
    rw [hholds.linked_iff, Tree.ids, hitems]
  exact {
    root := ⟨htop.symm, fun _ _ hroot hn => hholds.parent_root hroot hn⟩
    linked := hlinked
    parent := fun id n p hid hn => hholds.parent_iff hid hn
    balanced := ⟨tree, hholds.root.symm, hholds.rep, hitems, hbalanced⟩
    listed := hitems ▸ hholds.toList
    sorted := hsorted
    nodes := by
      refine ⟨?_, fun id v => by rw [hholds.get_iff, hitems]⟩
      rw [Arrangement.ids, List.map_append, ← hitems]
      exact hholds.nodup
    fixed := fun id hid => hholds.fix hbalanced (hholds.linked_iff.mp hid) }

/-- Where a value is put in a sorted order. -/
theorem place [IsStrictWeakOrder α fun a b => less a b] {tree : Tree α}
    (hsorted : tree.items.Pairwise fun a b => less b.2 a.2 = false) (id : Nat) (v : α) :
    ∃ a b, tree.items = a ++ b ∧ (tree.attach less id v).items = a ++ (id, v) :: b ∧
      (∀ e ∈ a, less v e.2 = false) ∧ ∀ e ∈ b, less v e.2 = true :=
  ⟨_, _, tree.items_eq_descend less v, tree.items_attach less id v,
    before_descend [] (cut_of_sorted hsorted v) (by simp [before]),
    after_descend [] (cut_of_sorted hsorted v) (by simp [after])⟩

/-- **Every call** on a node it is meant for succeeds and is a step of the arrangement. -/
theorem simulates_call [IsStrictWeakOrder α fun a b => less a b] :
    Calls.Simulates (call less) Allows (Arrangement.Step less) (Arranges less) := by
  rintro t ⟨order, loose, top⟩ c ⟨⟨tree, hholds, hitems, hbalanced⟩, hsorted, htop⟩ hc
  dsimp only at hholds hitems htop
  subst hitems
  cases c with
  | insert v =>
    obtain ⟨id, t', hinsert, hfree, h'⟩ := hholds.insert v less
    obtain ⟨a, b, hab, hitems, ha, hb⟩ := place hsorted id v
    have hnew : id ∉ Arrangement.ids ⟨a ++ b, loose, top⟩ := by
      rw [Arrangement.ids, List.map_append, ← hab, ← Tree.ids, ← hholds.isSome_iff, hfree]
      exact Bool.false_ne_true
    rw [Arrangement.Sorted, hab] at hsorted
    rw [hab]
    exact ⟨_, t', _, by simp [call, hinsert], .insert hnew ha hb,
      ⟨_, h', hitems, hbalanced.attach less id v⟩, sorted_insert hsorted ha hb, rfl⟩
  | remove id =>
    obtain ⟨⟨id, v⟩, hmem, rfl⟩ := List.mem_map.mp (hholds.linked_iff.mp hc)
    obtain ⟨t', tree', hremove, hunlinks, h'⟩ := hholds.remove hmem
    obtain ⟨a, b, hab, hitems⟩ := hunlinks.items hholds.nodup_ids
    rw [Arrangement.Sorted, hab] at hsorted
    rw [hab]
    exact ⟨_, t', _, by simp [call, hremove], .remove,
      ⟨_, h', hitems, hunlinks.balanced hbalanced⟩, sorted_remove hsorted, rfl⟩
  | detach id =>
    obtain ⟨⟨id, v⟩, hmem, rfl⟩ := List.mem_map.mp (hholds.linked_iff.mp hc)
    obtain ⟨t', tree', hdetach, hunlinks, h'⟩ := hholds.detach hmem
    obtain ⟨a, b, hab, hitems⟩ := hunlinks.items hholds.nodup_ids
    rw [Arrangement.Sorted, hab] at hsorted
    rw [hab]
    exact ⟨.root tree'.top?, t', _, by rw [call, hdetach]; rfl, .detach,
      ⟨_, h', hitems, hunlinks.balanced hbalanced⟩, sorted_remove hsorted, h'.root.symm⟩
  | set id w =>
    obtain ⟨⟨id, v⟩, hmem, rfl⟩ := List.mem_map.mp (hholds.loose_iff.mp hc)
    obtain ⟨c, d, rfl⟩ := List.mem_iff_append.mp hmem
    obtain ⟨t', hset, h'⟩ := (hholds.perm_loose List.perm_middle.symm).setLoose fun _ => w
    have hset : t.set id w = .ok t' := hset
    have hroot : t'.root = t.root := h'.root.trans hholds.root.symm
    exact ⟨_, t', _, by simp [call, hset], .set,
      ⟨_, h'.perm_loose List.perm_middle, rfl, hbalanced⟩, hsorted, htop.trans hroot.symm⟩
  | attach id =>
    obtain ⟨⟨id, v⟩, hmem, rfl⟩ := List.mem_map.mp (hholds.loose_iff.mp hc)
    obtain ⟨c, d, rfl⟩ := List.mem_iff_append.mp hmem
    obtain ⟨t', hattach, h'⟩ := (hholds.perm_loose List.perm_middle.symm).attach less
    obtain ⟨a, b, hab, hitems, ha, hb⟩ := place hsorted id v
    rw [Arrangement.Sorted, hab] at hsorted
    rw [hab]
    exact ⟨_, t', _, by simp [call, hattach], .attach ha hb,
      ⟨_, h', hitems, hbalanced.attach less id v⟩, sorted_insert hsorted ha hb, rfl⟩

end Arranges

/-- **A tree is a balanced ordered sequence.**  On an empty tree any calls succeed that are made
on nodes they are meant for.  They answer what the arrangement answers, and the tree shows the
arrangement before and after each of them. -/
theorem run_empty_arranges {less : α → α → Bool} [IsStrictWeakOrder α fun a b => less a b]
    {calls : List (Call α)} (hcalls : Calls.Admissible (call less) Allows empty calls) :
    ∃ answers t s, Calls.run (call less) empty calls = .ok (answers, t) ∧
      Calls.Follows (call less) (Arrangement.Step less) (Shows less) empty ⟨[], [], none⟩ calls
        answers t s :=
  Calls.run_simulates Arranges.simulates_call (fun _ _ h => h.shows) (arranges_empty less) hcalls

/-- The node of the value 2 is taken out, put back with the value 3, and the other one removed. -/
theorem run_empty_arranges_regrown :
    let less := fun a b : Nat => decide (a < b)
    let calls : List (Call Nat) :=
      [.insert 2, .insert 1, .detach 0, .set 0 3, .attach 0, .remove 1]
    (IsStrictWeakOrder Nat fun a b => less a b) ∧
      Calls.Admissible (call less) Allows empty calls ∧
      ∃ answers t s, Calls.run (call less) empty calls = .ok (answers, t) ∧
        Calls.Follows (call less) (Arrangement.Step less) (Shows less) empty ⟨[], [], none⟩ calls
          answers t s := by
  intro less calls
  have hless : IsStrictWeakOrder Nat fun a b => less a b :=
    { irrefl := by simp [less]
      trans := by simp [less]; omega
      incomp_trans := by simp [less]; omega }
  have hcalls : Calls.Admissible (call less) Allows empty calls := by
    refine .cons (.node 0) ⟨#[some ⟨none, none, none, 1, 1, 2⟩], [], some 0⟩ trivial rfl ?_
    refine .cons (.node 1) ⟨#[some ⟨none, some 1, none, 2, 2, 2⟩,
      some ⟨some 0, none, none, 1, 1, 1⟩], [], some 0⟩ trivial rfl ?_
    refine .cons (.root (some 1)) ⟨#[some ⟨none, none, none, 1, 1, 2⟩,
      some ⟨none, none, none, 1, 1, 1⟩], [], some 1⟩ (.root rfl) rfl ?_
    refine .cons .done ⟨#[some ⟨none, none, none, 1, 1, 3⟩,
      some ⟨none, none, none, 1, 1, 1⟩], [], some 1⟩ ⟨rfl, not_linked ?_ ?_⟩ rfl ?_
    · simp
    · simp
    refine .cons .done ⟨#[some ⟨some 1, none, none, 1, 1, 3⟩,
      some ⟨none, none, some 0, 2, 2, 1⟩], [], some 1⟩ ⟨rfl, not_linked ?_ ?_⟩ rfl ?_
    · simp
    · simp
    exact .cons (.value 1) ⟨#[some ⟨none, none, none, 1, 1, 3⟩, none], [1], some 0⟩
      (.root rfl) rfl trivial
  exact ⟨hless, hcalls, run_empty_arranges hcalls⟩

end KeyServer.RankTree
