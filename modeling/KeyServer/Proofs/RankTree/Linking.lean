import KeyServer.Proofs.RankTree.Arena
import Mathlib.Data.List.Perm.Basic

/-! # Linking nodes

`t.Holds tree loose` reads a whole arena: the nodes below the root form the term `tree`,
the nodes that were taken out and kept are `loose`, and every other id is free.

* **`Holds.attach`** puts a loose node where its value belongs: before it are only values
  that are not greater, after it only greater ones (`before_descend`, `after_descend`).
* **`Holds.insert`** does so with a new node.
-/

namespace KeyServer.RankTree

variable {α : Type} {t : RankTree α} {tree : Tree α} {loose : List (Nat × α)}

/-- The linked nodes form `tree`, and `loose` are the other nodes with their values. -/
structure Holds (t : RankTree α) (tree : Tree α) (loose : List (Nat × α)) : Prop where
  root : t.root = tree.top?
  rep : Rep t.content none tree
  single : ∀ e ∈ loose, t.content e.1 = some (Node.single e.2)
  nodup : (tree.ids ++ loose.map (·.1)).Nodup
  /-- There are no other nodes. -/
  live : ∀ i, (t.content i).isSome → i ∈ tree.ids ++ loose.map (·.1)
  free_nodup : t.free.Nodup
  mem_free : ∀ i, i ∈ t.free ↔ i < t.nodes.size ∧ t.content i = none

theorem holds_empty : (empty : RankTree α).Holds .leaf [] where
  root := rfl
  rep := trivial
  single := by simp
  nodup := by simp
  live := by simp [content, empty]
  free_nodup := List.nodup_nil
  mem_free := by simp [empty]

namespace Holds

theorem nodup_ids (h : t.Holds tree loose) : tree.ids.Nodup := (List.nodup_append.mp h.nodup).1

theorem isSome_iff (h : t.Holds tree loose) {i : Nat} :
    (t.content i).isSome ↔ i ∈ tree.ids ++ loose.map (·.1) := by
  refine ⟨h.live i, fun hi => ?_⟩
  rcases List.mem_append.mp hi with hi | hi
  · exact h.rep.isSome i hi
  · obtain ⟨e, he, rfl⟩ := List.mem_map.mp hi
    rw [h.single e he]
    rfl

/-- Every place has a linked node or a loose one, or is free. -/
theorem nodes_size_eq (h : t.Holds tree loose) :
    t.nodes.size = tree.size + loose.length + t.free.length := by
  have hperm : (tree.ids ++ loose.map (·.1) ++ t.free).Perm (List.range t.nodes.size) := by
    refine (List.perm_ext_iff_of_nodup ?_ List.nodup_range).mpr fun i => ?_
    · refine List.nodup_append.mpr ⟨h.nodup, h.free_nodup, ?_⟩
      rintro i hi _ hfree rfl
      have hsome := h.isSome_iff.mpr hi
      rw [((h.mem_free i).mp hfree).2] at hsome
      cases hsome
    · rw [List.mem_append, ← h.isSome_iff, h.mem_free, List.mem_range]
      cases hi : t.content i with
      | none => simp
      | some n => simpa using lt_size_of_content hi
  have hlen := hperm.length_eq
  rw [List.length_append, List.length_append, List.length_map, List.length_range,
    Tree.length_ids] at hlen
  exact hlen.symm

/-- The arena has room for the tree. -/
theorem size_le (h : t.Holds tree loose) : tree.size ≤ t.nodes.size := by
  rw [h.nodes_size_eq]
  omega

/-- The nodes of an arena can be put together in another way. -/
theorem regroup {t' : RankTree α} {tree' : Tree α} {loose' : List (Nat × α)}
    (h : t.Holds tree loose) (hsame : SameOutside (tree.ids ++ loose.map (·.1)) t t')
    (hperm : (tree'.ids ++ loose'.map (·.1)).Perm (tree.ids ++ loose.map (·.1)))
    (hroot : t'.root = tree'.top?) (hrep : Rep t'.content none tree')
    (hsingle : ∀ e ∈ loose', t'.content e.1 = some (Node.single e.2)) :
    t'.Holds tree' loose' := by
  have hlive : ∀ i, (t'.content i).isSome ↔ i ∈ tree.ids ++ loose.map (·.1) := by
    intro i
    by_cases hi : i ∈ tree.ids ++ loose.map (·.1)
    · refine ⟨fun _ => hi, fun _ => ?_⟩
      rcases List.mem_append.mp (hperm.mem_iff.mpr hi) with hi | hi
      · exact hrep.isSome i hi
      · obtain ⟨e, he, rfl⟩ := List.mem_map.mp hi
        rw [hsingle e he]
        rfl
    · rw [hsame.content i hi, h.isSome_iff]
  exact {
    root := hroot
    rep := hrep
    single := hsingle
    nodup := hperm.nodup_iff.mpr h.nodup
    live := fun i hi => hperm.mem_iff.mpr ((hlive i).mp hi)
    free_nodup := by rw [hsame.free]; exact h.free_nodup
    mem_free := fun i => by
      rw [hsame.free, hsame.size, h.mem_free, ← Option.not_isSome_iff_eq_none,
        ← Option.not_isSome_iff_eq_none, hlive, h.isSome_iff] }

theorem size_eq (h : t.Holds tree loose) : t.size = .ok tree.size := by
  rw [RankTree.size, h.root, h.rep.sizeAt]

theorem isEmpty_eq (h : t.Holds tree loose) : t.isEmpty = true ↔ tree = .leaf := by
  rw [isEmpty, h.root, Option.isNone_iff_eq_none, Tree.top?_eq_none]

end Holds

theorem length_add_size_le (path : List (Crumb α)) (sub : Tree α) :
    path.length + sub.size ≤ (plug path sub).size := by
  induction path generalizing sub with
  | nil => simp
  | cons k path ih =>
    have := ih (k.fill sub)
    rw [Crumb.fill, Tree.size_join] at this
    rw [List.length_cons, plug_cons]
    exact Nat.le_trans (by omega) this

/-! ## The place of a value -/

/-- The place that a value belongs in, inside the subtree in the place `path`. -/
def descend (less : α → α → Bool) (value : α) : Tree α → List (Crumb α) → List (Crumb α)
  | .leaf, path => path
  | .node id v l r, path =>
    if less value v then descend less value l (⟨.left, id, v, r⟩ :: path)
    else descend less value r (⟨.right, id, v, l⟩ :: path)

theorem plug_descend (less : α → α → Bool) (value : α) (sub : Tree α) (path : List (Crumb α)) :
    plug (descend less value sub path) .leaf = plug path sub := by
  induction sub generalizing path with
  | leaf => rfl
  | node id v l r ihl ihr =>
    rw [descend]
    split
    · exact ihl _
    · exact ihr _

section Descend

variable (less : α → α → Bool) (value : α)

/-- The nodes around the place are the nodes of the tree. -/
theorem mem_pathIds_descend {i : Nat} :
    i ∈ pathIds (descend less value tree []) ↔ i ∈ tree.ids := by
  have hi : i ∈ (plug (descend less value tree []) .leaf).ids ↔ _ := mem_ids_plug
  rw [plug_descend, plug_nil] at hi
  simpa using hi.symm

theorem length_pathIds_descend : (pathIds (descend less value tree [])).length = tree.size := by
  have hsize := size_plug (descend less value tree []) .leaf
  rw [plug_descend, plug_nil, Tree.size, Nat.zero_add] at hsize
  exact hsize.symm

theorem nodup_descend (h : tree.ids.Nodup) : (pathIds (descend less value tree [])).Nodup :=
  (nodup_plug (t := .leaf).mp (by rw [plug_descend]; exact h)).2.1

theorem length_descend_le : (descend less value tree []).length ≤ tree.size := by
  have hlen := length_add_size_le (descend less value tree []) .leaf
  rw [plug_descend] at hlen
  exact hlen

theorem around_descend (h : Rep t.content none tree) :
    Around t.content none (descend less value tree []) := by
  have hrep : Rep t.content none (plug (descend less value tree []) .leaf) := by
    rw [plug_descend]
    exact h
  exact hrep.split.2

end Descend

/-- Going down in the arena finds the place. -/
theorem placeWithin_spec (less : α → α → Bool) (value : α) {sub : Tree α} :
    ∀ {steps : Nat} {p : Option Nat} (path : List (Crumb α)), Rep t.content p sub →
      sub.height ≤ steps →
      t.placeWithin less value steps sub.top? (path.head?.map fun k => (k.id, k.side))
        = .ok ((descend less value sub path).head?.map fun k => (k.id, k.side)) := by
  induction sub with
  | leaf =>
    intro steps p path _ _
    cases steps <;> rfl
  | node id v l r ihl ihr =>
    rintro (_ | steps) p path ⟨hid, hl, hr⟩ hsteps
    · simp [Tree.height] at hsteps
    rw [Tree.height] at hsteps
    rw [Tree.top?_node, placeWithin, node_eq_ok hid, ok_bind, descend]
    dsimp only
    split
    · exact ihl (⟨.left, id, v, r⟩ :: path) hl (by omega)
    · exact ihr (⟨.right, id, v, l⟩ :: path) hr (by omega)

section Order

variable {less : α → α → Bool} {value : α}

/-- **What is before the place of a value** is not greater, in an order that the value cuts in
two. -/
theorem before_descend {sub : Tree α} : ∀ (path : List (Crumb α)),
    (sub.items.Pairwise fun a b => less value a.2 → less value b.2) →
    (∀ e ∈ before path, less value e.2 = false) →
    ∀ e ∈ before (descend less value sub path), less value e.2 = false := by
  induction sub with
  | leaf => exact fun _ _ hpath => hpath
  | node id v l r ihl ihr =>
    intro path hsorted hpath
    rw [Tree.items_node, List.pairwise_append, List.pairwise_cons] at hsorted
    obtain ⟨hl, ⟨-, hr⟩, hlv⟩ := hsorted
    rw [descend]
    split
    · exact ihl _ hl hpath
    · next hv =>
      refine ihr _ hr fun e he => ?_
      simp only [before, List.mem_append, List.mem_singleton] at he
      rcases he with (he | he) | rfl
      · exact hpath e he
      · rw [Bool.eq_false_iff]
        exact fun hlt => hv (hlv e he (id, v) List.mem_cons_self hlt)
      · exact Bool.eq_false_iff.mpr hv

/-- **What is after the place of a value** is greater. -/
theorem after_descend {sub : Tree α} : ∀ (path : List (Crumb α)),
    (sub.items.Pairwise fun a b => less value a.2 → less value b.2) →
    (∀ e ∈ after path, less value e.2 = true) →
    ∀ e ∈ after (descend less value sub path), less value e.2 = true := by
  induction sub with
  | leaf => exact fun _ _ hpath => hpath
  | node id v l r ihl ihr =>
    intro path hsorted hpath
    rw [Tree.items_node, List.pairwise_append, List.pairwise_cons] at hsorted
    obtain ⟨hl, ⟨hvr, hr⟩, -⟩ := hsorted
    rw [descend]
    split
    · next hv =>
      refine ihl _ hl fun e he => ?_
      simp only [after, List.cons_append, List.mem_cons, List.mem_append] at he
      rcases he with rfl | he | he
      · exact hv
      · exact hvr e he hv
      · exact hpath e he
    · exact ihr _ hr hpath

end Order

/-! ## Linking -/

/-- The tree with a node linked in the place of its value. -/
def Tree.attach (less : α → α → Bool) (id : Nat) (v : α) (tree : Tree α) : Tree α :=
  fixUp (⟨.left, id, v, .leaf⟩ :: descend less v tree []) .leaf

theorem Tree.items_attach (less : α → α → Bool) (id : Nat) (v : α) (tree : Tree α) :
    (tree.attach less id v).items
      = before (descend less v tree []) ++ (id, v) :: after (descend less v tree []) := by
  rw [attach, items_fixUp, items_plug]
  simp [before, after]

theorem Tree.items_eq_descend (less : α → α → Bool) (v : α) (tree : Tree α) :
    tree.items = before (descend less v tree []) ++ after (descend less v tree []) := by
  have h := congrArg Tree.items (plug_descend less v tree [])
  rw [items_plug, plug_nil] at h
  simpa using h.symm

theorem Tree.size_attach (less : α → α → Bool) (id : Nat) (v : α) (tree : Tree α) :
    (tree.attach less id v).size = 1 + tree.size := by
  have hsize := congrArg List.length (tree.items_eq_descend less v)
  rw [List.length_append, Tree.length_items] at hsize
  rw [← Tree.length_items, items_attach, List.length_append, List.length_cons, hsize]
  omega

/-- Nodes around an empty place are still there when a link is put into it. -/
theorem Around.link {path : List (Crumb α)} {k : Crumb α} {link : Option Nat}
    (h : Around t.content link (k :: path)) (hnodup : (pathIds (k :: path)).Nodup)
    (new : Option Nat) :
    ∃ t', t.change k.id (·.withChild k.side new) = .ok t' ∧ Around t'.content new (k :: path) ∧
      SameOutside [k.id] t t' ∧ t'.root = t.root := by
  obtain ⟨⟨m, z, hid⟩, hsibling, hpath⟩ := h
  rw [pathIds, List.cons_append, List.nodup_cons, List.mem_append, not_or] at hnodup
  obtain ⟨⟨hks, hkp⟩, -⟩ := hnodup
  refine ⟨_, change_eq_ok hid _, ⟨⟨m, z, ?_⟩, hsibling.put hks _, ?_⟩, .put (by simp) _, rfl⟩
  · rw [content_put_self hid, nodeOf_withChild]
  · exact hpath.congr fun i hi => content_put_ne (by rintro rfl; exact hkp hi) _

/-- A node without children is put into a place that links to it already: it gets its parent,
and the measures and the balance of the nodes above are restored. -/
theorem fix_single {path : List (Crumb α)} {id : Nat} {v : α}
    (hid : t.content id = some (Node.single v)) (haround : Around t.content (some id) path)
    (hnodup : (id :: pathIds path).Nodup) (hsteps : path.length < t.stepBound) :
    ∃ t' top, (∀ add : Adder, add.UpTo (1 + (pathIds path).length) →
        (t.setParent (some id) (above path) >>= (·.fixWith id add)) = .ok (t', top)) ∧
      Rep t'.content none (fixUp (⟨.left, id, v, .leaf⟩ :: path) .leaf) ∧
      t'.root = (fixUp (⟨.left, id, v, .leaf⟩ :: path) .leaf).top? ∧
      SameOutside (id :: pathIds path) t t' := by
  obtain ⟨hfresh, hpath⟩ := List.nodup_cons.mp hnodup
  let n := nodeOf .left (above path) none none 1 1 v
  have hparent : t.setParent (some id) (above path) = .ok (t.put id n) := by
    rw [RankTree.setParent, change_eq_ok hid]
    rfl
  have haround' : Around (t.put id n).content (Tree.leaf : Tree α).top?
      (⟨.left, id, v, .leaf⟩ :: path) :=
    ⟨⟨1, 1, content_put_self hid⟩, trivial,
      haround.congr fun i hi => content_put_ne (by rintro rfl; exact hfresh hi) n⟩
  have hbound : (t.put id n).stepBound = t.stepBound := by simp [stepBound, put]
  have hmem : ∀ i, i ∈ (plug (⟨.left, id, v, .leaf⟩ :: path) .leaf).ids ↔
      i ∈ id :: pathIds path := by
    intro i
    rw [plug_cons, mem_ids_plug]
    simp [Crumb.fill, Tree.join]
  obtain ⟨t', top, hfix, hrep, htop, hroot, hsame⟩ := fixWithin_spec haround' trivial
    (by
      rw [plug_cons, nodup_plug]
      exact ⟨by simp [Crumb.fill, Tree.join], hpath, by simpa [Crumb.fill, Tree.join] using hfresh⟩)
    hsteps
  refine ⟨t', top, fun add hadd => ?_, hrep, hroot.trans htop.symm,
    .trans (.put List.mem_cons_self n) (hsame.mono fun i hi => (hmem i).mp hi)⟩
  have hfix' := hfix add (hadd.mono (Nat.le_of_eq (by rw [plug_cons, size_plug]; rfl)))
  rw [hparent, ok_bind, fixWith, hbound, hfix']

namespace Holds

/-- **The link of a loose node**: the place of its value gets it.  What is left to do is to mend
the way up from there. -/
theorem linkPlace {id : Nat} {v : α} (h : t.Holds tree ((id, v) :: loose))
    (less : α → α → Bool) :
    ∃ t', (∀ add, t.attachWith id less add =
        ((t'.setParent (some id) (above (descend less v tree [])) >>= (·.fixWith id add)) >>=
          fun r => .ok r.1)) ∧
      Around t'.content (some id) (descend less v tree []) ∧
      SameOutside (pathIds (descend less v tree [])) t t' := by
  have hsingle := h.single (id, v) List.mem_cons_self
  have hheight : tree.height ≤ t.stepBound := by
    have := h.size_le
    have := tree.height_le_size
    unfold stepBound
    omega
  have hplace := placeWithin_spec less v [] h.rep hheight
  rw [List.head?_nil, Option.map_none] at hplace
  have haround := around_descend less v h.rep
  have hnodup := nodup_descend less v h.nodup_ids
  simp only [RankTree.attachWith, node_eq_ok hsingle, h.root, Node.single, hplace, ok_bind,
    bind_assoc]
  cases hpath : descend less v tree [] with
  | nil => exact ⟨t, fun _ => rfl, trivial, .refl _ t⟩
  | cons k path =>
    rw [hpath] at haround hnodup
    obtain ⟨t₁, hchange, haround₁, hsame₁, -⟩ := haround.link hnodup (some id)
    refine ⟨t₁, fun add => ?_, haround₁, hsame₁.mono (by simp [pathIds])⟩
    simp [hchange, above]

/-- **Attaching** a loose node links it in the place of its value. -/
theorem attachWith {id : Nat} {v : α} (h : t.Holds tree ((id, v) :: loose))
    (less : α → α → Bool) :
    ∃ t', Gives (1 + tree.size) (t.attachWith id less) t' ∧
      t'.Holds (tree.attach less id v) loose ∧ SamePlaces t t' := by
  obtain ⟨t₁, hlink, haround₁, hsame₁⟩ := h.linkPlace less
  have hids : ∀ i, i ∈ pathIds (descend less v tree []) ↔ i ∈ tree.ids := fun _ =>
    mem_pathIds_descend less v
  have hall := h.nodup
  rw [List.map_cons, List.perm_middle.nodup_iff, List.nodup_cons, List.mem_append, not_or] at hall
  obtain ⟨⟨hidtree, hidloose⟩, -⟩ := hall
  have hfresh : id ∉ pathIds (descend less v tree []) := fun hi => hidtree ((hids id).mp hi)
  have hid₁ : t₁.content id = some (Node.single v) :=
    (hsame₁.content id hfresh).trans (h.single (id, v) List.mem_cons_self)
  have hsteps : (descend less v tree []).length < t₁.stepBound := by
    have hlen : (descend less v tree []).length ≤ tree.size := length_descend_le less v
    have := h.size_le
    unfold stepBound
    rw [hsame₁.size]
    omega
  obtain ⟨t₂, top, hfix, hrep, hroot, hsame⟩ := fix_single hid₁ haround₁
    (List.nodup_cons.mpr ⟨hfresh, nodup_descend less v h.nodup_ids⟩) hsteps
  rw [show (pathIds (descend less v tree [])).length = tree.size from
    length_pathIds_descend less v] at hfix
  have hsame₂ : SameOutside (id :: tree.ids) t t₂ := by
    refine (hsame₁.mono fun i hi => ?_).trans (hsame.mono fun i hi => ?_)
    · exact List.mem_cons_of_mem id ((hids i).mp hi)
    · exact List.mem_cons.mpr ((List.mem_cons.mp hi).imp_right (hids i).mp)
  have hperm : (tree.attach less id v).ids.Perm (id :: tree.ids) := by
    rw [Tree.ids, Tree.items_attach, Tree.ids, Tree.items_eq_descend less v tree, List.map_append,
      List.map_append, List.map_cons]
    exact List.perm_middle
  refine ⟨t₂, fun add hadd => ?_, h.regroup (hsame₂.mono fun i hi => ?_)
    ((hperm.append_right _).trans List.perm_middle.symm) hroot hrep fun e he => ?_,
    hsame₂.toSamePlaces⟩
  · rw [hlink, hfix add hadd, ok_bind]
  · rw [List.map_cons, List.mem_append, List.mem_cons]
    exact (List.mem_cons.mp hi).elim (fun hi => .inr (.inl hi)) .inl
  · have he' := List.mem_map_of_mem (f := (·.1)) he
    rw [hsame₂.content, h.single e (List.mem_cons_of_mem _ he)]
    rw [List.mem_cons, not_or]
    refine ⟨fun heq => hidloose (heq ▸ he'), fun hm => ?_⟩
    exact (List.nodup_append.mp h.nodup).2.2 e.1 hm e.1 (List.mem_cons_of_mem id he') rfl

theorem attach {id : Nat} {v : α} (h : t.Holds tree ((id, v) :: loose)) (less : α → α → Bool) :
    ∃ t', t.attach id less = .ok t' ∧ t'.Holds (tree.attach less id v) loose := by
  obtain ⟨t', hattach, h', -⟩ := h.attachWith less
  exact ⟨t', (attachWith_exactly ..).symm.trans hattach.exactly, h'⟩

end Holds

/-! ## Loose nodes -/

namespace Holds

/-- A loose node can get another value. -/
theorem setLoose {id : Nat} {v : α} (h : t.Holds tree ((id, v) :: loose)) (f : α → α) :
    ∃ t', t.change id (fun n => { n with value := f n.value }) = .ok t' ∧
      t'.Holds tree ((id, f v) :: loose) := by
  have hid := h.single (id, v) List.mem_cons_self
  have hnodup := h.nodup
  rw [List.map_cons, List.nodup_append, List.nodup_cons] at hnodup
  obtain ⟨-, ⟨hidloose, -⟩, hapart⟩ := hnodup
  refine ⟨_, change_eq_ok hid _, h.regroup (.put (by simp) _) (.refl _) h.root
    (h.rep.put (fun hi => hapart id hi id List.mem_cons_self rfl) _) fun e he => ?_⟩
  rcases List.mem_cons.mp he with rfl | he
  · exact content_put_self hid
  · have he' := List.mem_map_of_mem (f := (·.1)) he
    have hne : e.1 ≠ id := fun heq => hidloose (heq ▸ he')
    rw [content_put_ne hne, h.single e (List.mem_cons_of_mem _ he)]

/-- A new node in a free place is a loose one. -/
theorem fill {id : Nat} {v : α} {t' : RankTree α} (h : t.Holds tree loose)
    (hid : t'.content id = some (Node.single v))
    (hcontent : ∀ i, i ≠ id → t'.content i = t.content i) (hfree : t.content id = none)
    (hroot : t'.root = t.root) (hnodup : t'.free.Nodup)
    (hmem : ∀ i, i ∈ t'.free ↔ i < t'.nodes.size ∧ t'.content i = none) :
    t'.Holds tree ((id, v) :: loose) := by
  have hnew : id ∉ tree.ids ++ loose.map (·.1) := by
    rw [← h.isSome_iff, hfree]
    exact Bool.false_ne_true
  rw [List.mem_append, not_or] at hnew
  exact {
    root := hroot.trans h.root
    rep := h.rep.congr fun i hi => hcontent i (by rintro rfl; exact hnew.1 hi)
    single := fun e he => by
      rcases List.mem_cons.mp he with rfl | he
      · exact hid
      · rw [hcontent, h.single e he]
        exact fun heq => hnew.2 (heq ▸ List.mem_map_of_mem (f := (·.1)) he)
    nodup := by
      rw [List.map_cons]
      refine List.perm_middle.nodup_iff.mpr (List.nodup_cons.mpr ⟨?_, h.nodup⟩)
      rw [List.mem_append, not_or]
      exact hnew
    live := fun i hi => by
      by_cases hne : i = id
      · simp [hne]
      · rw [hcontent i hne, h.isSome_iff] at hi
        rw [List.map_cons, List.mem_append, List.mem_cons]
        exact (List.mem_append.mp hi).imp (fun hi => hi) .inr
    free_nodup := hnodup
    mem_free := hmem }

/-- **Allocating** puts a value into a free place.  If there is none, it is one more. -/
theorem allocate {id : Nat} {v : α} {t' : RankTree α} (h : t.Holds tree loose)
    (halloc : t.allocate v = (id, t')) :
    t.content id = none ∧ t'.Holds tree ((id, v) :: loose) ∧
      (t'.nodes.size = t.nodes.size ∨ t'.nodes.size = t.nodes.size + 1 ∧ t'.free = []) := by
  have hnodup := h.free_nodup
  have hmem := h.mem_free
  unfold RankTree.allocate at halloc
  split at halloc
  · next nodes i free root =>
    cases halloc
    obtain ⟨hlt, hnone⟩ := (hmem id).mp List.mem_cons_self
    have hcontent : ∀ i, i ≠ id →
        content ⟨nodes.setIfInBounds id (some (Node.single v)), free, root⟩ i
          = content ⟨nodes, id :: free, root⟩ i := fun i hi => by
      simp [content, Array.getElem?_setIfInBounds_ne (Ne.symm hi)]
    have hid : content ⟨nodes.setIfInBounds id (some (Node.single v)), free, root⟩ id
        = some (Node.single v) := by
      have hlt' : id < nodes.size := hlt
      simp [content, hlt']
    refine ⟨hnone, h.fill hid hcontent hnone rfl (List.nodup_cons.mp hnodup).2 fun i => ?_,
      .inl Array.size_setIfInBounds⟩
    by_cases hi : i = id
    · subst hi
      simp [hid, (List.nodup_cons.mp hnodup).1]
    · have := hmem i
      rw [List.mem_cons] at this
      rw [hcontent i hi]
      simpa [hi] using this
  · next nodes root =>
    cases halloc
    have hcontent : ∀ i, i ≠ nodes.size → content ⟨nodes.push (some (Node.single v)), [], root⟩ i
        = content ⟨nodes, [], root⟩ i := fun i hi => by
      simp [content, Array.getElem?_push, hi]
    have hid : content ⟨nodes.push (some (Node.single v)), [], root⟩ nodes.size
        = some (Node.single v) := by
      simp [content]
    have hnone : content ⟨nodes, [], root⟩ nodes.size = none := by simp [content]
    refine ⟨hnone, h.fill hid hcontent hnone rfl List.nodup_nil fun i => ?_,
      .inr ⟨Array.size_push _, rfl⟩⟩
    by_cases hi : i = nodes.size
    · subst hi
      simp [hid]
    · have := hmem i
      simp only [List.not_mem_nil, false_iff, not_and] at this
      rw [hcontent i hi]
      simp only [List.not_mem_nil, Array.size_push, false_iff, not_and]
      exact fun hlt => this (by show i < nodes.size; omega)

/-- A loose node can be freed. -/
theorem release {id : Nat} {v : α} (h : t.Holds tree ((id, v) :: loose)) :
    Holds { t with nodes := t.nodes.setIfInBounds id none, free := id :: t.free } tree loose := by
  have hid := h.single (id, v) List.mem_cons_self
  have hnodup := h.nodup
  rw [List.map_cons] at hnodup
  have hall := List.perm_middle.nodup_iff.mp hnodup
  obtain ⟨hnew, hall⟩ := List.nodup_cons.mp hall
  rw [List.mem_append, not_or] at hnew
  have hcontent : ∀ i, i ≠ id →
      content { t with nodes := t.nodes.setIfInBounds id none, free := id :: t.free } i
        = t.content i := fun i hi => by
    simp [content, Array.getElem?_setIfInBounds_ne (Ne.symm hi)]
  have hnone : content { t with nodes := t.nodes.setIfInBounds id none, free := id :: t.free } id
      = none := by
    simp [content, lt_size_of_content hid]
  exact {
    root := h.root
    rep := h.rep.congr fun i hi => hcontent i (by rintro rfl; exact hnew.1 hi)
    single := fun e he => by
      rw [hcontent, h.single e (List.mem_cons_of_mem _ he)]
      exact fun heq => hnew.2 (heq ▸ List.mem_map_of_mem (f := (·.1)) he)
    nodup := hall
    live := fun i hi => by
      by_cases hne : i = id
      · rw [hne, hnone] at hi
        cases hi
      · rw [hcontent i hne, h.isSome_iff, List.map_cons, List.mem_append, List.mem_cons] at hi
        rw [List.mem_append]
        exact hi.imp (fun hi => hi) fun hi => hi.resolve_left hne
    free_nodup := by
      refine List.nodup_cons.mpr ⟨fun hi => ?_, h.free_nodup⟩
      rw [((h.mem_free id).mp hi).2] at hid
      cases hid
    mem_free := fun i => by
      rw [List.mem_cons]
      by_cases hi : i = id
      · subst hi
        simp [hnone, lt_size_of_content hid]
      · rw [hcontent i hi, h.mem_free]
        simp [hi] }

/-- **Inserting** links a new node. -/
theorem insertWith (h : t.Holds tree loose) (v : α) (less : α → α → Bool) :
    ∃ id t', Gives (1 + tree.size) (t.insertWith v less) (id, t') ∧ t.content id = none ∧
      t'.Holds (tree.attach less id v) loose ∧
      (t'.nodes.size = t.nodes.size ∨ t'.nodes.size = t.nodes.size + 1 ∧ t'.free = []) := by
  obtain ⟨id, t₁, halloc⟩ : ∃ id t₁, t.allocate v = (id, t₁) := ⟨_, _, rfl⟩
  obtain ⟨hnone, h₁, hplaces⟩ := h.allocate halloc
  obtain ⟨t₂, hattach, h₂, hsame⟩ := h₁.attachWith less
  refine ⟨id, t₂, fun add hadd => ?_, hnone, h₂, ?_⟩
  · simp [RankTree.insertWith, halloc, hattach add hadd]
  · rw [hsame.size, hsame.free]
    exact hplaces

theorem insert (h : t.Holds tree loose) (v : α) (less : α → α → Bool) :
    ∃ id t', t.insert v less = .ok (id, t') ∧ t.content id = none ∧
      t'.Holds (tree.attach less id v) loose := by
  obtain ⟨id, t', hinsert, hnone, h', -⟩ := h.insertWith v less
  exact ⟨id, t', (insertWith_exactly ..).symm.trans hinsert.exactly, hnone, h'⟩

end Holds

end KeyServer.RankTree
