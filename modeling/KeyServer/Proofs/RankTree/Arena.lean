import KeyServer.Proofs.RankTree.Sums
import KeyServer.Proofs.RankTree.Terms

/-! # Trees in an arena

`Rep c parent t` says that the nodes `c` of an arena contain the term `t`, hanging below
`parent`: every node of `t` has its value, its links up and down, its height and its size.
A node whose measures are not known to be right is `Stale`.

Changing nodes outside of `t` does not matter to it (`Rep.congr`), and every operation says
which nodes it may change (`SameOutside`).

* **Rotations and balance restoration** do to the arena what they do to the term
  (`rotate_spec`, `lighten_spec`, `rebalance_spec`).
* **Restoring balance on the way up** does, too (`fixWithin_spec`).

No height or size that is computed under way is greater than the size of the whole term, so they
do so however sums are computed, if the ones up to there are right (`Gives`).
-/

namespace KeyServer.RankTree

variable {α : Type} {t : RankTree α}

/-! ## Nodes -/

/-- The nodes of an arena by id. -/
def content (t : RankTree α) (id : Nat) : Option (Node α) := t.nodes[id]?.join

theorem node_eq_ok_iff {id : Nat} {n : Node α} : t.node id = .ok n ↔ t.content id = some n := by
  simp only [node, content, Option.join_eq_some_iff]
  split <;> simp_all

theorem node_eq_ok {id : Nat} {n : Node α} (h : t.content id = some n) : t.node id = .ok n :=
  node_eq_ok_iff.mpr h

theorem lt_size_of_content {id : Nat} {n : Node α} (h : t.content id = some n) :
    id < t.nodes.size := by
  simp only [content, Option.join_eq_some_iff] at h
  exact (Array.getElem?_eq_some_iff.mp h).1

/-- The arena with another node in a place that has one. -/
def put (t : RankTree α) (id : Nat) (n : Node α) : RankTree α :=
  { t with nodes := t.nodes.setIfInBounds id (some n) }

theorem content_put_self {id : Nat} {m n : Node α} (h : t.content id = some m) :
    (t.put id n).content id = some n := by
  simp [content, put, lt_size_of_content h]

theorem content_put_ne {id i : Nat} (h : i ≠ id) (n : Node α) :
    (t.put id n).content i = t.content i := by
  simp [content, put, Array.getElem?_setIfInBounds_ne (Ne.symm h)]

theorem change_eq_ok {id : Nat} {n : Node α} (h : t.content id = some n) (f : Node α → Node α) :
    t.change id f = .ok (t.put id (f n)) := by
  simp only [content, Option.join_eq_some_iff] at h
  have hmodify : t.nodes.modify id (Option.map f) = t.nodes.setIfInBounds id (some (f n)) := by
    apply Array.ext_getElem?
    intro i
    rw [Array.getElem?_modify, Array.getElem?_setIfInBounds]
    by_cases hi : id = i
    · subst hi
      rw [if_pos rfl, if_pos rfl, if_pos (Array.getElem?_eq_some_iff.mp h).1, h]
      rfl
    · rw [if_neg hi, if_neg hi]
  simp [change, h, put, hmodify]

/-- There are as many places, and the same ones are free. -/
structure SamePlaces (t t' : RankTree α) : Prop where
  free : t'.free = t.free
  size : t'.nodes.size = t.nodes.size

theorem samePlaces_of_change {id : Nat} {f : Node α → Node α} (h : t.change id f = .ok t') :
    SamePlaces t t' := by
  unfold change at h
  split at h
  · cases h
    exact ⟨rfl, Array.size_modify⟩
  · cases h

/-- Only nodes with some ids differ; which ids are free does not. -/
structure SameOutside (ids : List Nat) (t t' : RankTree α) : Prop extends SamePlaces t t' where
  content : ∀ i, i ∉ ids → t'.content i = t.content i

namespace SameOutside

theorem refl (ids : List Nat) (t : RankTree α) : SameOutside ids t t := ⟨⟨rfl, rfl⟩, fun _ _ => rfl⟩

theorem put {ids : List Nat} {id : Nat} (h : id ∈ ids) (n : Node α) :
    SameOutside ids t (t.put id n) where
  content i hi := content_put_ne (by rintro rfl; exact hi h) n
  free := rfl
  size := by simp [RankTree.put]

theorem trans {ids : List Nat} {t₁ t₂ t₃ : RankTree α} (h : SameOutside ids t₁ t₂)
    (h' : SameOutside ids t₂ t₃) : SameOutside ids t₁ t₃ where
  content i hi := (h'.content i hi).trans (h.content i hi)
  free := h'.free.trans h.free
  size := h'.size.trans h.size

theorem mono {ids ids' : List Nat} {t₁ t₂ : RankTree α} (h : SameOutside ids t₁ t₂)
    (hsub : ∀ i ∈ ids, i ∈ ids') : SameOutside ids' t₁ t₂ where
  content i hi := h.content i fun hm => hi (hsub i hm)
  free := h.free
  size := h.size

end SameOutside

/-! ## Nodes by side -/

/-- A node with one child on a side and one on the other. -/
def nodeOf (s : Side) (parent near far : Option Nat) (height size : Nat) (v : α) : Node α :=
  match s with
  | .left => ⟨parent, near, far, height, size, v⟩
  | .right => ⟨parent, far, near, height, size, v⟩

section NodeOf

variable (s : Side) (p a b x : Option Nat) (h z k : Nat) (v w : α)

@[simp] theorem nodeOf_parent : (nodeOf s p a b h z v).parent = p := by cases s <;> rfl

@[simp] theorem nodeOf_value : (nodeOf s p a b h z v).value = v := by cases s <;> rfl

@[simp] theorem nodeOf_height : (nodeOf s p a b h z v).height = h := by cases s <;> rfl

@[simp] theorem nodeOf_size : (nodeOf s p a b h z v).size = z := by cases s <;> rfl

@[simp] theorem nodeOf_child : (nodeOf s p a b h z v).child s = a := by cases s <;> rfl

@[simp] theorem nodeOf_child_other : (nodeOf s p a b h z v).child s.other = b := by
  cases s <;> rfl

@[simp] theorem nodeOf_withChild :
    (nodeOf s p a b h z v).withChild s x = nodeOf s p x b h z v := by cases s <;> rfl

@[simp] theorem nodeOf_withChild_other :
    (nodeOf s p a b h z v).withChild s.other x = nodeOf s p a x h z v := by cases s <;> rfl

@[simp] theorem nodeOf_withParent :
    { nodeOf s p a b h z v with parent := x } = nodeOf s x a b h z v := by cases s <;> rfl

/-- The only child of a node. -/
theorem nodeOf_left_or_right :
    (nodeOf s p a none h z v).left.or (nodeOf s p a none h z v).right = a := by
  cases s <;> simp [nodeOf]

theorem nodeOf_other : nodeOf s.other p a b h z v = nodeOf s p b a h z v := by cases s <;> rfl

end NodeOf

/-! ## Terms in an arena -/

/-- Nodes `c` contain the term, hanging below `parent`. -/
def Rep (c : Nat → Option (Node α)) : (parent : Option Nat) → Tree α → Prop
  | _, .leaf => True
  | parent, .node id v l r =>
    c id = some ⟨parent, l.top?, r.top?, 1 + max l.height r.height, 1 + l.size + r.size, v⟩ ∧
      Rep c (some id) l ∧ Rep c (some id) r

/-- Nodes `c` contain a node with two subtrees, but its measures may be wrong. -/
def Stale (c : Nat → Option (Node α)) (parent : Option Nat) (s : Side) (id : Nat) (v : α)
    (near far : Tree α) : Prop :=
  (∃ h z, c id = some (nodeOf s parent near.top? far.top? h z v)) ∧
    Rep c (some id) near ∧ Rep c (some id) far

theorem rep_join {c : Nat → Option (Node α)} {p : Option Nat} {s : Side} {id : Nat} {v : α}
    {near far : Tree α} :
    Rep c p (.join s id v near far) ↔
      c id = some (nodeOf s p near.top? far.top? (1 + max near.height far.height)
        (1 + near.size + far.size) v) ∧
      Rep c (some id) near ∧ Rep c (some id) far := by
  cases s with
  | left => rfl
  | right =>
    show _ ∧ Rep c (some id) far ∧ Rep c (some id) near ↔ _
    rw [nodeOf, Nat.max_comm, Nat.add_right_comm 1 far.size, and_comm (a := Rep c (some id) far)]

theorem Rep.stale {c : Nat → Option (Node α)} {p : Option Nat} {s : Side} {id : Nat} {v : α}
    {near far : Tree α} (h : Rep c p (.join s id v near far)) : Stale c p s id v near far := by
  obtain ⟨hid, hnear, hfar⟩ := rep_join.mp h
  exact ⟨⟨_, _, hid⟩, hnear, hfar⟩

theorem Stale.swap {c : Nat → Option (Node α)} {p : Option Nat} {s : Side} {id : Nat} {v : α}
    {near far : Tree α} (h : Stale c p s id v near far) : Stale c p s.other id v far near := by
  obtain ⟨⟨k, z, hid⟩, hnear, hfar⟩ := h
  exact ⟨⟨k, z, by rw [hid, nodeOf_other]⟩, hfar, hnear⟩

/-- What happens elsewhere does not matter. -/
theorem Rep.congr {c c' : Nat → Option (Node α)} {p : Option Nat} {tree : Tree α}
    (h : Rep c p tree) (hc : ∀ i ∈ tree.ids, c' i = c i) : Rep c' p tree := by
  induction tree generalizing p with
  | leaf => trivial
  | node id v l r ihl ihr =>
    obtain ⟨hid, hl, hr⟩ := h
    rw [Tree.ids_node] at hc
    refine ⟨?_, ihl hl fun i hi => hc i ?_, ihr hr fun i hi => hc i ?_⟩
    · rw [hc id (by simp), hid]
    · exact List.mem_append_left _ hi
    · exact List.mem_append_right _ (List.mem_cons_of_mem id hi)

theorem Rep.put {p : Option Nat} {tree : Tree α} (h : Rep t.content p tree) {id : Nat}
    (hid : id ∉ tree.ids) (n : Node α) : Rep (t.put id n).content p tree :=
  h.congr fun _ hi => content_put_ne (by rintro rfl; exact hid hi) n

theorem Rep.outside {ids : List Nat} {t' : RankTree α} {p : Option Nat} {tree : Tree α}
    (h : Rep t.content p tree) (hsame : SameOutside ids t t') (hids : ∀ i ∈ tree.ids, i ∉ ids) :
    Rep t'.content p tree :=
  h.congr fun i hi => hsame.content i (hids i hi)

theorem Rep.isSome {c : Nat → Option (Node α)} {p : Option Nat} {tree : Tree α}
    (h : Rep c p tree) : ∀ i ∈ tree.ids, (c i).isSome := by
  induction tree generalizing p with
  | leaf => simp
  | node id v l r ihl ihr =>
    obtain ⟨hid, hl, hr⟩ := h
    intro i hi
    rw [Tree.ids_node, List.mem_append, List.mem_cons] at hi
    rcases hi with hi | rfl | hi
    · exact ihl hl i hi
    · simp [hid]
    · exact ihr hr i hi

theorem Rep.heightAt {p : Option Nat} {tree : Tree α} (h : Rep t.content p tree) :
    t.heightAt tree.top? = .ok tree.height := by
  cases tree with
  | leaf => rfl
  | node id v l r => simp [RankTree.heightAt, node_eq_ok h.1, Tree.height]

theorem Rep.sizeAt {p : Option Nat} {tree : Tree α} (h : Rep t.content p tree) :
    t.sizeAt tree.top? = .ok tree.size := by
  cases tree with
  | leaf => rfl
  | node id v l r => simp [RankTree.sizeAt, node_eq_ok h.1, Tree.size]

/-- The node above a term can be changed. -/
theorem Rep.setParent {p : Option Nat} {tree : Tree α} (h : Rep t.content p tree)
    (hnodup : tree.ids.Nodup) (q : Option Nat) :
    ∃ t', t.setParent tree.top? q = .ok t' ∧ Rep t'.content q tree ∧ SameOutside tree.ids t t' ∧
      t'.root = t.root := by
  cases tree with
  | leaf => exact ⟨t, rfl, trivial, .refl _ t, rfl⟩
  | node id v l r =>
    obtain ⟨hid, hl, hr⟩ := h
    obtain ⟨hidl, hidr, -⟩ := Tree.nodup_join (s := .left).mp hnodup
    exact ⟨_, change_eq_ok hid _, ⟨content_put_self hid, hl.put hidl _, hr.put hidr _⟩,
      .put (by simp) _, rfl⟩

/-! ## Measures and rotations -/

section Rotations

variable {s : Side} {p : Option Nat} {id : Nat} {v : α} {near far : Tree α}

/-- Measuring a node above two terms makes it a term. -/
theorem measure_spec {k z : Nat} {q q' : Option Nat}
    (hid : t.content id = some (nodeOf s p near.top? far.top? k z v))
    (hnear : Rep t.content q near) (hfar : Rep t.content q' far) :
    Gives (Tree.join s id v near far).size (t.measureWith id)
      (t.put id (nodeOf s p near.top? far.top?
        (1 + max near.height far.height) (1 + near.size + far.size) v)) := by
  intro add hadd
  rw [Tree.size_join] at hadd
  unfold Adder.UpTo at hadd
  have hheight := near.height_le_size
  have hheight' := far.height_le_size
  unfold measureWith
  cases s with
  | left =>
    simp (disch := omega) [node_eq_ok hid, nodeOf, hnear.heightAt, hfar.heightAt, hnear.sizeAt,
      hfar.sizeAt, change_eq_ok hid, hadd]
  | right =>
    simp (disch := omega) [node_eq_ok hid, nodeOf, hnear.heightAt, hfar.heightAt, hnear.sizeAt,
      hfar.sizeAt, change_eq_ok hid, hadd, Nat.max_comm near.height,
      Nat.add_right_comm 1 near.size]

/-- Once measured, a node is a term. -/
theorem Stale.measure (h : Stale t.content p s id v near far)
    (hnear : id ∉ near.ids) (hfar : id ∉ far.ids) :
    ∃ t', Gives (Tree.join s id v near far).size (t.measureWith id) t' ∧
      Rep t'.content p (.join s id v near far) ∧
      SameOutside (Tree.join s id v near far).ids t t' ∧ t'.root = t.root := by
  obtain ⟨⟨k, z, hid⟩, hn, hf⟩ := h
  refine ⟨_, measure_spec hid hn hf, rep_join.mpr ⟨content_put_self hid, ?_, ?_⟩, ?_, rfl⟩
  · exact hn.put hnear _
  · exact hf.put hfar _
  · exact .put (Tree.mem_ids_join.mpr (.inl rfl)) _

variable {top : Nat} {w : α} {inner : Tree α}

/-- **The links of a rotation**: the node that rises takes the place of the one that sinks, which
takes over the inner subtree.  What is left to do is to measure both. -/
theorem rotate_links (h : Stale t.content p s id v near (.join s top w inner far))
    (hnodup : (Tree.join s id v near (.join s top w inner far)).ids.Nodup) :
    ∃ t', (∀ add, t.rotateWith s id add
        = t'.measureWith id add >>= fun t => t.measureWith top add >>= fun t => .ok (t, top)) ∧
      Stale t'.content (some top) s id v near inner ∧
      (∃ h z, t'.content top = some (nodeOf s p (some id) far.top? h z w)) ∧
      Rep t'.content (some top) far ∧
      SameOutside (Tree.join s id v near (.join s top w inner far)).ids t t' ∧
      t'.root = t.root := by
  obtain ⟨⟨k, z, hid⟩, hnear, hchild⟩ := h
  obtain ⟨htop, hinner, hfar⟩ := rep_join.mp hchild
  obtain ⟨hidnear, hidchild, -, hchildnodup, hapart⟩ := Tree.nodup_join.mp hnodup
  obtain ⟨htopinner, htopfar, hinnernodup, -, hapart'⟩ := Tree.nodup_join.mp hchildnodup
  simp only [Tree.mem_ids_join, not_or] at hidchild hapart
  obtain ⟨hne, hidinner, hidfar⟩ := hidchild
  have htopnear : top ∉ near.ids := fun hi => (hapart top hi).1 rfl
  -- The inner subtree goes to the node that sinks.
  let n₁ := nodeOf s p near.top? inner.top? k z v
  obtain ⟨t₂, hset, hinner₂, hsame₂, hroot₂⟩ :=
    (hinner.put hidinner n₁).setParent hinnernodup (some id)
  have hout₂ : ∀ i, i ≠ id → i ∉ inner.ids → t₂.content i = t.content i := fun i hi hi' =>
    (hsame₂.content i hi').trans (content_put_ne hi n₁)
  have hid₂ : t₂.content id = some n₁ :=
    (hsame₂.content id hidinner).trans (content_put_self hid)
  have htop₂ := (hout₂ top (Ne.symm hne) htopinner).trans htop
  have hnear₂ : Rep t₂.content (some id) near := hnear.congr fun i hi =>
    hout₂ i (fun he => hidnear (he ▸ hi)) (hapart i hi).2.1
  have hfar₂ : Rep t₂.content (some top) far := hfar.congr fun i hi =>
    hout₂ i (fun he => hidfar (he ▸ hi)) fun hi' => hapart' i hi' hi
  -- The node that rises takes its place.
  let n₃ := nodeOf s p (some id) far.top? (1 + max inner.height far.height)
    (1 + inner.size + far.size) w
  let t₃ := t₂.put top n₃
  have hid₃ : t₃.content id = some n₁ := (content_put_ne hne n₃).trans hid₂
  have htop₃ : t₃.content top = some n₃ := content_put_self htop₂
  let n₄ := nodeOf s (some top) near.top? inner.top? k z v
  refine ⟨t₃.put id n₄, fun add => ?_, ⟨⟨k, z, content_put_self hid₃⟩, ?_, ?_⟩,
    ⟨_, _, (content_put_ne (Ne.symm hne) n₄).trans htop₃⟩, ?_, ?_, hroot₂⟩
  · have h₄ : t₃.change id (fun n => { n with parent := some top }) = .ok (t₃.put id n₄) := by
      rw [change_eq_ok hid₃, nodeOf_withParent]
    have h₃ : t₂.change top (fun m => { m.withChild s (some id) with parent := p }) = .ok t₃ := by
      rw [change_eq_ok htop₂, nodeOf_withChild, nodeOf_withParent]
    have h₁ : t.change id (·.withChild s.other inner.top?) = .ok (t.put id n₁) := by
      rw [change_eq_ok hid, nodeOf_withChild_other]
    simp only [rotateWith, node_eq_ok hid, node_eq_ok htop, ok_bind, nodeOf_child_other,
      nodeOf_child, nodeOf_parent, Tree.top?_join, h₁, hset, h₃]
    simp only [RankTree.setParent, h₄, ok_bind, pure_eq_ok]
  · exact (hnear₂.put htopnear n₃).put hidnear n₄
  · exact (hinner₂.put htopinner n₃).put hidinner n₄
  · exact (hfar₂.put htopfar n₃).put hidfar n₄
  · refine .trans (.trans (.trans (.put ?_ n₁) (hsame₂.mono ?_)) (.put ?_ n₃)) (.put ?_ n₄)
    all_goals simp only [Tree.mem_ids_join]; grind

/-- **Rotating** in the arena rotates the term. -/
theorem rotate_spec (h : Stale t.content p s id v near (.join s top w inner far))
    (hnodup : (Tree.join s id v near (.join s top w inner far)).ids.Nodup) :
    ∃ t', Gives (Tree.join s id v near (.join s top w inner far)).size (t.rotateWith s id)
        (t', top) ∧
      Rep t'.content p (.join s top w (.join s id v near inner) far) ∧
      SameOutside (Tree.join s id v near (.join s top w inner far)).ids t t' ∧
      t'.root = t.root := by
  obtain ⟨t₁, hlinks, hstale₁, ⟨k, z, htop₁⟩, hfar₁, hsame₁, hroot₁⟩ := rotate_links h hnodup
  obtain ⟨hidnear, hidchild, -, hchildnodup, hapart⟩ := Tree.nodup_join.mp hnodup
  obtain ⟨htopinner, htopfar, -, -, hapart'⟩ := Tree.nodup_join.mp hchildnodup
  simp only [Tree.mem_ids_join, not_or] at hidchild hapart
  obtain ⟨hne, hidinner, hidfar⟩ := hidchild
  have htopsunk : top ∉ (Tree.join s id v near inner).ids := by
    simp only [Tree.mem_ids_join, not_or]
    exact ⟨Ne.symm hne, fun hi => (hapart top hi).1 rfl, htopinner⟩
  have hfarsunk : ∀ i ∈ far.ids, i ∉ (Tree.join s id v near inner).ids := by
    intro i hi
    simp only [Tree.mem_ids_join, not_or]
    exact ⟨fun he => hidfar (he ▸ hi), fun hi' => (hapart i hi').2.2 hi,
      fun hi' => hapart' i hi' hi⟩
  -- The node that has sunk is measured first, then the one above it.
  obtain ⟨t₂, hmeasure₂, hrep₂, hsame₂, hroot₂⟩ := hstale₁.measure hidnear hidinner
  have hstale₂ : Stale t₂.content p s top w (.join s id v near inner) far := by
    refine ⟨⟨k, z, ?_⟩, hrep₂, hfar₁.outside hsame₂ hfarsunk⟩
    rw [Tree.top?_join, hsame₂.content top htopsunk, htop₁]
  obtain ⟨t₃, hmeasure₃, hrep₃, hsame₃, hroot₃⟩ := hstale₂.measure htopsunk htopfar
  refine ⟨t₃, ?_, hrep₃, ?_, hroot₃.trans (hroot₂.trans hroot₁)⟩
  · intro add hadd
    have hfirst := hmeasure₂ add (hadd.mono (by simp only [Tree.size_join]; omega))
    have hsecond := hmeasure₃ add (hadd.mono (by simp only [Tree.size_join]; omega))
    rw [hlinks, hfirst, ok_bind, hsecond, ok_bind]
  · refine .trans (.trans hsame₁ (hsame₂.mono ?_)) (hsame₃.mono ?_)
    all_goals simp only [Tree.mem_ids_join]; grind

variable {c : Nat} {u : α} {outer a b : Tree α}

/-- **Rotating a child** outwards and linking what comes to its top. -/
theorem rotate_child (h : Stale t.content p s id v (.join s c w outer (.join s top u a b)) far)
    (hnodup : (Tree.join s id v (.join s c w outer (.join s top u a b)) far).ids.Nodup) :
    ∃ t₁ t', Gives (Tree.join s c w outer (.join s top u a b)).size (t.rotateWith s c) (t₁, top) ∧
      t₁.change id (·.withChild s (some top)) = .ok t' ∧
      Stale t'.content p s id v (.join s top u (.join s c w outer a) b) far ∧
      (Tree.join s id v (.join s top u (.join s c w outer a) b) far).ids.Nodup ∧
      SameOutside (Tree.join s id v (.join s c w outer (.join s top u a b)) far).ids t t' ∧
      t'.root = t.root := by
  obtain ⟨⟨k, z, hid⟩, hnear, hfar⟩ := h
  obtain ⟨hidnear, hidfar, hnearnodup, hfarnodup, hapart⟩ := Tree.nodup_join.mp hnodup
  obtain ⟨t₁, hrotate, hrep, hsame, hroot⟩ := rotate_spec hnear.stale hnearnodup
  have hid₁ := (hsame.content id hidnear).trans hid
  have hids : ∀ i, i ∈ (Tree.join s top u (.join s c w outer a) b).ids ↔
      i ∈ (Tree.join s c w outer (.join s top u a b)).ids := by
    intro i
    simp only [Tree.mem_ids_join]
    grind
  let n := nodeOf s p (some top) far.top? k z v
  refine ⟨t₁, t₁.put id n, hrotate, by rw [change_eq_ok hid₁, nodeOf_withChild],
    ⟨⟨k, z, ?_⟩, hrep.put (fun hi => hidnear ((hids id).mp hi)) n, ?_⟩, ?_, ?_, hroot⟩
  · rw [content_put_self hid₁, Tree.top?_join]
  · exact (hfar.outside hsame fun i hi hi' => hapart i hi' hi).put hidfar n
  · refine Tree.nodup_join.mpr ⟨fun hi => hidnear ((hids id).mp hi), hidfar, ?_, hfarnodup,
      fun i hi => hapart i ((hids i).mp hi)⟩
    simp only [Tree.nodup_join, Tree.mem_ids_join] at hnearnodup ⊢
    grind
  · refine .trans (hsame.mono ?_) (.put ?_ n)
    all_goals simp only [Tree.mem_ids_join]; grind

/-- **Lightening** in the arena lightens the term. -/
theorem lighten_spec (h : Stale t.content p s id v near far) (hpos : 0 < near.height)
    (hnodup : (Tree.join s id v near far).ids.Nodup) :
    ∃ t' top, Gives (Tree.join s id v near far).size (t.lightenWith s id) (t', top) ∧
      Rep t'.content p (Tree.lighten s (.join s id v near far)) ∧
      (Tree.lighten s (.join s id v near far)).top? = some top ∧
      SameOutside (Tree.join s id v near far).ids t t' ∧ t'.root = t.root := by
  obtain ⟨c, w, outer, inner, rfl⟩ := Tree.exists_join s hpos
  have hstart : ∀ add, t.lightenWith s id add = if outer.height < inner.height then
      t.rotateWith s c add >>= fun r =>
        r.1.change id (·.withChild s (some r.2)) >>= (·.rotateWith s.other id add)
      else t.rotateWith s.other id add := by
    intro add
    obtain ⟨⟨k, z, hid⟩, hnear, -⟩ := h
    obtain ⟨hc, houter, hinner⟩ := rep_join.mp hnear
    rw [lightenWith, node_eq_ok hid, ok_bind, nodeOf_child, Tree.top?_join]
    simp only [node_eq_ok hc, ok_bind, nodeOf_child, nodeOf_child_other, houter.heightAt,
      hinner.heightAt]
  rw [Tree.lighten_join]
  -- Seen from the other side, the child is the far one, and a rotation lifts it.
  by_cases hheavy : outer.height < inner.height
  · -- The child is rotated outwards first.
    obtain ⟨top, u, a, b, rfl⟩ := Tree.exists_join s (Nat.zero_lt_of_lt hheavy)
    obtain ⟨t₁, t₂, hrotate₁, hchange, hstale₂, hnodup₂, hsame₂, hroot₂⟩ := rotate_child h hnodup
    have hswap : Stale t₂.content p s.other id v far
        (.join s.other top u b (.join s c w outer a)) := by
      rw [Tree.join_other]
      exact hstale₂.swap
    obtain ⟨t₃, hrotate₃, hrep₃, hsame₃, hroot₃⟩ :=
      rotate_spec hswap (by rwa [Tree.join_other, Tree.join_other])
    have hlift : Tree.rotate s.other (.join s id v (.join s top u (.join s c w outer a) b) far)
        = .join s.other top u (.join s.other id v far b) (.join s c w outer a) := by
      rw [← Tree.join_other s id, ← Tree.join_other s top, Tree.rotate_join]
    rw [if_pos hheavy, Tree.rotate_join, hlift]
    refine ⟨t₃, top, ?_, hrep₃, Tree.top?_join .., ?_, hroot₃.trans hroot₂⟩
    · intro add hadd
      have hfirst := hrotate₁ add (hadd.mono (by simp only [Tree.size_join]; omega))
      have hsecond := hrotate₃ add (hadd.mono (by simp only [Tree.size_join]; omega))
      rw [hstart, if_pos hheavy, hfirst, ok_bind]
      simp only [hchange, ok_bind, hsecond]
    · simp only [Tree.join_other] at hsame₃ ⊢
      refine hsame₂.trans (hsame₃.mono ?_)
      simp only [Tree.mem_ids_join]
      grind
  · have hswap : Stale t.content p s.other id v far (.join s.other c w inner outer) := by
      rw [Tree.join_other]
      exact h.swap
    obtain ⟨t₁, hrotate, hrep, hsame, hroot⟩ :=
      rotate_spec hswap (by rwa [Tree.join_other, Tree.join_other])
    rw [if_neg hheavy, ← Tree.join_other s id, ← Tree.join_other s c, Tree.rotate_join]
    refine ⟨t₁, c, fun add hadd => ?_, hrep, Tree.top?_join .., hsame, hroot⟩
    rw [hstart, if_neg hheavy, hrotate add hadd]

/-- **Rebalancing** in the arena rebalances the term. -/
theorem rebalance_spec (h : Stale t.content p s id v near far)
    (hnodup : (Tree.join s id v near far).ids.Nodup) :
    ∃ t' top, Gives (Tree.join s id v near far).size (t.rebalanceWith id) (t', top) ∧
      Rep t'.content p (Tree.join s id v near far).rebalance ∧
      (Tree.join s id v near far).rebalance.top? = some top ∧
      SameOutside (Tree.join s id v near far).ids t t' ∧ t'.root = t.root := by
  obtain ⟨l, r, hjoin, h⟩ : ∃ l r, Tree.join s id v near far = .node id v l r ∧
      Stale t.content p .left id v l r := by
    cases s with
    | left => exact ⟨near, far, rfl, h⟩
    | right => exact ⟨far, near, rfl, h.swap⟩
  rw [hjoin] at hnodup ⊢
  obtain ⟨hidl, hidr, -⟩ := Tree.nodup_join (s := .left).mp hnodup
  obtain ⟨t₁, hmeasure, hrep, hsame, hroot⟩ := h.measure hidl hidr
  have hnode := hrep
  obtain ⟨hid, hl, hr⟩ := hnode
  have hstart : ∀ {result : RankTree α × Nat},
      (∀ add : Adder, add.UpTo (Tree.node id v l r).size →
        (if l.height = r.height + 2 then t₁.lightenWith .left id add
          else if r.height = l.height + 2 then t₁.lightenWith .right id add
          else pure (t₁, id)) = .ok result) →
      Gives (Tree.node id v l r).size (t.rebalanceWith id) result := by
    intro result hrest add hadd
    have hfirst : t.measureWith id add = .ok t₁ := hmeasure add hadd
    rw [rebalanceWith, hfirst, ok_bind, node_eq_ok hid, ok_bind, hl.heightAt, ok_bind,
      hr.heightAt, ok_bind]
    exact hrest add hadd
  rw [Tree.rebalance]
  by_cases hleft : l.height = r.height + 2
  · simp only [if_pos hleft] at hstart ⊢
    obtain ⟨t₂, top, hlighten, hrep₂, htop, hsame₂, hroot₂⟩ :=
      lighten_spec (s := .left) hrep.stale (by omega) hnodup
    exact ⟨t₂, top, hstart hlighten, hrep₂, htop, hsame.trans hsame₂, hroot₂.trans hroot⟩
  · simp only [if_neg hleft] at hstart ⊢
    by_cases hright : r.height = l.height + 2
    · simp only [if_pos hright] at hstart ⊢
      have hswap : Stale t₁.content p .right id v r l := (Rep.stale (s := .left) hrep).swap
      obtain ⟨t₂, top, hlighten, hrep₂, htop, hsame₂, hroot₂⟩ :=
        lighten_spec hswap (by omega) hnodup
      exact ⟨t₂, top, hstart hlighten, hrep₂, htop, hsame.trans hsame₂, hroot₂.trans hroot⟩
    · simp only [if_neg hright] at hstart ⊢
      exact ⟨t₁, id, hstart fun _ _ => rfl, hrep, rfl, hsame, hroot⟩

end Rotations

/-! ## The way up -/

/-- Nodes `c` contain the nodes around a place that has `link` in it; the measures of the
ones above the place may be wrong. -/
def Around (c : Nat → Option (Node α)) : (link : Option Nat) → List (Crumb α) → Prop
  | _, [] => True
  | link, k :: path =>
    (∃ h z, c k.id = some (nodeOf k.side (above path) link k.sibling.top? h z k.value)) ∧
      Rep c (some k.id) k.sibling ∧ Around c (some k.id) path

theorem Around.congr {c c' : Nat → Option (Node α)} {link : Option Nat} {path : List (Crumb α)}
    (h : Around c link path) (hc : ∀ i ∈ pathIds path, c' i = c i) : Around c' link path := by
  induction path generalizing link with
  | nil => trivial
  | cons k path ih =>
    obtain ⟨hid, hsibling, hpath⟩ := h
    refine ⟨?_, hsibling.congr fun i hi => hc i (by simp [pathIds, hi]),
      ih hpath fun i hi => hc i (by simp [pathIds, hi])⟩
    rw [hc k.id (by simp [pathIds])]
    exact hid

/-- A term is made of what is in a place and what is around it. -/
theorem Rep.split {c : Nat → Option (Node α)} {path : List (Crumb α)} {sub : Tree α}
    (h : Rep c none (plug path sub)) : Rep c (above path) sub ∧ Around c sub.top? path := by
  induction path generalizing sub with
  | nil => exact ⟨h, trivial⟩
  | cons k path ih =>
    obtain ⟨hfill, hpath⟩ := ih h
    obtain ⟨hid, hsub, hsibling⟩ := rep_join.mp hfill
    rw [Crumb.fill, Tree.top?_join] at hpath
    exact ⟨hsub, ⟨_, _, hid⟩, hsibling, hpath⟩

/-- The link down to a node is found on the right side. -/
theorem relink_spec {s : Side} {p far : Option Nat} {id old h z : Nat} {v : α}
    (hid : t.content id = some (nodeOf s p (some old) far h z v)) (hfar : far ≠ some old)
    (new : Option Nat) :
    t.relink id old new = .ok (t.put id (nodeOf s p new far h z v)) := by
  rw [relink, node_eq_ok hid, ok_bind]
  cases s with
  | left =>
    show t.change id (·.withChild (if some old = some old then .left else .right) new) = _
    rw [if_pos rfl, change_eq_ok hid, nodeOf_withChild]
  | right =>
    show t.change id (·.withChild (if far = some old then .left else .right) new) = _
    rw [if_neg hfar, change_eq_ok hid, nodeOf_withChild]

/-- Nodes around a place are still there when the link into it is changed. -/
theorem Around.relink {path : List (Crumb α)} {k : Crumb α} {old : Nat}
    (h : Around t.content (some old) (k :: path)) (hnodup : (pathIds (k :: path)).Nodup)
    (hold : old ∉ pathIds (k :: path)) (new : Option Nat) :
    ∃ t', t.relink k.id old new = .ok t' ∧ Around t'.content new (k :: path) ∧
      SameOutside [k.id] t t' ∧ t'.root = t.root ∧
      (t'.content k.id).map (fun n => (n.height, n.size))
        = (t.content k.id).map fun n => (n.height, n.size) := by
  obtain ⟨⟨m, z, hid⟩, hsibling, hpath⟩ := h
  rw [pathIds, List.cons_append, List.nodup_cons, List.mem_append, not_or] at hnodup
  obtain ⟨⟨hks, hkp⟩, -⟩ := hnodup
  have hfar : k.sibling.top? ≠ some old := fun he =>
    hold (by simp [pathIds, Tree.top?_mem_ids he])
  refine ⟨_, relink_spec hid hfar new, ⟨⟨m, z, content_put_self hid⟩, hsibling.put hks _, ?_⟩,
    .put (by simp) _, rfl, ?_⟩
  · exact hpath.congr fun i hi => content_put_ne (by rintro rfl; exact hkp hi) _
  · rw [content_put_self hid, hid]
    cases k.side <;> rfl

/-- **Restoring balance on the way up** in the arena does so in the term. -/
theorem fixWithin_spec {path : List (Crumb α)} : ∀ {steps : Nat} {t : RankTree α} {k : Crumb α}
    {sub : Tree α}, Around t.content sub.top? (k :: path) → Rep t.content (some k.id) sub →
      (plug (k :: path) sub).ids.Nodup → path.length < steps →
    ∃ t' top, Gives (plug (k :: path) sub).size (t.fixWithinWith steps k.id) (t', top) ∧
      Rep t'.content none (fixUp (k :: path) sub) ∧ (fixUp (k :: path) sub).top? = some top ∧
      t'.root = some top ∧ SameOutside (plug (k :: path) sub).ids t t' := by
  induction path with
  | nil =>
    rintro (_ | steps) t k sub ⟨⟨h, z, hid⟩, hsibling, -⟩ hsub hnodup hsteps
    · cases hsteps
    obtain ⟨t₁, top, hrebalance, hrep, htop, hsame, -⟩ :=
      rebalance_spec ⟨⟨h, z, hid⟩, hsub, hsibling⟩ hnodup
    refine ⟨{ t₁ with root := some top }, top, fun add hadd => ?_, hrep, htop, rfl,
      ⟨⟨hsame.free, hsame.size⟩, hsame.content⟩⟩
    simp [fixWithinWith, node_eq_ok hid, hrebalance add hadd]
  | cons k' path ih =>
    rintro (_ | steps) t k sub ⟨⟨h, z, hid⟩, hsibling, haround⟩ hsub hnodup hsteps
    · cases hsteps
    rw [plug_cons, nodup_plug] at hnodup
    obtain ⟨hfill, hpath, hapart⟩ := hnodup
    obtain ⟨t₁, top, hrebalance, hrep, htop, hsame, -⟩ :=
      rebalance_spec ⟨⟨h, z, hid⟩, hsub, hsibling⟩ hfill
    rw [← Crumb.fill] at hrep htop
    -- The subtree may have another top now, so the node above gets a new link.
    have hids : (k.fill sub).rebalance.ids = (k.fill sub).ids := by simp [Tree.ids]
    have hold : k.id ∉ pathIds (k' :: path) := hapart k.id (Tree.mem_ids_join.mpr (.inl rfl))
    obtain ⟨t₂, hrelink, haround₂, hsame₂, -⟩ :=
      (haround.congr fun i hi => hsame.content i fun hi' => hapart i hi' hi).relink hpath hold
        (some top)
    have hmem : k'.id ∈ pathIds (k' :: path) := by simp [pathIds]
    rw [← htop] at haround₂
    obtain ⟨t₃, top₃, hfix, hrep₃, htop₃, hroot₃, hsame₃⟩ := ih haround₂
      (hrep.outside hsame₂ fun i hi => by
        rw [hids] at hi
        rw [List.mem_singleton]
        rintro rfl
        exact hapart _ hi hmem)
      (nodup_plug.mpr (by rw [hids]; exact ⟨hfill, hpath, hapart⟩))
      (Nat.lt_of_succ_lt_succ hsteps)
    refine ⟨t₃, top₃, ?_, hrep₃, htop₃, hroot₃, ?_⟩
    · intro add hadd
      rw [plug_cons, size_plug] at hadd
      have hfirst := hrebalance add (hadd.mono (Nat.le_add_right ..))
      have hrest := hfix add (hadd.mono (Nat.le_of_eq (by rw [size_plug, Tree.size_rebalance])))
      simp [fixWithinWith, node_eq_ok hid, hfirst, hrelink, hrest]
    · rw [plug_cons]
      refine .trans (.trans (hsame.mono ?_) (hsame₂.mono ?_)) (hsame₃.mono ?_)
      · exact fun i hi => mem_ids_plug.mpr (.inl hi)
      · rintro i hi
        rw [List.mem_singleton.mp hi]
        exact mem_ids_plug.mpr (.inr hmem)
      · intro i hi
        rw [mem_ids_plug, hids] at hi
        exact mem_ids_plug.mpr hi

end KeyServer.RankTree
