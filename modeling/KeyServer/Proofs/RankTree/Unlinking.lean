import KeyServer.Proofs.RankTree.Linking

/-! # Unlinking nodes

A node with at most one child gives way to it.  A node with two children gives way to the
next node in order, which has at most one child and is unlinked first; it then takes over
all links and measures of the node (`takeOver_spec`).

* **`Holds.detach`** and **`Holds.remove`** take a node out, and the rest keeps its order
  (`Unlinks.items`).
-/

namespace KeyServer.RankTree

variable {α : Type} {t : RankTree α} {tree : Tree α} {loose : List (Nat × α)}

/-! ## At most one child -/

/-- The way down to the leftmost node of a subtree passes everything by on the left. -/
theorem leftmostWithin_spec : ∀ {l r : Tree α} {id : Nat} {v : α} {steps : Nat} {p : Option Nat},
    Rep t.content p (.node id v l r) → l.height < steps →
    ∃ path first w r', t.leftmostWithin steps id = .ok first ∧
      Tree.node id v l r = plug path (.node first w .leaf r') ∧ before path = [] := by
  intro l
  induction l with
  | leaf =>
    rintro r id v (_ | steps) p ⟨hid, -⟩ hsteps
    · cases hsteps
    exact ⟨[], id, v, r, by simp [leftmostWithin, node_eq_ok hid], rfl, rfl⟩
  | node id' v' l' r' ihl _ =>
    rintro r id v (_ | steps) p ⟨hid, hl, -⟩ hsteps
    · cases hsteps
    rw [Tree.height] at hsteps
    obtain ⟨path, first, w, r'', hleft, hplug, hbefore⟩ := ihl hl (show l'.height < steps by omega)
    refine ⟨path ++ [⟨.left, id, v, r⟩], first, w, r'', ?_, ?_, ?_⟩
    · simp [leftmostWithin, node_eq_ok hid, hleft]
    · rw [plug_append, ← hplug]
      rfl
    · rw [before_append, hbefore]
      rfl

/-- A subtree gives way to one with the same measures that is linked in its place. -/
theorem Rep.replug {c c' : Nat → Option (Node α)} : ∀ {path : List (Crumb α)} {x y : Tree α},
    Rep c none (plug path y) → x.height = y.height → x.size = y.size →
      Rep c' (above path) x → Around c' x.top? path →
      (∀ k ∈ path, (c' k.id).map (fun n => (n.height, n.size))
        = (c k.id).map fun n => (n.height, n.size)) → Rep c' none (plug path x) := by
  intro path
  induction path with
  | nil => exact fun _ _ _ hx _ _ => hx
  | cons k path ih =>
    intro x y hy hheight hsize hx haround hmeasures
    have hfill : Rep c none (plug path (k.fill y)) := hy
    obtain ⟨hid, -⟩ := rep_join.mp hfill.split.1
    obtain ⟨⟨h, z, hid'⟩, hsibling, hpath⟩ := haround
    have hnew : c' k.id = some (nodeOf k.side (above path) x.top? k.sibling.top?
        (1 + max x.height k.sibling.height) (1 + x.size + k.sibling.size) k.value) := by
      have hk := hmeasures k List.mem_cons_self
      rw [hid, hid', Option.map_some, Option.map_some, Option.some_inj, Prod.mk.injEq,
        nodeOf_height, nodeOf_height, nodeOf_size, nodeOf_size] at hk
      rw [hid', hk.1, hk.2, hheight, hsize]
    refine ih (x := k.fill x) hy ?_ ?_ (rep_join.mpr ⟨hnew, hx, hsibling⟩) ?_ fun k' hk' =>
      hmeasures k' (List.mem_cons_of_mem k hk')
    · rw [Crumb.fill, Crumb.fill, Tree.height_join, Tree.height_join, hheight]
    · rw [Crumb.fill, Crumb.fill, Tree.size_join, Tree.size_join, hsize]
    · rwa [Crumb.fill, Tree.top?_join]

/-- **Unlinking a node with at most one child** puts the child in its place. -/
theorem unlinkNarrow_spec {path : List (Crumb α)} {s : Side} {id : Nat} {v : α} {sub : Tree α}
    (hrep : Rep t.content none (plug path (.join s id v sub .leaf)))
    (hnodup : (plug path (.join s id v sub .leaf)).ids.Nodup) (hsteps : path.length < t.stepBound) :
    ∃ t', Gives (plug path sub).size (t.unlinkNarrowWith id) (t', (fixUp path sub).top?) ∧
      Rep t'.content none (fixUp path sub) ∧ t'.root = (fixUp path sub).top? ∧
      SameOutside (plug path sub).ids t t' ∧ id ∉ (plug path sub).ids := by
  obtain ⟨hnode, haround⟩ := hrep.split
  obtain ⟨hid, hsub, -⟩ := rep_join.mp hnode
  obtain ⟨hjoin, hpath, hapart⟩ := nodup_plug.mp hnodup
  obtain ⟨hidsub, -, hsubnodup, -⟩ := Tree.nodup_join.mp hjoin
  have hidpath : id ∉ pathIds path := hapart id (Tree.mem_ids_join.mpr (.inl rfl))
  have hsubpath : ∀ i ∈ sub.ids, i ∉ pathIds path := fun i hi =>
    hapart i (Tree.mem_ids_join.mpr (.inr (.inl hi)))
  have hfree : id ∉ (plug path sub).ids := by
    rw [mem_ids_plug, not_or]
    exact ⟨hidsub, hidpath⟩
  -- First the child gets its new parent, then the parent its new link.
  obtain ⟨t₁, hset, hsub₁, hsame₁, hroot₁⟩ := hsub.setParent hsubnodup (above path)
  have haround₁ := haround.congr fun i hi => hsame₁.content i fun hi' => hsubpath i hi' hi
  unfold Gives
  simp only [unlinkNarrowWith, node_eq_ok hid, ok_bind, Tree.top?_leaf, nodeOf_left_or_right,
    nodeOf_parent, hset]
  cases path with
  | nil => exact ⟨{ t₁ with root := sub.top? }, fun _ _ => rfl, hsub₁, rfl,
      ⟨⟨hsame₁.free, hsame₁.size⟩, hsame₁.content⟩, hfree⟩
  | cons k path =>
    rw [Tree.top?_join] at haround₁
    obtain ⟨t₂, hrelink, haround₂, hsame₂, -⟩ := haround₁.relink hpath hidpath sub.top?
    have hmem : k.id ∈ pathIds (k :: path) := by simp [pathIds]
    have hsize : t₂.nodes.size = t.nodes.size := hsame₂.size.trans hsame₁.size
    obtain ⟨t₃, top, hfix, hrep₃, htop₃, hroot₃, hsame₃⟩ := fixWithin_spec haround₂
      (hsub₁.outside hsame₂ fun i hi => by
        rw [List.mem_singleton]
        rintro rfl
        exact hsubpath _ hi hmem)
      (nodup_plug.mpr ⟨hsubnodup, hpath, hsubpath⟩)
      (show path.length < t₂.stepBound by
        rw [List.length_cons] at hsteps
        unfold stepBound at hsteps ⊢
        omega)
    refine ⟨t₃, fun add hadd => ?_, hrep₃, hroot₃.trans htop₃.symm, ?_, hfree⟩
    · simp [hrelink, fixWith, hfix add hadd, htop₃]
    · refine .trans (.trans (hsame₁.mono fun i hi => ?_) (hsame₂.mono fun i hi => ?_)) hsame₃
      · exact mem_ids_plug.mpr (.inl hi)
      · rw [List.mem_singleton.mp hi]
        exact mem_ids_plug.mpr (.inr hmem)

/-- What unlinking a node leaves of a tree. -/
inductive Unlinks (id : Nat) (v : α) : Tree α → Tree α → Prop where
  /-- A node with at most one child gives way to it. -/
  | narrow (path : List (Crumb α)) (s : Side) (sub : Tree α) :
      Unlinks id v (plug path (.join s id v sub .leaf)) (fixUp path sub)
  /-- A node with two children gives way to its successor, which is taken out first. -/
  | heir (path : List (Crumb α)) (l : Tree α) {q path' : List (Crumb α)} {heir : Nat} {w : α}
      {sub l' r' : Tree α} (hq : before q = [])
      (hrest : fixUp (q ++ ⟨.right, id, v, l⟩ :: path) sub = plug path' (.node id v l' r')) :
      Unlinks id v (plug path (.node id v l (plug q (.node heir w .leaf sub))))
        (plug path' (.node heir w l' r'))

/-- **Unlinking a node** takes it out of the order, and nothing else changes there. -/
theorem Unlinks.items {id : Nat} {v : α} {tree tree' : Tree α} (h : Unlinks id v tree tree')
    (hnodup : tree.ids.Nodup) :
    ∃ a b, tree.items = a ++ (id, v) :: b ∧ tree'.items = a ++ b := by
  cases h with
  | narrow path s sub =>
    rw [items_plug, items_fixUp, items_plug]
    cases s with
    | left => exact ⟨before path ++ sub.items, after path, by simp [Tree.join], by simp⟩
    | right => exact ⟨before path, sub.items ++ after path, by simp [Tree.join], by simp⟩
  | @heir path l q path' heir w sub l' r' hq hrest =>
    have hold : (plug path (.node id v l (plug q (.node heir w .leaf sub)))).items
        = (before path ++ l.items) ++
          (id, v) :: ((heir, w) :: sub.items ++ after q ++ after path) := by
      simp [items_plug, hq]
    have hsplit := congrArg Tree.items hrest
    rw [items_fixUp, items_plug, items_plug, before_append, after_append, hq] at hsplit
    have hrest : (((before path ++ l.items) ++
        (id, v) :: (sub.items ++ after q ++ after path)).map (·.1)).Nodup := by
      rw [Tree.ids, hold] at hnodup
      refine hnodup.sublist (.map _ (.append (.refl _) (.cons_cons _ ?_)))
      exact List.sublist_cons_self ..
    have hsame : (before path ++ l.items) ++ (id, v) :: (sub.items ++ after q ++ after path)
        = (before path' ++ l'.items) ++ (id, v) :: (r'.items ++ after path') := by
      simpa [before, after] using hsplit
    obtain ⟨hbefore, hafter⟩ := append_cons_inj_of_nodup hrest hsame
    refine ⟨_, _, hold, ?_⟩
    rw [items_plug, Tree.items_node, hbefore, List.cons_append, List.cons_append, hafter]
    simp

theorem Unlinks.size_eq {id : Nat} {v : α} {tree tree' : Tree α} (h : Unlinks id v tree tree')
    (hnodup : tree.ids.Nodup) : tree.size = 1 + tree'.size := by
  obtain ⟨a, b, hitems, hitems'⟩ := h.items hnodup
  rw [← Tree.length_items, ← Tree.length_items, hitems, hitems', List.length_append,
    List.length_cons, List.length_append]
  omega

/-- **Inheriting** the links and the measures of a node: its children hang below the heir, and
only the node above still has to be told. -/
theorem inherit_spec {p : Option Nat} {id heir : Nat} {v : α} {l r : Tree α} {m : Node α}
    (h : Rep t.content p (.node id v l r)) (hnodup : (Tree.node id v l r).ids.Nodup)
    (hheir : heir ∉ (Tree.node id v l r).ids) (hm : t.content heir = some m) :
    ∃ n t₁ t₂ t₃, t.node id = .ok n ∧ n.parent = p ∧
      t.change heir (fun h => { n with value := h.value }) = .ok t₁ ∧
      t₁.setParent n.left (some heir) = .ok t₂ ∧ t₂.setParent n.right (some heir) = .ok t₃ ∧
      Rep t₃.content p (.node heir m.value l r) ∧ SameOutside (heir :: (l.ids ++ r.ids)) t t₃ ∧
      t₃.root = t.root := by
  obtain ⟨hid, hl, hr⟩ := h
  obtain ⟨-, -, hlnodup, hrnodup, hlr⟩ := (Tree.nodup_join (s := .left)).mp hnodup
  simp only [Tree.ids_node, List.mem_append, List.mem_cons, not_or] at hheir
  obtain ⟨hhl, -, hhr⟩ := hheir
  let n : Node α := ⟨p, l.top?, r.top?, 1 + max l.height r.height, 1 + l.size + r.size, v⟩
  obtain ⟨t₂, hset₂, hl₂, hsame₂, hroot₂⟩ :=
    (hl.put hhl { n with value := m.value }).setParent hlnodup (some heir)
  obtain ⟨t₃, hset₃, hr₃, hsame₃, hroot₃⟩ :=
    ((hr.put hhr { n with value := m.value }).outside hsame₂ fun i hi hi' => hlr i hi' hi).setParent
      hrnodup (some heir)
  have hheir₃ : t₃.content heir = some { n with value := m.value } :=
    (hsame₃.content heir hhr).trans ((hsame₂.content heir hhl).trans (content_put_self hm))
  refine ⟨n, t.put heir { n with value := m.value }, t₂, t₃, node_eq_ok hid, rfl,
    change_eq_ok hm _, hset₂, hset₃, ⟨hheir₃, hl₂.outside hsame₃ fun i hi => hlr i hi, hr₃⟩,
    ?_, hroot₃.trans hroot₂⟩
  refine .trans (.trans (.put List.mem_cons_self _) (hsame₂.mono fun i hi => ?_))
    (hsame₃.mono fun i hi => ?_)
  · exact List.mem_cons_of_mem heir (List.mem_append_left _ hi)
  · exact List.mem_cons_of_mem heir (List.mem_append_right _ hi)

/-- **Taking over** the place of a node: another node gets its links and its measures. -/
theorem takeOver_spec {path : List (Crumb α)} {id heir : Nat} {v : α} {l r : Tree α} {m : Node α}
    (hrep : Rep t.content none (plug path (.node id v l r)))
    (hroot : t.root = (plug path (.node id v l r)).top?)
    (hnodup : (plug path (.node id v l r)).ids.Nodup)
    (hheir : heir ∉ (plug path (.node id v l r)).ids) (hm : t.content heir = some m) :
    ∃ n t₁ t₂ t₃ t', t.node id = .ok n ∧
      t.change heir (fun h => { n with value := h.value }) = .ok t₁ ∧
      t₁.setParent n.left (some heir) = .ok t₂ ∧ t₂.setParent n.right (some heir) = .ok t₃ ∧
      (∀ f : RankTree α → Except Fault (RankTree α × Option Nat),
        (match n.parent with
          | none => f { t₃ with root := some heir }
          | some p => do f (← t₃.relink p id (some heir))) = f t') ∧
      Rep t'.content none (plug path (.node heir m.value l r)) ∧
      t'.root = (plug path (.node heir m.value l r)).top? ∧
      SameOutside (heir :: (plug path (.node id v l r)).ids) t t' ∧
      t'.content id = t.content id := by
  obtain ⟨hnodeRep, haround⟩ := hrep.split
  obtain ⟨hnode, hpath, hapart⟩ := nodup_plug.mp hnodup
  obtain ⟨hidl, hidr, -⟩ := (Tree.nodup_join (s := .left)).mp hnode
  rw [mem_ids_plug, not_or] at hheir
  obtain ⟨hheirnode, hheirpath⟩ := hheir
  obtain ⟨n, t₁, t₂, t₃, hget, hparent, hchange, hset₂, hset₃, hnew, hsame₃, hroot₃⟩ :=
    inherit_spec hnodeRep hnode hheirnode hm
  have hsub : ∀ i ∈ l.ids ++ r.ids, i ∈ (Tree.node id v l r).ids := by
    intro i hi
    rw [Tree.ids_node, List.mem_append, List.mem_cons]
    exact (List.mem_append.mp hi).imp_right .inr
  -- The nodes above have not changed yet, nor has the node whose place it is.
  have hsame : ∀ i ∈ pathIds path, t₃.content i = t.content i := by
    refine fun i hi => hsame₃.content i fun hmem => ?_
    rcases List.mem_cons.mp hmem with rfl | hmem
    · exact hheirpath hi
    · exact hapart i (hsub i hmem) hi
  have hid₃ : t₃.content id = t.content id := by
    refine hsame₃.content id fun hmem => ?_
    rcases List.mem_cons.mp hmem with rfl | hmem
    · exact hheirnode (by simp)
    · exact (List.mem_append.mp hmem).elim hidl hidr
  have hidpath : id ∉ pathIds path := hapart id (by simp)
  have haround₃ : Around t₃.content (some id) path := haround.congr hsame
  have houtside : SameOutside (heir :: (plug path (.node id v l r)).ids) t t₃ :=
    hsame₃.mono fun i hi => List.mem_cons.mpr
      ((List.mem_cons.mp hi).imp_right fun hi => mem_ids_plug.mpr (.inl (hsub i hi)))
  refine ⟨n, t₁, t₂, t₃, ?_⟩
  -- The link from above is the root, or a link of the node above.
  cases path with
  | nil =>
    exact ⟨{ t₃ with root := some heir }, hget, hchange, hset₂, hset₃,
      fun f => by rw [hparent]; rfl, hnew, rfl,
      ⟨⟨houtside.free, houtside.size⟩, houtside.content⟩, hid₃⟩
  | cons k path =>
    obtain ⟨t₄, hrelink, haround₄, hsame₄, hroot₄, hmeasure⟩ :=
      haround₃.relink hpath hidpath (some heir)
    have hk : k.id ∈ pathIds (k :: path) := by simp [pathIds]
    refine ⟨t₄, hget, hchange, hset₂, hset₃, fun f => by simp [hparent, hrelink],
      hrep.replug rfl rfl (hnew.outside hsame₄ ?_) haround₄ ?_, ?_, houtside.trans
      (hsame₄.mono ?_), (hsame₄.content id ?_).trans hid₃⟩
    · intro i hi
      rw [List.mem_singleton]
      rintro rfl
      rw [Tree.ids_node, List.mem_append, List.mem_cons] at hi
      rcases hi with hi | hi | hi
      · exact hapart _ (hsub _ (List.mem_append_left _ hi)) hk
      · exact hheirpath (hi ▸ hk)
      · exact hapart _ (hsub _ (List.mem_append_right _ hi)) hk
    · intro k' hk'
      have hk'' := id_mem_pathIds hk'
      by_cases hkk : k'.id = k.id
      · rw [hkk, hmeasure, hsame _ hk]
      · rw [hsame₄.content _ (by simpa using hkk), hsame _ hk'']
    · rw [hroot₄, hroot₃]
      exact hroot.trans (top?_plug_cons k path _ _)
    · intro i hi
      rw [List.mem_singleton.mp hi]
      exact List.mem_cons_of_mem _ (mem_ids_plug.mpr (.inr hk))
    · rw [List.mem_singleton]
      rintro rfl
      exact hidpath hk

/-! ## Every node -/

/-- Unlinking a node in the arena takes it out of a term, and its own value stays. -/
def UnlinksFrom (t : RankTree α) (id : Nat) (v : α) (tree : Tree α) : Prop :=
  ∃ t' tree', Gives tree.size (t.unlinkWith id) (t', tree'.top?) ∧ Unlinks id v tree tree' ∧
    Rep t'.content none tree' ∧ t'.root = tree'.top? ∧ SameOutside tree.ids t t' ∧
    ∃ n, t'.content id = some n ∧ n.value = v

theorem unlinksFrom_narrow {path : List (Crumb α)} {s : Side} {id : Nat} {v : α} {sub : Tree α}
    (hrep : Rep t.content none (plug path (.join s id v sub .leaf)))
    (hnodup : (plug path (.join s id v sub .leaf)).ids.Nodup) (hsteps : path.length < t.stepBound)
    (hunlink : t.unlinkWith id = t.unlinkNarrowWith id) :
    t.UnlinksFrom id v (plug path (.join s id v sub .leaf)) := by
  obtain ⟨hid, -⟩ := rep_join.mp hrep.split.1
  obtain ⟨t', hnarrow, hrep', hroot', hsame, hfree⟩ := unlinkNarrow_spec hrep hnodup hsteps
  have hsize : (plug path sub).size ≤ (plug path (.join s id v sub .leaf)).size := by
    rw [size_plug, size_plug, Tree.size_join]
    omega
  refine ⟨t', fixUp path sub, hunlink ▸ hnarrow.mono hsize, .narrow path s sub, hrep', hroot',
    hsame.mono fun i hi => ?_, _, (hsame.content id hfree).trans hid, nodeOf_value ..⟩
  rw [mem_ids_plug] at hi ⊢
  exact hi.imp_left fun hi => Tree.mem_ids_join.mpr (.inr (.inl hi))

/-- The node that takes over is the leftmost one on the right: the way to it goes right once
and then left. -/
theorem unlinksFrom_heir {path : List (Crumb α)} {id idr : Nat} {v vr : α} {l rl rr : Tree α}
    (hrep : Rep t.content none (plug path (.node id v l (.node idr vr rl rr))))
    (hnodup : (plug path (.node id v l (.node idr vr rl rr))).ids.Nodup)
    (hsize : (plug path (.node id v l (.node idr vr rl rr))).size ≤ t.nodes.size)
    (hl : l ≠ .leaf) : t.UnlinksFrom id v (plug path (.node id v l (.node idr vr rl rr))) := by
  obtain ⟨⟨hid, -, hr⟩, -⟩ := hrep.split
  have hlen := length_add_size_le path (.node id v l (.node idr vr rl rr))
  have hheight := rl.height_le_size
  rw [Tree.size, Tree.size] at hlen
  obtain ⟨q, heir, w, sub, hleftmost, hplug, hq⟩ := leftmostWithin_spec hr
    (show rl.height < t.stepBound by
      unfold stepBound
      omega)
  have htree : plug path (.node id v l (.node idr vr rl rr))
      = plug (q ++ ⟨.right, id, v, l⟩ :: path) (.join .right heir w sub .leaf) := by
    rw [plug_append, plug_cons, hplug]
    rfl
  -- The heir is taken out.
  have hlen' := length_add_size_le (q ++ ⟨.right, id, v, l⟩ :: path) (.join .right heir w sub .leaf)
  rw [htree] at hrep hnodup hsize
  obtain ⟨t₁, hunlink, hrep₁, hroot₁, hsame₁, hfree₁⟩ := unlinkNarrow_spec hrep hnodup (by
    unfold stepBound
    omega)
  have hsmaller : (plug (q ++ ⟨.right, id, v, l⟩ :: path) sub).size
      ≤ (plug path (.node id v l (.node idr vr rl rr))).size := by
    rw [htree, size_plug, size_plug, Tree.size_join]
    omega
  obtain ⟨hheir, -⟩ := rep_join.mp hrep.split.1
  have hheir₁ := (hsame₁.content heir hfree₁).trans hheir
  -- Restoring balance may have moved the node, so it is looked up again.
  have hmem₁ : (id, v) ∈ (fixUp (q ++ ⟨.right, id, v, l⟩ :: path) sub).items := by
    rw [items_fixUp, items_plug, before_append]
    simp [before]
  obtain ⟨path', l', r', hplace⟩ := exists_place hmem₁
  rw [← ids_fixUp, hplace] at hsame₁ hfree₁
  rw [hplace] at hrep₁ hroot₁
  have hnodup₁ : (plug path' (.node id v l' r')).ids.Nodup := by
    rw [← hplace, ids_fixUp]
    obtain ⟨hjoin, hpath, hapart⟩ := nodup_plug.mp hnodup
    refine nodup_plug.mpr ⟨(Tree.nodup_join.mp hjoin).2.2.1, hpath, fun i hi => ?_⟩
    exact hapart i (Tree.mem_ids_join.mpr (.inr (.inl hi)))
  -- The heir takes over.
  obtain ⟨n, t₂, t₃, t₄, t₅, hnode, hchange, hset₃, hset₄, hlast, hrep₅, hroot₅, hsame₅, hid₅⟩ :=
    takeOver_spec hrep₁ hroot₁ hnodup₁ hfree₁ hheir₁
  rw [nodeOf_value] at hrep₅ hroot₅
  refine ⟨t₅, plug path' (.node heir w l' r'), ?_, ?_, hrep₅, hroot₅, ?_, ?_⟩
  · cases l with
    | leaf => exact absurd rfl hl
    | node idl vl ll lr =>
      intro add hadd
      have hunlink' := hunlink add (hadd.mono hsmaller)
      rw [unlinkWith, node_eq_ok hid, ok_bind, Tree.top?_node, Tree.top?_node]
      simp only [leftmost, hleftmost, hunlink', hnode, hchange, hset₃, hset₄, ok_bind]
      refine (hlast fun t => pure (t, t.root)).trans ?_
      rw [hroot₅, pure_eq_ok]
  · rw [hplug]
    exact .heir path l hq hplace
  · have hids : ∀ i, i ∈ heir :: (plug path' (.node id v l' r')).ids →
        i ∈ (plug path (.node id v l (.node idr vr rl rr))).ids := by
      intro i hi
      rw [← hplace, ids_fixUp, List.mem_cons, mem_ids_plug] at hi
      rw [htree, mem_ids_plug, Tree.mem_ids_join]
      rcases hi with rfl | hi | hi
      · exact .inl (.inl rfl)
      · exact .inl (.inr (.inl hi))
      · exact .inr hi
    exact (hsame₁.mono fun i hi => hids i (List.mem_cons_of_mem heir hi)).trans
      (hsame₅.mono hids)
  · exact ⟨_, hid₅.trans hrep₁.split.1.1, rfl⟩

/-- **Unlinking** works for every node of the term. -/
theorem unlinksFrom_of_mem {id : Nat} {v : α} (hrep : Rep t.content none tree)
    (hnodup : tree.ids.Nodup) (hsize : tree.size ≤ t.nodes.size) (hmem : (id, v) ∈ tree.items) :
    t.UnlinksFrom id v tree := by
  obtain ⟨path, l, r, rfl⟩ := exists_place hmem
  have hlen := length_add_size_le path (.node id v l r)
  rw [Tree.size] at hlen
  have hsteps : path.length < t.stepBound := by
    unfold stepBound
    omega
  obtain ⟨⟨hid, -⟩, -⟩ := hrep.split
  cases l with
  | leaf =>
    show t.UnlinksFrom id v (plug path (.join .right id v r .leaf))
    apply unlinksFrom_narrow hrep hnodup hsteps
    funext add
    rw [unlinkWith, node_eq_ok hid]
    rfl
  | node idl vl ll lr =>
    cases r with
    | leaf =>
      show t.UnlinksFrom id v (plug path (.join .left id v (.node idl vl ll lr) .leaf))
      apply unlinksFrom_narrow hrep hnodup hsteps
      funext add
      rw [unlinkWith, node_eq_ok hid]
      rfl
    | node idr vr rl rr => exact unlinksFrom_heir hrep hnodup hsize (by simp)

/-! ## Operations -/

namespace Holds

/-- **Detaching** a linked node keeps it as a loose one. -/
theorem detachWith {id : Nat} {v : α} (h : t.Holds tree loose) (hmem : (id, v) ∈ tree.items) :
    ∃ t' tree', Gives tree.size (t.detachWith id) (t', tree'.top?) ∧ Unlinks id v tree tree' ∧
      t'.Holds tree' ((id, v) :: loose) ∧ SamePlaces t t' := by
  obtain ⟨t₁, tree', hunlink, hterm, hrep, hroot, hsame, n, hid, rfl⟩ :=
    unlinksFrom_of_mem h.rep h.nodup_ids h.size_le hmem
  obtain ⟨a, b, hitems, hitems'⟩ := hterm.items h.nodup_ids
  have hperm : (id :: tree'.ids).Perm tree.ids := by
    rw [Tree.ids, Tree.ids, hitems, hitems', List.map_append, List.map_append, List.map_cons]
    exact List.perm_middle.symm
  have hnodup := hperm.nodup_iff.mpr h.nodup_ids
  have hidmem : id ∈ tree.ids := hperm.mem_iff.mp List.mem_cons_self
  have hidtree' : id ∉ tree'.ids := (List.nodup_cons.mp hnodup).1
  have hidloose : id ∉ loose.map (·.1) := fun hi =>
    (List.nodup_append.mp h.nodup).2.2 id hidmem id hi rfl
  have hplaces : SamePlaces t (t₁.put id (Node.single n.value)) :=
    (hsame.trans (.put hidmem _)).toSamePlaces
  refine ⟨t₁.put id (Node.single n.value), tree', ?_, hterm, h.regroup ?_ ?_ hroot
    (hrep.put hidtree' _) ?_, hplaces⟩
  · intro add hadd
    rw [RankTree.detachWith, hunlink add hadd, ok_bind]
    simp only [change_eq_ok hid, ok_bind, pure_eq_ok]
  · exact (hsame.mono fun i hi => List.mem_append_left _ hi).trans
      (.put (List.mem_append_left _ hidmem) _)
  · rw [List.map_cons]
    exact List.perm_middle.trans (hperm.append_right _)
  · intro e he
    rcases List.mem_cons.mp he with rfl | he
    · exact content_put_self hid
    · have he' := List.mem_map_of_mem (f := (·.1)) he
      have hne : e.1 ≠ id := fun heq => hidloose (heq ▸ he')
      rw [content_put_ne hne, hsame.content, h.single e he]
      exact fun hi => (List.nodup_append.mp h.nodup).2.2 e.1 hi e.1 he' rfl

theorem detach {id : Nat} {v : α} (h : t.Holds tree loose) (hmem : (id, v) ∈ tree.items) :
    ∃ t' tree', t.detach id = .ok (t', tree'.top?) ∧ Unlinks id v tree tree' ∧
      t'.Holds tree' ((id, v) :: loose) := by
  obtain ⟨t', tree', hdetach, hunlinks, h', -⟩ := h.detachWith hmem
  exact ⟨t', tree', (detachWith_exactly ..).symm.trans hdetach.exactly, hunlinks, h'⟩

/-- **Removing** a linked node frees it. -/
theorem removeWith {id : Nat} {v : α} (h : t.Holds tree loose) (hmem : (id, v) ∈ tree.items) :
    ∃ t' tree', Gives tree.size (t.removeWith id) (v, t') ∧ Unlinks id v tree tree' ∧
      t'.Holds tree' loose ∧ t'.nodes.size = t.nodes.size := by
  obtain ⟨t₁, tree', hdetach, hterm, h₁, hplaces⟩ := h.detachWith hmem
  refine ⟨_, tree', fun add hadd => ?_, hterm, h₁.release,
    Array.size_setIfInBounds.trans hplaces.size⟩
  have hid := h₁.single (id, v) List.mem_cons_self
  simp [RankTree.removeWith, hdetach add hadd, node_eq_ok hid, Node.single]

theorem remove {id : Nat} {v : α} (h : t.Holds tree loose) (hmem : (id, v) ∈ tree.items) :
    ∃ t' tree', t.remove id = .ok (v, t') ∧ Unlinks id v tree tree' ∧ t'.Holds tree' loose := by
  obtain ⟨t', tree', hremove, hunlinks, h', -⟩ := h.removeWith hmem
  exact ⟨t', tree', (removeWith_exactly ..).symm.trans hremove.exactly, hunlinks, h'⟩

end Holds

end KeyServer.RankTree
