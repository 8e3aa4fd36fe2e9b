import KeyServer.Proofs.HashTable.Chains
import Mathlib.Logic.Function.Basic

/-!
# The invariant of a hash table

What a table means is its `content`: a finite map from handles to hash codes and items.
`Linked` says that the chains of the two generations tell the truth about it: every slot in
use that is not loose is in exactly one chain, the one its hash code selects, the freed slots
are exactly the listed ones, and the buckets before the cursor are empty.

* **Moving items over** (`Linked.migrate`) never fails, changes no content, and moves as many
  items as it may, or all that are left.
* **`Valid`** adds that retiring buckets without items are given up, which holds between
  two operations (`Linked.help`).
-/

namespace KeyServer.HashTable

variable {α : Type} {t t' : HashTable α} {loose : List Nat} {a r a' r' : List (List Nat)}

/-- What a table holds: for each handle in use a hash code and an item. -/
def content (t : HashTable α) (i : Nat) : Option (Hashed α) := (t.slots.at? i).map (·.toHashed)

theorem content_eq_some_iff {i : Nat} {x : Hashed α} :
    t.content i = some x ↔ ∃ s, t.slots.at? i = some s ∧ s.toHashed = x := by
  rw [content, Option.map_eq_some_iff]

theorem content_of_at? {i : Nat} {s : Slot α} (h : t.slots.at? i = some s) :
    t.content i = some s.toHashed := by
  rw [content, h, Option.map_some]

theorem get?_eq (i : Nat) : t.get? i = (t.content i).map (·.item) := by
  rw [get?, content, Slots.at?, Option.map_map]
  rfl

theorem lt_size_of_content {i : Nat} {x : Hashed α} (h : t.content i = some x) :
    i < t.slots.size := by
  obtain ⟨s, hs, -⟩ := content_eq_some_iff.mp h
  exact Slots.lt_size_of_at? hs

theorem content_congr (h : t'.slots = t.slots) : t'.content = t.content := by
  funext i
  rw [content, content, h]

@[simp] theorem content_empty : (empty : HashTable α).content = fun _ => none := by
  funext i
  simp [content, Slots.at?, empty]

theorem content_relinked {changed : List Nat} (h : t.slots.Relinked t'.slots changed) :
    t'.content = t.content :=
  funext h.hashed

/-- The chains of both generations. -/
structure Chained (t : HashTable α) (a r : List (List Nat)) : Prop where
  active : t.active.Holds t.slots a
  retiring : t.retiring.Holds t.slots r

/-- The chains of a table tell the truth about its slots, some of which are loose: in use and
in no chain. -/
structure Linked (t : HashTable α) (loose : List Nat) (a r : List (List Nat)) : Prop
    extends Chained t a r where
  /-- No slot is in two chains, or twice in one. -/
  nodup : (loose ++ (a.flatten ++ r.flatten)).Nodup
  /-- The slots in use are the loose ones and the ones in the chains. -/
  mem_chains : ∀ i, i ∈ loose ++ (a.flatten ++ r.flatten) ↔ (t.content i).isSome
  free_nodup : t.free.Nodup
  mem_free : ∀ i, i ∈ t.free ↔ i < t.slots.size ∧ t.content i = none
  /-- What lies before the cursor has been moved over. -/
  swept : ∀ b < t.cursor, t.retiring.heads[b]? = some none
  /-- There is somewhere to move items to. -/
  ready : t.retiring.isAllocated = true → t.active.isAllocated = true

/-- A table between two operations. -/
structure Valid (t : HashTable α) : Prop where
  linked : ∃ a r, t.Linked [] a r
  settled : t.retiring.count = 0 → t.retiring.isAllocated = false

theorem linked_empty : (empty : HashTable α).Linked [] [] [] where
  active := Generation.holds_none
  retiring := Generation.holds_none
  nodup := by simp
  mem_chains := by simp
  free_nodup := by simp [empty]
  mem_free := by simp [empty]
  swept := by simp [empty]
  ready := by simp [empty]

theorem valid_empty : (empty : HashTable α).Valid where
  linked := ⟨[], [], linked_empty⟩
  settled := by simp [empty]

theorem Chained.unique (h : t.Chained a r) (h' : t.Chained a' r') : a = a' ∧ r = r' :=
  ⟨h.active.unique h'.active, h.retiring.unique h'.retiring⟩

namespace Linked

/-- The number of items is the number of slots in the chains. -/
theorem size_eq (ht : t.Linked loose a r) : t.size = (a.flatten ++ r.flatten).length := by
  rw [size, ht.active.count, ht.retiring.count, List.length_append]

/-- Every slot is loose, in a chain or freed. -/
theorem slots_size_eq (ht : t.Linked loose a r) :
    t.slots.size = loose.length + t.size + t.free.length := by
  have hperm : (loose ++ (a.flatten ++ r.flatten) ++ t.free).Perm (List.range t.slots.size) := by
    refine (List.perm_ext_iff_of_nodup ?_ List.nodup_range).mpr fun i => ?_
    · refine List.nodup_append.mpr ⟨ht.nodup, ht.free_nodup, ?_⟩
      rintro i hi _ hfree rfl
      have hsome := (ht.mem_chains i).mp hi
      rw [((ht.mem_free i).mp hfree).2] at hsome
      cases hsome
    · rw [List.mem_append, ht.mem_chains, ht.mem_free, List.mem_range]
      cases hi : t.content i with
      | none => simp
      | some x => simpa using lt_size_of_content hi
  have hlen := hperm.length_eq
  rw [List.length_append, List.length_append, List.length_range, ← ht.size_eq] at hlen
  exact hlen.symm

/-- While retiring buckets hold items, the cursor is on one of them. -/
theorem cursor_lt (ht : t.Linked loose a r) (h : t.retiring.count ≠ 0) :
    t.cursor < t.retiring.heads.size := by
  by_contra hge
  have hnil : r.flatten = [] := by
    rw [List.eq_nil_iff_forall_not_mem]
    intro i hi
    obtain ⟨b, chain, hb, hmem⟩ := mem_chains_iff.mp hi
    have hlt := (List.getElem?_eq_some_iff.mp hb).1
    rw [ht.retiring.size] at hlt
    rw [ht.retiring.head_eq_none_iff.mp (ht.swept b (by omega))] at hb
    cases hb
    cases hmem
  exact h (by rw [ht.retiring.count, hnil]; rfl)

/-- **Other links** tell the truth about the same slots, if the slots in the chains and the loose
ones are the same ones in another order. -/
theorem relink (ht : t.Linked loose a r) {slots : Slots α} {active retiring : Generation}
    {loose' changed : List Nat} (hslots : t.slots.Relinked slots changed)
    (hactive : active.Holds slots a') (hretiring : retiring.Holds slots r')
    (horder : (loose' ++ (a'.flatten ++ r'.flatten)).Perm (loose ++ (a.flatten ++ r.flatten)))
    (hswept : ∀ b < t.cursor, retiring.heads[b]? = some none)
    (hready : retiring.isAllocated = true → active.isAllocated = true) :
    Linked { t with slots, active, retiring } loose' a' r' := by
  have hcontent : ({ t with slots, active, retiring } : HashTable α).content = t.content :=
    content_relinked hslots
  exact {
    active := hactive
    retiring := hretiring
    nodup := horder.nodup_iff.mpr ht.nodup
    mem_chains := fun i => by rw [horder.mem_iff, hcontent, ht.mem_chains]
    free_nodup := ht.free_nodup
    mem_free := fun i => by rw [hcontent, ht.mem_free, hslots.size]
    swept := hswept
    ready := hready }

end Linked

/-! ## Moving items over -/

theorem dropRetired_slots (t : HashTable α) : t.dropRetired.slots = t.slots := by
  unfold HashTable.dropRetired
  split <;> rfl

theorem dropRetired_free (t : HashTable α) : t.dropRetired.free = t.free := by
  unfold HashTable.dropRetired
  split <;> rfl

/-- The second table is the first one after `n` items have been moved from the retiring
chains to the active ones.  The cursor may have moved on; nothing else has changed. -/
structure Moved (t t' : HashTable α) (n : Nat) : Prop where
  content : t'.content = t.content
  slots_size : t'.slots.size = t.slots.size
  free : t'.free = t.free
  active_size : t'.active.heads.size = t.active.heads.size
  retiring_size : t'.retiring.heads.size = t.retiring.heads.size
  /-- The same items have come in on one side that have gone out on the other. -/
  chains : ∃ a r a' r' moved, t.Chained a r ∧ t'.Chained a' r' ∧ moved.length = n ∧
    (moved ++ r'.flatten).Perm r.flatten ∧ (moved ++ a.flatten).Perm a'.flatten

namespace Moved

variable {t₁ t₂ : HashTable α} {m n : Nat}

theorem cursor (ht : t.Linked loose a r) (cursor : Nat) : t.Moved { t with cursor } 0 :=
  ⟨rfl, rfl, rfl, rfl, rfl, a, r, a, r, [], ht.toChained, ⟨ht.active, ht.retiring⟩, rfl, .rfl,
    .rfl⟩

theorem trans (h₁ : t.Moved t₁ m) (h₂ : t₁.Moved t₂ n) : t.Moved t₂ (m + n) := by
  obtain ⟨a, r, a₁, r₁, moved₁, hchained, hchained₁, hlen₁, hretiring₁, hactive₁⟩ := h₁.chains
  obtain ⟨_, _, a₂, r₂, moved₂, hchained₁', hchained₂, hlen₂, hretiring₂, hactive₂⟩ := h₂.chains
  obtain ⟨rfl, rfl⟩ := hchained₁.unique hchained₁'
  refine ⟨h₂.content.trans h₁.content, h₂.slots_size.trans h₁.slots_size,
    h₂.free.trans h₁.free, h₂.active_size.trans h₁.active_size,
    h₂.retiring_size.trans h₁.retiring_size, a, r, a₂, r₂, moved₁ ++ moved₂, hchained, hchained₂,
    by simp [hlen₁, hlen₂], ?_, ?_⟩
  · rw [List.append_assoc]
    exact (hretiring₂.append_left moved₁).trans hretiring₁
  · have hswap : (moved₁ ++ moved₂ ++ a.flatten).Perm (moved₂ ++ (moved₁ ++ a.flatten)) := by
      rw [List.append_assoc]
      exact List.perm_append_comm_assoc moved₁ moved₂ _
    exact hswap.trans ((hactive₁.append_left moved₂).trans hactive₂)

end Moved

namespace Linked

/-- Going past an empty bucket. -/
theorem advance (ht : t.Linked loose a r) (h : t.retiring.heads[t.cursor]? = some none) :
    Linked { t with cursor := t.cursor + 1 } loose a r where
  active := ht.active
  retiring := ht.retiring
  nodup := ht.nodup
  mem_chains := ht.mem_chains
  free_nodup := ht.free_nodup
  mem_free := ht.mem_free
  swept b hb := by
    rcases Nat.lt_succ_iff_lt_or_eq.mp hb with hlt | rfl
    · exact ht.swept b hlt
    · exact h
  ready := ht.ready

/-- The chain that the cursor is on. -/
theorem chain_at_cursor (ht : t.Linked loose a r) {i : Nat}
    (hhead : t.retiring.heads[t.cursor]? = some (some i)) :
    ∃ rest, r[t.cursor]? = some (i :: rest) := by
  have hlt : t.cursor < r.length := by
    rw [ht.retiring.size]
    exact (Array.getElem?_eq_some_iff.mp hhead).1
  obtain ⟨head, hhead', hleads⟩ :=
    ht.retiring.leads t.cursor r[t.cursor] (List.getElem?_eq_getElem hlt)
  cases hhead.symm.trans hhead'
  cases hchain : r[t.cursor] with
  | nil =>
    rw [hchain] at hleads
    cases hleads
  | cons j rest =>
    rw [hchain] at hleads
    obtain ⟨heq, -⟩ := hleads.cons_inv
    cases heq
    exact ⟨rest, by rw [List.getElem?_eq_getElem hlt, hchain]⟩

/-- **Taking the first slot off the chain at the cursor** into the active buckets. -/
theorem moveHead (ht : t.Linked loose a r) {i : Nat} {s : Slot α} {retiring : Generation}
    (hhead : t.retiring.heads[t.cursor]? = some (some i)) (hs : t.slots.at? i = some s)
    (hheads : retiring = ⟨t.retiring.heads.setIfInBounds t.cursor s.next, t.retiring.count - 1⟩) :
    ∃ slots active a' r', t.active.link t.slots i = .ok (slots, active) ∧
      Linked { t with slots, active, retiring } loose a' r' ∧
      t.Moved { t with slots, active, retiring } 1 := by
  subst hheads
  obtain ⟨rest, hchain⟩ := ht.chain_at_cursor hhead
  have hmem : i ∈ r.flatten := mem_chains_iff.mpr ⟨t.cursor, _, hchain, List.mem_cons_self⟩
  have hready := ht.ready (ht.retiring.isAllocated_of_mem hmem)
  obtain ⟨-, hnodup, -⟩ := List.nodup_append.mp ht.nodup
  obtain ⟨-, hnodup, hapart⟩ := List.nodup_append.mp hnodup
  obtain ⟨slots, active, a', hlink, hactive, hperm, hrelinked⟩ :=
    ht.active.link hready hs fun hi => hapart i hi i hmem rfl
  have hperm' := perm_of_erase (i := i) hchain (List.Perm.refl _)
  have hsame : ∀ j ∈ (r.set t.cursor rest).flatten, t.slots.SameLink slots j := by
    intro j hj
    apply Slots.sameLink_of_eq
    apply hrelinked.others
    -- The slot is no longer in the retiring chains.
    intro hji
    rw [List.mem_singleton.mp hji] at hj
    exact (List.nodup_cons.mp (hperm'.nodup_iff.mpr hnodup)).1 hj
  have hretiring := (ht.retiring.dropHead hchain hs).congr hsame
  have horder : (loose ++ (a'.flatten ++ (r.set t.cursor rest).flatten)).Perm
      (loose ++ (a.flatten ++ r.flatten)) :=
    ((hperm.append_right _).trans
      (List.perm_middle.symm.trans (hperm'.append_left _))).append_left loose
  obtain ⟨hsize, -⟩ := Generation.sizes_of_link hlink
  refine ⟨slots, active, a', r.set t.cursor rest, hlink,
    ht.relink hrelinked hactive hretiring horder (fun b hb => ?_)
      (fun _ => (Generation.isAllocated_congr hsize).trans hready), ?_⟩
  · show (t.retiring.heads.setIfInBounds t.cursor s.next)[b]? = some none
    rw [Array.getElem?_setIfInBounds_ne (by omega)]
    exact ht.swept b hb
  · exact ⟨content_relinked hrelinked, hrelinked.size, rfl, hsize, Array.size_setIfInBounds, a, r,
      a', r.set t.cursor rest, [i], ht.toChained, ⟨hactive, hretiring⟩, rfl, hperm', hperm.symm⟩

/-- **Moving items over** never fails, and moves as many as it may, or all that are left. -/
theorem migrate (ht : t.Linked loose a r) (work : Nat) :
    ∃ t' a' r', t.migrate work = .ok t' ∧ t'.Linked loose a' r' ∧
      t.Moved t' (min work t.retiring.count) := by
  fun_induction HashTable.migrate t work generalizing a r with
  | case1 t work hdone =>
    have hmin : min work t.retiring.count = 0 := by omega
    exact ⟨t, a, r, rfl, ht, hmin ▸ .cursor ht t.cursor⟩
  | case2 t work hwork hlt hnone ih =>
    obtain ⟨t', a', r', hmigrate, ht', hmoved⟩ :=
      ih (ht.advance (by rw [Array.getElem?_eq_getElem hlt, hnone]))
    exact ⟨t', a', r', hmigrate, ht',
      Nat.zero_add (min work _) ▸ (Moved.cursor ht _).trans hmoved⟩
  -- A slot in a chain is in use, and the active buckets are there to take it, so neither of the
  -- two failures can happen.
  | case3 t work hwork hlt i hhead e herror =>
    obtain ⟨rest, hchain⟩ :=
      ht.chain_at_cursor (by rw [Array.getElem?_eq_getElem hlt, hhead])
    have hmem := mem_chains_iff.mpr ⟨t.cursor, _, hchain, List.mem_cons_self⟩
    obtain ⟨s, hs⟩ := ht.retiring.exists_slot hmem
    cases herror.symm.trans (Slots.read_eq_ok_iff.mpr hs)
  | case4 t work hwork hlt i hhead s hs e herror =>
    obtain ⟨_, _, _, _, hlink, -⟩ := ht.moveHead
      (by rw [Array.getElem?_eq_getElem hlt, hhead]) (Slots.read_eq_ok_iff.mp hs) rfl
    cases herror.symm.trans hlink
  | case5 t work hwork hlt i hhead s hs slots active hlink retiring =>
    rename_i ih
    obtain ⟨_, _, a₁, r₁, hlink', ht₁, hmoved₁⟩ := ht.moveHead
      (by rw [Array.getElem?_eq_getElem hlt, hhead]) (Slots.read_eq_ok_iff.mp hs) rfl
    cases hlink.symm.trans hlink'
    obtain ⟨t', a', r', hmigrate, ht', hmoved⟩ := ih ht₁
    have hmin : min work t.retiring.count = 1 + min (work - 1) (t.retiring.count - 1) := by omega
    exact ⟨t', a', r', hmigrate, ht', hmin ▸ hmoved₁.trans hmoved⟩
  | case6 t work hwork hge =>
    exact absurd (ht.cursor_lt (fun h => hwork (Or.inr h))) hge

/-- Retiring buckets without items can be given up. -/
theorem dropRetired (ht : t.Linked loose a r) :
    (∃ r', t.dropRetired.Linked loose a r') ∧
      (t.dropRetired.retiring.count = 0 → t.dropRetired.retiring.isAllocated = false) := by
  unfold HashTable.dropRetired
  split
  · next h =>
    have hnil : r.flatten = [] :=
      List.eq_nil_of_length_eq_zero (ht.retiring.count.symm.trans h.1)
    have hnodup := ht.nodup
    have hmem := ht.mem_chains
    rw [hnil] at hnodup hmem
    refine ⟨⟨[], {
      active := ht.active
      retiring := Generation.holds_none
      nodup := hnodup
      mem_chains := hmem
      free_nodup := ht.free_nodup
      mem_free := ht.mem_free
      swept := by simp
      ready := by simp }⟩, by simp⟩
  · next h =>
    refine ⟨⟨r, ht⟩, fun hcount => ?_⟩
    exact Bool.eq_false_iff.mpr fun halloc => h ⟨hcount, halloc⟩

/-- **Helping along** never fails, changes no content and neither fills nor frees a slot. -/
theorem help (ht : t.Linked [] a r) :
    ∃ t', t.help = .ok t' ∧ t'.Valid ∧ t'.content = t.content ∧
      t'.slots.size = t.slots.size ∧ t'.free = t.free := by
  obtain ⟨t', a', r', hmigrate, ht', hmoved⟩ := ht.migrate migrationWork
  obtain ⟨⟨r', hlinked⟩, hsettled⟩ := ht'.dropRetired
  refine ⟨_, by simp [HashTable.help, hmigrate], ⟨⟨a', r', hlinked⟩, hsettled⟩, ?_, ?_, ?_⟩
  · rw [content_congr (dropRetired_slots t'), hmoved.content]
  · rw [dropRetired_slots, hmoved.slots_size]
  · rw [dropRetired_free, hmoved.free]

end Linked

end KeyServer.HashTable
