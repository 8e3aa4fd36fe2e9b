import KeyServer.Proofs.HashTable.Links
import Mathlib.Data.List.Perm.Basic

/-!
# The chains of one generation

A generation **holds** some chains, one for each bucket, when its buckets lead to them, each
slot is in the chain that its hash code selects and `count` is their number.  Taking a slot in
(`Holds.link`), out of its chain (`Holds.unlink`), or off the front of a chain
(`Holds.dropHead`) keeps that, and changes the slots in the chains by exactly the one given.
-/

namespace KeyServer

/-! ## Lists of chains -/

section Lists

variable {chains : List (List Nat)} {b : Nat} {chain : List Nat}

theorem mem_chains_iff {i : Nat} :
    i ∈ chains.flatten ↔ ∃ (b : Nat) (chain : List Nat), chains[b]? = some chain ∧ i ∈ chain := by
  rw [List.mem_flatten]
  constructor
  · rintro ⟨chain, hchain, hi⟩
    obtain ⟨b, hb⟩ := List.mem_iff_getElem?.mp hchain
    exact ⟨b, chain, hb, hi⟩
  · rintro ⟨b, chain, hb, hi⟩
    exact ⟨chain, List.mem_of_getElem? hb, hi⟩

/-- Replacing one of several chains exchanges its slots for those of the new one. -/
theorem flatten_set_append_perm (chain' : List Nat) :
    ∀ (chains : List (List Nat)) (b : Nat), chains[b]? = some chain →
      ((chains.set b chain').flatten ++ chain).Perm (chains.flatten ++ chain')
  | [], b, h => by cases h
  | x :: xs, 0, h => by
    obtain rfl : x = chain := Option.some.inj h
    simp only [List.set_cons_zero, List.flatten_cons]
    have h₁ : (chain' ++ xs.flatten ++ x).Perm (x ++ (chain' ++ xs.flatten)) :=
      List.perm_append_comm
    have h₂ : (x ++ (chain' ++ xs.flatten)).Perm (x ++ (xs.flatten ++ chain')) :=
      List.Perm.append_left x List.perm_append_comm
    simpa using h₁.trans h₂
  | x :: xs, b + 1, h => by
    simp only [List.set_cons_succ, List.flatten_cons, List.append_assoc]
    exact (flatten_set_append_perm chain' xs b h).append_left x

/-- A chain that takes a slot in. -/
theorem perm_of_cons {i : Nat} (hb : chains[b]? = some chain) :
    (chains.set b (i :: chain)).flatten.Perm (i :: chains.flatten) := by
  have hperm := flatten_set_append_perm (i :: chain) chains b hb
  exact (List.perm_append_right_iff chain).mp (hperm.trans List.perm_middle)

/-- A chain that loses a slot. -/
theorem perm_of_erase {i : Nat} {chain' : List Nat} (hb : chains[b]? = some chain)
    (hchain : chain.Perm (i :: chain')) :
    (i :: (chains.set b chain').flatten).Perm chains.flatten := by
  have hperm := flatten_set_append_perm chain' chains b hb
  have hmove : (i :: (chains.set b chain').flatten ++ chain').Perm
      ((chains.set b chain').flatten ++ chain) :=
    List.perm_middle.symm.trans (hchain.symm.append_left _)
  exact (List.perm_append_right_iff chain').mp (hmove.trans hperm)

/-- No slot is in two chains. -/
theorem eq_of_mem_chains (hnodup : chains.flatten.Nodup) {c : Nat} {other : List Nat} {i : Nat}
    (hb : chains[b]? = some chain) (hc : chains[c]? = some other) (hi : i ∈ chain)
    (hi' : i ∈ other) : b = c := by
  obtain ⟨hb', rfl⟩ := List.getElem?_eq_some_iff.mp hb
  obtain ⟨hc', rfl⟩ := List.getElem?_eq_some_iff.mp hc
  have hpairwise := List.pairwise_iff_getElem.mp (List.nodup_flatten.mp hnodup).2
  rcases Nat.lt_trichotomy b c with hlt | heq | hgt
  · exact absurd hi' (hpairwise b c hb' hc' hlt hi)
  · exact heq
  · exact absurd hi (hpairwise c b hc' hb' hgt hi')

theorem nodup_chain (hnodup : chains.flatten.Nodup) (hb : chains[b]? = some chain) :
    chain.Nodup :=
  (List.nodup_flatten.mp hnodup).1 chain (List.mem_of_getElem? hb)

end Lists

namespace Generation

variable {α : Type}

/-- A bucket leads to a chain. -/
def ChainAt (g : Generation) (slots : Slots α) (b : Nat) (chain : List Nat) : Prop :=
  ∃ head, g.heads[b]? = some head ∧ Leads slots head chain

/-- The buckets lead to some chains, every slot of them is in the one that its hash code
selects, and `count` counts them. -/
structure Holds (g : Generation) (slots : Slots α) (chains : List (List Nat)) : Prop where
  size : chains.length = g.heads.size
  leads : ∀ (b : Nat) chain, chains[b]? = some chain → g.ChainAt slots b chain
  bucket : ∀ (b : Nat) chain, chains[b]? = some chain →
    ∀ i ∈ chain, ∃ s, slots.at? i = some s ∧ g.bucketOf s.hash = b
  count : g.count = chains.flatten.length

variable {g g' : Generation} {slots slots' : Slots α} {chains : List (List Nat)} {b i : Nat}
  {chain : List Nat} {s : Slot α}

theorem isAllocated_iff : g.isAllocated = true ↔ 0 < g.heads.size := by
  simp [isAllocated, Array.size_pos_iff]

theorem isAllocated_congr (h : g'.heads.size = g.heads.size) :
    g'.isAllocated = g.isAllocated := by
  rw [Bool.eq_iff_iff, isAllocated_iff, isAllocated_iff, h]

theorem bucketOf_lt (h : g.isAllocated = true) (hash : UInt32) :
    g.bucketOf hash < g.heads.size := by
  have hpos := isAllocated_iff.mp h
  have hle : hash.toNat &&& (g.heads.size - 1) ≤ g.heads.size - 1 := Nat.and_le_right
  rw [bucketOf]
  omega

theorem bucketOf_congr (h : g'.heads.size = g.heads.size) (hash : UInt32) :
    g'.bucketOf hash = g.bucketOf hash := by
  rw [bucketOf, bucketOf, h]

@[simp] theorem isAllocated_none : Generation.none.isAllocated = false := rfl

@[simp] theorem isAllocated_ofSize (n : Nat) : (ofSize n).isAllocated = decide (0 < n) := by
  rw [Bool.eq_iff_iff, isAllocated_iff]
  simp [ofSize]

theorem holds_none : Generation.none.Holds slots [] where
  size := rfl
  leads := by simp
  bucket := by simp
  count := rfl

/-- No bucket of a new generation leads anywhere. -/
theorem holds_ofSize (n : Nat) : (ofSize n).Holds slots (List.replicate n []) where
  size := by simp [ofSize]
  leads b chain hb := by
    obtain ⟨hlt, rfl⟩ := List.getElem?_eq_some_iff.mp hb
    rw [List.length_replicate] at hlt
    exact ⟨Option.none, by simp [ofSize, hlt], by simpa using Leads.nil⟩
  bucket b chain hb i hi := by
    obtain ⟨hlt, rfl⟩ := List.getElem?_eq_some_iff.mp hb
    simp at hi
  count := by simp [ofSize]

namespace Holds

theorem exists_slot (hg : g.Holds slots chains) (hi : i ∈ chains.flatten) :
    ∃ s, slots.at? i = some s := by
  obtain ⟨b, chain, hb, hmem⟩ := mem_chains_iff.mp hi
  obtain ⟨s, hs, -⟩ := hg.bucket b chain hb i hmem
  exact ⟨s, hs⟩

/-- The chains are determined by the buckets. -/
theorem chain_eq (hg : g.Holds slots chains) (h : g.ChainAt slots b chain) :
    chains[b]? = some chain := by
  obtain ⟨head, hhead, hleads⟩ := h
  have hlt : b < chains.length := hg.size ▸ (Array.getElem?_eq_some_iff.mp hhead).1
  obtain ⟨head', hhead', hleads'⟩ := hg.leads b chains[b] (List.getElem?_eq_getElem hlt)
  cases hhead.symm.trans hhead'
  rw [List.getElem?_eq_getElem hlt, hleads.unique hleads']

theorem unique {chains' : List (List Nat)} (hg : g.Holds slots chains)
    (hg' : g.Holds slots chains') : chains = chains' := by
  apply List.ext_getElem?
  intro b
  by_cases hb : b < chains.length
  · rw [List.getElem?_eq_getElem hb]
    exact (hg'.chain_eq (hg.leads b _ (List.getElem?_eq_getElem hb))).symm
  · have hb' : chains'.length ≤ b := by rw [hg'.size, ← hg.size]; omega
    rw [List.getElem?_eq_none (by omega), List.getElem?_eq_none hb']

/-- Only the slots in the chains matter, and only their hash codes and links. -/
theorem congr (hg : g.Holds slots chains)
    (h : ∀ i ∈ chains.flatten, slots.SameLink slots' i) : g.Holds slots' chains where
  size := hg.size
  leads b chain hb := by
    obtain ⟨head, hhead, hleads⟩ := hg.leads b chain hb
    exact ⟨head, hhead, hleads.congr fun i hi => h i (mem_chains_iff.mpr ⟨b, chain, hb, hi⟩)⟩
  bucket b chain hb i hi := by
    obtain ⟨s, hs, hbucket⟩ := hg.bucket b chain hb i hi
    obtain ⟨s', hs', hhash, -⟩ :=
      (h i (mem_chains_iff.mpr ⟨b, chain, hb, hi⟩)).exists_slot hs
    exact ⟨s', hs', hhash ▸ hbucket⟩
  count := hg.count

theorem forall₂ (hg : g.Holds slots chains) :
    List.Forall₂ (Leads slots) g.heads.toList chains := by
  refine List.forall₂_iff_get.mpr ⟨by simp [hg.size], fun b hb hb' => ?_⟩
  obtain ⟨head, hhead, hleads⟩ := hg.leads b chains[b] (List.getElem?_eq_getElem hb')
  obtain ⟨_, rfl⟩ := Array.getElem?_eq_some_iff.mp hhead
  exact hleads

theorem isAllocated_of_mem (hg : g.Holds slots chains) (hi : i ∈ chains.flatten) :
    g.isAllocated = true := by
  obtain ⟨b, chain, hb, -⟩ := mem_chains_iff.mp hi
  have hlt := (List.getElem?_eq_some_iff.mp hb).1
  rw [hg.size] at hlt
  exact isAllocated_iff.mpr (by omega)

/-- Without buckets there is no chain. -/
theorem eq_nil (hg : g.Holds slots chains) (h : g.isAllocated = false) : chains = [] := by
  have hzero : ¬0 < g.heads.size := fun hpos => by simp [isAllocated_iff.mpr hpos] at h
  exact List.eq_nil_of_length_eq_zero (by rw [hg.size]; omega)

theorem count_eq_zero (hg : g.Holds slots chains) (h : g.isAllocated = false) : g.count = 0 := by
  rw [hg.count, hg.eq_nil h]
  rfl

theorem getElem?_bucketOf (hg : g.Holds slots chains) (h : g.isAllocated = true)
    (hash : UInt32) : ∃ chain, chains[g.bucketOf hash]? = some chain :=
  ⟨_, List.getElem?_eq_getElem (hg.size ▸ bucketOf_lt h hash)⟩

/-- A slot is in the chain of its hash code. -/
theorem mem_chain (hg : g.Holds slots chains) (hi : i ∈ chains.flatten)
    (hs : slots.at? i = some s) :
    ∃ chain, chains[g.bucketOf s.hash]? = some chain ∧ i ∈ chain := by
  obtain ⟨b, chain, hb, hmem⟩ := mem_chains_iff.mp hi
  obtain ⟨s', hs', rfl⟩ := hg.bucket b chain hb i hmem
  cases hs.symm.trans hs'
  exact ⟨chain, hb, hmem⟩

/-- An empty chain is one whose bucket leads nowhere. -/
theorem head_eq_none_iff (hg : g.Holds slots chains) :
    g.heads[b]? = some Option.none ↔ chains[b]? = some [] := by
  constructor
  · exact fun h => hg.chain_eq ⟨Option.none, h, .nil⟩
  · intro h
    obtain ⟨head, hhead, hleads⟩ := hg.leads b [] h
    rw [hhead, Leads.nil_iff.mp hleads]

/-! ## Changing one chain -/

/-- Where one bucket leads to another chain, and all the other ones are as before. -/
theorem replace {chain' : List Nat} (hg : g.Holds slots chains) (hb : chains[b]? = some chain)
    (hsize : g'.heads.size = g.heads.size)
    (hheads : ∀ c, c ≠ b → g'.heads[c]? = g.heads[c]?)
    (hsame : ∀ (c : Nat) other, c ≠ b → chains[c]? = some other →
      ∀ i ∈ other, slots.SameLink slots' i)
    (hchain : g'.ChainAt slots' b chain')
    (hbucket : ∀ i ∈ chain', ∃ s, slots'.at? i = some s ∧ g.bucketOf s.hash = b)
    (hcount : g'.count + chain.length = g.count + chain'.length) :
    g'.Holds slots' (chains.set b chain') where
  size := by rw [List.length_set, hg.size, hsize]
  leads c other hc := by
    by_cases hcb : c = b
    · subst hcb
      rw [List.getElem?_set_self (List.getElem?_eq_some_iff.mp hb).1] at hc
      cases hc
      exact hchain
    · rw [List.getElem?_set_ne (Ne.symm hcb)] at hc
      obtain ⟨head, hhead, hleads⟩ := hg.leads c other hc
      exact ⟨head, (hheads c hcb).trans hhead, hleads.congr (hsame c other hcb hc)⟩
  bucket c other hc i hi := by
    by_cases hcb : c = b
    · subst hcb
      rw [List.getElem?_set_self (List.getElem?_eq_some_iff.mp hb).1] at hc
      cases hc
      obtain ⟨s, hs, hbucket⟩ := hbucket i hi
      exact ⟨s, hs, (bucketOf_congr hsize s.hash).trans hbucket⟩
    · rw [List.getElem?_set_ne (Ne.symm hcb)] at hc
      obtain ⟨s, hs, hbucket⟩ := hg.bucket c other hc i hi
      obtain ⟨s', hs', hhash, -⟩ := (hsame c other hcb hc i hi).exists_slot hs
      exact ⟨s', hs', by rw [hhash, bucketOf_congr hsize, hbucket]⟩
  count := by
    have hlen := (flatten_set_append_perm chain' chains b hb).length_eq
    rw [List.length_append, List.length_append] at hlen
    have := hg.count
    omega

/-- Taking the first slot off a chain. -/
theorem dropHead {rest : List Nat} (hg : g.Holds slots chains)
    (hb : chains[b]? = some (i :: rest)) (hs : slots.at? i = some s) :
    Holds ⟨g.heads.setIfInBounds b s.next, g.count - 1⟩ slots (chains.set b rest) := by
  obtain ⟨head, hhead, hleads⟩ := hg.leads b _ hb
  obtain ⟨-, s', hs', hnext⟩ := hleads.cons_inv
  cases hs.symm.trans hs'
  have hlt := (Array.getElem?_eq_some_iff.mp hhead).1
  refine hg.replace hb Array.size_setIfInBounds (fun c hc => ?_)
    (fun _ _ _ _ _ _ => Slots.sameLink_of_eq rfl) ⟨s.next, ?_, hnext⟩ (fun j hj => ?_) ?_
  · exact Array.getElem?_setIfInBounds_ne (Ne.symm hc)
  · exact Array.getElem?_setIfInBounds_self_of_lt hlt
  · exact hg.bucket b _ hb j (List.mem_cons_of_mem i hj)
  · have hpos : 0 < g.count := by
      rw [hg.count]
      exact List.length_pos_of_mem (mem_chains_iff.mpr ⟨b, _, hb, List.mem_cons_self⟩)
    simp only [List.length_cons]
    omega

end Holds

/-! ## Taking a slot in or out -/

theorem sizes_of_link (h : g.link slots i = .ok (slots', g')) :
    g'.heads.size = g.heads.size ∧ g'.count = g.count + 1 ∧ slots'.size = slots.size := by
  simp only [Generation.link, bind_eq_ok_iff] at h
  obtain ⟨s, -, head, -, heads, hheads, h⟩ := h
  cases h
  rw [setHead] at hheads
  split at hheads
  · cases hheads
    exact ⟨Array.size_setIfInBounds, rfl, Array.size_setIfInBounds⟩
  · cases hheads

theorem sizes_of_unlink {before : Option Nat} (h : g.unlink slots before i = .ok (slots', g')) :
    g'.heads.size = g.heads.size ∧ g'.count = g.count - 1 ∧ slots'.size = slots.size := by
  have hdiff : ∀ {n : Nat}, countDiff g.count 1 = .ok n → n = g.count - 1 := by
    intro n h
    rw [countDiff] at h
    split at h
    · cases h
      rfl
    · cases h
  obtain ⟨s, -, h⟩ := bind_eq_ok_iff.mp h
  cases before with
  | some b =>
    simp only [bind_eq_ok_iff] at h
    obtain ⟨previous, -, n, hn, h⟩ := h
    cases h
    exact ⟨rfl, hdiff hn, Array.size_setIfInBounds⟩
  | none =>
    simp only [bind_eq_ok_iff] at h
    obtain ⟨heads, hheads, n, hn, h⟩ := h
    cases h
    rw [setHead] at hheads
    split at hheads
    · cases hheads
      exact ⟨Array.size_setIfInBounds, hdiff hn, rfl⟩
    · cases hheads

/-- **Linking** adds one slot. -/
theorem Holds.link (hg : g.Holds slots chains) (ha : g.isAllocated = true)
    (hs : slots.at? i = some s) (hnew : i ∉ chains.flatten) :
    ∃ slots' g' chains', g.link slots i = .ok (slots', g') ∧ g'.Holds slots' chains' ∧
      chains'.flatten.Perm (i :: chains.flatten) ∧ slots.Relinked slots' [i] := by
  obtain ⟨chain, hb⟩ := hg.getElem?_bucketOf ha s.hash
  obtain ⟨head, hhead, hleads⟩ := hg.leads _ chain hb
  have hlt := bucketOf_lt ha s.hash
  let slots' : Slots α := slots.setIfInBounds i (some { s with next := head })
  have hslot : slots'.at? i = some { s with next := head } :=
    Slots.at?_set_self (Slots.lt_size_of_at? hs) _
  have hother : ∀ (c : Nat) other, chains[c]? = some other →
      ∀ j ∈ other, slots'.at? j = slots.at? j := by
    intro c other hc j hj
    apply Slots.at?_set_ne
    rintro rfl
    exact hnew (mem_chains_iff.mpr ⟨c, other, hc, hj⟩)
  refine ⟨slots', ⟨g.heads.setIfInBounds (g.bucketOf s.hash) (some i), g.count + 1⟩,
    chains.set (g.bucketOf s.hash) (i :: chain), ?_, ?_, perm_of_cons hb,
    .set hs List.mem_cons_self head⟩
  · simp only [Generation.link, Slots.read_eq_ok_iff.mpr hs, ok_bind, Generation.head, hhead,
      setHead, if_pos hlt]
    rfl
  · refine hg.replace hb Array.size_setIfInBounds (fun c hc => ?_)
      (fun c other _ hc j hj => Slots.sameLink_of_eq (hother c other hc j hj))
      ⟨some i, ?_, .cons hslot ?_⟩ (fun j hj => ?_) ?_
    · exact Array.getElem?_setIfInBounds_ne (Ne.symm hc)
    · exact Array.getElem?_setIfInBounds_self_of_lt hlt
    · exact hleads.congr fun j hj => Slots.sameLink_of_eq (hother _ chain hb j hj)
    · rcases List.mem_cons.mp hj with rfl | hj
      · exact ⟨_, hslot, rfl⟩
      · obtain ⟨s', hs', hbucket⟩ := hg.bucket _ chain hb j hj
        exact ⟨s', (hother _ chain hb j hj).trans hs', hbucket⟩
    · simp only [List.length_cons]
      omega

/-- **Unlinking** takes one slot out of its chain; an empty chain stays empty. -/
theorem Holds.unlink {front back : List Nat} (hg : g.Holds slots chains)
    (hnodup : chains.flatten.Nodup) (hb : chains[b]? = some (front ++ i :: back)) :
    ∃ slots' g', g.unlink slots front.getLast? i = .ok (slots', g') ∧
      g'.Holds slots' (chains.set b (front ++ back)) ∧ slots.Relinked slots' chains.flatten := by
  obtain ⟨head, hhead, hleads⟩ := hg.leads b _ hb
  obtain ⟨s, hs, hbucket⟩ := hg.bucket b _ hb i (by simp)
  have hlt := (Array.getElem?_eq_some_iff.mp hhead).1
  have hmem : ∀ j ∈ front ++ i :: back, j ∈ chains.flatten := fun j hj =>
    mem_chains_iff.mpr ⟨b, _, hb, hj⟩
  have hpos : 1 ≤ g.count := by
    rw [hg.count]
    exact List.length_pos_of_mem (hmem i (by simp))
  have hcount : g.count - 1 + (front ++ i :: back).length = g.count + (front ++ back).length := by
    simp only [List.length_append, List.length_cons]
    omega
  rcases List.eq_nil_or_concat front with rfl | ⟨front, p, rfl⟩
  · -- The first slot of its chain: the bucket is changed.
    obtain ⟨-, s', hs', hback⟩ := hleads.cons_inv
    cases hs.symm.trans hs'
    refine ⟨slots, ⟨g.heads.setIfInBounds b s.next, g.count - 1⟩, ?_, hg.dropHead hb hs,
      .refl _ _⟩
    simp only [Generation.unlink, Slots.read_eq_ok_iff.mpr hs, ok_bind, List.getLast?_nil,
      hbucket, setHead, if_pos hlt, countDiff_eq_ok hpos]
    rfl
  · -- Any other slot: the slot before it is changed.
    rw [List.concat_eq_append, List.append_assoc, List.singleton_append] at *
    obtain ⟨previous, hp, hpbucket⟩ := hg.bucket b _ hb p (by simp)
    let slots' : Slots α := slots.setIfInBounds p (some { previous with next := s.next })
    have hother : ∀ j, j ≠ p → slots'.at? j = slots.at? j := fun j hj => Slots.at?_set_ne hj _
    refine ⟨slots', ⟨g.heads, g.count - 1⟩, ?_, ?_, .set hp (hmem p (by simp)) s.next⟩
    · simp only [Generation.unlink, Slots.read_eq_ok_iff.mpr hs, ok_bind, List.getLast?_concat,
        Slots.read_eq_ok_iff.mpr hp, countDiff_eq_ok hpos]
      rfl
    · refine hg.replace hb rfl (fun _ _ => rfl) (fun c other hc hother' j hj => ?_)
        ⟨head, hhead, hleads.skip (nodup_chain hnodup hb) hp hs⟩ (fun j hj => ?_) ?_
      · refine Slots.sameLink_of_eq (hother j ?_)
        rintro rfl
        exact hc (eq_of_mem_chains hnodup hother' hb hj (by simp))
      · have hj' : j ∈ front ++ p :: i :: back := by
          simp only [List.mem_append, List.mem_cons] at hj ⊢
          rcases hj with hj | hj | hj <;> simp [hj]
        obtain ⟨s', hs', hbucket'⟩ := hg.bucket b _ hb j hj'
        by_cases hjp : j = p
        · subst hjp
          exact ⟨_, Slots.at?_set_self (Slots.lt_size_of_at? hp) _, hpbucket⟩
        · exact ⟨s', (hother j hjp).trans hs', hbucket'⟩
      · simpa using hcount

end Generation

end KeyServer
