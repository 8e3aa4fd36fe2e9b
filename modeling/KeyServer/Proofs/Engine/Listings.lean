import KeyServer.Proofs.Engine.Refusals
import KeyServer.Proofs.SortedSet.Scans

/-! # Listings are ranges

A sorted set can be asked for a range, which is collected in a list.  A listing by an engine is a
walk of its own (`responds_zquery`).

* **`SortedSet.Holds.exists_range`**: a set has its ranges as long as its members can be counted.
* **`ReachedIn.zquery_lists_range`**: the answer to a listing is the range, as a flat array.
-/

namespace KeyServer

/-! ## Sets of keys -/

namespace Engine

variable {e : Engine} {m : Keyspace} {key : Bytes} {z : SortedSet}

/-- The set of a key is found under it. -/
theorem Represents.findSet_of_valueIs (h : e.Represents m) (hvalue : e.ValueIs key (.set z)) :
    ∃ i e', e.findSet key = .ok (.ok (some (i, z)), e') ∧ e.Spares e' ∧
      ∃ items, z.Holds items := by
  obtain ⟨scores, hv⟩ := h.exists_valueIs_set_iff.mp ⟨z, hvalue⟩
  obtain ⟨e', -, ⟨data, -, hv'⟩ | ⟨-, hv'⟩ | ⟨i, s, index, items, scores', hfind, hslot, -,
    hlists⟩⟩ := h.findSet key
  · rw [hv] at hv'
    cases hv'
  · rw [hv] at hv'
    cases hv'
  · have hspares := findSet_spares h.valid hfind
    rw [hspares.content] at hslot
    obtain ⟨j, slot, hj, hkey, hdata⟩ := hvalue
    obtain rfl := h.stores.once j i slot _ hj hslot hkey
    cases hj.symm.trans hslot
    cases hdata
    exact ⟨j, e', hfind, hspares, items, hlists.holds⟩

end Engine

namespace SortedSet

theorem length_scanRange_le (order : List Member) (start : Member) (offset : Int) (limit : Nat) :
    (scanRange order start offset limit).length ≤ order.length := by
  unfold scanRange
  split
  · exact Nat.zero_le _
  · split
    · rw [List.length_take, List.length_drop]
      omega
    · exact Nat.zero_le _

/-- A range is there unless the members cannot be counted, and it has no more than all of them. -/
theorem Holds.exists_range {z : SortedSet} {items : List (Nat × Member)} (h : z.Holds items)
    (hsize : z.size < 0x8000000000000000) {score : Double} (hscore : score.isNaN = false)
    (name : Bytes) (offset : Int) (limit : Nat) :
    ∃ members, z.range score name offset limit = .ok members ∧ members.length ≤ z.size := by
  rw [h.size_eq] at hsize ⊢
  rcases h.range ⟨name, score⟩ hscore offset limit with hrange | ⟨-, hlarge⟩
  · refine ⟨_, hrange, ?_⟩
    have hlength := length_scanRange_le (items.map (·.2)) ⟨name, score⟩ offset limit
    rwa [List.length_map] at hlength
  · omega

end SortedSet

namespace Engine

/-! ## Listings -/

variable {e : Engine} {key : Bytes} {z : SortedSet}

/-- There are states with a set of two members, since they can be added. -/
theorem exists_reachedIn_scored (c : Config) : ∃ (e : Engine) (z : SortedSet),
    e.ReachedIn 2 ∧ e.ValueIs [107] (.set z) ∧ z.size = 2 := by
  have hfirst : Command.parse [[122, 97, 100, 100], [107], [50], [98]]
      = .ok (.zadd [107] ⟨0x4000000000000000⟩ [98]) := by rfl
  have hsecond : Command.parse [[122, 97, 100, 100], [107], [49], [97]]
      = .ok (.zadd [107] ⟨0x3FF0000000000000⟩ [97]) := by rfl
  rcases run_represents [.request [[122, 97, 100, 100], [107], [50], [98]] 0,
      .request [[122, 97, 100, 100], [107], [49], [97]] 0] (represents_ofConfig c)
      bounded_empty with
    ⟨vs, e, m, hrun, hruns, he, -⟩ | ⟨-, hlarge⟩
  · obtain ⟨scores, hlookup, hmembers⟩ :
        ∃ scores : Scores, m.lookup [107] = some (.set scores) ∧ scores.members.length = 2 := by
      cases hruns with
      | request _ _ hrest =>
        cases hrest with
        | request _ _ hrest =>
          cases hrest
          simp only [Keyspace.afterRequest, hfirst, hsecond, Keyspace.after, Keyspace.scores,
            AList.lookup_empty, AList.lookup_insert]
          exact ⟨_, rfl, rfl⟩
    obtain ⟨_ | z, hvalue, hdata⟩ := he.exists_valueIs hlookup
    · exact hdata.elim
    · obtain ⟨items, hlists⟩ := hdata
      refine ⟨e, z, ⟨c, _, _, e, e.pool, rfl, hrun, rfl⟩, hvalue, ?_⟩
      rw [hlists.holds.size_eq, hlists.length_eq, hmembers]
  · exact absurd hlarge (by simp)

/-- **A listing is a range.**  Whatever state an engine is in, and whatever set a key has there, a
listing of it is answered with the range of the set, where a limit below zero counts as zero: names
and scores in turn behind their number, which is twice the number of members.  The number fits into
its four bytes, since the set has fewer than half as many members as they can count.  Nothing else
changes, and a query returns the array if the lengths of the names can be told, too. -/
theorem ReachedIn.zquery_lists_range {n : Nat} (he : e.ReachedIn n)
    (hvalue : e.ValueIs key (.set z)) (hsize : z.size < 0x80000000) {score : Double}
    (hscore : score.isNaN = false) (name : Bytes) (offset limit : Int) :
    ∃ members e', z.range score name offset limit.toNat = .ok members ∧
      2 * members.length < 0x100000000 ∧ e.Spares e' ∧
      (∀ (now : Nat) (q : Buffer), q.Reachable →
        ∃ q', e.perform (.zquery key score name offset limit) now q = .ok (q', e') ∧
          q.Grown (Tag.arr.byte :: Bytes.littleEndian 4 (2 * members.length) ++
            Response.encodeAll (listing members)) q') ∧
      ∀ (args : List Bytes) (now : Nat),
        Command.parse args = .ok (.zquery key score name offset limit) →
        e.execute args now = e.perform (.zquery key score name offset limit) now ∧
          ((Response.arr (listing members)).Sized →
            e.query args now = .ok (.arr (listing members), e')) := by
  obtain ⟨m, hm, -⟩ := he.exists_represents
  obtain ⟨i, e', hfind, hspares, items, hholds⟩ := hm.findSet_of_valueIs hvalue
  obtain ⟨members, hrange, hlength⟩ :=
    hholds.exists_range (by omega) hscore name offset limit.toNat
  have hresponds := responds_zquery hfind hrange
  refine ⟨members, e', hrange, by omega, hspares, fun now q hq => ?_,
    fun args now hparse => ?_⟩
  · obtain ⟨q', hrun, hgrown⟩ := hresponds.grown hq
    rw [Response.encode, length_listing] at hgrown
    exact ⟨q', hrun, hgrown⟩
  · have hexecute : e.execute args now = e.perform (.zquery key score name offset limit) now := by
      funext q
      rw [execute, hparse]
    have hresponds : Responds (e.execute args now) (.arr (listing members)) e' := by
      rw [hexecute]
      exact hresponds
    exact ⟨hexecute, hresponds.query (depth_listing_le members)⟩

/-- At most five members of a set of two, from the one before the second on. -/
theorem ReachedIn.zquery_lists_range_two :
    ∃ (e : Engine) (z : SortedSet), e.ReachedIn 2 ∧ e.ValueIs [107] (.set z) ∧
      z.size < 0x80000000 ∧ Double.isNaN ⟨0x4000000000000000⟩ = false ∧
      ∃ members e', z.range ⟨0x4000000000000000⟩ [98] (-1) (Int.toNat 5) = .ok members ∧
        2 * members.length < 0x100000000 ∧ e.Spares e' ∧
        (∀ (now : Nat) (q : Buffer), q.Reachable →
          ∃ q', e.perform (.zquery [107] ⟨0x4000000000000000⟩ [98] (-1) 5) now q = .ok (q', e') ∧
            q.Grown (Tag.arr.byte :: Bytes.littleEndian 4 (2 * members.length) ++
              Response.encodeAll (listing members)) q') ∧
        ∀ (args : List Bytes) (now : Nat),
          Command.parse args = .ok (.zquery [107] ⟨0x4000000000000000⟩ [98] (-1) 5) →
          e.execute args now = e.perform (.zquery [107] ⟨0x4000000000000000⟩ [98] (-1) 5) now ∧
            ((Response.arr (listing members)).Sized →
              e.query args now = .ok (.arr (listing members), e')) := by
  obtain ⟨e, z, he, hvalue, htwo⟩ := exists_reachedIn_scored {}
  have hsize : z.size < 0x80000000 := by omega
  have hscore : Double.isNaN ⟨0x4000000000000000⟩ = false := by decide
  exact ⟨e, z, he, hvalue, hsize, hscore, he.zquery_lists_range hvalue hsize hscore [98] (-1) 5⟩

end Engine

end KeyServer
