import KeyServer.Config

/-! # Good configurations

A configuration is good just if every field that has a least value is not less, and lengths of
messages fit into the four bytes in front of a frame.
-/

namespace KeyServer.Config

variable {c : Config}

/-- What a server can run with. -/
structure Good (c : Config) : Prop where
  bounded : ∀ x ∈ c.lowerBounds, x.2.2 ≤ x.2.1
  maxMessageSize_lt : c.maxMessageSize < 0x100000000

theorem validate_eq_ok_iff : c.validate = .ok () ↔ c.Good := by
  unfold validate
  split
  · next field value least hfind =>
    refine ⟨nofun, fun h => ?_⟩
    have hlt : value < least := by simpa using List.find?_some hfind
    exact absurd hlt (Nat.not_lt.mpr (h.bounded _ (List.mem_of_find?_eq_some hfind)))
  · next hnone =>
    have hbounded : ∀ x ∈ c.lowerBounds, x.2.2 ≤ x.2.1 := by simpa using hnone
    split
    · next hlong => exact ⟨nofun, fun h => absurd h.maxMessageSize_lt (by omega)⟩
    · next hshort => exact ⟨fun _ => ⟨hbounded, by omega⟩, fun _ => rfl⟩

theorem Good.one_le_maxConnections (h : c.Good) : 1 ≤ c.maxConnections :=
  h.bounded ("max_connections", _, 1) (by simp [lowerBounds])

end KeyServer.Config
