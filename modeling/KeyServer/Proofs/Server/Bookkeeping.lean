import KeyServer.Server
import KeyServer.Proofs.Connection.Driving
import KeyServer.Proofs.IdleList.Links

/-! # What a server keeps

A server keeps its open connections three times over: in slots by descriptor, in a list by last
activity, and as a number.  `s.Keeps conns` says that all three tell of the same connections
`conns`, the one idle for longest first.  Whatever happens to connections keeps it so:

* **`Keeps.register`** puts a new connection at the end, and **`Keeps.handleReady_eq`** moves one
  there;
* **`Keeps.destroy`** takes one out, and finds it counted;
* **`Keeps.closeIdleWithin`** takes out the ones in front that were idle for too long, and stops
  at the first other one.
-/

namespace KeyServer.Server

variable {s s' : Server} {conns : List (Nat × Connection)} {d k : Nat} {c c' : Connection}

/-! ## Slots -/

section Slots

variable {slots : Array (Option Connection)}

theorem join_set (h : k < slots.size) (x : Option Connection) :
    (slots.setIfInBounds k x)[d]?.join = if k = d then x else slots[d]?.join := by
  rw [Array.getElem?_setIfInBounds, if_pos h]
  split
  · exact Option.join_some
  · rfl

theorem join_append_room (n : Nat) :
    (slots ++ Array.replicate n none)[d]?.join = slots[d]?.join := by
  by_cases hd : d < slots.size
  · rw [Array.getElem?_append_left hd]
  · rw [Array.getElem?_append_right (Nat.le_of_not_lt hd),
      Array.getElem?_eq_none (Nat.le_of_not_lt hd), Array.getElem?_replicate]
    split <;> rfl

theorem lt_size_of_join (h : slots[d]?.join = some c) : d < slots.size := by
  by_contra hd
  rw [Array.getElem?_eq_none (Nat.le_of_not_lt hd)] at h
  cases h

theorem countP_range (l : List (Option Connection)) :
    (List.range l.length).countP (fun d => l[d]?.join.isSome) = l.countP Option.isSome := by
  induction l with
  | nil => rfl
  | cons x l ih =>
    rw [List.length_cons, List.range_succ_eq_map, List.countP_cons, List.countP_cons,
      List.countP_map, ← ih]
    rfl

/-- The occupied slots are counted by their descriptors. -/
theorem countP_isSome_eq (slots : Array (Option Connection)) :
    slots.countP Option.isSome
      = ((List.range slots.size).filter fun d => slots[d]?.join.isSome).length := by
  rw [← List.countP_eq_length_filter, ← Array.countP_toList, ← countP_range, Array.length_toList]
  simp only [Array.getElem?_toList]

end Slots

theorem connection?_eq (s : Server) (d : Nat) : s.connection? d = s.connections[d]?.join := rfl

/-! ## Keeping -/

/-- The server keeps exactly the connections `conns`, listed by last activity. -/
structure Keeps (s : Server) (conns : List (Nat × Connection)) : Prop where
  idle : s.idle.Holds (conns.map (·.1))
  connection : ∀ d c, s.connection? d = some c ↔ (d, c) ∈ conns
  active : s.active = conns.length

/-- The connections but the one of a descriptor. -/
def without (conns : List (Nat × Connection)) (d : Nat) : List (Nat × Connection) :=
  conns.filter (·.1 ≠ d)

theorem mem_without : (k, c) ∈ without conns d ↔ (k, c) ∈ conns ∧ k ≠ d := by
  rw [without, List.mem_filter, decide_eq_true_eq]

theorem map_without (conns : List (Nat × Connection)) (d : Nat) :
    (without conns d).map (·.1) = (conns.map (·.1)).filter (· ≠ d) := by
  rw [List.filter_map]
  rfl

theorem keeps_ofConfig {config : Config} (h : ofConfig config = .ok s) : s.Keeps [] := by
  obtain ⟨-, -, h⟩ := bind_eq_ok_iff.mp h
  cases h
  exact ⟨IdleList.holds_empty, fun d c => by simp [connection?], rfl⟩

namespace Keeps

theorem nodup (h : s.Keeps conns) : (conns.map (·.1)).Nodup := h.idle.nodup

theorem size (h : s.Keeps conns) : s.idle.size = conns.length := by
  rw [h.idle.size, List.length_map]

theorem isSome_iff (h : s.Keeps conns) :
    (s.connection? d).isSome = true ↔ d ∈ conns.map (·.1) := by
  rw [Option.isSome_iff_exists, List.mem_map]
  constructor
  · rintro ⟨c, hc⟩
    exact ⟨(d, c), (h.connection d c).mp hc, rfl⟩
  · rintro ⟨⟨_, c⟩, hmem, rfl⟩
    exact ⟨c, (h.connection _ c).mpr hmem⟩

/-- As many slots are occupied as there are connections. -/
theorem occupied (h : s.Keeps conns) : s.connections.countP Option.isSome = conns.length := by
  have hlength : (conns.map (·.1)).length = conns.length := List.length_map _
  rw [countP_isSome_eq, ← hlength]
  apply List.Perm.length_eq
  refine (List.perm_ext_iff_of_nodup (List.nodup_range.filter _) h.nodup).mpr fun d => ?_
  rw [List.mem_filter, List.mem_range, ← h.isSome_iff, ← connection?_eq, and_iff_right_iff_imp]
  intro hd
  obtain ⟨c, hc⟩ := Option.isSome_iff_exists.mp hd
  exact lt_size_of_join hc

/-- Taking out a connection leaves one less. -/
theorem length_without (h : s.Keeps conns) (hd : s.connection? d = some c) :
    (without conns d).length + 1 = conns.length := by
  obtain ⟨front, back, hconns⟩ := List.append_of_mem ((h.connection d c).mp hd)
  have hnodup := h.nodup
  have hlength := congrArg List.length (map_without conns d)
  rw [hconns, List.map_append, List.map_cons] at hnodup
  rw [hconns, List.map_append, List.map_cons, IdleList.Holds.filter_middle hnodup] at hlength
  rw [hconns]
  simp only [List.length_append, List.length_cons, List.length_map] at hlength ⊢
  omega

/-- **A new connection** stands at the end. -/
theorem register (h : s.Keeps conns) (hd : s.connection? d = none) (c : Connection) :
    (s.register d c).Keeps (conns ++ [(d, c)]) where
  idle := by
    have hnew : d ∉ conns.map (·.1) := by
      rw [← h.isSome_iff, hd]
      exact Bool.false_ne_true
    rw [List.map_append]
    exact h.idle.add hnew
  connection k c' := by
    have hsize : d < (s.connections ++ Array.replicate (d + 1 - s.connections.size) none).size := by
      rw [Array.size_append, Array.size_replicate]
      omega
    rw [connection?_eq, Server.register, join_set hsize, join_append_room, List.mem_append,
      List.mem_singleton, Prod.mk.injEq]
    split
    · next hk =>
      subst hk
      rw [Option.some_inj, ← h.connection, hd]
      simp [eq_comm]
    · next hk =>
      rw [← connection?_eq, h.connection]
      simp [Ne.symm hk]
  active := by
    rw [Server.register, h.active, List.length_append]
    rfl

/-- **A connection that changes** moves to the end. -/
theorem put (h : s.Keeps conns) (hd : s.connection? d = some c) (c' : Connection)
    (engine : Engine) :
    Keeps { s with
      engine
      connections := s.connections.setIfInBounds d (some c')
      idle := s.idle.touch d } (without conns d ++ [(d, c')]) where
  idle := by
    rw [List.map_append, map_without]
    exact h.idle.pushBack d
  connection k c'' := by
    rw [connection?_eq, join_set (lt_size_of_join hd), List.mem_append, mem_without,
      List.mem_singleton, Prod.mk.injEq]
    split
    · next hk =>
      subst hk
      simp [eq_comm]
    · next hk =>
      rw [← connection?_eq, h.connection]
      simp [Ne.symm hk]
  active := by
    rw [List.length_append, List.length_singleton, h.length_without hd]
    exact h.active

/-- **Closing** a connection takes it out; one that is not there need not be closed. -/
theorem destroy (h : s.Keeps conns) (d : Nat) :
    ∃ s', s.destroy d = .ok s' ∧ s'.Keeps (without conns d) ∧ s'.engine = s.engine ∧
      s'.config = s.config := by
  cases hd : s.connection? d with
  | none =>
    refine ⟨s, by rw [Server.destroy, hd], ?_, rfl, rfl⟩
    have hsame : without conns d = conns := by
      rw [without, List.filter_eq_self]
      rintro ⟨k, c⟩ hmem
      rw [decide_eq_true_eq]
      rintro rfl
      rw [← h.connection, hd] at hmem
      cases hmem
    rwa [hsame]
  | some c =>
    have hlength := h.length_without hd
    have hactive := h.active
    refine ⟨{ s with
      connections := s.connections.setIfInBounds d none
      idle := (s.idle.remove d).2
      active := s.active - 1 }, ?_, ⟨?_, ?_, ?_⟩, rfl, rfl⟩
    · rw [Server.destroy, hd]
      simp [countDiff_eq_ok (show 1 ≤ s.active by omega)]
    · rw [map_without]
      exact (h.idle.remove d).2
    · intro k c'
      rw [connection?_eq, join_set (lt_size_of_join hd), mem_without, ← h.connection]
      split
      · next hk => simp [hk]
      · next hk => exact (and_iff_left (Ne.symm hk)).symm
    · show s.active - 1 = _
      omega

end Keeps

/-! ## Ready connections -/

/-- What is kept of a connection that was ready for something. -/
def afterReady (conns : List (Nat × Connection)) (d : Nat) (c : Connection) :
    List (Nat × Connection) :=
  if c.wantsClose then without conns d else without conns d ++ [(d, c)]

theorem handleReady_eq (hd : s.connection? d = some c) (ready : Readiness) (got : ReadResult)
    (socket : WriteResult) (now : Nat) :
    s.handleReady d ready got socket now = do
      let (sent, c, engine) ← c.onReady s.engine s.config.limits ready got socket now
      let s := { s with
        engine
        connections := s.connections.setIfInBounds d (some c)
        idle := s.idle.touch d }
      return (sent, ← if c.wantsClose then s.destroy d else pure s) := by
  rw [handleReady, hd]
  unfold Connection.onReady
  dsimp only
  split
  · rfl
  · split
    · rfl
    · split
      · cases (c.touch now).onWrite now socket <;> rfl
      · rfl

theorem handleReady_of_none (hd : s.connection? d = none) (ready : Readiness) (got : ReadResult)
    (socket : WriteResult) (now : Nat) : s.handleReady d ready got socket now = .ok ([], s) := by
  rw [handleReady, hd]

theorem without_append_self (conns : List (Nat × Connection)) (d : Nat) (c : Connection) :
    without (without conns d ++ [(d, c)]) d = without conns d := by
  simp [without]

/-- **A ready connection** moves to the end, or is closed. -/
theorem Keeps.handleReady (h : s.Keeps conns) (hd : s.connection? d = some c) {ready : Readiness}
    {got : ReadResult} {socket : WriteResult} {now : Nat} {sent : Bytes} {engine : Engine}
    (hready : c.onReady s.engine s.config.limits ready got socket now = .ok (sent, c', engine)) :
    ∃ s', s.handleReady d ready got socket now = .ok (sent, s') ∧
      s'.Keeps (afterReady conns d c') ∧ s'.engine = engine ∧ s'.config = s.config := by
  have hput := h.put hd c' engine
  rw [handleReady_eq hd, hready, ok_bind, afterReady]
  dsimp only
  split
  · obtain ⟨s', hdestroy, h', hengine, hconfig⟩ := hput.destroy d
    rw [without_append_self] at h'
    exact ⟨s', by rw [hdestroy]; rfl, h', hengine, hconfig⟩
  · exact ⟨_, rfl, hput, rfl, rfl⟩

/-- What the slots hold then. -/
theorem Keeps.connection?_afterReady (h : s.Keeps conns) (h' : s'.Keeps (afterReady conns d c'))
    (k : Nat) :
    s'.connection? k =
      if k = d then if c'.wantsClose then none else some c' else s.connection? k := by
  ext c
  rw [h'.connection, afterReady]
  split
  · next hclose =>
    rw [mem_without, ← h.connection]
    split
    · next hk => simp [hk]
    · next hk => exact and_iff_left hk
  · next hclose =>
    rw [List.mem_append, mem_without, ← h.connection, List.mem_singleton, Prod.mk.injEq]
    split
    · next hk => simp [hk, eq_comm]
    · next hk => simp [hk]

theorem Keeps.length_afterReady_le (h : s.Keeps conns) (hd : s.connection? d = some c)
    (c' : Connection) : (afterReady conns d c').length ≤ conns.length := by
  have hlength := h.length_without hd
  rw [afterReady]
  split
  · omega
  · rw [List.length_append, List.length_singleton]
    omega

/-! ## Idle connections -/

/-- Whether a connection was idle for too long. -/
def Overdue (timeout now : Nat) (c : Connection) : Prop := c.lastActive + timeout ≤ now

instance (timeout now : Nat) (c : Connection) : Decidable (Overdue timeout now c) :=
  inferInstanceAs (Decidable (_ ≤ _))

/-- Whether a deadline of an open connection does not fit into a machine word. -/
def Late (s : Server) : Prop :=
  ∃ d c, s.connection? d = some c ∧ maxWord < c.lastActive + s.config.idleTimeout

theorem le_maxWord_of_not_late (h : ¬s.Late) (hd : s.connection? d = some c) :
    c.lastActive + s.config.idleTimeout ≤ maxWord :=
  Nat.le_of_not_lt fun hlt => h ⟨d, c, hd, hlt⟩

theorem Keeps.nextIdleDeadline {rest : List (Nat × Connection)} (h : s.Keeps ((d, c) :: rest)) :
    s.nextIdleDeadline = do return some (← addWords c.lastActive s.config.idleTimeout) := by
  have hd := (h.connection d c).mpr List.mem_cons_self
  rw [Server.nextIdleDeadline, h.idle.first, List.map_cons, List.head?_cons, Option.bind_some, hd]

theorem Keeps.without_cons {rest : List (Nat × Connection)} (h : s.Keeps ((d, c) :: rest)) :
    without ((d, c) :: rest) d = rest := by
  have hnew := (List.nodup_cons.mp (List.map_cons ▸ h.nodup)).1
  rw [without, List.filter_cons_of_neg (by simp), List.filter_eq_self]
  rintro ⟨k, c'⟩ hmem
  rw [decide_eq_true_eq]
  rintro rfl
  exact hnew (List.mem_map.mpr ⟨_, hmem, rfl⟩)

theorem Keeps.closeIdleWithin_nil (h : s.Keeps []) (now rounds : Nat) :
    Server.closeIdleWithin now rounds s = .ok s := by
  rw [Server.closeIdleWithin.eq_def, h.idle.first]
  rfl

/-- **A round of the loop** looks at the connection in front. -/
theorem Keeps.closeIdleWithin_cons {rest : List (Nat × Connection)}
    (h : s.Keeps ((d, c) :: rest)) (now rounds : Nat) :
    Server.closeIdleWithin now (rounds + 1) s = (do
      let deadline ← addWords c.lastActive s.config.idleTimeout
      if now < deadline then return s
      else Server.closeIdleWithin now rounds (← s.destroy d)) := by
  have hfirst : s.idle.first = some d := h.idle.first
  rw [Server.closeIdleWithin, hfirst]
  dsimp only
  rw [h.nextIdleDeadline]
  cases addWords c.lastActive s.config.idleTimeout <;> rfl

/-- **The loop over idle connections** closes the ones in front that are overdue. -/
theorem Keeps.closeIdleWithin (now : Nat) : ∀ {conns : List (Nat × Connection)} {s : Server}
    {rounds : Nat}, s.Keeps conns → conns.length ≤ rounds →
    (∃ s', Server.closeIdleWithin now rounds s = .ok s' ∧
        s'.Keeps (conns.dropWhile (Overdue s.config.idleTimeout now ·.2)) ∧
        s'.engine = s.engine ∧ s'.config = s.config) ∨
      Server.closeIdleWithin now rounds s = .error .overflow ∧ s.Late := by
  intro conns
  induction conns with
  | nil =>
    intro s rounds h _
    exact .inl ⟨s, h.closeIdleWithin_nil now rounds, h, rfl, rfl⟩
  | cons x rest ih =>
    obtain ⟨d, c⟩ := x
    rintro s (_ | rounds) h hrounds
    · simp at hrounds
    rw [h.closeIdleWithin_cons, addWords]
    split
    · next hword =>
      rw [List.dropWhile_cons, ok_bind]
      by_cases hdue : Overdue s.config.idleTimeout now c
      · obtain ⟨s₁, hdestroy, h₁, hengine₁, hconfig₁⟩ := h.destroy d
        rw [h.without_cons] at h₁
        rw [if_neg (Nat.not_lt.mpr hdue), hdestroy, ok_bind, if_pos (by simpa using hdue)]
        rcases ih h₁ (Nat.le_of_succ_le_succ hrounds) with
          ⟨s', hloop, h', hengine', hconfig'⟩ | ⟨hloop, hlate⟩
        · rw [hconfig₁] at h'
          exact .inl ⟨s', hloop, h', hengine'.trans hengine₁, hconfig'.trans hconfig₁⟩
        · refine .inr ⟨hloop, ?_⟩
          obtain ⟨k, c', hc', hlate⟩ := hlate
          rw [hconfig₁] at hlate
          have hmem := List.mem_cons_of_mem (d, c) ((h₁.connection k c').mp hc')
          exact ⟨k, c', (h.connection k c').mpr hmem, hlate⟩
      · rw [if_pos (Nat.lt_of_not_le hdue), if_neg (by simpa using hdue)]
        exact .inl ⟨s, rfl, h, rfl, rfl⟩
    · next hword =>
      exact .inr ⟨rfl, d, c, (h.connection d c).mpr List.mem_cons_self, by omega⟩

/-- **Timers** close the overdue connections in front and sweep the engine. -/
theorem Keeps.processTimers (h : s.Keeps conns) {now n : Nat} {engine : Engine}
    (hsweep : s.engine.sweep now = .ok (n, engine)) :
    (∃ s', s.processTimers now = .ok s' ∧
        s'.Keeps (conns.dropWhile (Overdue s.config.idleTimeout now ·.2)) ∧
        s'.engine = engine ∧ s'.config = s.config) ∨
      s.processTimers now = .error .overflow ∧ s.Late := by
  rw [Server.processTimers]
  rcases h.closeIdleWithin now (Nat.le_of_eq h.size.symm) with
    ⟨s₁, hclose, h₁, hengine, hconfig⟩ | ⟨hclose, hlate⟩
  · refine .inl ⟨{ s₁ with engine }, ?_, ⟨h₁.idle, h₁.connection, h₁.active⟩, rfl, hconfig⟩
    rw [hclose, ok_bind, hengine, hsweep]
    rfl
  · exact .inr ⟨by rw [hclose]; rfl, hlate⟩

end KeyServer.Server
