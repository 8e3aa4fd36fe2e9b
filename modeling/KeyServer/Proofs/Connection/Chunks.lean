import KeyServer.Proofs.Connection.Reading

/-! # Chunks do not matter

However the bytes of a client are cut into reads, a connection ends up as after one pass
over all of them (**`deliver_eq_pass`**).  Between two reads the bytes that wait are the
beginning of one frame, so a pass over them and the next chunk goes on where the last one
stopped (`deliver_spec`).
-/

namespace KeyServer.Connection

variable {limits : Limits} {now : Nat} {e : Engine} {m : Keyspace} {c : Connection}
  {rest : Bytes} {chunks : List Bytes}

/-- Reads some chunks one after the other, with a socket that takes everything; returns the
bytes sent. -/
def deliver (limits : Limits) (now : Nat) (c : Connection) (e : Engine) :
    List Bytes → Except Fault (Bytes × Connection × Engine)
  | [] => .ok ([], c, e)
  | chunk :: chunks => do
    let (sent, c, e) ← c.onRead e limits now (.bytes chunk) .all
    let (more, c, e) ← deliver limits now c e chunks
    return (sent ++ more, c, e)

/-- Whether every read has room for its chunk. -/
def AllFit (limits : Limits) (now : Nat) (c : Connection) (e : Engine) : List Bytes → Prop
  | [] => True
  | chunk :: chunks => c.Fits chunk ∧
    ∀ sent c' e', c.onRead e limits now (.bytes chunk) .all = .ok (sent, c', e') →
      AllFit limits now c' e' chunks

/-- After a malformed frame all bytes are kept. -/
theorem deliver_closed (h : c.Settled rest true) (hfit : AllFit limits now c e chunks) :
    ∃ c', deliver limits now c e chunks = .ok ([], c', e) ∧
      c'.Settled (rest ++ chunks.flatten) true := by
  induction chunks generalizing c rest with
  | nil => exact ⟨c, rfl, by simpa using h⟩
  | cons chunk chunks ih =>
    obtain ⟨hchunk, hchunks⟩ := hfit
    obtain ⟨c₁, hread, h₁⟩ := onRead_closed limits now e h hchunk
    obtain ⟨c', hdeliver, h'⟩ := ih h₁ (hchunks _ _ _ hread)
    refine ⟨c', by simp [deliver, hread, hdeliver], ?_⟩
    rwa [List.flatten_cons, ← List.append_assoc]

/-- **Delivering chunks is a pass** over the bytes that wait and the chunks. -/
theorem deliver_spec (h : c.Settled rest false) (hrest : front limits rest = .incomplete)
    (he : e.Represents m) (hfit : AllFit limits now c e chunks) :
    (∃ p m' c', pass limits now e (rest ++ chunks.flatten) = .ok p ∧ p.engine.Represents m' ∧
        deliver limits now c e chunks = .ok (p.sent, c', p.engine) ∧ c'.Settled p.rest p.closed) ∨
      pass limits now e (rest ++ chunks.flatten) = .error .overflow ∧
        deliver limits now c e chunks = .error .overflow := by
  induction chunks generalizing c e m rest with
  | nil =>
    rw [List.flatten_nil, List.append_nil]
    exact .inl ⟨_, m, c, pass_incomplete hrest, he, rfl, h⟩
  | cons chunk chunks ih =>
    obtain ⟨hchunk, hchunks⟩ := hfit
    rw [List.flatten_cons, ← List.append_assoc]
    rcases onRead_spec limits now h he hchunk with
      ⟨p, m₁, c₁, hpass, hp, hread, h₁⟩ | ⟨hpass, hread⟩
    · have hfit₁ := hchunks _ _ _ hread
      have hfront := front_of_pass hpass
      rw [pass_append hpass]
      cases hclosed : p.closed with
      | true =>
        rw [hclosed] at h₁
        obtain ⟨c', hdeliver, h'⟩ := deliver_closed h₁ hfit₁
        exact .inl ⟨_, m₁, c', rfl, hp, by simp [deliver, hread, hdeliver], h'⟩
      | false =>
        rw [hclosed] at h₁ hfront
        rcases ih h₁ hfront hp hfit₁ with
          ⟨p', m', c', hpass', hp', hdeliver, h'⟩ | ⟨hpass', hdeliver⟩
        · exact .inl ⟨{ p' with sent := p.sent ++ p'.sent }, m', c', by simp [hpass'], hp',
            by simp [deliver, hread, hdeliver], h'⟩
        · exact .inr ⟨by simp [hpass'], by simp [deliver, hread, hdeliver]⟩
    · exact .inr ⟨pass_append_error hpass _, by simp [deliver, hread]⟩

/-- Short chunks always fit. -/
theorem allFit_of_length_le {closed : Bool} (h : c.Settled rest closed) (he : e.Represents m)
    (hchunks : ∀ chunk ∈ chunks, chunk.length ≤ readChunk) : AllFit limits now c e chunks := by
  induction chunks generalizing c e m rest closed with
  | nil => trivial
  | cons chunk chunks ih =>
    have hfits := h.fits (hchunks chunk List.mem_cons_self)
    have hrest := fun chunk' hmem => hchunks chunk' (List.mem_cons_of_mem chunk hmem)
    refine ⟨hfits, fun sent c' e' hread => ?_⟩
    cases closed with
    | true =>
      obtain ⟨c₁, hread₁, h₁⟩ := onRead_closed limits now e h hfits
      rw [hread₁] at hread
      cases hread
      exact ih h₁ he hrest
    | false =>
      rcases onRead_spec limits now h he hfits with
        ⟨p, m₁, c₁, -, hp, hread₁, h₁⟩ | ⟨-, hread₁⟩
      · rw [hread₁] at hread
        cases hread
        exact ih h₁ hp hrest
      · rw [hread₁] at hread
        cases hread

/-- **Chunks do not matter.**  A new connection that reads the chunks of some bytes ends up
as after one pass over them: with the same engine, the same bytes sent, the same wish to be
closed and the same bytes left.  It takes a set of more members than a machine word can
count to make both overflow. -/
theorem deliver_eq_pass {n : Nat} (he : e.ReachedIn n) (limits : Limits) (now start : Nat)
    {chunks : List Bytes} (hfit : AllFit limits now (opened start) e chunks) :
    (∃ p c, pass limits now e chunks.flatten = .ok p ∧
        deliver limits now (opened start) e chunks = .ok (p.sent, c, p.engine) ∧
        c.wantsClose = p.closed ∧ c.incoming.unread = .ok p.rest) ∨
      pass limits now e chunks.flatten = .error .overflow ∧
        deliver limits now (opened start) e chunks = .error .overflow ∧
        0x8000000000000000 ≤ n + chunks.flatten.length := by
  obtain ⟨m, hm, hbound⟩ := he.exists_represents
  rcases deliver_spec (settled_opened start) (front_nil limits) hm hfit with
    ⟨p, m', c, hpass, -, hdeliver, h⟩ | ⟨hpass, hdeliver⟩
  · exact .inl ⟨p, c, hpass, hdeliver, h.wantsClose, h.incoming.unread⟩
  · rw [List.nil_append] at hpass
    rcases pass_bounded limits now chunks.flatten hm hbound with
      ⟨p, hp⟩ | ⟨-, hlarge⟩
    · rw [hp] at hpass
      cases hpass
    · exact .inr ⟨hpass, hdeliver, hlarge⟩

/-- The request for all keys, cut inside the length of its frame and inside its name. -/
theorem deliver_eq_pass_keys :
    ∃ p c, pass ⟨64, 8⟩ 7 (Engine.ofConfig {})
          [12, 0, 0, 0, 1, 0, 0, 0, 4, 0, 0, 0, 107, 101, 121, 115] = .ok p ∧
        deliver ⟨64, 8⟩ 7 (opened 0) (Engine.ofConfig {})
          [[12, 0], [0, 0, 1, 0, 0, 0, 4, 0, 0, 0, 107], [101, 121, 115]]
          = .ok (p.sent, c, p.engine) ∧
        c.wantsClose = p.closed ∧ c.incoming.unread = .ok p.rest := by
  have hfit : AllFit ⟨64, 8⟩ 7 (opened 0) (Engine.ofConfig {})
      [[12, 0], [0, 0, 1, 0, 0, 0, 4, 0, 0, 0, 107], [101, 121, 115]] :=
    allFit_of_length_le (settled_opened 0) (Engine.represents_ofConfig {}) (by decide)
  rcases deliver_eq_pass (Engine.reachedIn_ofConfig {}) ⟨64, 8⟩ 7 0 hfit with h | ⟨-, -, hlarge⟩
  · exact h
  · exact absurd hlarge (by decide)

end KeyServer.Connection
