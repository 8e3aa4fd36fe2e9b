import KeyServer.Proofs.Connection.Pass

/-! # Reads are passes

A connection between two reads has some bytes that wait, and perhaps replies that its socket did
not take yet (`Waits`); with a socket that takes everything there are none (`Settled`).

* **`serve_spec`**: serving the bytes of a buffer and a pass over them go alike, also when
  they overflow.
* **`onWrite_spec`**: a write sends a beginning of what is to be sent.
* **`onRead_bytes`**: so a read passes over the bytes that wait and the new ones, keeps the rest
  and sends what the socket takes; with a socket that takes everything these are the frames of
  the replies (`onRead_spec`).
-/

namespace KeyServer

namespace Connection

variable {limits : Limits} {now : Nat} {e : Engine} {m : Keyspace} {out : Buffer} {d sent : Bytes}

theorem front_eq (limits : Limits) (d : Bytes) :
    front limits d =
      match Frame.cut? d limits.maxMessageSize with
      | .error _ => .malformed
      | .ok none => .incomplete
      | .ok (some (body, rest)) =>
        match Request.parse body limits.maxArgs with
        | .error _ => .malformed
        | .ok args => .request args rest := by
  rw [Frame.cut?_eq]
  unfold front
  dsimp only
  split
  · rfl
  · split
    · rfl
    · split <;> rfl

theorem serve_incomplete (h : front limits d = .incomplete) :
    serve e limits now out d = .ok ⟨e, out, d, false⟩ := by
  rw [front_eq] at h
  rw [serve]
  split <;> rename_i hcut
  · simp [hcut] at h
  · rfl
  · next body rest =>
    rw [hcut] at h
    dsimp only at h
    cases hparse : Request.parse body limits.maxArgs <;> rw [hparse] at h <;> cases h

theorem serve_malformed (h : front limits d = .malformed) :
    serve e limits now out d = .ok ⟨e, out, d, true⟩ := by
  rw [front_eq] at h
  rw [serve]
  split <;> rename_i hcut
  · rfl
  · simp [hcut] at h
  · next body rest =>
    rw [hcut] at h
    dsimp only at h ⊢
    cases hparse : Request.parse body limits.maxArgs with
    | error cause => rfl
    | ok args =>
      rw [hparse] at h
      cases h

theorem serve_request {args : List Bytes} {rest : Bytes} (h : front limits d = .request args rest) :
    serve e limits now out d =
      (answer e limits now args out >>= fun r => serve r.2 limits now r.1 rest) := by
  rw [front_eq] at h
  rw [serve]
  split <;> rename_i hcut
  · simp [hcut] at h
  · simp [hcut] at h
  · next body rest' =>
    rw [hcut] at h
    dsimp only at h ⊢
    cases hparse : Request.parse body limits.maxArgs with
    | error cause =>
      rw [hparse] at h
      cases h
    | ok args' =>
      rw [hparse] at h
      cases h
      dsimp only
      cases answer e limits now args out <;> rfl

/-! ## Serving -/

/-- **An answer** is the frame of the reply. -/
theorem answer_spec (limits : Limits) {args : List Bytes} {v : Response} {e' : Engine}
    (h : Engine.Responds (e.execute args now) v e') (hout : out.Holds sent []) :
    ∃ out', answer e limits now args out = .ok (out', e') ∧
      out'.Holds (sent ++ Frame.capped limits.maxMessageSize v.encode) [] := by
  obtain ⟨q₁, hopen, h₁⟩ := hout.pushSlot
  obtain ⟨q₂, hrun, h₂⟩ := h h₁
  obtain ⟨q₃, hclose, h₃⟩ := h₂.closeFrame (by simp) limits.maxMessageSize
  refine ⟨q₃, ?_, h₃⟩
  simp only [answer, Buffer.openFrame, hopen, hrun, hclose, ok_bind, pure_eq_ok]

theorem answer_overflow {args : List Bytes} (h : Engine.Overflows (e.execute args now))
    (hout : out.Holds sent []) : answer e limits now args out = .error .overflow := by
  obtain ⟨q₁, hopen, h₁⟩ := hout.pushSlot
  simp only [answer, Buffer.openFrame, hopen, h h₁, ok_bind, error_bind]

/-- **Serving is a pass** that appends the frames to a buffer. -/
theorem serve_spec (limits : Limits) (now : Nat) (d : Bytes) (h : e.Represents m)
    (hout : out.Holds sent []) :
    (∃ p m' out', pass limits now e d = .ok p ∧ p.engine.Represents m' ∧
        serve e limits now out d = .ok ⟨p.engine, out', p.rest, p.closed⟩ ∧
        out'.Holds (sent ++ p.sent) []) ∨
      pass limits now e d = .error .overflow ∧ serve e limits now out d = .error .overflow := by
  induction d using front_induction limits generalizing e m out sent with
  | incomplete d hfront =>
    exact .inl ⟨_, m, out, pass_incomplete hfront, h, serve_incomplete hfront, by simpa⟩
  | malformed d hfront =>
    exact .inl ⟨_, m, out, pass_malformed hfront, h, serve_malformed hfront, by simpa⟩
  | request d args rest hfront ih =>
    rw [pass_request hfront, serve_request hfront]
    rcases Engine.execute_refines h args now with ⟨v, e₁, hv, -, h₁⟩ | ⟨-, hoverflow⟩
    · obtain ⟨out₁, hanswer, hout₁⟩ := answer_spec limits hv hout
      rw [hv.reply, hanswer, ok_bind, ok_bind]
      dsimp only
      rcases ih h₁ hout₁ with ⟨p, m', out', hpass, hp, hserve, hout'⟩ | ⟨hpass, hserve⟩
      · refine .inl ⟨{ p with sent := Frame.capped limits.maxMessageSize v.encode ++ p.sent }, m',
          out', by rw [hpass]; rfl, hp, hserve, ?_⟩
        rwa [List.append_assoc] at hout'
      · exact .inr ⟨by rw [hpass]; rfl, hserve⟩
    · rw [answer_overflow hoverflow hout, hoverflow.reply]
      exact .inr ⟨rfl, rfl⟩

/-! ## Writing -/

/-- Everything that is to be sent is taken by a socket with room for it. -/
theorem onWrite_all (now : Nat) {c : Connection} (h : c.outgoing.Holds sent []) :
    ∃ outgoing, c.onWrite now .all = .ok (sent, { c with
        outgoing, lastActive := now, wantsRead := true, wantsWrite := false }) ∧
      outgoing.Holds [] [] := by
  obtain ⟨q₁, hconsume, h₁⟩ := h.consume (n := sent.length) (Nat.le_refl _) (by simp)
  rw [List.drop_length, List.map_nil] at h₁
  obtain ⟨q₂, hshrink, h₂⟩ := h₁.shrink shrinkFloor
  refine ⟨q₂, ?_, h₂⟩
  simp [onWrite, h.unread, hconsume, h₁.isEmpty_iff.mpr rfl, hshrink]

/-- What a write leaves: `unsent` of the replies are still to be sent. -/
structure Wrote (c c' : Connection) (now : Nat) (socket : WriteResult) (unsent : Bytes) : Prop where
  incoming : c'.incoming = c.incoming
  outgoing : c'.outgoing.Holds unsent []
  lastActive : c.lastActive = now → c'.lastActive = now
  wantsClose : c.wantsClose = true → c'.wantsClose = true
  all : socket = .all → unsent = [] ∧ c'.wantsRead = true ∧ c'.wantsClose = c.wantsClose

/-- **Writing** sends a beginning of what is to be sent, and keeps the rest. -/
theorem onWrite_spec (now : Nat) (socket : WriteResult) {c : Connection}
    {unsent : Bytes} (h : c.outgoing.Holds unsent []) :
    ∃ sent unsent' c', c.onWrite now socket = .ok (sent, c') ∧ sent ++ unsent' = unsent ∧
      c.Wrote c' now socket unsent' := by
  cases socket with
  | all =>
    obtain ⟨outgoing, hwrite, houtgoing⟩ := onWrite_all now h
    exact ⟨unsent, [], _, hwrite, List.append_nil _,
      ⟨rfl, houtgoing, fun _ => rfl, id, fun _ => ⟨rfl, rfl, rfl⟩⟩⟩
  | atMost n =>
    obtain ⟨q₁, hconsume, h₁⟩ := h.consume (n := min n unsent.length) (Nat.min_le_right _ _)
      (by simp)
    rw [List.map_nil] at h₁
    have hsplit : unsent.take (min n unsent.length) ++ unsent.drop (min n unsent.length) = unsent :=
      List.take_append_drop _ _
    by_cases hempty : q₁.isEmpty = true
    · obtain ⟨q₂, hshrink, h₂⟩ := h₁.shrink shrinkFloor
      refine ⟨_, _, { c with
        outgoing := q₂, lastActive := now, wantsRead := true, wantsWrite := false }, ?_, hsplit,
        ⟨rfl, h₂, fun _ => rfl, id, nofun⟩⟩
      simp [onWrite, h.unread, hconsume, hempty, hshrink]
    · refine ⟨_, _, { c with outgoing := q₁, lastActive := now }, ?_, hsplit,
        ⟨rfl, h₁, fun _ => rfl, id, nofun⟩⟩
      simp [onWrite, h.unread, hconsume, hempty]
  | wouldBlock =>
    exact ⟨[], unsent, c, by simp [onWrite, h.unread], rfl, ⟨rfl, h, id, id, nofun⟩⟩
  | broken =>
    exact ⟨[], unsent, c.close, by simp [onWrite, h.unread], rfl,
      ⟨rfl, h, id, fun _ => rfl, nofun⟩⟩

/-! ## Reading -/

/-- What a read of some bytes leaves before anything is sent. -/
structure Received (c : Connection) (e : Engine) (limits : Limits) (now : Nat) (data : Bytes)
    (c' : Connection) : Prop where
  incoming : ∃ q : Buffer, q.shrink shrinkFloor = .ok c'.incoming
  lastActive : c'.lastActive = now
  wantsRead : c'.wantsRead = c.wantsRead
  wantsWrite : c'.wantsWrite = c.wantsWrite
  /-- The replies are there unless the connection wanted to be closed. -/
  outgoing : c'.outgoing = c.outgoing ∨ c.wantsClose = false ∧
    ∃ q q' waiting served, c.incoming.reserve readChunk = .ok q ∧
      (q.fillTail data).commit data.length = .ok q' ∧ q'.unread = .ok waiting ∧
      serve e limits now c.outgoing waiting = .ok served ∧ c'.outgoing = served.outgoing

/-- **A read in two parts**: what it leaves, and what is sent of that. -/
theorem received_of_onRead {c c' : Connection} {e' : Engine} {data : Bytes} {socket : WriteResult}
    (h : c.onRead e limits now (.bytes data) socket = .ok (sent, c', e')) :
    ∃ c₁, c.Received e limits now data c₁ ∧
      (c₁.outgoing.isEmpty = true ∧ sent = [] ∧ c' = c₁ ∨
        { c₁ with wantsRead := false, wantsWrite := true }.onWrite now socket
          = .ok (sent, c')) := by
  -- What follows the requests is the same with and without them.
  have hsend : ∀ (c₁ : Connection) (e₁ : Engine),
      (do
        if c₁.outgoing.isEmpty then return ([], c₁, e₁)
        else
          let r ← { c₁ with wantsRead := false, wantsWrite := true }.onWrite now socket
          return (r.1, r.2, e₁)) = (.ok (sent, c', e') : Except Fault _) →
      c₁.outgoing.isEmpty = true ∧ sent = [] ∧ c' = c₁ ∨
        { c₁ with wantsRead := false, wantsWrite := true }.onWrite now socket
          = .ok (sent, c') := by
    intro c₁ e₁ h
    split at h
    · next hempty =>
      cases h
      exact .inl ⟨hempty, rfl, rfl⟩
    · obtain ⟨⟨sent₁, c₂⟩, hwrite, h⟩ := bind_eq_ok_iff.mp h
      cases h
      exact .inr hwrite
  obtain ⟨q, hreserve, h⟩ := bind_eq_ok_iff.mp h
  obtain ⟨q', hcommit, h⟩ := bind_eq_ok_iff.mp h
  dsimp only at h
  split at h
  · obtain ⟨_, ⟨⟩, h⟩ := bind_eq_ok_iff.mp h
    obtain ⟨incoming, hshrink, h⟩ := bind_eq_ok_iff.mp h
    exact ⟨{ c with incoming, lastActive := now }, ⟨⟨_, hshrink⟩, rfl, rfl, rfl, .inl rfl⟩,
      hsend _ e h⟩
  · next hopen =>
    obtain ⟨waiting, hunread, h⟩ := bind_eq_ok_iff.mp h
    obtain ⟨served, hserve, h⟩ := bind_eq_ok_iff.mp h
    obtain ⟨q₁, -, h⟩ := bind_eq_ok_iff.mp h
    obtain ⟨_, ⟨⟩, h⟩ := bind_eq_ok_iff.mp h
    obtain ⟨incoming, hshrink, h⟩ := bind_eq_ok_iff.mp h
    exact ⟨{ c with
        incoming, outgoing := served.outgoing, wantsClose := served.malformed, lastActive := now },
      ⟨⟨_, hshrink⟩, rfl, rfl, rfl, .inr ⟨Bool.not_eq_true _ ▸ hopen, q, q', waiting, served,
        hreserve, hcommit, hunread, hserve, rfl⟩⟩, hsend _ served.engine h⟩

/-- A connection between two reads: some bytes wait, and nothing is to be sent. -/
structure Settled (c : Connection) (rest : Bytes) (closed : Bool) : Prop where
  incoming : c.incoming.Holds rest []
  outgoing : c.outgoing.Holds [] []
  wantsClose : c.wantsClose = closed

theorem settled_opened (now : Nat) : (opened now).Settled [] false :=
  ⟨Buffer.holds_empty, Buffer.holds_empty, rfl⟩

/-- Whether a read has room for some bytes. -/
def Fits (c : Connection) (chunk : Bytes) : Prop :=
  ∃ room, c.readRoom = .ok room ∧ chunk.length ≤ room

/-- A read always has room for some bytes. -/
theorem exists_readRoom {c : Connection} {rest : Bytes} (h : c.incoming.Holds rest []) :
    ∃ room, c.readRoom = .ok room ∧ readChunk ≤ room := by
  obtain ⟨q, hreserve, hq, hroom⟩ := h.reserve readChunk
  refine ⟨q.store.size - q.writePos, ?_, by omega⟩
  rw [readRoom, hreserve, ok_bind, hq.writableLength]

theorem Settled.fits {c : Connection} {rest chunk : Bytes} {closed : Bool}
    (h : c.Settled rest closed) (hchunk : chunk.length ≤ readChunk) : c.Fits chunk := by
  obtain ⟨room, hroom, hle⟩ := exists_readRoom h.incoming
  exact ⟨room, hroom, Nat.le_trans hchunk hle⟩

theorem fits_of_room {c : Connection} {rest chunk : Bytes} (h : c.incoming.Holds rest [])
    (hchunk : ∀ room, c.readRoom = .ok room → chunk.length ≤ room) : c.Fits chunk := by
  obtain ⟨room, hroom, -⟩ := exists_readRoom h
  exact ⟨room, hroom, hchunk room hroom⟩

/-- The bytes of a read are put behind the ones that wait. -/
theorem Fits.fill {c : Connection} {rest chunk : Bytes} (hchunk : c.Fits chunk)
    (h : c.incoming.Holds rest []) :
    ∃ q q', c.incoming.reserve readChunk = .ok q ∧
      (q.fillTail chunk).commit chunk.length = .ok q' ∧ q'.Holds (rest ++ chunk) [] := by
  obtain ⟨room, hroom, hle⟩ := hchunk
  obtain ⟨q, hreserve, hq, -⟩ := h.reserve readChunk
  rw [readRoom, hreserve, ok_bind, hq.writableLength] at hroom
  cases hroom
  have hwrite := hq.writePos_le
  have hsize : q.writePos + chunk.length ≤ q.store.size := by omega
  obtain ⟨q', hcommit, hq'⟩ := hq.fillTail_commit hsize
  exact ⟨q, q', hreserve, hcommit, hq'⟩

/-- After a malformed frame, bytes are kept and nothing is run. -/
theorem onRead_closed (limits : Limits) (now : Nat) (e : Engine) {c : Connection}
    {rest chunk : Bytes} (h : c.Settled rest true) (hchunk : c.Fits chunk) :
    ∃ c', c.onRead e limits now (.bytes chunk) .all = .ok ([], c', e) ∧
      c'.Settled (rest ++ chunk) true := by
  obtain ⟨q, q', hreserve, hcommit, hq'⟩ := hchunk.fill h.incoming
  obtain ⟨q₂, hshrink, hq₂⟩ := hq'.shrink shrinkFloor
  refine ⟨{ c with incoming := q₂, lastActive := now }, ?_, hq₂, h.outgoing, h.wantsClose⟩
  simp [onRead, hreserve, hcommit, h.wantsClose, hshrink, h.outgoing.isEmpty_iff.mpr rfl]

/-- An open connection: some received bytes wait, and some replies are still to be sent. -/
structure Waits (c : Connection) (rest unsent : Bytes) : Prop where
  incoming : c.incoming.Holds rest []
  outgoing : c.outgoing.Holds unsent []
  wantsClose : c.wantsClose = false

theorem waits_opened (now : Nat) : (opened now).Waits [] [] :=
  ⟨Buffer.holds_empty, Buffer.holds_empty, rfl⟩

/-- What a pass leaves of a connection at some time: `unsent` of the replies are still to be
sent. -/
structure Left (c : Connection) (now : Nat) (p : Passed) (unsent : Bytes) : Prop where
  incoming : c.incoming.Holds p.rest []
  outgoing : c.outgoing.Holds unsent []
  lastActive : c.lastActive = now
  wantsClose : p.closed = true → c.wantsClose = true

/-- **A read** passes over the bytes that wait and the new ones. -/
theorem onRead_bytes (limits : Limits) (now : Nat) (socket : WriteResult) {c : Connection}
    {rest unsent chunk : Bytes} (h : c.Waits rest unsent) (he : e.Represents m)
    (hchunk : c.Fits chunk) :
    (∃ p m' c' sent unsent', pass limits now e (rest ++ chunk) = .ok p ∧ p.engine.Represents m' ∧
        c.onRead e limits now (.bytes chunk) socket = .ok (sent, c', p.engine) ∧
        sent ++ unsent' = unsent ++ p.sent ∧ c'.Left now p unsent' ∧
        (socket = .all → unsent = [] → unsent' = [] ∧ c'.wantsClose = p.closed ∧
          (c.wantsRead = true → c'.wantsRead = true))) ∨
      pass limits now e (rest ++ chunk) = .error .overflow ∧
        c.onRead e limits now (.bytes chunk) socket = .error .overflow := by
  obtain ⟨q, q', hreserve, hcommit, hq'⟩ := hchunk.fill h.incoming
  -- The requests are served before the bytes they came in are consumed.
  rcases serve_spec limits now (rest ++ chunk) he h.outgoing with
    ⟨p, m', out', hpass, hp, hserve, hout'⟩ | ⟨hpass, hserve⟩
  · obtain ⟨front, hfront⟩ := exists_append_rest hpass
    have hdrop : (rest ++ chunk).drop ((rest ++ chunk).length - p.rest.length) = p.rest := by
      rw [hfront, List.length_append, Nat.add_sub_cancel, List.drop_left]
    obtain ⟨q₁, hconsume, h₁⟩ := hq'.consume
      (n := (rest ++ chunk).length - p.rest.length) (Nat.sub_le _ _) (by simp)
    rw [hdrop, List.map_nil] at h₁
    obtain ⟨q₂, hshrink, h₂⟩ := h₁.shrink shrinkFloor
    rw [List.length_append] at hconsume
    by_cases hempty : out'.isEmpty = true
    · -- Without anything to send nothing is written.
      have hnone := hout'.isEmpty_iff.mp hempty
      refine .inl ⟨p, m', { c with
        incoming := q₂, outgoing := out', lastActive := now, wantsClose := p.closed }, [], [],
        hpass, hp, ?_, hnone.symm, ⟨h₂, hnone ▸ hout', rfl, id⟩, fun _ _ => ⟨rfl, rfl, id⟩⟩
      simp [onRead, hreserve, hcommit, h.wantsClose, hq'.unread, hserve, hconsume, hshrink, hempty]
    · obtain ⟨sent, unsent', c', hwrite, hsent, hwrote⟩ := onWrite_spec now socket (c := { c with
        incoming := q₂, outgoing := out', lastActive := now, wantsClose := p.closed,
        wantsRead := false, wantsWrite := true }) hout'
      refine .inl ⟨p, m', c', sent, unsent', hpass, hp, ?_, hsent,
        ⟨hwrote.incoming ▸ h₂, hwrote.outgoing, hwrote.lastActive rfl, hwrote.wantsClose⟩,
        fun hall _ => ?_⟩
      · simp [onRead, hreserve, hcommit, h.wantsClose, hq'.unread, hserve, hconsume, hshrink,
          hempty, hwrite]
      · obtain ⟨hnone, hread, hclose⟩ := hwrote.all hall
        exact ⟨hnone, hclose, fun _ => hread⟩
  · refine .inr ⟨hpass, ?_⟩
    simp [onRead, hreserve, hcommit, h.wantsClose, hq'.unread, hserve]

/-- **A read is a pass** over the bytes that wait and the new ones. -/
theorem onRead_spec (limits : Limits) (now : Nat) {c : Connection} {rest chunk : Bytes}
    (h : c.Settled rest false) (he : e.Represents m) (hchunk : c.Fits chunk) :
    (∃ p m' c', pass limits now e (rest ++ chunk) = .ok p ∧ p.engine.Represents m' ∧
        c.onRead e limits now (.bytes chunk) .all = .ok (p.sent, c', p.engine) ∧
        c'.Settled p.rest p.closed) ∨
      pass limits now e (rest ++ chunk) = .error .overflow ∧
        c.onRead e limits now (.bytes chunk) .all = .error .overflow := by
  have hwaits : c.Waits rest [] := ⟨h.incoming, h.outgoing, h.wantsClose⟩
  refine (onRead_bytes limits now .all hwaits he hchunk).imp_left ?_
  rintro ⟨p, m', c', sent, unsent', hpass, hp, hread, hsent, hleft, hall⟩
  obtain ⟨rfl, hclose, -⟩ := hall rfl rfl
  rw [List.append_nil, List.nil_append] at hsent
  subst hsent
  exact ⟨p, m', c', hpass, hp, hread, hleft.incoming, hleft.outgoing, hclose⟩

end Connection

end KeyServer
