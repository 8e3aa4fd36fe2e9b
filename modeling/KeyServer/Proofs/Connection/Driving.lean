import KeyServer.Poll
import KeyServer.Proofs.Connection.Reading

/-! # What a ready connection does

Whatever its socket is ready for, a connection passes over the bytes that it reads, if any, and
sends what the socket takes.

* **`onReady_spec`**: no byte of a reply is lost or doubled on the way, and it takes an overflow
  of the pass to fail.  With a socket that takes everything nothing is left to send, and the
  connection stays open unless its peer is done or a frame is malformed.
-/

namespace KeyServer

/-- The bytes of a read. -/
def ReadResult.data : ReadResult → Bytes
  | bytes data => data
  | _ => []

namespace Connection

variable {limits : Limits} {now : Nat} {e : Engine} {m : Keyspace} {c c' : Connection}
  {rest unsent : Bytes}

/-- What a connection does that is ready for something. -/
def onReady (c : Connection) (e : Engine) (limits : Limits) (ready : Readiness) (got : ReadResult)
    (socket : WriteResult) (now : Nat) : Except Fault (Bytes × Connection × Engine) :=
  let c := c.touch now
  if ready.error then pure ([], c.close, e)
  else if c.wantsRead && (ready.readable || ready.hangup) then c.onRead e limits now got socket
  else if c.wantsWrite && (ready.writable || ready.hangup) then do
    let (sent, c) ← c.onWrite now socket
    pure (sent, c, e)
  else pure ([], c, e)

/-- Whether a connection that is ready for something looks for bytes to read. -/
def looks (c : Connection) (ready : Readiness) : Bool :=
  !ready.error && (c.wantsRead && (ready.readable || ready.hangup))

/-- The bytes that a connection reads when it is ready for something. -/
def reads (c : Connection) (ready : Readiness) (got : ReadResult) : Bytes :=
  if c.looks ready then got.data else []

theorem length_reads_le (c : Connection) (ready : Readiness) (got : ReadResult) :
    (c.reads ready got).length ≤ got.data.length := by
  rw [reads]
  split
  · exact Nat.le_refl _
  · exact Nat.zero_le _

/-- Whether a connection finds out that its peer is done. -/
def ends (c : Connection) (ready : Readiness) (got : ReadResult) : Bool :=
  ready.error || c.looks ready && (got == .finished || got == .broken)

/-- What being ready leaves of a connection after a pass: `unsent` of the replies are still to be
sent. -/
structure Drove (c c' : Connection) (now : Nat) (p : Passed) (ended : Bool) (socket : WriteResult)
    (unsent unsent' : Bytes) : Prop extends c'.Left now p unsent' where
  all : socket = .all → unsent = [] → c.wantsRead = true →
    unsent' = [] ∧ c'.wantsRead = true ∧ c'.wantsClose = (p.closed || ended)

/-- **Without a read** nothing is passed over, and without a write all is still to be sent. -/
theorem drove_nothing {q : Buffer} {closing ended : Bool} (h : c.Waits rest unsent)
    (hq : q.Holds rest []) (hclosing : closing = ended) (socket : WriteResult) :
    c.Drove { c with incoming := q, wantsClose := closing, lastActive := now } now
      ⟨e, [], rest, false⟩ ended socket unsent unsent where
  incoming := hq
  outgoing := h.outgoing
  lastActive := rfl
  wantsClose := nofun
  all _ hunsent hreads := ⟨hunsent, hreads, hclosing⟩

/-- A connection that looks for bytes. -/
theorem onRead_spec_of_looks (limits : Limits) (got : ReadResult) (socket : WriteResult) (now : Nat)
    (h : c.Waits rest unsent) (hfront : front limits rest = .incomplete) (he : e.Represents m)
    {ready : Readiness} (hlooks : c.looks ready = true) (hfit : c.Fits (c.reads ready got)) :
    (∃ p m' c' sent unsent', pass limits now e (rest ++ c.reads ready got) = .ok p ∧
        p.engine.Represents m' ∧
        (c.touch now).onRead e limits now got socket = .ok (sent, c', p.engine) ∧
        sent ++ unsent' = unsent ++ p.sent ∧
        c.Drove c' now p (c.ends ready got) socket unsent unsent') ∨
      pass limits now e (rest ++ c.reads ready got) = .error .overflow ∧
        (c.touch now).onRead e limits now got socket = .error .overflow := by
  have hnothing : pass limits now e (rest ++ []) = .ok ⟨e, [], rest, false⟩ := by
    rw [List.append_nil]
    exact pass_incomplete hfront
  obtain ⟨q, hreserve, hq, -⟩ := h.incoming.reserve readChunk
  have herror : ready.error = false := by
    rw [looks, Bool.and_eq_true, Bool.not_eq_true'] at hlooks
    exact hlooks.1
  cases got with
  | bytes data =>
    have hreads : c.reads ready (.bytes data) = data := by simp [reads, hlooks, ReadResult.data]
    have hends : c.ends ready (.bytes data) = false := by simp [ends, herror]
    rw [hreads] at hfit ⊢
    refine (onRead_bytes (c := c.touch now) limits now socket
      ⟨h.incoming, h.outgoing, h.wantsClose⟩ he hfit).imp_left ?_
    rintro ⟨p, m', c', sent, unsent', hpass, hp, hread, hsent, hleft, hall⟩
    refine ⟨p, m', c', sent, unsent', hpass, hp, hread, hsent, hleft, fun hsocket hunsent hreads =>
      ?_⟩
    obtain ⟨hnone, hclose, hwants⟩ := hall hsocket hunsent
    exact ⟨hnone, hwants hreads, by rw [hclose, hends, Bool.or_false]⟩
  | wouldBlock =>
    have hreads : c.reads ready .wouldBlock = [] := by simp [reads, hlooks, ReadResult.data]
    have hends : c.ends ready .wouldBlock = false := by simp [ends, herror]
    rw [hreads, hends]
    refine .inl ⟨_, m, { c.touch now with incoming := q }, [], unsent, hnothing, he, ?_,
      (List.append_nil _).symm, ?_⟩
    · simp [onRead, touch, hreserve]
    · exact drove_nothing h hq h.wantsClose socket
  | finished =>
    have hreads : c.reads ready .finished = [] := by simp [reads, hlooks, ReadResult.data]
    have hends : c.ends ready .finished = true := by simp [ends, hlooks]
    rw [hreads, hends]
    refine .inl ⟨_, m, { c.touch now with incoming := q, wantsClose := true }, [], unsent, hnothing,
      he, ?_, (List.append_nil _).symm, ?_⟩
    · simp [onRead, touch, hreserve]
    · exact drove_nothing h hq (Eq.refl true) socket
  | broken =>
    have hreads : c.reads ready .broken = [] := by simp [reads, hlooks, ReadResult.data]
    have hends : c.ends ready .broken = true := by simp [ends, hlooks]
    rw [hreads, hends]
    refine .inl ⟨_, m, { c.touch now with incoming := q, wantsClose := true }, [], unsent, hnothing,
      he, ?_, (List.append_nil _).symm, ?_⟩
    · simp [onRead, touch, hreserve]
    · exact drove_nothing h hq (Eq.refl true) socket

/-- **A ready connection** passes over the bytes that it reads and sends what its socket takes. -/
theorem onReady_spec (limits : Limits) (ready : Readiness) (got : ReadResult)
    (socket : WriteResult) (now : Nat) (h : c.Waits rest unsent)
    (hfront : front limits rest = .incomplete) (he : e.Represents m)
    (hfit : c.Fits (c.reads ready got)) :
    (∃ p m' c' sent unsent', pass limits now e (rest ++ c.reads ready got) = .ok p ∧
        p.engine.Represents m' ∧
        c.onReady e limits ready got socket now = .ok (sent, c', p.engine) ∧
        sent ++ unsent' = unsent ++ p.sent ∧
        c.Drove c' now p (c.ends ready got) socket unsent unsent') ∨
      pass limits now e (rest ++ c.reads ready got) = .error .overflow ∧
        c.onReady e limits ready got socket now = .error .overflow := by
  by_cases hlooks : c.looks ready = true
  · have hready : c.onReady e limits ready got socket now
        = (c.touch now).onRead e limits now got socket := by
      have hcond := hlooks
      rw [looks, Bool.and_eq_true, Bool.not_eq_true'] at hcond
      rw [onReady, hcond.1]
      exact if_pos hcond.2
    rw [hready]
    exact onRead_spec_of_looks limits got socket now h hfront he hlooks hfit
  · rw [Bool.not_eq_true] at hlooks
    have hreads : c.reads ready got = [] := by simp [reads, hlooks]
    have hends : c.ends ready got = ready.error := by simp [ends, hlooks]
    have hnothing : pass limits now e (rest ++ []) = .ok ⟨e, [], rest, false⟩ := by
      rw [List.append_nil]
      exact pass_incomplete hfront
    rw [hreads, hends]
    cases herror : ready.error with
    | true =>
      refine .inl ⟨_, m, (c.touch now).close, [], unsent, hnothing, he, ?_,
        (List.append_nil _).symm, ?_⟩
      · rw [onReady, herror]
        rfl
      · exact drove_nothing h h.incoming (Eq.refl true) socket
    | false =>
      have hcond : (c.wantsRead && (ready.readable || ready.hangup)) = false := by
        rwa [looks, herror] at hlooks
      by_cases hwrites : (c.wantsWrite && (ready.writable || ready.hangup)) = true
      · obtain ⟨sent, unsent', c', hwrite, hsent, hwrote⟩ :=
          onWrite_spec (c := c.touch now) now socket h.outgoing
        refine .inl ⟨_, m, c', sent, unsent', hnothing, he, ?_, by rw [hsent, List.append_nil],
          ⟨hwrote.incoming ▸ h.incoming, hwrote.outgoing, hwrote.lastActive rfl, nofun⟩,
          fun hall _ _ => ?_⟩
        · have hready : c.onReady e limits ready got socket now
              = ((c.touch now).onWrite now socket >>= fun r => pure (r.1, r.2, e)) := by
            rw [onReady, herror]
            exact (if_neg (ne_true_of_eq_false hcond)).trans (if_pos hwrites)
          rw [hready, hwrite]
          rfl
        · obtain ⟨hnone, hread, hclose⟩ := hwrote.all hall
          exact ⟨hnone, hread, hclose.trans h.wantsClose⟩
      · refine .inl ⟨_, m, c.touch now, [], unsent, hnothing, he, ?_, (List.append_nil _).symm, ?_⟩
        · rw [onReady, herror]
          exact (if_neg (ne_true_of_eq_false hcond)).trans (if_neg hwrites)
        · exact drove_nothing h h.incoming h.wantsClose socket

end Connection

end KeyServer
