import KeyServer.Proofs.Calls
import KeyServer.Proofs.Connection.Driving

/-! # How much memory a connection takes

Every read first makes room, perhaps in a store of twice the size, and a read that finds nothing
leaves it so.  A store is made smaller only after a read of some bytes, and only if it is much too
large for what still waits.  As no store is made smaller than many reads need, both steps keep to
one bound.

* `Buffer.capacity_reserve`, `Buffer.capacity_shrink`: how large stores get.
* `Tidy.reserve`, **`Tidy.of_onRead`**: the two steps keep the bound.
* **`run_compact`**: whatever happens to a connection whose socket takes everything, its stores are
  as small as what waits allows, nothing is to be sent, and no complete request waits.
-/

namespace KeyServer

/-! ## Capacities -/

theorem eq_of_countDiff {a b n : Nat} (h : countDiff a b = .ok n) : b + n = a := by
  unfold countDiff at h
  split at h
  · cases h
    omega
  · cases h

namespace Buffer

variable {q q' : Buffer} {n len : Nat}

theorem rebase_eq {store : Array UInt8} (h : q.rebase store len = .ok q') :
    q'.length = .ok len ∧ q'.capacity = store.size := by
  obtain ⟨slots, -, h⟩ := bind_eq_ok_iff.mp h
  cases h
  exact ⟨by simp [length, countDiff], rfl⟩

theorem size_freshStore {store : Array UInt8} (hlen : q.length = .ok len)
    (h : q.freshStore len n = .ok store) : store.size = n := by
  have hpos := eq_of_countDiff hlen
  unfold freshStore at h
  split at h
  · next hfits =>
    cases h
    rw [Array.size_append, Array.size_extract, Array.size_replicate]
    omega
  · cases h

theorem capacity_empty : empty.capacity = defaultCapacity := Array.size_replicate

/-- **Reserving** keeps a store, or doubles it, or makes it as large as needed. -/
theorem capacity_reserve (hlen : q.length = .ok len) (h : q.reserve n = .ok q') :
    q'.capacity = q.capacity ∨
      q.capacity < len + n ∧ q'.capacity = max (q.capacity * 2) (len + n) := by
  obtain ⟨tail, htail, h⟩ := bind_eq_ok_iff.mp h
  split at h
  · cases h
    exact .inl rfl
  · obtain ⟨len', hlen', h⟩ := bind_eq_ok_iff.mp h
    cases hlen.symm.trans hlen'
    have hpos := eq_of_countDiff hlen
    have hsize := eq_of_countDiff htail
    split at h
    · refine .inl ((rebase_eq h).2.trans ?_)
      rw [compactedStore, Array.size_append, Array.size_extract, Array.size_extract, capacity]
      omega
    · obtain ⟨store, hfresh, h⟩ := bind_eq_ok_iff.mp h
      refine .inr ⟨?_, (rebase_eq h).2.trans (size_freshStore hlen hfresh)⟩
      rw [capacity]
      omega

/-- **Shrinking** leaves a store that is not much too large. -/
theorem capacity_shrink {floor : Nat} (h : q.shrink floor = .ok q') :
    ∃ len, q'.length = .ok len ∧ q'.capacity ≤ max floor (4 * len) := by
  obtain ⟨len, hlen, h⟩ := bind_eq_ok_iff.mp h
  refine ⟨len, ?_⟩
  split at h
  · next hsmall =>
    cases h
    exact ⟨hlen, by omega⟩
  · obtain ⟨store, hfresh, h⟩ := bind_eq_ok_iff.mp h
    obtain ⟨hlen', hcapacity⟩ := rebase_eq h
    rw [size_freshStore hlen hfresh] at hcapacity
    exact ⟨hlen', by omega⟩

end Buffer

namespace Connection

open Buffer (capacity_empty capacity_reserve capacity_shrink)

variable {limits : Limits} {now : Nat} {e : Engine} {m : Keyspace} {c c' : Connection}
  {waiting sent : Bytes}

/-! ## Frames that wait -/

/-- Some bytes of a frame that may be accepted, but not all of them. -/
structure Partial (limits : Limits) (waiting : Bytes) : Prop where
  /-- They are the beginning of a frame, whose length is allowed if it is known. -/
  beginning : ∃ missing body, missing ≠ [] ∧ waiting ++ missing = Frame.encode body ∧
    (4 ≤ waiting.length → body.length ≤ limits.maxMessageSize)
  short : waiting.length < 4 ∨ waiting.length < 4 + limits.maxMessageSize
  /-- Looking for a frame, one asks for more. -/
  more : Frame.bodyLength? waiting limits.maxMessageSize = .ok none

/-- The beginning of a frame can be completed. -/
theorem exists_completion {header : Bytes} (part : Bytes) (hheader : header.length = 4)
    (hpart : part.length ≤ Bytes.value header) : ∃ missing body,
      missing.length = Bytes.value header - part.length ∧
      header ++ part ++ missing = Frame.encode body ∧ body.length = Bytes.value header := by
  let missing : Bytes := List.replicate (Bytes.value header - part.length) 0
  have hmissing : missing.length = Bytes.value header - part.length := List.length_replicate
  have hbody : (part ++ missing).length = Bytes.value header := by
    rw [List.length_append, hmissing]
    omega
  refine ⟨missing, part ++ missing, hmissing, ?_, hbody⟩
  rw [Frame.encode, Bytes.sized, hbody, ← hheader, Bytes.littleEndian_value, List.append_assoc]

/-- **An incomplete frame** is one of which some bytes wait. -/
theorem partial_of_front (h : front limits waiting = .incomplete) : Partial limits waiting := by
  have hmore : Frame.bodyLength? waiting limits.maxMessageSize = .ok none := by
    rw [front_eq] at h
    rw [Frame.bodyLength?]
    split at h
    · cases h
    · next hcut =>
      rw [hcut]
      rfl
    · next body rest hcut =>
      cases hparse : Request.parse body limits.maxArgs <;> rw [hparse] at h <;> cases h
  unfold front at h
  dsimp only at h
  split at h
  · next hshort =>
    -- Zeros make up for what is missing of the header.
    let zeros : Bytes := List.replicate (4 - waiting.length) 0
    have hzeros : zeros.length = 4 - waiting.length := List.length_replicate
    have hheader : (waiting ++ zeros).length = 4 := by
      rw [List.length_append, hzeros]
      omega
    obtain ⟨missing, body, -, hframe, -⟩ := exists_completion [] hheader (Nat.zero_le _)
    refine ⟨⟨zeros ++ missing, body, ?_, ?_, fun hlong => absurd hshort (Nat.not_lt.mpr hlong)⟩,
      .inl hshort, hmore⟩
    · rw [← List.length_pos_iff, List.length_append]
      omega
    · rwa [List.append_nil, List.append_assoc] at hframe
  · next hheader =>
    split at h
    · cases h
    · next hallowed =>
      split at h
      · next hbody =>
        have hlength : (waiting.take 4).length = 4 := by
          rw [List.length_take]
          omega
        have hpart : (waiting.drop 4).length < Bytes.value (waiting.take 4) := by
          rw [List.length_drop]
          omega
        obtain ⟨missing, body, hmissing, hframe, hlong⟩ :=
          exists_completion _ hlength (Nat.le_of_lt hpart)
        rw [List.take_append_drop] at hframe
        refine ⟨⟨missing, body, ?_, hframe, fun _ => by omega⟩, .inr (by omega), hmore⟩
        rw [← List.length_pos_iff]
        omega
      · cases hparse : Request.parse ((waiting.drop 4).take (Bytes.value (waiting.take 4)))
            limits.maxArgs <;> rw [hparse] at h <;> cases h

/-! ## Events -/

/-- What can happen to a connection whose socket takes everything that is written to it.  Reads
find an engine, which may be another one every time. -/
inductive Call where
  | read (e : Engine) (now : Nat) (got : ReadResult)
  | write (now : Nat)
  | touch (now : Nat)
  | close

/-- Carries out one event; returns the bytes sent. -/
def call (limits : Limits) (c : Connection) : Call → Except Fault (Bytes × Connection)
  | .read e now got => do
    let (sent, c, _) ← c.onRead e limits now got .all
    return (sent, c)
  | .write now => c.onWrite now .all
  | .touch now => .ok ([], c.touch now)
  | .close => .ok ([], c.close)

/-- The bytes that are read. -/
def Call.data : Call → Bytes
  | .read _ _ got => got.data
  | _ => []

/-- Whether a read has room for its bytes, and its engine is in a state that engines come to. -/
def Allows (c : Connection) : Call → Prop
  | .read e _ got => (∃ n, e.ReachedIn n) ∧ c.Fits got.data
  | _ => True

/-- Whether some events read from an engine that may come to more requests than a machine word can
count. -/
def Exhausts (calls : List Call) : Prop :=
  ∃ e now got, Call.read e now got ∈ calls ∧
    ∀ n, e.ReachedIn n → 0x8000000000000000 ≤ n + (calls.map (·.data.length)).sum

/-- A connection that takes no more memory than it should, with some bytes that wait. -/
structure Compact (c : Connection) (limits : Limits) (waiting : Bytes) : Prop where
  incoming : c.incoming.unread = .ok waiting
  incoming_capacity : c.incoming.capacity ≤ max shrinkFloor (4 * waiting.length)
  /-- Nothing is to be sent, and no slot is to be filled. -/
  outgoing : c.outgoing.unread = .ok []
  pending : c.outgoing.pendingSlots = 0
  outgoing_capacity : c.outgoing.capacity ≤ shrinkFloor
  wantsRead : c.wantsRead = true
  wantsWrite : c.wantsWrite = false
  /-- While it is open, no complete request waits. -/
  cut : c.wantsClose = false → Partial limits waiting

/-- The same with what the buffers hold. -/
structure Tidy (c : Connection) (limits : Limits) (waiting : Bytes) : Prop
    extends c.Settled waiting c.wantsClose where
  incoming_capacity : c.incoming.capacity ≤ max shrinkFloor (4 * waiting.length)
  outgoing_capacity : c.outgoing.capacity ≤ shrinkFloor
  wantsRead : c.wantsRead = true
  wantsWrite : c.wantsWrite = false
  front : c.wantsClose = false → front limits waiting = .incomplete

theorem tidy_opened (limits : Limits) (start : Nat) : (opened start).Tidy limits [] where
  toSettled := settled_opened start
  incoming_capacity := capacity_empty ▸ by decide
  outgoing_capacity := capacity_empty ▸ by decide
  wantsRead := rfl
  wantsWrite := rfl
  front _ := front_nil limits

namespace Tidy

theorem compact (h : c.Tidy limits waiting) : c.Compact limits waiting where
  incoming := h.incoming.unread
  incoming_capacity := h.incoming_capacity
  outgoing := h.outgoing.unread
  pending := by rw [Buffer.pendingSlots, h.outgoing.slots, List.map_nil, List.length_nil]
  outgoing_capacity := h.outgoing_capacity
  wantsRead := h.wantsRead
  wantsWrite := h.wantsWrite
  cut hopen := partial_of_front (h.front hopen)

/-- **Making room** for a read keeps the bound: a store is doubled only if it has less room than a
read needs, and then it is either small or more than half full. -/
theorem reserve (h : c.Tidy limits waiting) (closing : Bool)
    (hclosing : closing = false → c.wantsClose = false) : ∃ q,
      c.incoming.reserve readChunk = .ok q ∧
      { c with incoming := q, wantsClose := closing }.Tidy limits waiting := by
  obtain ⟨q, hreserve, hq, -⟩ := h.incoming.reserve readChunk
  refine ⟨q, hreserve, ⟨⟨hq, h.outgoing, rfl⟩, ?_, h.outgoing_capacity, h.wantsRead, h.wantsWrite,
    fun hopen => h.front (hclosing hopen)⟩⟩
  have hcapacity := h.incoming_capacity
  show q.capacity ≤ _
  unfold readChunk at hreserve
  unfold shrinkFloor at hcapacity ⊢
  rcases capacity_reserve h.incoming.length hreserve with hsame | ⟨hshort, hgrown⟩ <;> omega

/-- Nothing that was read is lost. -/
theorem touch (h : c.Tidy limits waiting) (now : Nat) : (c.touch now).Tidy limits waiting :=
  ⟨⟨h.incoming, h.outgoing, rfl⟩, h.incoming_capacity, h.outgoing_capacity, h.wantsRead,
    h.wantsWrite, h.front⟩

theorem close (h : c.Tidy limits waiting) : c.close.Tidy limits waiting :=
  ⟨⟨h.incoming, h.outgoing, rfl⟩, h.incoming_capacity, h.outgoing_capacity, h.wantsRead,
    h.wantsWrite, nofun⟩

end Tidy

/-! ## Writes -/

/-- **A write** after which nothing is left to send makes the store small. -/
theorem drained_of_onWrite (h : c.onWrite now .all = .ok (sent, c'))
    (hempty : c'.outgoing.Holds [] []) : c'.incoming = c.incoming ∧
      c'.outgoing.capacity ≤ shrinkFloor ∧ c'.wantsRead = true ∧ c'.wantsWrite = false := by
  obtain ⟨pending, -, h⟩ := bind_eq_ok_iff.mp h
  obtain ⟨outgoing, -, h⟩ := bind_eq_ok_iff.mp h
  split at h
  · obtain ⟨outgoing', hshrink, h⟩ := bind_eq_ok_iff.mp h
    cases h
    obtain ⟨len, hlen, hcapacity⟩ := capacity_shrink hshrink
    cases hlen.symm.trans hempty.length
    exact ⟨rfl, hcapacity, rfl, rfl⟩
  · next hleft =>
    cases h
    exact absurd (hempty.isEmpty_iff.mpr rfl) hleft

theorem Tidy.write (h : c.Tidy limits waiting) (now : Nat) :
    ∃ c', c.onWrite now .all = .ok ([], c') ∧ c'.Tidy limits waiting := by
  obtain ⟨outgoing, hwrite, houtgoing⟩ := onWrite_all now h.outgoing
  obtain ⟨-, hcapacity, -, -⟩ := drained_of_onWrite hwrite houtgoing
  exact ⟨_, hwrite, ⟨h.incoming, houtgoing, rfl⟩, h.incoming_capacity, hcapacity, rfl, rfl, h.front⟩

/-! ## Reads -/

/-- A pass over a request sends its reply. -/
theorem sent_ne_nil_of_request {d rest : Bytes} {args : List Bytes} {p : Passed}
    (hfront : front limits d = .request args rest) (h : pass limits now e d = .ok p) :
    p.sent ≠ [] := by
  rw [pass_request hfront, bind_eq_ok_iff] at h
  obtain ⟨⟨reply, e'⟩, -, h⟩ := h
  obtain ⟨p', -, ⟨⟩⟩ := bind_eq_ok_iff.mp h
  simp [Frame.capped, Frame.encode, Bytes.sized, Bytes.littleEndian]

/-- **Without a request** nothing is put into the buffer of replies. -/
theorem outgoing_of_serve {d : Bytes} {out : Buffer} {served : Served} {p : Passed}
    (hpass : pass limits now e d = .ok p) (hsent : p.sent = [])
    (h : serve e limits now out d = .ok served) : served.outgoing = out := by
  cases hfront : front limits d with
  | incomplete =>
    cases (serve_incomplete hfront).symm.trans h
    rfl
  | malformed =>
    cases (serve_malformed hfront).symm.trans h
    rfl
  | request args rest => exact absurd hsent (sent_ne_nil_of_request hfront hpass)

/-- **A read** of some bytes makes the stores as small as what it leaves allows. -/
theorem Tidy.of_onRead {e' : Engine} {data rest : Bytes} (h : c.Tidy limits waiting)
    (hfit : c.Fits data) (hread : c.onRead e limits now (.bytes data) .all = .ok (sent, c', e'))
    (hpass : c.wantsClose = false →
      ∃ p, pass limits now e (waiting ++ data) = .ok p ∧ p.sent = sent)
    (hsettled : c'.Settled rest c'.wantsClose)
    (hfront : c'.wantsClose = false → Connection.front limits rest = .incomplete) :
    c'.Tidy limits rest := by
  obtain ⟨c₁, hreceived, hsend⟩ := received_of_onRead hread
  -- The store of what was received is made smaller, whatever is sent.
  have hincoming : c'.incoming = c₁.incoming →
      c'.incoming.capacity ≤ max shrinkFloor (4 * rest.length) := by
    intro hsame
    obtain ⟨q, hshrink⟩ := hreceived.incoming
    rw [← hsame] at hshrink
    obtain ⟨len, hlen, hcapacity⟩ := capacity_shrink hshrink
    cases hlen.symm.trans hsettled.incoming.length
    exact hcapacity
  rcases hsend with ⟨-, hnone, rfl⟩ | hwrite
  · have houtgoing : c'.outgoing = c.outgoing := by
      rcases hreceived.outgoing with
        hsame | ⟨hopen, q, q', d, served, hreserve, hcommit, hunread, hserve, hserved⟩
      · exact hsame
      · obtain ⟨p, hp, hsent⟩ := hpass hopen
        obtain ⟨q₁, q₁', hreserve₁, hcommit₁, hq₁'⟩ := hfit.fill h.incoming
        cases hreserve.symm.trans hreserve₁
        cases hcommit.symm.trans hcommit₁
        cases hunread.symm.trans hq₁'.unread
        rw [hserved, outgoing_of_serve hp (hsent.trans hnone) hserve]
    exact ⟨hsettled, hincoming rfl, houtgoing ▸ h.outgoing_capacity,
      hreceived.wantsRead.trans h.wantsRead, hreceived.wantsWrite.trans h.wantsWrite, hfront⟩
  · obtain ⟨hsame, hcapacity, hwantsRead, hwantsWrite⟩ :=
      drained_of_onWrite hwrite hsettled.outgoing
    exact ⟨hsettled, hincoming hsame, hcapacity, hwantsRead, hwantsWrite, hfront⟩

/-- **Any read** that succeeds leaves a connection tidy, with bytes that waited or were read. -/
theorem Tidy.read (h : c.Tidy limits waiting) (he : e.Represents m) {got : ReadResult}
    (hfit : c.Fits got.data) (now : Nat) :
    (∃ sent c' e' rest, c.onRead e limits now got .all = .ok (sent, c', e') ∧
        c'.Tidy limits rest ∧ rest.length ≤ waiting.length + got.data.length) ∨
      c.wantsClose = false ∧ pass limits now e (waiting ++ got.data) = .error .overflow ∧
        c.onRead e limits now got .all = .error .overflow := by
  cases got with
  | wouldBlock =>
    obtain ⟨q, hreserve, htidy⟩ := h.reserve c.wantsClose id
    exact .inl ⟨[], _, e, waiting, by simp [onRead, hreserve], htidy, Nat.le_add_right _ _⟩
  | finished | broken =>
    obtain ⟨q, hreserve, htidy⟩ := h.reserve true (by simp)
    exact .inl ⟨[], _, e, waiting, by simp [onRead, hreserve], htidy, Nat.le_add_right _ _⟩
  | bytes data =>
    replace hfit : c.Fits data := hfit
    cases hclose : c.wantsClose with
    | true =>
      have hclosed := h.toSettled
      rw [hclose] at hclosed
      obtain ⟨c', hread, h'⟩ := onRead_closed limits now e hclosed hfit
      have hsettled : c'.Settled (waiting ++ data) c'.wantsClose := h'.wantsClose ▸ h'
      refine .inl ⟨[], c', e, _, hread, h.of_onRead hfit hread (fun hopen => ?_) hsettled
        fun hopen => ?_, Nat.le_of_eq List.length_append⟩
      · rw [hclose] at hopen
        cases hopen
      · rw [h'.wantsClose] at hopen
        cases hopen
    | false =>
      have hopened := h.toSettled
      rw [hclose] at hopened
      rcases onRead_spec limits now hopened he hfit with
        ⟨p, m', c', hpass, -, hread, h'⟩ | ⟨hpass, hread⟩
      · have hsettled : c'.Settled p.rest c'.wantsClose := h'.wantsClose ▸ h'
        refine .inl ⟨p.sent, c', p.engine, p.rest, hread,
          h.of_onRead hfit hread (fun _ => ⟨p, hpass, rfl⟩) hsettled fun hopen => ?_, ?_⟩
        · have hfront := front_of_pass hpass
          rw [h'.wantsClose] at hopen
          rw [hopen] at hfront
          exact hfront
        · obtain ⟨consumed, hconsumed⟩ := exists_append_rest hpass
          have hlength := congrArg List.length hconsumed
          rw [List.length_append, List.length_append] at hlength
          exact hlength ▸ Nat.le_add_left _ _
      · exact .inr ⟨rfl, hpass, hread⟩

/-! ## Any events -/

/-- **Any event** leaves a connection tidy. -/
theorem Tidy.call (h : c.Tidy limits waiting) {event : Call} (hallows : c.Allows event) :
    (∃ sent c' rest, c.call limits event = .ok (sent, c') ∧ c'.Tidy limits rest ∧
        rest.length ≤ waiting.length + event.data.length) ∨
      c.call limits event = .error .overflow ∧ ∃ e now got, event = .read e now got ∧
        ∀ n, e.ReachedIn n → 0x8000000000000000 ≤ n + (waiting.length + got.data.length) := by
  cases event with
  | read e now got =>
    obtain ⟨⟨n, he⟩, hfit⟩ := hallows
    obtain ⟨m, hm, -⟩ := he.exists_represents
    rcases h.read hm hfit now with ⟨sent, c', e', rest, hread, h', hlength⟩ | ⟨-, hpass, hread⟩
    · exact .inl ⟨sent, c', rest, by simp [Connection.call, hread], h', hlength⟩
    · refine .inr ⟨by simp [Connection.call, hread], e, now, got, rfl, fun n he => ?_⟩
      obtain ⟨m, hm, hbound⟩ := he.exists_represents
      rcases pass_bounded limits now (waiting ++ got.data) hm hbound with
        ⟨p, hp⟩ | ⟨-, hlarge⟩
      · rw [hp] at hpass
        cases hpass
      · rwa [List.length_append] at hlarge
  | write now =>
    obtain ⟨c', hwrite, h'⟩ := h.write now
    exact .inl ⟨[], c', waiting, hwrite, h', Nat.le_add_right _ _⟩
  | touch now => exact .inl ⟨[], _, waiting, rfl, h.touch now, Nat.le_add_right _ _⟩
  | close => exact .inl ⟨[], _, waiting, rfl, h.close, Nat.le_add_right _ _⟩

/-- **Any events** in turn leave a connection tidy, or overflow. -/
theorem Tidy.run {calls : List Call} : ∀ {c : Connection} {waiting : Bytes},
    c.Tidy limits waiting → Calls.Admissible (Connection.call limits) Allows c calls →
    (∃ answers c' rest, Calls.run (Connection.call limits) c calls = .ok (answers, c') ∧
        c'.Tidy limits rest) ∨
      Calls.run (Connection.call limits) c calls = .error .overflow ∧
        ∃ e now got, Call.read e now got ∈ calls ∧ ∀ n, e.ReachedIn n →
          0x8000000000000000 ≤ n + (waiting.length + (calls.map (·.data.length)).sum) := by
  induction calls with
  | nil => exact fun h _ => .inl ⟨[], _, _, rfl, h⟩
  | cons event calls ih =>
    intro c waiting h hcalls
    obtain ⟨hallows, hcalls⟩ := hcalls
    rw [Calls.run, List.map_cons, List.sum_cons]
    rcases h.call hallows with
      ⟨sent, c₁, rest, hcall, h₁, hlength⟩ | ⟨hcall, e, now, got, rfl, hlarge⟩
    · rw [hcall, ok_bind]
      rcases ih h₁ (hcalls sent c₁ hcall) with
        ⟨answers, c', rest', hrun, h'⟩ | ⟨hrun, e, now, got, hmem, hlarge⟩
      · exact .inl ⟨sent :: answers, c', rest', by simp [hrun], h'⟩
      · refine .inr ⟨by simp [hrun], e, now, got, List.mem_cons_of_mem _ hmem, fun n he => ?_⟩
        have := hlarge n he
        omega
    · refine .inr ⟨by rw [hcall]; rfl, e, now, got, List.mem_cons_self, fun n he => ?_⟩
      have := hlarge n he
      show _ ≤ n + (waiting.length + (got.data.length + _))
      omega

/-- **A connection takes no more memory than it should** after any events, if its socket takes
everything: what waits bounds the store of what was received, nothing is to be sent, and no complete
request waits.  It fails only for more requests than a machine word can count. -/
theorem run_compact (limits : Limits) (start : Nat) {calls : List Call}
    (hcalls : Calls.Admissible (call limits) Allows (opened start) calls) :
    (∃ answers c waiting, Calls.run (call limits) (opened start) calls = .ok (answers, c) ∧
        c.Compact limits waiting) ∨
      Calls.run (call limits) (opened start) calls = .error .overflow ∧ Exhausts calls := by
  rcases (tidy_opened limits start).run hcalls with
    ⟨answers, c, waiting, hrun, h⟩ | ⟨hrun, e, now, got, hmem, hlarge⟩
  · exact .inl ⟨answers, c, waiting, hrun, h.compact⟩
  · refine .inr ⟨hrun, e, now, got, hmem, fun n he => ?_⟩
    have := hlarge n he
    rwa [List.length_nil, Nat.zero_add] at this

/-- Short reads always have room. -/
theorem Tidy.admissible {calls : List Call} : ∀ {c : Connection} {waiting : Bytes},
    c.Tidy limits waiting →
    (∀ e now got, Call.read e now got ∈ calls →
      (∃ n, e.ReachedIn n) ∧ got.data.length ≤ readChunk) →
    Calls.Admissible (Connection.call limits) Allows c calls := by
  induction calls with
  | nil => exact fun _ _ => trivial
  | cons event calls ih =>
    intro c waiting h hsmall
    have hallows : c.Allows event := by
      cases event with
      | read e now got =>
        obtain ⟨he, hlength⟩ := hsmall e now got List.mem_cons_self
        exact ⟨he, h.fits hlength⟩
      | _ => trivial
    refine ⟨hallows, fun sent c' hcall => ?_⟩
    rcases h.call hallows with ⟨sent₁, c₁, rest, hcall₁, h₁, -⟩ | ⟨hcall₁, -⟩
    · cases hcall.symm.trans hcall₁
      exact ih h₁ fun e now got hmem => hsmall e now got (List.mem_cons_of_mem _ hmem)
    · cases hcall.symm.trans hcall₁

/-- Some bytes of a request, and then nothing more to read. -/
theorem run_compact_wouldBlock : ∃ answers c waiting,
    Calls.run (call ⟨64, 8⟩) (opened 0)
      [.read (Engine.ofConfig {}) 7 (.bytes [12, 0, 0, 0, 1, 0]), .write 8,
        .read (Engine.ofConfig {}) 9 .wouldBlock] = .ok (answers, c) ∧
      c.Compact ⟨64, 8⟩ waiting := by
  have hcalls : Calls.Admissible (call ⟨64, 8⟩) Allows (opened 0)
      [.read (Engine.ofConfig {}) 7 (.bytes [12, 0, 0, 0, 1, 0]), .write 8,
        .read (Engine.ofConfig {}) 9 .wouldBlock] := by
    refine (tidy_opened ⟨64, 8⟩ 0).admissible fun e now got hmem => ?_
    simp only [List.mem_cons, Call.read.injEq, reduceCtorEq, List.not_mem_nil, or_false,
      false_or] at hmem
    rcases hmem with ⟨rfl, -, rfl⟩ | ⟨rfl, -, rfl⟩ <;>
      exact ⟨⟨0, Engine.reachedIn_ofConfig {}⟩, by decide⟩
  rcases run_compact ⟨64, 8⟩ 0 hcalls with h | ⟨-, e, now, got, hmem, hlarge⟩
  · exact h
  · simp only [List.mem_cons, Call.read.injEq, reduceCtorEq, List.not_mem_nil, or_false,
      false_or] at hmem
    rcases hmem with ⟨rfl, -, -⟩ | ⟨rfl, -, -⟩ <;>
      exact absurd (hlarge 0 (Engine.reachedIn_ofConfig {})) (by decide)

end Connection

end KeyServer
