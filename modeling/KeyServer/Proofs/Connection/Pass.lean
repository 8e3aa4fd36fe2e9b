import KeyServer.Connection
import KeyServer.Proofs.Engine.Refinement
import KeyServer.Proofs.Frame

/-! # One pass over all bytes

What a connection is for, without buffers: `pass` goes through a byte string that is given
whole, answers request after request and stops at the first frame that is incomplete or no
request.  What stands at the front of the bytes (`front`) is known as soon as its own bytes
are there (`front_malformed_append`, `front_request_append`), so

* **`pass_append`**: to pass over two parts together is to pass over the first, and then
  over what that leaves and the second.
-/

namespace KeyServer

namespace Connection

/-! ## The front -/

/-- What stands at the front of received bytes. -/
inductive Front where
  /-- A frame of which bytes are missing. -/
  | incomplete
  /-- A frame that is too long or no request. -/
  | malformed
  /-- A request, and what follows it. -/
  | request (args : List Bytes) (rest : Bytes)

/-- Looks at the first frame: four bytes for the length of its body, and the body. -/
def front (limits : Limits) (d : Bytes) : Front :=
  let length := Bytes.value (d.take 4)
  if d.length < 4 then .incomplete
  else if limits.maxMessageSize < length then .malformed
  else if d.length < 4 + length then .incomplete
  else
    match Request.parse ((d.drop 4).take length) limits.maxArgs with
    | .error _ => .malformed
    | .ok args => .request args (d.drop (4 + length))

section Front

variable {limits : Limits} {d : Bytes}

theorem front_nil (limits : Limits) : front limits [] = .incomplete := rfl

/-- **A request** is a header and a body of the length that the header tells. -/
theorem front_eq_request_iff {args : List Bytes} {rest : Bytes} :
    front limits d = .request args rest ↔
      ∃ header body, d = header ++ (body ++ rest) ∧ header.length = 4 ∧
        body.length = Bytes.value header ∧ body.length ≤ limits.maxMessageSize ∧
        Request.parse body limits.maxArgs = .ok args := by
  constructor
  · intro h
    unfold front at h
    dsimp only at h
    split at h
    · cases h
    · next hheader =>
      split at h
      · cases h
      · next hlong =>
        split at h
        · cases h
        · next hbody =>
          cases hparse : Request.parse ((d.drop 4).take (Bytes.value (d.take 4)))
              limits.maxArgs with
          | error cause =>
            rw [hparse] at h
            cases h
          | ok args' =>
            rw [hparse] at h
            cases h
            have hlength : ((d.drop 4).take (Bytes.value (d.take 4))).length
                = Bytes.value (d.take 4) := by
              rw [List.length_take, List.length_drop]
              omega
            refine ⟨d.take 4, _, ?_, ?_, hlength, by omega, hparse⟩
            · rw [← List.drop_drop, List.take_append_drop, List.take_append_drop]
            · rw [List.length_take]
              omega
  · rintro ⟨header, body, rfl, hheader, hbody, hlong, hparse⟩
    have htake : (header ++ (body ++ rest)).take 4 = header := by rw [← hheader, List.take_left]
    have hdrop : (header ++ (body ++ rest)).drop 4 = body ++ rest := by
      rw [← hheader, List.drop_left]
    unfold front
    dsimp only
    rw [htake, ← hbody, ← List.drop_drop, hdrop, List.take_left, List.drop_left, hparse,
      if_neg (by simp only [List.length_append]; omega), if_neg (by omega),
      if_neg (by simp only [List.length_append]; omega)]

/-- **A malformed frame** has a header that is too large, or a body that is no request. -/
theorem front_eq_malformed_iff :
    front limits d = .malformed ↔
      ∃ header rest, d = header ++ rest ∧ header.length = 4 ∧
        (limits.maxMessageSize < Bytes.value header ∨
          ∃ body rest' cause, rest = body ++ rest' ∧ body.length = Bytes.value header ∧
            Request.parse body limits.maxArgs = .error cause) := by
  constructor
  · intro h
    unfold front at h
    dsimp only at h
    split at h
    · cases h
    · next hheader =>
      refine ⟨d.take 4, d.drop 4, (List.take_append_drop 4 d).symm, ?_, ?_⟩
      · rw [List.length_take]
        omega
      · split at h
        · next hlong => exact .inl hlong
        · split at h
          · cases h
          · next hbody =>
            cases hparse : Request.parse ((d.drop 4).take (Bytes.value (d.take 4)))
                limits.maxArgs with
            | error cause =>
              refine .inr ⟨_, _, cause, (List.take_append_drop _ (d.drop 4)).symm, ?_, hparse⟩
              rw [List.length_take, List.length_drop]
              omega
            | ok args =>
              rw [hparse] at h
              cases h
  · rintro ⟨header, rest, rfl, hheader, hbad⟩
    have htake : (header ++ rest).take 4 = header := by rw [← hheader, List.take_left]
    have hdrop : (header ++ rest).drop 4 = rest := by rw [← hheader, List.drop_left]
    unfold front
    dsimp only
    rw [htake, hdrop, if_neg (by simp only [List.length_append]; omega)]
    rcases hbad with hlong | ⟨body, rest', cause, rfl, hbody, hparse⟩
    · rw [if_pos hlong]
    · rw [← hbody, List.take_left, hparse]
      split
      · rfl
      · rw [if_neg (by simp only [List.length_append]; omega)]

theorem exists_append_of_front {args : List Bytes} {rest : Bytes}
    (h : front limits d = .request args rest) : ∃ frame, d = frame ++ rest ∧ 0 < frame.length := by
  obtain ⟨header, body, rfl, hheader, -⟩ := front_eq_request_iff.mp h
  refine ⟨header ++ body, (List.append_assoc ..).symm, ?_⟩
  rw [List.length_append]
  omega

theorem length_lt_of_front {args : List Bytes} {rest : Bytes}
    (h : front limits d = .request args rest) : rest.length < d.length := by
  obtain ⟨frame, rfl, hframe⟩ := exists_append_of_front h
  rw [List.length_append]
  omega

/-- Induction over the requests at the front of some bytes. -/
@[elab_as_elim]
theorem front_induction (limits : Limits) {P : Bytes → Prop}
    (incomplete : ∀ d, front limits d = .incomplete → P d)
    (malformed : ∀ d, front limits d = .malformed → P d)
    (request : ∀ d args rest, front limits d = .request args rest → P rest → P d) (d : Bytes) :
    P d := by
  induction hn : d.length using Nat.strongRecOn generalizing d with
  | _ n ih =>
    cases hfront : front limits d with
    | incomplete => exact incomplete d hfront
    | malformed => exact malformed d hfront
    | request args rest =>
      have hlt := length_lt_of_front hfront
      exact request d args rest hfront (ih rest.length (hn ▸ hlt) rest rfl)

theorem front_request_append {args : List Bytes} {rest : Bytes}
    (h : front limits d = .request args rest) (b : Bytes) :
    front limits (d ++ b) = .request args (rest ++ b) := by
  obtain ⟨header, body, rfl, hframe⟩ := front_eq_request_iff.mp h
  exact front_eq_request_iff.mpr ⟨header, body, by simp only [List.append_assoc], hframe⟩

theorem front_malformed_append (h : front limits d = .malformed) (b : Bytes) :
    front limits (d ++ b) = .malformed := by
  obtain ⟨header, rest, rfl, hheader, hbad⟩ := front_eq_malformed_iff.mp h
  refine front_eq_malformed_iff.mpr ⟨header, rest ++ b, List.append_assoc .., hheader, ?_⟩
  apply hbad.imp_right
  rintro ⟨body, rest', cause, rfl, hbody⟩
  exact ⟨body, rest' ++ b, cause, List.append_assoc .., hbody⟩

end Front

/-! ## The pass -/

/-- What a pass leaves. -/
structure Passed where
  engine : Engine
  /-- The frames of the replies. -/
  sent : Bytes
  /-- The bytes after the last request that was run. -/
  rest : Bytes
  /-- Whether a malformed frame ended the pass. -/
  closed : Bool

/-- Answers the requests of a byte string, up to a frame that is incomplete or no request. -/
def pass (limits : Limits) (now : Nat) (e : Engine) (d : Bytes) : Except Fault Passed :=
  match h : front limits d with
  | .incomplete => .ok ⟨e, [], d, false⟩
  | .malformed => .ok ⟨e, [], d, true⟩
  | .request args rest => do
    have := length_lt_of_front h
    let (reply, e) ← e.reply args now
    let p ← pass limits now e rest
    return { p with sent := Frame.capped limits.maxMessageSize reply ++ p.sent }
termination_by d.length

section Pass

variable {limits : Limits} {now : Nat} {e : Engine} {d : Bytes}

theorem pass_incomplete (h : front limits d = .incomplete) :
    pass limits now e d = .ok ⟨e, [], d, false⟩ := by
  rw [pass]
  split <;> simp_all

theorem pass_malformed (h : front limits d = .malformed) :
    pass limits now e d = .ok ⟨e, [], d, true⟩ := by
  rw [pass]
  split <;> simp_all

theorem pass_request {args : List Bytes} {rest : Bytes}
    (h : front limits d = .request args rest) :
    pass limits now e d = do
      let (reply, e) ← e.reply args now
      let p ← pass limits now e rest
      return { p with sent := Frame.capped limits.maxMessageSize reply ++ p.sent } := by
  rw [pass]
  split
  · simp_all
  · simp_all
  · next h' =>
    rw [h] at h'
    cases h'
    rfl

/-- What a pass leaves without being closed has no complete frame at its front. -/
theorem front_of_pass {p : Passed} (h : pass limits now e d = .ok p) :
    if p.closed then front limits p.rest = .malformed else front limits p.rest = .incomplete := by
  induction d using front_induction limits generalizing e p with
  | incomplete d hfront =>
    rw [pass_incomplete hfront] at h
    cases h
    simpa using hfront
  | malformed d hfront =>
    rw [pass_malformed hfront] at h
    cases h
    simpa using hfront
  | request d args rest hfront ih =>
    rw [pass_request hfront, bind_eq_ok_iff] at h
    obtain ⟨⟨reply, e'⟩, -, h⟩ := h
    obtain ⟨p', hp', ⟨⟩⟩ := bind_eq_ok_iff.mp h
    have hrest := ih hp'
    exact hrest

/-- A pass leaves an end of the bytes. -/
theorem exists_append_rest {p : Passed} (h : pass limits now e d = .ok p) :
    ∃ consumed, d = consumed ++ p.rest := by
  induction d using front_induction limits generalizing e p with
  | incomplete d hfront =>
    rw [pass_incomplete hfront] at h
    cases h
    exact ⟨[], rfl⟩
  | malformed d hfront =>
    rw [pass_malformed hfront] at h
    cases h
    exact ⟨[], rfl⟩
  | request d args rest hfront ih =>
    rw [pass_request hfront, bind_eq_ok_iff] at h
    obtain ⟨⟨reply, e'⟩, -, h⟩ := h
    obtain ⟨p', hp', ⟨⟩⟩ := bind_eq_ok_iff.mp h
    obtain ⟨frame, rfl, -⟩ := exists_append_of_front hfront
    obtain ⟨consumed, rfl⟩ := ih hp'
    exact ⟨frame ++ consumed, (List.append_assoc ..).symm⟩

/-- **More bytes** only add to a pass that was not closed. -/
theorem pass_append {p : Passed} (h : pass limits now e d = .ok p) (b : Bytes) :
    pass limits now e (d ++ b) =
      if p.closed then .ok { p with rest := p.rest ++ b }
      else do
        let p' ← pass limits now p.engine (p.rest ++ b)
        return { p' with sent := p.sent ++ p'.sent } := by
  induction d using front_induction limits generalizing e p with
  | incomplete d hfront =>
    rw [pass_incomplete hfront] at h
    cases h
    cases pass limits now e (d ++ b) <;> simp
  | malformed d hfront =>
    rw [pass_malformed hfront] at h
    cases h
    rw [pass_malformed (front_malformed_append hfront b)]
    simp
  | request d args rest hfront ih =>
    rw [pass_request hfront, bind_eq_ok_iff] at h
    obtain ⟨⟨reply, e'⟩, hreply, h⟩ := h
    obtain ⟨p', hp', ⟨⟩⟩ := bind_eq_ok_iff.mp h
    rw [pass_request (front_request_append hfront b), hreply, ok_bind]
    dsimp only
    rw [ih hp']
    cases p'.closed with
    | true => simp
    | false => cases pass limits now p'.engine (p'.rest ++ b) <;> simp

theorem pass_append_error {f : Fault} (h : pass limits now e d = .error f) (b : Bytes) :
    pass limits now e (d ++ b) = .error f := by
  induction d using front_induction limits generalizing e with
  | incomplete d hfront =>
    rw [pass_incomplete hfront] at h
    cases h
  | malformed d hfront =>
    rw [pass_malformed hfront] at h
    cases h
  | request d args rest hfront ih =>
    rw [pass_request hfront] at h
    rw [pass_request (front_request_append hfront b)]
    cases hreply : e.reply args now with
    | error f' =>
      rw [hreply] at h
      exact h
    | ok r =>
      obtain ⟨reply, e'⟩ := r
      rw [hreply, ok_bind] at h
      rw [ok_bind]
      dsimp only at h ⊢
      cases hp : pass limits now e' rest with
      | error f' =>
        rw [hp] at h
        cases h
        rw [ih hp]
        rfl
      | ok p =>
        rw [hp] at h
        cases h

/-- **A pass** from an engine that represents a plain keyspace succeeds, or overflows after
as many requests as a machine word can count. -/
theorem pass_bounded (limits : Limits) (now : Nat) (d : Bytes) {m : Keyspace} {n : Nat}
    (h : e.Represents m) (hn : m.Bounded n) :
    (∃ p, pass limits now e d = .ok p) ∨
      pass limits now e d = .error .overflow ∧ 0x8000000000000000 ≤ n + d.length := by
  induction d using front_induction limits generalizing e m n with
  | incomplete d hfront => exact .inl ⟨_, pass_incomplete hfront⟩
  | malformed d hfront => exact .inl ⟨_, pass_malformed hfront⟩
  | request d args rest hfront ih =>
    have hlt := length_lt_of_front hfront
    rw [pass_request hfront]
    rcases Engine.execute_refines h args now with ⟨v, e₁, hv, -, h₁⟩ | ⟨hsize, hoverflow⟩
    · rw [hv.reply, ok_bind]
      dsimp only
      rcases ih h₁ (hn.afterRequest args) with ⟨p, hp⟩ | ⟨hp, hlarge⟩
      · exact .inl ⟨_, by rw [hp]; rfl⟩
      · exact .inr ⟨by rw [hp]; rfl, by omega⟩
    · have := hn.le_of_oversized hsize
      exact .inr ⟨by rw [hoverflow.reply]; rfl, by omega⟩

end Pass

end Connection

end KeyServer
