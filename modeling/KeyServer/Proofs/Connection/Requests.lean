import KeyServer.Proofs.Connection.Pass
import KeyServer.Proofs.Engine.Correspondence

/-! # The requests in received bytes

What a client asks for depends on its bytes alone: `requests` lists the requests at the front of
some bytes, up to a frame that is incomplete or no request, and `remainder` is what is left.

* **`exists_exchanges_of_pass`**: a pass over some bytes lets exactly these requests happen to the
  engine, one after the other, and sends the frames of the replies.
* **`requests_append`**: more bytes add the requests that they complete.
-/

namespace KeyServer.Connection

/-- The requests at the front of some bytes. -/
def requests (limits : Limits) (d : Bytes) : List (List Bytes) :=
  match h : front limits d with
  | .incomplete | .malformed => []
  | .request args rest =>
    have := length_lt_of_front h
    args :: requests limits rest
termination_by d.length

/-- The bytes after the last request. -/
def remainder (limits : Limits) (d : Bytes) : Bytes :=
  match h : front limits d with
  | .incomplete | .malformed => d
  | .request _ rest =>
    have := length_lt_of_front h
    remainder limits rest
termination_by d.length

variable {limits : Limits} {d rest : Bytes} {args : List Bytes}

section Front

theorem requests_incomplete (h : front limits d = .incomplete) : requests limits d = [] := by
  rw [requests]
  split <;> simp_all

theorem requests_malformed (h : front limits d = .malformed) : requests limits d = [] := by
  rw [requests]
  split <;> simp_all

theorem requests_request (h : front limits d = .request args rest) :
    requests limits d = args :: requests limits rest := by
  rw [requests]
  split <;> simp_all

theorem remainder_incomplete (h : front limits d = .incomplete) : remainder limits d = d := by
  rw [remainder]
  split <;> simp_all

theorem remainder_malformed (h : front limits d = .malformed) : remainder limits d = d := by
  rw [remainder]
  split <;> simp_all

theorem remainder_request (h : front limits d = .request args rest) :
    remainder limits d = remainder limits rest := by
  rw [remainder]
  split <;> simp_all

end Front

@[simp] theorem requests_nil (limits : Limits) : requests limits [] = [] :=
  requests_incomplete (front_nil limits)

@[simp] theorem remainder_nil (limits : Limits) : remainder limits [] = [] :=
  remainder_incomplete (front_nil limits)

/-- Every request takes some bytes. -/
theorem length_requests_add_le (limits : Limits) (d : Bytes) :
    (requests limits d).length + (remainder limits d).length ≤ d.length := by
  induction d using front_induction limits with
  | incomplete d hfront => simp [requests_incomplete hfront, remainder_incomplete hfront]
  | malformed d hfront => simp [requests_malformed hfront, remainder_malformed hfront]
  | request d args rest hfront ih =>
    have hlt := length_lt_of_front hfront
    rw [requests_request hfront, remainder_request hfront, List.length_cons]
    omega

/-- **More bytes** complete the frame that is left over, and perhaps others. -/
theorem requests_append (b : Bytes) (h : front limits (remainder limits d) = .incomplete) :
    requests limits (d ++ b) = requests limits d ++ requests limits (remainder limits d ++ b) ∧
      remainder limits (d ++ b) = remainder limits (remainder limits d ++ b) := by
  induction d using front_induction limits with
  | incomplete d hfront => simp [requests_incomplete hfront, remainder_incomplete hfront]
  | malformed d hfront =>
    rw [remainder_malformed hfront, hfront] at h
    cases h
  | request d args rest hfront ih =>
    have hfront' := front_request_append hfront b
    rw [remainder_request hfront] at h ⊢
    rw [requests_request hfront, requests_request hfront', remainder_request hfront']
    exact ⟨by rw [(ih h).1, List.cons_append], (ih h).2⟩

/-! ## Passing over them -/

variable {now : Nat} {e : Engine} {p : Passed}

/-- **A pass** lets the requests happen one after the other and sends the frames of the replies. -/
theorem exists_exchanges_of_pass (h : pass limits now e d = .ok p) :
    ∃ exchanges : List (List Bytes × Bytes), exchanges.map (·.1) = requests limits d ∧
      e.run (exchanges.map fun x => .request x.1 now) = .ok (exchanges.map (·.2), p.engine) ∧
      p.sent = exchanges.flatMap (Frame.capped limits.maxMessageSize ·.2) ∧
      p.rest = remainder limits d := by
  induction d using front_induction limits generalizing e p with
  | incomplete d hfront =>
    rw [pass_incomplete hfront] at h
    cases h
    exact ⟨[], (requests_incomplete hfront).symm, rfl, rfl, (remainder_incomplete hfront).symm⟩
  | malformed d hfront =>
    rw [pass_malformed hfront] at h
    cases h
    exact ⟨[], (requests_malformed hfront).symm, rfl, rfl, (remainder_malformed hfront).symm⟩
  | request d args rest hfront ih =>
    rw [pass_request hfront, bind_eq_ok_iff] at h
    obtain ⟨⟨reply, e'⟩, hreply, h⟩ := h
    obtain ⟨p', hp', ⟨⟩⟩ := bind_eq_ok_iff.mp h
    obtain ⟨exchanges, hrequests, hrun, hsent, hrest⟩ := ih hp'
    refine ⟨(args, reply) :: exchanges, ?_, ?_, ?_, ?_⟩
    · rw [List.map_cons, hrequests, requests_request hfront]
    · simp [Engine.run, hreply, hrun]
    · rw [List.flatMap_cons, hsent]
    · rw [remainder_request hfront, hrest]

/-- A pass is closed exactly if what it leaves is no request. -/
theorem front_remainder_of_pass (h : pass limits now e d = .ok p) :
    front limits (remainder limits d) = if p.closed then .malformed else .incomplete := by
  obtain ⟨-, -, -, -, hrest⟩ := exists_exchanges_of_pass h
  have hfront := front_of_pass h
  rw [← hrest]
  cases hclosed : p.closed with
  | true => simpa [hclosed] using hfront
  | false => simpa [hclosed] using hfront

end KeyServer.Connection
