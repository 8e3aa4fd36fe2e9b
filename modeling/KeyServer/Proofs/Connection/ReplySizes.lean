import KeyServer.Proofs.Config
import KeyServer.Proofs.Connection.Pipelining

/-! # How long replies get

A reply with a body that is longer than the configuration allows gives way to an error, which is
sent whatever its own length.  So the longest body that may be sent is the longest one allowed, or
the error if that is longer; and a configuration may allow less than the error takes.

* **`le_of_answersWithin`**: bodies of this length are sent.
* **`answersWithin_maxMessageSize_iff`**: every reply is as short as the configuration says just if
  the error is.
-/

namespace KeyServer

namespace Config

variable {config : Config} {bound : Nat}

/-- Whether every request is answered with a frame whose body is not longer than a bound, and that a
client accepts who reads no longer ones, in every state that an engine comes to before there are
more events than machine words can count. -/
def AnswersWithin (config : Config) (bound : Nat) : Prop :=
  ∀ (e : Engine) (n : Nat) (args : List Bytes) (now : Nat) (out : Buffer) (sent : Bytes),
    e.ReachedIn n → n < 0x8000000000000000 → out.Holds sent [] →
    ∃ out' e' body, Connection.answer e config.limits now args out = .ok (out', e') ∧
      out'.Holds (sent ++ Frame.encode body) [] ∧ body.length ≤ bound ∧
      ∀ rest, ∃ v, Frame.readResponse (Frame.encode body ++ rest) bound = (.ok v, rest)

/-- **No body is longer** than what is allowed, or than the error. -/
theorem Good.answersWithin (h : config.Good) (hmax : config.maxMessageSize ≤ bound)
    (herror : Response.tooBigLength ≤ bound) : config.AnswersWithin bound := by
  intro e n args now out sent he hn hout
  obtain ⟨m, hm, hbound⟩ := he.exists_represents
  rcases Engine.execute_refines hm args now with ⟨v, e', hv, hadmits, -⟩ | ⟨hsize, -⟩
  · obtain ⟨out', hanswer, hout'⟩ := Connection.answer_spec config.limits hv hout
    rw [Frame.capped_encode] at hout'
    have hlength := Response.length_encode_capped config.maxMessageSize v
    have hsized := h.maxMessageSize_lt
    have hle : (v.capped config.maxMessageSize).encode.length ≤ bound ∧
        (v.capped config.maxMessageSize).encode.length < 0x100000000 := by
      rw [hlength]
      split
      · exact ⟨herror, by decide⟩
      · omega
    have hdepth := Connection.depth_capped_le config.maxMessageSize
      (Keyspace.depth_le_of_admits hadmits)
    refine ⟨out', e', _, hanswer, hout', hle.1, fun rest => ⟨v.capped config.maxMessageSize, ?_⟩⟩
    exact Frame.readResponse_encode rest hle.1 hle.2 (Nat.le_trans hdepth (by decide))
  · exact absurd (hbound.le_of_oversized hsize) (Nat.not_le.mpr hn)

/-- A string that is stored is read, however long it is. -/
theorem exists_stored (config : Config) (data : Bytes) : ∃ e e' : Engine, e.ReachedIn 1 ∧
    Engine.Responds (e.execute [[103, 101, 116], [107]] 0) (.str data) e' := by
  have hget : Command.parse [[103, 101, 116], [107]] = .ok (.get [107]) := rfl
  obtain ⟨e, m, hreached, he, hbound, hlookup⟩ := Engine.exists_represents_stored config data
  rcases Engine.execute_refines he [[103, 101, 116], [107]] 0 with
    ⟨v, e', hv, hadmits, -⟩ | ⟨hsize, -⟩
  · have hstr : v = .str data := by
      rw [Keyspace.AdmitsRequest, hget] at hadmits
      simpa only [Keyspace.Admits, Keyspace.reply, hlookup] using hadmits
    exact ⟨e, e', hreached, hstr ▸ hv⟩
  · exact absurd (hbound.le_of_oversized hsize) (by simp)

theorem exists_reply_length (config : Config) {n : Nat} (hn : 5 ≤ n) :
    ∃ (v : Response) (e e' : Engine), v.encode.length = n ∧ e.ReachedIn 1 ∧
      Engine.Responds (e.execute [[103, 101, 116], [107]] 0) v e' := by
  obtain ⟨e, e', he, hv⟩ := exists_stored config (List.replicate (n - 5) 0)
  refine ⟨_, e, e', ?_, he, hv⟩
  rw [Response.encode, List.length_cons, Bytes.sized, List.length_append, Bytes.length_littleEndian,
    List.length_replicate]
  omega

/-- **Bodies of this length** are sent. -/
theorem le_of_answersWithin (h : config.AnswersWithin bound) :
    config.maxMessageSize ≤ bound ∧ Response.tooBigLength ≤ bound := by
  have hfive : 5 ≤ max config.maxMessageSize Response.tooBigLength :=
    Nat.le_trans (by decide) (Nat.le_max_right _ _)
  obtain ⟨v, e, e', hlength, he, hv⟩ := exists_reply_length config hfive
  obtain ⟨out, e₁, body, hanswer, hout, hle, -⟩ :=
    h e 1 _ 0 Buffer.empty [] he (by decide) Buffer.holds_empty
  obtain ⟨out', hanswer', hout'⟩ := Connection.answer_spec config.limits hv Buffer.holds_empty
  cases hanswer.symm.trans hanswer'
  rw [Frame.capped_encode, limits] at hout'
  have hbody : body.length = (v.capped config.maxMessageSize).encode.length := by
    have hframes := congrArg List.length (Except.ok.inj (hout.unread.symm.trans hout'.unread))
    simpa [Frame.encode, Bytes.sized] using hframes
  -- Either that reply is sent, or the error is because the reply is as long as the error.
  rw [Response.length_encode_capped, hlength] at hbody
  split at hbody <;> omega

/-- **Every reply is as short as the configuration says** just if the error is that stands for
replies that are too long.  A client that reads no longer bodies accepts every reply then. -/
theorem answersWithin_maxMessageSize_iff (h : config.validate = .ok ()) :
    config.AnswersWithin config.maxMessageSize ↔ 28 ≤ config.maxMessageSize := by
  constructor
  · exact fun hwithin => (le_of_answersWithin hwithin).2
  · exact (validate_eq_ok_iff.mp h).answersWithin (Nat.le_refl _)

/-- With the default limit. -/
theorem answersWithin_by_default :
    ({} : Config).validate = .ok () ∧ ({} : Config).AnswersWithin 33554432 :=
  ⟨rfl, (answersWithin_maxMessageSize_iff rfl).mpr (by decide)⟩

/-- With the least limit that a configuration may give, even the reply to an empty request is
longer, and a client that keeps to the limit refuses it. -/
theorem least_limit_exceeded :
    ({ maxMessageSize := 4 } : Config).validate = .ok () ∧
      (do
        let (out, _) ← Connection.answer (Engine.ofConfig { maxMessageSize := 4 })
          (Config.limits { maxMessageSize := 4 }) 0 [] Buffer.empty
        out.unread) = .ok (Frame.encode (Response.error .tooBig "response is too big").encode) ∧
      (Frame.readResponse (Frame.encode (Response.error .tooBig "response is too big").encode) 4).1
        = .error (.messageTooLarge 28 4) := by
  refine ⟨rfl, ?_, ?_⟩
  · decide +kernel
  · rfl

end Config

end KeyServer
