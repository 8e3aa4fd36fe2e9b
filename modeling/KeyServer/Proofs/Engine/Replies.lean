import KeyServer.Proofs.Buffer.Growth
import KeyServer.Proofs.Engine.Refinement
import KeyServer.Proofs.Response.Decoding

/-! # Replies are single values

Whatever state an engine is in, a request is answered by one value.  The answer is written behind
whatever a buffer holds, between slots that are pending there, and it must not depend on that.

* `Keyspace.depth_le_of_admits`: no answer has arrays in arrays, so all of them can be decoded.
* **`ReachedIn.execute_grows`**: every reachable buffer grows by the encoding of the same value,
  the engine is left in the same state, and the bytes are decoded to the value that a query gives.
-/

namespace KeyServer

/-! ## Depths -/

namespace Response

theorem depths_eq_zero {items : List Response} (h : ∀ v ∈ items, v.depth = 0) :
    depths items = 0 := by
  induction items with
  | nil => rw [depths]
  | cons v items ih =>
    rw [depths, h v List.mem_cons_self, ih fun w hw => h w (List.mem_cons_of_mem v hw),
      Nat.max_self]

theorem depth_arr_le {items : List Response} (h : ∀ v ∈ items, v.depth = 0) :
    (arr items).depth ≤ 1 := by
  rw [depth, depths_eq_zero h]

end Response

theorem depth_listing_le (members : List Member) : (Response.arr (listing members)).depth ≤ 1 := by
  refine Response.depth_arr_le fun v hv => ?_
  obtain ⟨member, -, hmem⟩ := List.mem_flatMap.mp hv
  rcases List.mem_cons.mp hmem with rfl | hmem
  · simp [Response.depth]
  · rw [List.mem_singleton.mp hmem]
    simp [Response.depth]

/-- The answers of a plain keyspace are flat. -/
theorem Keyspace.depth_onScores_le {m : Keyspace} {key : Bytes} {answer : Scores → Response}
    (h : ∀ s, (answer s).depth ≤ 1) : (m.onScores key answer).depth ≤ 1 := by
  unfold onScores
  split
  · exact h _
  · simp [refusal, Response.error, Response.depth]

theorem Keyspace.depth_reply_le (m : Keyspace) (command : Command) :
    (m.reply command).depth ≤ 1 := by
  cases command with
  | get key =>
    rw [reply]
    split <;> simp [Response.depth, refusal, Response.error]
  | keys => exact Response.depth_arr_le (by simp [Response.depth])
  | zadd key score name => exact depth_onScores_le fun s => by simp [flag, Response.depth]
  | zrem key name => exact depth_onScores_le fun s => by simp [flag, Response.depth]
  | zscore key name =>
    refine depth_onScores_le fun s => ?_
    cases s.lookup name <;> simp [Response.depth]
  | zrank key name =>
    refine depth_onScores_le fun s => ?_
    cases s.sorted.findIdx? (·.name == name) <;> simp [Response.depth]
  | zcount key low high => exact depth_onScores_le fun s => by simp [Response.depth]
  | zquery key score name offset limit => exact depth_onScores_le fun s => depth_listing_le _
  | _ => simp [reply, flag, Response.depth]

theorem Keyspace.depth_le_of_admits {m : Keyspace} {args : List Bytes} {v : Response}
    (h : m.AdmitsRequest args v) : v.depth ≤ 1 := by
  unfold AdmitsRequest at h
  split at h
  · next command _ =>
    cases command with
    | keys =>
      obtain ⟨keys, -, rfl⟩ := h
      exact Response.depth_arr_le (by simp [Response.depth])
    | pttl key =>
      obtain ⟨-, n, rfl⟩ := h
      simp [Response.depth]
    | _ =>
      rw [h]
      exact m.depth_reply_le _
  · rw [h]
    simp [refusal, Response.error, Response.depth]

namespace Engine

variable {e e' : Engine} {args : List Bytes} {now : Nat} {v : Response}

/-- A query returns the value that is written. -/
theorem Responds.query (h : Responds (e.execute args now) v e') (hdepth : v.depth ≤ 1)
    (hsized : v.Sized) : e.query args now = .ok (v, e') := by
  obtain ⟨q, hrun, hq⟩ := h Buffer.holds_empty
  have hdecode := Response.decode_encode hsized (Nat.le_trans hdepth (by decide))
  rw [List.nil_append] at hq
  simp [Engine.query, hrun, hq.unread, hdecode]

/-- What is written to a reachable buffer. -/
theorem Responds.grown {run : Buffer → Outcome} (h : Responds run v e') {q : Buffer}
    (hq : q.Reachable) : ∃ q', run q = .ok (q', e') ∧ q.Grown v.encode q' := by
  obtain ⟨m, hm⟩ := hq.exists_reads
  obtain ⟨q', hrun, h'⟩ := h hm.holds
  exact ⟨q', hrun, _, _, _, _, hm.holds.shows, h'.shows⟩

/-- **A request is answered by one value**, which neither what a buffer holds nor where it holds
it has a part in.  It takes a set of more members than a machine word can count to prevent that,
and then it is prevented on every buffer. -/
theorem ReachedIn.execute_grows {n : Nat} (he : e.ReachedIn n) (args : List Bytes) (now : Nat) :
    (∃ v e', (∀ q : Buffer, q.Reachable →
          ∃ q', e.execute args now q = .ok (q', e') ∧ q.Grown v.encode q') ∧
        (v.Sized → Response.decode v.encode = .ok v ∧ e.query args now = .ok (v, e'))) ∨
      (∀ q : Buffer, q.Reachable → e.execute args now q = .error .overflow) ∧
        0x8000000000000000 ≤ n := by
  obtain ⟨m, hm, hbound⟩ := he.exists_represents
  rcases execute_refines hm args now with ⟨v, e', hv, hadmits, -⟩ | ⟨hsize, hoverflow⟩
  · have hdepth := Keyspace.depth_le_of_admits hadmits
    refine .inl ⟨v, e', fun q hq => hv.grown hq, fun hsized => ⟨?_, hv.query hdepth hsized⟩⟩
    exact Response.decode_encode hsized (Nat.le_trans hdepth (by decide))
  · refine .inr ⟨fun q hq => ?_, hbound.le_of_oversized hsize⟩
    obtain ⟨bytes, hreads⟩ := hq.exists_reads
    exact hoverflow hreads.holds

/-- The request for all keys of a new engine. -/
theorem ReachedIn.execute_grows_keys :
    ∃ v e', (∀ q : Buffer, q.Reachable →
        ∃ q', (ofConfig {}).execute [[107, 101, 121, 115]] 7 q = .ok (q', e') ∧
          q.Grown v.encode q') ∧
      (v.Sized → Response.decode v.encode = .ok v ∧
        (ofConfig {}).query [[107, 101, 121, 115]] 7 = .ok (v, e')) := by
  rcases (reachedIn_ofConfig {}).execute_grows [[107, 101, 121, 115]] 7 with h | ⟨-, hlarge⟩
  · exact h
  · exact absurd hlarge (by decide)

end Engine

end KeyServer
