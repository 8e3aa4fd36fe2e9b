import KeyServer.Proofs.Engine.Replies
import KeyServer.Proofs.Engine.Sweeping

/-! # Refused requests change nothing

A request is refused if it is no command, if a numeral in it is none, or if its key has a value of
the other kind (`Refuses`).  The key is looked for before that is found out, and looking may move
the table of keys along; but no entry of it is any different then, nor any deadline (`Spares`).

* `find_spares`: this is what looking for a key does.
* **`Represents.execute_refused`**: and a refused request does no more.
* **`ReachedIn.execute_spares`**: the answer is an error just if the request is refused, and then
  the engine is spared.
-/

namespace KeyServer

/-- The key whose sorted set a command asks for. -/
def Command.setKey? : Command → Option Bytes
  | .zadd key _ _ | .zrem key _ | .zscore key _ | .zquery key _ _ _ _ | .zrank key _
  | .zcount key _ _ => some key
  | _ => none

/-! ## Refusals of a plain keyspace -/

namespace Keyspace

variable {m : Keyspace}

theorem isError_onScores_iff {key : Bytes} {answer : Scores → Response}
    (h : ∀ s, (answer s).isError = false) :
    (m.onScores key answer).isError = true ↔ ∃ data, m.lookup key = some (.str data) := by
  cases hv : m.lookup key with
  | none => simp [onScores_none answer hv, h]
  | some v =>
    cases v with
    | str data => simp [onScores_str answer hv, refusal, Response.error, Response.isError]
    | set s => simp [onScores_set answer hv, h]

/-- **Errors** stand for values of the other kind. -/
theorem isError_reply_iff (m : Keyspace) (command : Command) :
    (m.reply command).isError = true ↔
      (∃ key s, command = .get key ∧ m.lookup key = some (.set s)) ∨
        ∃ key data, command.setKey? = some key ∧ m.lookup key = some (.str data) := by
  cases command with
  | get key =>
    cases hv : m.lookup key with
    | none => simp [reply, hv, Command.setKey?, Response.isError]
    | some v => cases v <;> simp [reply, hv, Command.setKey?, refusal, Response.error,
        Response.isError]
  | zadd key score name | zrem key name =>
    rw [reply, isError_onScores_iff fun s => rfl]
    simp [Command.setKey?]
  | zscore key name =>
    rw [reply, isError_onScores_iff fun s => by cases s.lookup name <;> rfl]
    simp [Command.setKey?]
  | zrank key name =>
    rw [reply, isError_onScores_iff fun s => by cases s.sorted.findIdx? (·.name == name) <;> rfl]
    simp [Command.setKey?]
  | zcount key low high | zquery key score name offset limit =>
    rw [reply, isError_onScores_iff fun s => rfl]
    simp [Command.setKey?]
  | _ => simp [reply, flag, Command.setKey?, Response.isError]

/-- What is admitted is an error just if the reply is. -/
theorem Admits.isError_iff {command : Command} {v : Response} (h : m.Admits command v) :
    v.isError = true ↔ (m.reply command).isError = true := by
  cases command with
  | keys =>
    obtain ⟨keys, -, rfl⟩ := h
    simp [reply, Response.isError]
  | pttl key =>
    obtain ⟨-, n, rfl⟩ := h
    simp [reply, Response.isError]
  | _ =>
    obtain rfl : v = _ := h
    exact Iff.rfl

end Keyspace

namespace Engine

/-! ## Refusals -/

/-- Whether a request is refused, and why. -/
inductive Refuses (e : Engine) (args : List Bytes) : CommandError → Prop where
  /-- It is no command, or a numeral in it is none. -/
  | unparsed {r : CommandError} (hparse : Command.parse args = .error r) : Refuses e args r
  /-- It asks for a string where there is a sorted set. -/
  | notString {key : Bytes} {members : SortedSet} (hparse : Command.parse args = .ok (.get key))
      (hvalue : e.ValueIs key (.set members)) : Refuses e args .notString
  /-- It asks for a sorted set where there is a string. -/
  | notSortedSet {command : Command} {key data : Bytes} (hparse : Command.parse args = .ok command)
      (hkey : command.setKey? = some key) (hvalue : e.ValueIs key (.str data)) :
      Refuses e args .notSortedSet

/-- Nothing is any different, but perhaps the table of keys was moved along by one step. -/
structure Spares (e e' : Engine) : Prop where
  /-- The slots have the entries that they had: keys, values and positions of deadlines. -/
  content : e'.keyspace.content = e.keyspace.content
  moved : e'.keyspace = e.keyspace ∨ e.keyspace.help = .ok e'.keyspace
  /-- The deadlines lie where they lay, and the workers have the tasks that they had. -/
  rest : e' = { e with keyspace := e'.keyspace }

variable {e e' : Engine} {m : Keyspace} {args : List Bytes} {now : Nat}

theorem Spares.refl (e : Engine) : e.Spares e := ⟨rfl, .inl rfl, rfl⟩

namespace Represents

variable {key : Bytes}

theorem exists_lookup (h : e.Represents m) {data : Data} (hvalue : e.ValueIs key data) :
    ∃ v, m.lookup key = some v ∧ data.Is v := by
  obtain ⟨i, slot, hi, rfl, rfl⟩ := hvalue
  exact (h.stores.stored i slot hi).2

theorem exists_valueIs (h : e.Represents m) {v : Value} (hv : m.lookup key = some v) :
    ∃ data, e.ValueIs key data ∧ data.Is v := by
  obtain ⟨i, slot, hi, rfl⟩ := h.stores.listed key v hv
  obtain ⟨-, v', hv', hdata⟩ := h.stores.stored i slot hi
  obtain rfl := Option.some_inj.mp (hv'.symm.trans hv)
  exact ⟨_, ⟨i, slot, hi, rfl, rfl⟩, hdata⟩

theorem valueIs_str_iff (h : e.Represents m) {data : Bytes} :
    e.ValueIs key (.str data) ↔ m.lookup key = some (.str data) := by
  constructor
  · intro hvalue
    obtain ⟨_ | _, hv, hdata⟩ := h.exists_lookup hvalue
    · rw [hv, show data = _ from hdata]
    · exact hdata.elim
  · intro hv
    obtain ⟨_ | _, hvalue, hdata⟩ := h.exists_valueIs hv
    · exact (show _ = data from hdata) ▸ hvalue
    · exact hdata.elim

theorem exists_valueIs_set_iff (h : e.Represents m) :
    (∃ members, e.ValueIs key (.set members)) ↔ ∃ s, m.lookup key = some (.set s) := by
  constructor
  · rintro ⟨members, hvalue⟩
    obtain ⟨_ | s, hv, hdata⟩ := h.exists_lookup hvalue
    · exact hdata.elim
    · exact ⟨s, hv⟩
  · rintro ⟨s, hv⟩
    obtain ⟨_ | members, hvalue, hdata⟩ := h.exists_valueIs hv
    · exact hdata.elim
    · exact ⟨members, hvalue⟩

/-- A refusal is answered with its error. -/
theorem eq_refusal (h : e.Represents m) {v : Response} (hv : m.AdmitsRequest args v)
    {r : CommandError} (hr : e.Refuses args r) : v = Keyspace.refusal r := by
  cases hr with
  | unparsed hparse =>
    rw [Keyspace.AdmitsRequest, hparse] at hv
    exact hv
  | notString hparse hvalue =>
    obtain ⟨s, hlookup⟩ := h.exists_valueIs_set_iff.mp ⟨_, hvalue⟩
    rw [Keyspace.AdmitsRequest, hparse] at hv
    rw [show v = m.reply (.get _) from hv, Keyspace.reply, hlookup]
  | @notSortedSet command key data hparse hkey hvalue =>
    have hlookup := h.valueIs_str_iff.mp hvalue
    rw [Keyspace.AdmitsRequest, hparse] at hv
    cases command <;> cases hkey <;> exact Eq.trans hv (Keyspace.onScores_str _ hlookup)

/-- **An error** is answered to nothing but a refused request. -/
theorem exists_refuses (h : e.Represents m) {v : Response} (hv : m.AdmitsRequest args v)
    (herror : v.isError = true) : ∃ r, e.Refuses args r := by
  unfold Keyspace.AdmitsRequest at hv
  split at hv
  · next command hparse =>
    rcases (m.isError_reply_iff command).mp (hv.isError_iff.mp herror) with
      ⟨key, s, rfl, hlookup⟩ | ⟨key, data, hkey, hlookup⟩
    · obtain ⟨members, hvalue⟩ := h.exists_valueIs_set_iff.mpr ⟨s, hlookup⟩
      exact ⟨_, .notString hparse hvalue⟩
    · exact ⟨_, .notSortedSet hparse hkey (h.valueIs_str_iff.mpr hlookup)⟩
  · next r hparse => exact ⟨r, .unparsed hparse⟩

end Represents

/-! ## Looking for a key -/

/-- **Looking for a key** moves the table along. -/
theorem find_spares (hvalid : e.keyspace.Valid) {key : Bytes} {found : Option (Nat × Entry)}
    (h : e.find key = .ok (found, e')) : e.Spares e' := by
  obtain ⟨-, hrest, hcontent⟩ := find_keeps hvalid h
  refine ⟨hcontent, .inr ?_, hrest⟩
  obtain ⟨⟨handle, keyspace⟩, hlookup, h⟩ := bind_eq_ok_iff.mp h
  cases h
  obtain ⟨t, hhelp, h⟩ := bind_eq_ok_iff.mp hlookup
  obtain ⟨r, -, h⟩ := bind_eq_ok_iff.mp h
  cases h
  exact hhelp

theorem findSet_spares (hvalid : e.keyspace.Valid) {key : Bytes}
    {r : Except CommandError (Option (Nat × SortedSet))} (h : e.findSet key = .ok (r, e')) :
    e.Spares e' := by
  obtain ⟨⟨_ | ⟨i, key', data | members, index⟩, e₁⟩, hfind, h⟩ := bind_eq_ok_iff.mp h <;>
    cases h <;> exact find_spares hvalid hfind

/-- A command that asks for a sorted set and finds a string does no more than look. -/
theorem perform_of_findSet {command : Command} {key : Bytes} (hkey : command.setKey? = some key)
    {r : CommandError} (hfind : e.findSet key = .ok (.error r, e')) (q : Buffer) :
    e.perform command now q = do return (← q.writeRefusal r, e') := by
  cases command <;> cases hkey <;>
    simp [perform, zadd, zrem, zscore, zrank, zcount, zquery, hfind]

/-! ## Refused requests -/

/-- **A refused request** changes nothing. -/
theorem Represents.execute_refused (h : e.Represents m) {r : CommandError}
    (hr : e.Refuses args r) (now : Nat) :
    ∃ e', Responds (e.execute args now) (Keyspace.refusal r) e' ∧ e.Spares e' := by
  -- In each case the refusal is all that is written.
  have hresponds : ∀ {e'}, (∀ q, e.execute args now q = do return (← q.writeRefusal r, e')) →
      Responds (e.execute args now) (Keyspace.refusal r) e' := by
    intro e' hrun q data marks hq
    obtain ⟨q', hwrite, hq'⟩ := appends_writeRefusal r hq
    exact ⟨q', by simp [hrun, hwrite], hq'⟩
  cases hr with
  | unparsed hparse => exact ⟨e, hresponds fun q => by rw [execute, hparse], .refl e⟩
  | @notString key members hparse hvalue =>
    obtain ⟨s, hv⟩ := h.exists_valueIs_set_iff.mp ⟨members, hvalue⟩
    obtain ⟨found, e', hfind, -, hnone, hsome⟩ := h.find key
    refine ⟨e', hresponds fun q => ?_, find_spares h.valid hfind⟩
    match found with
    | none =>
      rw [hnone rfl] at hv
      cases hv
    | some (i, ⟨key', .set s', index⟩) =>
      rw [execute, hparse]
      show e.get key q = _
      rw [get, hfind]
      rfl
    | some (i, ⟨key', .str data, index⟩) =>
      obtain ⟨v, -, -, hv', hdata⟩ := hsome i _ rfl
      rw [hv, Option.some_inj] at hv'
      subst hv'
      exact hdata.elim
  | notSortedSet hparse hkey hvalue =>
    have hv := h.valueIs_str_iff.mp hvalue
    obtain ⟨e', -, ⟨data, hfind, -⟩ | ⟨-, hv'⟩ | ⟨i, s, index, items, scores, -, -, hv', -⟩⟩ :=
      h.findSet _
    · refine ⟨e', hresponds fun q => ?_, findSet_spares h.valid hfind⟩
      rw [execute, hparse]
      exact perform_of_findSet hkey hfind q
    · rw [hv] at hv'
      cases hv'
    · rw [hv] at hv'
      cases hv'

/-- **A request that is answered with an error leaves the engine as it was**: all keys have their
values and their deadlines, in the same places, and no key is new.  Whatever is refused is answered
with its error, and nothing else is answered with an error. -/
theorem ReachedIn.execute_spares {n : Nat} (he : e.ReachedIn n) (args : List Bytes) (now : Nat) :
    (∃ v e', (∀ q : Buffer, q.Reachable →
          ∃ q', e.execute args now q = .ok (q', e') ∧ q.Grown v.encode q') ∧
        (∀ r, e.Refuses args r → v = Keyspace.refusal r) ∧
        (v.isError = true → (∃ r, e.Refuses args r) ∧ e.Spares e')) ∨
      (∀ q : Buffer, q.Reachable → e.execute args now q = .error .overflow) ∧
        0x8000000000000000 ≤ n := by
  obtain ⟨m, hm, hbound⟩ := he.exists_represents
  rcases execute_refines hm args now with ⟨v, e', hv, hadmits, -⟩ | ⟨hsize, hoverflow⟩
  · refine .inl ⟨v, e', fun q hq => hv.grown hq, fun r hr => hm.eq_refusal hadmits hr,
      fun herror => ?_⟩
    obtain ⟨r, hr⟩ := hm.exists_refuses hadmits herror
    obtain ⟨e₁, hv₁, hspares⟩ := hm.execute_refused hr now
    -- One buffer is enough to see that both are the state after the request.
    obtain ⟨q', hrun, -⟩ := hv₁ Buffer.holds_empty
    obtain rfl := hv.eq Buffer.holds_empty hrun
    exact ⟨⟨r, hr⟩, hspares⟩
  · refine .inr ⟨fun q hq => ?_, hbound.le_of_oversized hsize⟩
    obtain ⟨bytes, hreads⟩ := hq.exists_reads
    exact hoverflow hreads.holds

/-- The score of a member is asked for where there is a string. -/
theorem ReachedIn.execute_spares_zscore : ∃ e e' : Engine, e.ReachedIn 1 ∧
    (∀ q : Buffer, q.Reachable → ∃ q',
      e.execute [[122, 115, 99, 111, 114, 101], [107], [109]] 7 q = .ok (q', e') ∧
        q.Grown (Keyspace.refusal .notSortedSet).encode q') ∧ e.Spares e' := by
  obtain ⟨e, m, he, hm, -, hlookup⟩ := exists_represents_stored {} [118]
  have hparse : Command.parse [[122, 115, 99, 111, 114, 101], [107], [109]]
      = .ok (.zscore [107] [109]) := rfl
  have hrefuses := Refuses.notSortedSet hparse rfl (hm.valueIs_str_iff.mpr hlookup)
  rcases he.execute_spares [[122, 115, 99, 111, 114, 101], [107], [109]] 7 with
    ⟨v, e', hrun, hrefused, hspares⟩ | ⟨-, hlarge⟩
  · obtain rfl := hrefused _ hrefuses
    exact ⟨e, e', he, hrun, (hspares rfl).2⟩
  · exact absurd hlarge (by decide)

end Engine

end KeyServer
