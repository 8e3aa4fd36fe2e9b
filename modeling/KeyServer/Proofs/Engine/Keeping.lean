import KeyServer.Proofs.Engine.SetCommands
import KeyServer.Proofs.Engine.Timing

/-! # What commands do to deadlines

Only two commands change a deadline or remove a key: `pexpire_timed` and `del_timed` say how.
All others leave the deadlines alone, whatever they answer (`perform_keeps`), and `pttl_timed`
tells what the question for a deadline is answered.  No command changes the limit of sweeps
(`perform_limit`).

* **`Timed.perform`** sums up what any command leaves.
-/

namespace KeyServer

namespace Engine

variable {e e' : Engine}

/-! ## Commands that leave deadlines alone -/

theorem find_keeps (hvalid : e.keyspace.Valid) {key : Bytes} {found : Option (Nat × Entry)}
    (h : e.find key = .ok (found, e')) :
    e.Keeps e' ∧ e' = { e with keyspace := e'.keyspace } ∧
      e'.keyspace.content = e.keyspace.content := by
  obtain ⟨r, t', hlookup, hvalid', hcontent, -⟩ :=
    hvalid.lookup (hashBytes key) (·.key == key)
  simp only [find, hlookup, ok_bind, pure_eq_ok] at h
  cases h
  exact ⟨⟨hvalid', rfl, rfl, fun i slot hi => ⟨slot, hcontent ▸ hi, rfl⟩⟩, rfl, hcontent⟩

theorem add_keeps (hvalid : e.keyspace.Valid) {key : Bytes} {data : Data}
    (h : e.add key data = .ok e') : e.Keeps e' := by
  obtain ⟨i, t', hinsert, hvalid', hfree, hcontent, -⟩ :=
    hvalid.insert (hashBytes key) ⟨key, data, none⟩
  simp only [add, hinsert, ok_bind, pure_eq_ok] at h
  cases h
  refine ⟨hvalid', rfl, rfl, fun j slot hj => ⟨slot, ?_, rfl⟩⟩
  rw [hcontent, Function.update_of_ne, hj]
  rintro rfl
  rw [hfree] at hj
  cases hj

theorem setData_keeps (hvalid : e.keyspace.Valid) (i : Nat) (data : Data) :
    e.Keeps (e.setData i data) := by
  obtain ⟨hvalid', hcontent⟩ := hvalid.modify i fun entry => { entry with data }
  refine ⟨hvalid', rfl, rfl, fun j slot hj => ?_⟩
  rw [setData, hcontent, Function.update_apply]
  split
  · next heq =>
    rw [← heq, hj]
    exact ⟨_, rfl, rfl⟩
  · exact ⟨slot, hj, rfl⟩

theorem dispose_keeps (hvalid : e.keyspace.Valid) (data : Data) : e.Keeps (e.dispose data) where
  valid := by simpa using hvalid
  deadlines := dispose_deadlines e data
  limit := dispose_limit e data
  slots := fun i slot hi => ⟨slot, by simpa using hi, rfl⟩

theorem findSet_keeps (hvalid : e.keyspace.Valid) {key : Bytes}
    {r : Except CommandError (Option (Nat × SortedSet))} (h : e.findSet key = .ok (r, e')) :
    e.Keeps e' := by
  obtain ⟨⟨_ | ⟨i, key', data | members, index⟩, e₁⟩, hfind, h⟩ := bind_eq_ok_iff.mp h <;>
    cases h <;> exact (find_keeps hvalid hfind).1

theorem findMember_keeps (hvalid : e.keyspace.Valid) {i : Nat} {members members' : SortedSet}
    {name : Bytes} {id : Option Nat} (h : e.findMember i members name = .ok (id, members', e')) :
    e.Keeps e' := by
  obtain ⟨⟨found, members₁⟩, -, h⟩ := bind_eq_ok_iff.mp h
  cases h
  exact setData_keeps hvalid i _

/-- Writing an answer changes no engine. -/
theorem eq_of_write {write : Except Fault Buffer} {q' : Buffer}
    (h : (do return (← write, e)) = Except.ok (q', e')) : e' = e := by
  obtain ⟨q, -, h⟩ := bind_eq_ok_iff.mp h
  cases h
  rfl

section Commands

variable (hvalid : e.keyspace.Valid) {key name : Bytes} {q q' : Buffer}

include hvalid

theorem get_keeps (h : e.get key q = .ok (q', e')) : e.Keeps e' := by
  obtain ⟨⟨_ | ⟨i, key', data | members, index⟩, e₁⟩, hfind, h⟩ := bind_eq_ok_iff.mp h <;>
    exact eq_of_write h ▸ (find_keeps hvalid hfind).1

theorem set_keeps {data : Bytes} (h : e.set key data q = .ok (q', e')) : e.Keeps e' := by
  obtain ⟨⟨_ | ⟨i, entry⟩, e₁⟩, hfind, h⟩ := bind_eq_ok_iff.mp h
  · have hfound := (find_keeps hvalid hfind).1
    obtain ⟨e₂, hadd, h⟩ := bind_eq_ok_iff.mp h
    exact eq_of_write h ▸ hfound.trans (add_keeps hfound.valid hadd)
  · have hfound := (find_keeps hvalid hfind).1
    have hset := setData_keeps hfound.valid i (.str data)
    exact eq_of_write h ▸ (hfound.trans hset).trans (dispose_keeps hset.valid entry.data)

theorem keys_keeps (h : e.keys q = .ok (q', e')) : e.Keeps e' := by
  obtain ⟨entries, -, h⟩ := bind_eq_ok_iff.mp h
  obtain ⟨q₁, -, h⟩ := bind_eq_ok_iff.mp h
  obtain rfl := eq_of_write h
  exact .refl hvalid

theorem zadd_keeps {score : Double} (h : e.zadd key score name q = .ok (q', e')) :
    e.Keeps e' := by
  obtain ⟨⟨refusal | _ | ⟨i, members⟩, e₁⟩, hfind, h⟩ := bind_eq_ok_iff.mp h
  · exact eq_of_write h ▸ findSet_keeps hvalid hfind
  · have hfound := findSet_keeps hvalid hfind
    obtain ⟨⟨isNew, members⟩, -, h⟩ := bind_eq_ok_iff.mp h
    obtain ⟨e₂, hadd, h⟩ := bind_eq_ok_iff.mp h
    exact eq_of_write h ▸ hfound.trans (add_keeps hfound.valid hadd)
  · have hfound := findSet_keeps hvalid hfind
    obtain ⟨⟨isNew, members⟩, -, h⟩ := bind_eq_ok_iff.mp h
    exact eq_of_write h ▸ hfound.trans (setData_keeps hfound.valid i _)

theorem zrem_keeps (h : e.zrem key name q = .ok (q', e')) : e.Keeps e' := by
  obtain ⟨⟨refusal | _ | ⟨i, members⟩, e₁⟩, hfind, h⟩ := bind_eq_ok_iff.mp h
  · exact eq_of_write h ▸ findSet_keeps hvalid hfind
  · exact eq_of_write h ▸ findSet_keeps hvalid hfind
  · have hfound := findSet_keeps hvalid hfind
    obtain ⟨⟨_ | id, members₁, e₂⟩, hmember, h⟩ := bind_eq_ok_iff.mp h
    · exact eq_of_write h ▸ hfound.trans (findMember_keeps hfound.valid hmember)
    · have hlooked := hfound.trans (findMember_keeps hfound.valid hmember)
      obtain ⟨⟨m, members₂⟩, -, h⟩ := bind_eq_ok_iff.mp h
      exact eq_of_write h ▸ hlooked.trans (setData_keeps hlooked.valid i _)

theorem zscore_keeps (h : e.zscore key name q = .ok (q', e')) : e.Keeps e' := by
  obtain ⟨⟨refusal | _ | ⟨i, members⟩, e₁⟩, hfind, h⟩ := bind_eq_ok_iff.mp h
  · exact eq_of_write h ▸ findSet_keeps hvalid hfind
  · exact eq_of_write h ▸ findSet_keeps hvalid hfind
  · have hfound := findSet_keeps hvalid hfind
    obtain ⟨⟨_ | id, members₁, e₂⟩, hmember, h⟩ := bind_eq_ok_iff.mp h
    · exact eq_of_write h ▸ hfound.trans (findMember_keeps hfound.valid hmember)
    · obtain ⟨m, -, h⟩ := bind_eq_ok_iff.mp h
      exact eq_of_write h ▸ hfound.trans (findMember_keeps hfound.valid hmember)

theorem zrank_keeps (h : e.zrank key name q = .ok (q', e')) : e.Keeps e' := by
  obtain ⟨⟨refusal | _ | ⟨i, members⟩, e₁⟩, hfind, h⟩ := bind_eq_ok_iff.mp h
  · exact eq_of_write h ▸ findSet_keeps hvalid hfind
  · exact eq_of_write h ▸ findSet_keeps hvalid hfind
  · have hfound := findSet_keeps hvalid hfind
    obtain ⟨⟨_ | id, members₁, e₂⟩, hmember, h⟩ := bind_eq_ok_iff.mp h
    · exact eq_of_write h ▸ hfound.trans (findMember_keeps hfound.valid hmember)
    · obtain ⟨n, -, h⟩ := bind_eq_ok_iff.mp h
      exact eq_of_write h ▸ hfound.trans (findMember_keeps hfound.valid hmember)

theorem zcount_keeps {low high : Double × Bytes}
    (h : e.zcount key low high q = .ok (q', e')) : e.Keeps e' := by
  obtain ⟨⟨refusal | _ | ⟨i, members⟩, e₁⟩, hfind, h⟩ := bind_eq_ok_iff.mp h
  · exact eq_of_write h ▸ findSet_keeps hvalid hfind
  · exact eq_of_write h ▸ findSet_keeps hvalid hfind
  · obtain ⟨n, -, h⟩ := bind_eq_ok_iff.mp h
    exact eq_of_write h ▸ findSet_keeps hvalid hfind

theorem zquery_keeps {score : Double} {offset limit : Int}
    (h : e.zquery key score name offset limit q = .ok (q', e')) : e.Keeps e' := by
  obtain ⟨⟨refusal | found, e₁⟩, hfind, h⟩ := bind_eq_ok_iff.mp h
  · exact eq_of_write h ▸ findSet_keeps hvalid hfind
  · obtain ⟨q₁, -, h⟩ := bind_eq_ok_iff.mp h
    have hfound := findSet_keeps hvalid hfind
    cases found with
    | none => exact eq_of_write h ▸ hfound
    | some found =>
      obtain ⟨start, -, h⟩ := bind_eq_ok_iff.mp h
      obtain ⟨⟨pairs, q₂⟩, -, h⟩ := bind_eq_ok_iff.mp h
      exact eq_of_write h ▸ hfound

theorem pttl_keeps {now : Nat} (h : e.pttl key now q = .ok (q', e')) : e.Keeps e' := by
  obtain ⟨⟨_ | ⟨i, key', data, _ | p⟩, e₁⟩, hfind, h⟩ := bind_eq_ok_iff.mp h
  · exact eq_of_write h ▸ (find_keeps hvalid hfind).1
  · exact eq_of_write h ▸ (find_keeps hvalid hfind).1
  · dsimp only at h
    split at h
    · exact eq_of_write h ▸ (find_keeps hvalid hfind).1
    · cases h

/-- **Only two commands** do anything to deadlines. -/
theorem perform_keeps {command : Command} {now : Nat}
    (hpexpire : ∀ key ttl, command ≠ .pexpire key ttl) (hdel : ∀ key, command ≠ .del key)
    (h : e.perform command now q = .ok (q', e')) : e.Keeps e' := by
  cases command with
  | get key => exact get_keeps hvalid h
  | set key data => exact set_keeps hvalid h
  | del key => exact absurd rfl (hdel key)
  | keys => exact keys_keeps hvalid h
  | pexpire key ttl => exact absurd rfl (hpexpire key ttl)
  | pttl key => exact pttl_keeps hvalid h
  | zadd key score name => exact zadd_keeps hvalid h
  | zrem key name => exact zrem_keeps hvalid h
  | zscore key name => exact zscore_keeps hvalid h
  | zquery key score name offset limit => exact zquery_keeps hvalid h
  | zrank key name => exact zrank_keeps hvalid h
  | zcount key low high => exact zcount_keeps hvalid h

/-- **No command** changes the limit of sweeps. -/
theorem perform_limit {command : Command} {now : Nat}
    (h : e.perform command now q = .ok (q', e')) :
    e'.maxExpirationsPerSweep = e.maxExpirationsPerSweep := by
  cases command with
  | pexpire key ttl =>
    obtain ⟨⟨_ | ⟨i, entry⟩, e₁⟩, hfind, h⟩ := bind_eq_ok_iff.mp h
    · exact eq_of_write h ▸ (find_keeps hvalid hfind).1.limit
    · exact eq_of_write h ▸ (setTtl_limit _ _ _ _ _).trans (find_keeps hvalid hfind).1.limit
  | del key =>
    obtain ⟨⟨_ | entry, keyspace⟩, -, h⟩ := bind_eq_ok_iff.mp h
    · obtain rfl := eq_of_write h
      rfl
    · exact eq_of_write h ▸ discard_limit _ entry
  | _ => exact (perform_keeps hvalid (by simp) (by simp) h).limit

end Commands

end Engine

/-! ## How deadlines change -/

/-- How long a command lets a key live. -/
def Command.ttl? (key : Bytes) : Command → Option Int
  | .pexpire key' ttl => if key' = key then some ttl else none
  | _ => none

namespace Engine

/-- Some keys come and some go.  The new ones have no deadline; the old ones keep theirs
unless they are given another, which is told by a time to live and the time it counts from. -/
structure Carries (given : Bytes → Option (Int × Nat)) (m : Keyspace) (d : Bytes → Option Nat)
    (m' : Keyspace) (d' : Bytes → Option Nat) : Prop where
  new : ∀ key ∈ m', key ∉ m → d' key = none
  old : ∀ key ∈ m', key ∈ m → d' key = (given key).elim (d key) fun r => deadlineFor r.1 r.2

/-- What a command gives at some time. -/
def givenBy (command : Command) (now : Nat) (key : Bytes) : Option (Int × Nat) :=
  (command.ttl? key).map fun ttl => (ttl, now)

variable {e e' : Engine} {m : Keyspace} {d : Bytes → Option Nat}

theorem Timed.carries_self (h : e.Timed m d) {given : Bytes → Option (Int × Nat)} {m' : Keyspace}
    (hgiven : ∀ key ∈ m', key ∈ m → given key = none) : Carries given m d m' d where
  new key _ hkey := h.gone key hkey
  old key hkey' hkey := by rw [hgiven key hkey' hkey, Option.elim_none]

/-- **Finding** the entry of a key. -/
theorem Timed.find (h : e.Timed m d) (key : Bytes) :
    ∃ found e', e.find key = .ok (found, e') ∧ e'.Timed m d ∧
      (e' = { e with keyspace := e'.keyspace } ∧ e'.keyspace.content = e.keyspace.content) ∧
      (found = none → m.lookup key = none) ∧
      ∀ i entry, found = some (i, entry) → entry.key = key ∧ (m.lookup key).isSome ∧
        e'.keyspace.content i = some ⟨hashBytes key, entry⟩ := by
  obtain ⟨found, e', hfind, h', hnone, hsome⟩ := h.represents.find key
  obtain ⟨hkeeps, hsame⟩ := find_keeps h.represents.valid hfind
  refine ⟨found, e', hfind, h.keep hkeeps h', hsame, hnone, ?_⟩
  intro i entry hfound
  obtain ⟨v, hi, hkey, hv, -⟩ := hsome i entry hfound
  exact ⟨hkey, by rw [hv, Option.isSome_some], hi⟩

/-- **A deadline is set** if the key is there, and nothing happens otherwise. -/
theorem pexpire_timed (h : e.Timed m d) (key : Bytes) (ttl : Int) (now : Nat) :
    ∃ e' d', Responds (e.pexpire key ttl now) (Keyspace.flag (m.lookup key).isSome) e' ∧
      e'.Timed m d' ∧ Carries (givenBy (.pexpire key ttl) now) m d m d' ∧
      (m.lookup key = none →
        e' = { e with keyspace := e'.keyspace } ∧ e'.keyspace.content = e.keyspace.content) := by
  obtain ⟨found, e₁, hfind, h₁, hsame, hnone, hsome⟩ := h.find key
  have hresponds : ∀ {b e₂}, (∀ q, e.pexpire key ttl now q = do return (← writeFlag q b, e₂)) →
      Responds (e.pexpire key ttl now) (Keyspace.flag b) e₂ := by
    intro b e₂ hrun q data marks hq
    obtain ⟨q', hq', hholds⟩ := appends_writeFlag b hq
    exact ⟨q', by simp [hrun, hq'], hholds⟩
  cases found with
  | none =>
    have hmiss := hnone rfl
    refine ⟨e₁, d, hresponds fun q => ?_, h₁, h.carries_self fun key' hkey' _ => ?_,
      fun _ => hsame⟩
    · rw [hmiss, pexpire, hfind]
      rfl
    · rw [← AList.lookup_isSome] at hkey'
      have hne : key ≠ key' := by
        rintro rfl
        rw [hmiss] at hkey'
        cases hkey'
      rw [givenBy, Command.ttl?, if_neg hne, Option.map_none]
  | some found =>
    obtain ⟨i, entry⟩ := found
    obtain ⟨rfl, hlive, hi⟩ := hsome i entry rfl
    refine ⟨e₁.setTtl i entry.heapIndex ttl now, _, hresponds fun q => ?_, h₁.setTtl hi ttl now,
      ⟨fun key' hkey' hnew => absurd hkey' hnew, fun key' _ _ => ?_⟩, fun hmiss => ?_⟩
    · rw [hlive, pexpire, hfind]
      rfl
    · rw [Function.update_apply, givenBy, Command.ttl?]
      simp only [eq_comm (a := key')]
      split <;> rfl
    · rw [hmiss] at hlive
      cases hlive

/-- **A key is deleted** with its deadline. -/
theorem del_timed (h : e.Timed m d) (key : Bytes) :
    ∃ e' d', Responds (e.del key) (Keyspace.flag (m.lookup key).isSome) e' ∧
      e'.Timed (m.erase key) d' ∧ Carries (fun _ => none) m d (m.erase key) d' := by
  obtain ⟨r, t', hdelete, hvalid, hsome, hnone⟩ :=
    h.represents.valid.delete (hashBytes key) (·.key == key)
  cases r with
  | none =>
    obtain ⟨hcontent, hmiss⟩ := hnone rfl
    have hkey : m.lookup key = none := h.represents.stores.eq_none hmiss
    have herase : (fun k => (m.erase key).lookup k) = fun k => m.lookup k := by
      rw [Keyspace.lookup_erase_eq, ← hkey, Function.update_eq_self]
    have hkeeps : e.Keeps { e with keyspace := t' } :=
      ⟨hvalid, rfl, rfl, fun i slot hi => ⟨slot, hcontent ▸ hi, rfl⟩⟩
    have h' : Represents { e with keyspace := t' } (m.erase key) :=
      ⟨hvalid, hcontent ▸ h.represents.tracks, hcontent ▸ herase ▸ h.represents.stores⟩
    refine ⟨{ e with keyspace := t' }, d, fun q data marks hq => ?_, h.keep hkeeps h',
      h.carries_self fun _ _ _ => rfl⟩
    obtain ⟨q', hq', hholds⟩ := appends_writeFlag false hq
    exact ⟨q', by simp [del, hdelete, hq'], by rwa [hkey]⟩
  | some entry =>
    obtain ⟨i, slot, hi, -, hkey, rfl, hcontent⟩ := hsome entry rfl
    obtain rfl : slot.item.key = key := by simpa using hkey
    obtain ⟨-, v, hv, -⟩ := h.represents.stores.stored i slot hi
    refine ⟨_, _, fun q data marks hq => ?_, h.discard hi hvalid hcontent,
      ⟨fun key' hkey' hnew => ?_, fun key' hkey' _ => ?_⟩⟩
    · obtain ⟨q', hq', hholds⟩ := appends_writeFlag true hq
      exact ⟨q', by simp [del, hdelete, hq'], by rwa [hv]⟩
    · exact absurd (AList.mem_erase.mp hkey').2 hnew
    · rw [Function.update_of_ne (AList.mem_erase.mp hkey').1, Option.elim_none]

/-- **The question for a deadline** is answered from the heap. -/
theorem pttl_timed (h : e.Timed m d) (key : Bytes) (now : Nat) :
    ∃ e', Responds (e.pttl key now)
      (.int (if key ∈ m then (d key).elim (-1) fun t => Int64.ofNat (t - now) else -2)) e' := by
  obtain ⟨found, e₁, hfind, h₁, -, hnone, hsome⟩ := h.find key
  refine ⟨e₁, fun q data marks hq => ?_⟩
  cases found with
  | none =>
    have hmiss : key ∉ m := AList.lookup_eq_none.mp (hnone rfl)
    obtain ⟨q', hq', hholds⟩ := Buffer.appends_writeInt (-2) hq
    exact ⟨q', by simp [pttl, hfind, hq'], by rwa [if_neg hmiss]⟩
  | some found =>
    obtain ⟨i, key', value, index⟩ := found
    obtain ⟨rfl, hlive, hi⟩ := hsome i _ rfl
    have hlive : key' ∈ m := AList.lookup_isSome.mp hlive
    rw [if_pos hlive]
    have hdue := h₁.deadlineAt hi
    rw [Engine.deadlineAt] at hdue
    dsimp only at hdue
    rw [← hdue]
    cases index with
    | none =>
      obtain ⟨q', hq', hholds⟩ := Buffer.appends_writeInt (-1) hq
      exact ⟨q', by simp [pttl, hfind, hq'], hholds⟩
    | some p =>
      -- The position is in the heap, since its owner notes it.
      have howner := (h₁.represents.tracks i p).mp (indexOf_eq hi)
      obtain ⟨item, hitem, -⟩ := Option.map_eq_some_iff.mp howner
      obtain ⟨q', hq', hholds⟩ :=
        Buffer.appends_writeInt (Int64.ofNat (item.expiresAt - now)) hq
      exact ⟨q', by simp [pttl, hfind, hitem, hq'], by simpa [hitem] using hholds⟩

/-- What is run determines what is left. -/
theorem Responds.eq {run : Buffer → Outcome} {v : Response} {e₁ : Engine} (h : Responds run v e₁)
    {q q' : Buffer} {data : Bytes} {marks : List Nat} (hq : q.Holds data marks)
    (hrun : run q = .ok (q', e')) : e₁ = e' := by
  obtain ⟨q₁, hrun₁, -⟩ := h hq
  cases hrun₁.symm.trans hrun
  rfl

/-- **Every command** that succeeds carries the deadlines over. -/
theorem Timed.perform (h : e.Timed m d) {command : Command} (hcommand : command.Numeric)
    {now : Nat} {q q' : Buffer} {data : Bytes} {marks : List Nat} (hq : q.Holds data marks)
    (hrun : e.perform command now q = .ok (q', e')) :
    ∃ d', e'.Timed (m.after command) d' ∧
      Carries (givenBy command now) m d (m.after command) d' := by
  have hkeeps : (∀ key ttl, command ≠ .pexpire key ttl) → (∀ key, command ≠ .del key) →
      ∃ d', e'.Timed (m.after command) d' ∧
        Carries (givenBy command now) m d (m.after command) d' := by
    intro hpexpire hdel
    have hkeeps := perform_keeps h.represents.valid hpexpire hdel hrun
    have hnone : ∀ key, givenBy command now key = none := fun key => by
      unfold givenBy Command.ttl?
      split
      · exact absurd rfl (hpexpire _ _)
      · rfl
    rcases perform_refines h.represents hcommand now with ⟨v, e₁, hresponds, -, h₁⟩ | ⟨-, hover⟩
    · obtain rfl := hresponds.eq hq hrun
      exact ⟨d, h.keep hkeeps h₁, h.carries_self fun key _ _ => hnone key⟩
    · rw [hover hq] at hrun
      cases hrun
  cases command with
  | pexpire key ttl =>
    obtain ⟨e₁, d', hresponds, h', hcarries, -⟩ := pexpire_timed h key ttl now
    obtain rfl := hresponds.eq hq hrun
    exact ⟨d', h', hcarries⟩
  | del key =>
    obtain ⟨e₁, d', hresponds, h', hcarries⟩ := del_timed h key
    obtain rfl := hresponds.eq hq hrun
    exact ⟨d', h', hcarries⟩
  | _ => exact hkeeps (by simp) (by simp)

end Engine

end KeyServer
