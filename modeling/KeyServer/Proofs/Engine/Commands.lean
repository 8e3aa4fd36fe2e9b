import KeyServer.Proofs.Engine.Representation
import KeyServer.Proofs.Response.Writing

/-! # Commands

Every command answers as the plain keyspace that the engine represents, and leaves an engine
that represents the keyspace after it (`Refines`).  The answer is appended to whatever is
in the buffer, and neither the answer nor the engine depend on that (`Responds`).

* **`perform_refines`** for all commands.  Only a listing of members can overflow, in a set
  whose size does not fit into a machine word (`Oversized`).
-/

namespace KeyServer

/-- Whether some sorted set has more members than a signed machine word can count. -/
def Keyspace.Oversized (m : Keyspace) : Prop :=
  ∃ key scores, m.lookup key = some (.set scores) ∧ 0x8000000000000000 ≤ scores.members.length

namespace Engine

open Buffer (Appends)

/-- On every buffer a command appends the encoding of a value, and leaves an engine. -/
def Responds (run : Buffer → Outcome) (v : Response) (e : Engine) : Prop :=
  ∀ ⦃q : Buffer⦄ ⦃data : Bytes⦄ ⦃marks : List Nat⦄, q.Holds data marks →
    ∃ q', run q = .ok (q', e) ∧ q'.Holds (data ++ v.encode) marks

/-- On every buffer a command overflows. -/
def Overflows (run : Buffer → Outcome) : Prop :=
  ∀ ⦃q : Buffer⦄ ⦃data : Bytes⦄ ⦃marks : List Nat⦄, q.Holds data marks → run q = .error .overflow

/-- An admissible answer, and an engine that represents what the command leaves. -/
def Refines (m : Keyspace) (command : Command) (run : Buffer → Outcome) : Prop :=
  ∃ v e, Responds run v e ∧ m.Admits command v ∧ e.Represents (m.after command)

/-- A command that only has to write its answer. -/
theorem Refines.of_write {m : Keyspace} {command : Command} {run : Buffer → Outcome}
    {write : Buffer → Except Fault Buffer} {v : Response} {e : Engine}
    (hwrite : Appends write v.encode) (hrun : ∀ q, run q = do return (← write q, e))
    (hv : m.Admits command v) (he : e.Represents (m.after command)) : Refines m command run := by
  refine ⟨v, e, fun q data marks hq => ?_, hv, he⟩
  obtain ⟨q', hq', hholds⟩ := hwrite hq
  exact ⟨q', by simp [hrun, hq'], hholds⟩

theorem appends_writeFlag (b : Bool) : Appends (writeFlag · b) (Keyspace.flag b).encode :=
  Buffer.appends_writeInt _

theorem appends_writeRefusal (e : CommandError) :
    Appends (·.writeRefusal e) (Keyspace.refusal e).encode :=
  Buffer.appends_writeError e.code e.message

/-- Writing keys one after the other. -/
theorem appends_keys (entries : List Entry) :
    Appends (fun q => entries.foldlM (fun q entry => q.writeStr entry.key) q)
      (Response.encodeAll ((entries.map (·.key)).map .str)) := by
  induction entries with
  | nil => exact Buffer.appends_pure
  | cons entry entries ih =>
    simp only [List.foldlM_cons]
    exact (Buffer.appends_writeStr entry.key).bind ih

/-! ## Strings and keys -/

section Commands

variable {e : Engine} {m : Keyspace} (h : e.Represents m) (key : Bytes)

include h

theorem get_refines : Refines m (.get key) (e.get key) := by
  obtain ⟨found, e', hfind, h', hnone, hsome⟩ := h.find key
  match found with
  | none =>
    refine .of_write Buffer.appends_writeNil (e := e') (fun q => ?_) ?_ h'
    · rw [get, hfind]
      rfl
    · show _ = m.reply (.get key)
      rw [Keyspace.reply, hnone rfl]
  | some (i, ⟨key', data, index⟩) =>
    obtain ⟨v, hslot, rfl, hv, hdata⟩ := hsome i _ rfl
    match data, v with
    | .str data, .str data' =>
      cases hdata
      refine .of_write (Buffer.appends_writeStr data) (e := e') (fun q => ?_) ?_ h'
      · rw [get, hfind]
        rfl
      · show _ = m.reply (.get key')
        rw [Keyspace.reply, hv]
    | .set s, .set scores =>
      refine .of_write (appends_writeRefusal .notString) (e := e') (fun q => ?_) ?_ h'
      · rw [get, hfind]
        rfl
      · show _ = m.reply (.get key')
        rw [Keyspace.reply, hv]
    | .str _, .set _ | .set _, .str _ => exact hdata.elim

theorem set_refines (data : Bytes) : Refines m (.set key data) (e.set key data) := by
  obtain ⟨found, e', hfind, h', hnone, hsome⟩ := h.find key
  match found with
  | none =>
    have hdata : (Data.str data).Is (.str data) := rfl
    obtain ⟨e₁, hadd, h₁⟩ := h'.add (hnone rfl) hdata
    exact .of_write Buffer.appends_writeNil (fun q => by simp [set, hfind, hadd]) rfl h₁
  | some (i, entry) =>
    obtain ⟨v, hslot, rfl, -, -⟩ := hsome i _ rfl
    have hdata : (Data.str data).Is (.str data) := rfl
    have h₁ := (h'.setData hslot hdata).dispose entry.data
    exact .of_write Buffer.appends_writeNil (fun q => by simp [set, hfind]) rfl h₁

theorem del_refines : Refines m (.del key) (e.del key) := by
  obtain ⟨r, t', hdelete, hvalid, hsome, hnone⟩ := h.valid.delete (hashBytes key) (·.key == key)
  cases r with
  | none =>
    obtain ⟨hcontent, hmiss⟩ := hnone rfl
    have hkey : m.lookup key = none := h.stores.eq_none hmiss
    refine .of_write (appends_writeFlag false) (e := { e with keyspace := t' }) (fun q => ?_) ?_ ?_
    · simp [del, hdelete]
    · show _ = m.reply (.del key)
      rw [Keyspace.reply, hkey, Option.isSome_none]
    · refine ⟨hvalid, hcontent ▸ h.tracks, ?_⟩
      rw [Keyspace.after, Keyspace.lookup_erase_eq, ← hkey, Function.update_eq_self]
      exact hcontent ▸ h.stores
  | some entry =>
    obtain ⟨i, slot, hi, hhash, hkey, rfl, hcontent⟩ := hsome entry rfl
    have hkey : slot.item.key = key := by simpa using hkey
    obtain ⟨-, v, hv, -⟩ := h.stores.stored i slot hi
    have h₁ := h.discard hi hvalid hcontent
    rw [hkey] at hv h₁
    refine .of_write (appends_writeFlag true) (fun q => ?_) ?_ h₁
    · simp [del, hdelete]
    · show _ = m.reply (.del key)
      rw [Keyspace.reply, hv, Option.isSome_some]

/-- **The listed keys** are the keys of the plain keyspace. -/
theorem keys_perm {slots : List Nat} (hnodup : slots.Nodup)
    (hmem : ∀ i, i ∈ slots ↔ (e.keyspace.content i).isSome = true) :
    ((slots.filterMap e.keyspace.get?).map (·.key)).Perm m.keys := by
  have hget : ∀ key, key ∈ (slots.filterMap e.keyspace.get?).map (·.key) ↔ key ∈ m.keys := by
    intro key
    rw [← AList.mem_keys, ← AList.lookup_isSome, List.mem_map]
    constructor
    · rintro ⟨entry, hentry, rfl⟩
      obtain ⟨i, -, hi⟩ := List.mem_filterMap.mp hentry
      rw [HashTable.get?_eq] at hi
      obtain ⟨slot, hslot, rfl⟩ := Option.map_eq_some_iff.mp hi
      obtain ⟨-, v, hv, -⟩ := h.stores.stored i slot hslot
      rw [hv, Option.isSome_some]
    · intro hkey
      obtain ⟨v, hv⟩ := Option.isSome_iff_exists.mp hkey
      obtain ⟨i, slot, hi, rfl⟩ := h.stores.listed key v hv
      refine ⟨slot.item, List.mem_filterMap.mpr ⟨i, (hmem i).mpr (by rw [hi]; rfl), ?_⟩, rfl⟩
      rw [HashTable.get?_eq, hi, Option.map_some]
  refine (List.perm_ext_iff_of_nodup ?_ m.keys_nodup).mpr hget
  rw [List.map_filterMap, List.nodup_iff_pairwise_ne, List.pairwise_filterMap]
  refine hnodup.imp fun {i j} hne => ?_
  simp only [HashTable.get?_eq, Option.map_map, Option.map_eq_some_iff]
  rintro _ ⟨slot, hi, rfl⟩ _ ⟨slot', hj, rfl⟩ hkey
  exact hne (h.stores.once i j slot slot' hi hj hkey)

theorem keys_refines : Refines m .keys e.keys := by
  obtain ⟨a, r, hlinked⟩ := h.valid.linked
  have hlist := hlinked.toList
  have hperm := keys_perm h hlinked.nodup hlinked.mem_chains
  -- The number of keys is written first, from the size of the table.
  have hlength : ((a.flatten ++ r.flatten).filterMap e.keyspace.get?).length
      = e.keyspace.size := by
    rw [hlinked.size_eq, List.length_filterMap_eq_countP, List.countP_eq_length]
    intro i hi
    obtain ⟨slot, hslot⟩ := Option.isSome_iff_exists.mp ((hlinked.mem_chains i).mp hi)
    rw [HashTable.get?_eq, hslot]
    rfl
  rw [List.nil_append] at hperm
  generalize (a.flatten ++ r.flatten).filterMap e.keyspace.get? = entries at *
  refine ⟨.arr ((entries.map (·.key)).map .str), e, ?_, ⟨_, hperm, rfl⟩, h⟩
  have hwrite := (Buffer.appends_writeArray entries.length).bind (appends_keys entries)
  intro q data marks hq
  obtain ⟨q', hrun, hq'⟩ := hwrite hq
  refine ⟨q', ?_, ?_⟩
  · simp only [bind_eq_ok_iff] at hrun
    obtain ⟨q₁, harray, hkeys⟩ := hrun
    simp [keys, hlist, ← hlength, harray, hkeys]
  · rw [Response.encode, List.length_map, List.length_map]
    exact hq'

theorem pexpire_refines (ttl : Int) (now : Nat) :
    Refines m (.pexpire key ttl) (e.pexpire key ttl now) := by
  obtain ⟨found, e', hfind, h', hnone, hsome⟩ := h.find key
  match found with
  | none =>
    refine .of_write (appends_writeFlag false) (e := e') (fun q => ?_) ?_ h'
    · simp [pexpire, hfind]
    · show _ = m.reply (.pexpire key ttl)
      rw [Keyspace.reply, hnone rfl, Option.isSome_none]
  | some (i, entry) =>
    obtain ⟨v, hslot, rfl, hv, -⟩ := hsome i _ rfl
    refine .of_write (appends_writeFlag true) (fun q => ?_) ?_ (h'.setTtl hslot ttl now)
    · simp [pexpire, hfind]
    · show _ = m.reply (.pexpire entry.key ttl)
      rw [Keyspace.reply, hv, Option.isSome_some]

theorem pttl_refines (now : Nat) : Refines m (.pttl key) (e.pttl key now) := by
  obtain ⟨found, e', hfind, h', hnone, hsome⟩ := h.find key
  match found with
  | none =>
    refine .of_write (Buffer.appends_writeInt (-2)) (fun q => ?_) ⟨fun _ => rfl, -2, rfl⟩ h'
    rw [pttl, hfind]
    rfl
  | some (i, ⟨key', data, index⟩) =>
    obtain ⟨v, hslot, rfl, hv, -⟩ := hsome i _ rfl
    -- The time left is not compared with anything, only the key has to be there.
    have hlive : m.lookup key' = none → ∀ v', v' = m.reply (.pttl key') := fun hnone => by
      rw [hnone] at hv
      cases hv
    match index with
    | none =>
      refine .of_write (Buffer.appends_writeInt (-1)) (fun q => ?_)
        ⟨fun hnone => hlive hnone _, -1, rfl⟩ h'
      rw [pttl, hfind]
      rfl
    | some p =>
      have howner := (h'.tracks i p).mp (indexOf_eq hslot)
      obtain ⟨deadline, hdeadline, -⟩ := Option.map_eq_some_iff.mp howner
      refine .of_write (Buffer.appends_writeInt (Int64.ofNat (deadline.expiresAt - now)))
        (fun q => ?_) ⟨fun hnone => hlive hnone _, _, rfl⟩ h'
      rw [pttl, hfind]
      simp only [ok_bind, hdeadline]

end Commands

end Engine

end KeyServer
