import KeyServer.Proofs.Engine.Commands

/-! # Commands for sorted sets

The commands that ask for the sorted set of a key first look for the key
(`Represents.findSet`); those about one member then look for its name
(`Represents.findMember`).  Both may move tables along, which changes no value.  A listing walks
over the set on its own: it writes names and scores as it goes, ends by another kind of limit than
the ranges of a set, and fills in their number when it is through.

* **`writePairs_of_takeWithin`**: both walks take the same steps, whatever the set is like, so where
  a range is collected the same members are written.
* **`perform_refines`** collects the theorems about all commands.
-/

namespace KeyServer

/-- Whether all scores that a command gives are numbers. -/
def Command.Numeric : Command → Prop
  | .zadd _ score _ | .zquery _ score _ _ _ => score.isNaN = false
  | .zcount _ low high => low.1.isNaN = false ∧ high.1.isNaN = false
  | _ => True

namespace Command

theorem isNaN_of_score {arg : Bytes} {d : Double} (h : score arg = .ok d) : d.isNaN = false := by
  unfold score at h
  split at h
  · split at h
    · cases h
    · next hnumber =>
      cases h
      exact Bool.not_eq_true _ ▸ hnumber
  · cases h

/-- The scores of a request are numbers. -/
theorem numeric_of_parse {args : List Bytes} {command : Command} (h : parse args = .ok command) :
    command.Numeric := by
  unfold parse at h
  split at h
  · unfold build at h
    split at h
    case h_7 =>
      rw [bind_eq_ok_iff] at h
      obtain ⟨d, hd, ⟨⟩⟩ := h
      exact isNaN_of_score hd
    case h_10 =>
      simp only [bind_eq_ok_iff] at h
      obtain ⟨d, hd, _, -, _, -, ⟨⟩⟩ := h
      exact isNaN_of_score hd
    case h_12 =>
      simp only [bind_eq_ok_iff] at h
      obtain ⟨d, hd, d', hd', ⟨⟩⟩ := h
      exact ⟨isNaN_of_score hd, isNaN_of_score hd'⟩
    case h_5 =>
      rw [bind_eq_ok_iff] at h
      obtain ⟨_, -, ⟨⟩⟩ := h
      trivial
    all_goals cases h <;> trivial
  · cases h

end Command

/-! ## Listings -/

/-- Names and scores of members, one after the other. -/
def listing (members : List Member) : List Response :=
  members.flatMap fun m => [.str m.name, .dbl m.score]

theorem length_listing (members : List Member) : (listing members).length = 2 * members.length := by
  rw [listing, List.length_flatMap]
  simp [Nat.mul_comm]

theorem encodeAll_listing_nil : Response.encodeAll (listing []) = [] := by
  rw [listing, List.flatMap_nil, Response.encodeAll]

theorem encodeAll_listing_cons (m : Member) (members : List Member) :
    Response.encodeAll (listing (m :: members))
      = Response.encode (.str m.name) ++ Response.encode (.dbl m.score) ++
        Response.encodeAll (listing members) := by
  rw [listing, List.flatMap_cons, List.cons_append, List.singleton_append, Response.encodeAll,
    Response.encodeAll, List.append_assoc]
  rfl

namespace Engine

open Buffer (Appends)

/-- **Collecting and writing** go together: what is collected after some members is written after
as many pairs. -/
theorem writePairs_of_takeWithin {s : SortedSet} {limit : Int} {steps : Nat} {at? : Option Nat}
    {done all : List Member} (h : s.takeWithin limit.toNat steps at? done = .ok all) {q : Buffer}
    {data : Bytes} {marks : List Nat} (hq : q.Holds data marks) :
    ∃ new q', all = done.reverse ++ new ∧
      writePairs s limit steps at? done.length q = .ok (done.length + new.length, q') ∧
      q'.Holds (data ++ Response.encodeAll (listing new)) marks := by
  fun_induction SortedSet.takeWithin s limit.toNat steps at? done generalizing q data with
  | case1 steps done =>
    cases h
    exact ⟨[], q, (List.append_nil _).symm, by rw [writePairs]; rfl,
      by rwa [encodeAll_listing_nil, List.append_nil]⟩
  | case2 steps id done hend =>
    -- A limit below zero is reached at once, as the limit of zero is.
    have hend' : limit ≤ done.length := Int.toNat_le.mp hend
    cases h
    exact ⟨[], q, (List.append_nil _).symm, by rw [writePairs.eq_def]; exact if_pos hend',
      by rwa [encodeAll_listing_nil, List.append_nil]⟩
  | case3 => cases h
  | case4 id done hgoon steps ih =>
    have hgoon' : ¬limit ≤ done.length := fun hend => hgoon (Int.toNat_le.mpr hend)
    obtain ⟨m, hmember, h⟩ := bind_eq_ok_iff.mp h
    obtain ⟨next, hnext, h⟩ := bind_eq_ok_iff.mp h
    obtain ⟨q₁, hname, h₁⟩ := Buffer.appends_writeStr m.name hq
    obtain ⟨q₂, hscore, h₂⟩ := Buffer.appends_writeDouble m.score h₁
    obtain ⟨new, q', rfl, hwrite, h'⟩ := ih m next h h₂
    refine ⟨m :: new, q', by simp, ?_, ?_⟩
    · rw [List.length_cons] at hwrite
      rw [writePairs, if_neg hgoon', hmember, ok_bind]
      simp only [hname, hscore, ok_bind, hnext, hwrite, List.length_cons]
      congr 2
      omega
    · rwa [encodeAll_listing_cons, ← List.append_assoc, ← List.append_assoc]

/-- **A listing** of a set is a range of it, written as an array. -/
theorem responds_zquery {e e' : Engine} {key : Bytes} {i : Nat} {z : SortedSet}
    (hfind : e.findSet key = .ok (.ok (some (i, z)), e')) {score : Double} {name : Bytes}
    {offset limit : Int} {members : List Member}
    (hrange : z.range score name offset limit.toNat = .ok members) :
    Responds (e.zquery key score name offset limit) (.arr (listing members)) e' := by
  intro q data marks hq
  obtain ⟨start, hstart, htake⟩ := bind_eq_ok_iff.mp hrange
  obtain ⟨q₁, hopen, h₁⟩ := hq.openArray
  obtain ⟨new, q₂, hnew, hwrite, h₂⟩ := writePairs_of_takeWithin htake h₁
  obtain rfl : members = new := hnew
  obtain ⟨q₃, hclose, h₃⟩ := h₂.closeArray
  refine ⟨q₃, ?_, h₃⟩
  rw [List.length_nil, Nat.zero_add] at hwrite
  rw [length_listing, Nat.mul_comm] at hclose
  simp [zquery, hfind, hopen, hstart, hwrite, hclose]

variable {e : Engine} {m : Keyspace} (h : e.Represents m) (key : Bytes)

/-! ## Looking for keys and members -/

include h

/-- **The sorted set of a key.** -/
theorem Represents.findSet :
    ∃ e', e'.Represents m ∧
      ((∃ data, e.findSet key = .ok (.error .notSortedSet, e') ∧
          m.lookup key = some (.str data)) ∨
        (e.findSet key = .ok (.ok none, e') ∧ m.lookup key = none) ∨
        ∃ i s index items scores, e.findSet key = .ok (.ok (some (i, s)), e') ∧
          e'.keyspace.content i = some ⟨hashBytes key, ⟨key, .set s, index⟩⟩ ∧
          m.lookup key = some (.set scores) ∧ s.Lists items scores) := by
  obtain ⟨found, e', hfind, h', hnone, hsome⟩ := h.find key
  refine ⟨e', h', ?_⟩
  match found with
  | none =>
    refine .inr (.inl ⟨?_, hnone rfl⟩)
    rw [Engine.findSet, hfind]
    rfl
  | some (i, ⟨key', data, index⟩) =>
    obtain ⟨v, hslot, rfl, hv, hdata⟩ := hsome i _ rfl
    match data, v with
    | .str _, .str data' =>
      refine .inl ⟨data', ?_, hv⟩
      rw [Engine.findSet, hfind]
      rfl
    | .set s, .set scores =>
      obtain ⟨items, hlists⟩ := hdata
      refine .inr (.inr ⟨i, s, index, items, scores, ?_, hslot, hv, hlists⟩)
      rw [Engine.findSet, hfind]
      rfl
    | .str _, .set _ | .set _, .str _ => exact hdata.elim

section Members

variable {key} {i : Nat} {s : SortedSet} {index : Option Nat} {items : List (Nat × Member)}
  {scores : Scores} (hslot : e.keyspace.content i = some ⟨hashBytes key, ⟨key, .set s, index⟩⟩)
  (hv : m.lookup key = some (.set scores)) (hlists : s.Lists items scores) (name : Bytes)

include hslot hv hlists

/-- **The node of a name.** -/
theorem Represents.findMember :
    ∃ r s' e', e.findMember i s name = .ok (r, s', e') ∧ e'.Represents m ∧
      e'.keyspace.content i = some ⟨hashBytes key, ⟨key, .set s', index⟩⟩ ∧
      s'.Lists items scores ∧
      (r = none → scores.lookup name = none ∧ scores.sorted.findIdx? (·.name == name) = none) ∧
      ∀ id, r = some id → ∃ n score, items[n]? = some (id, ⟨name, score⟩) ∧
        scores.lookup name = some score ∧ scores.sorted.findIdx? (·.name == name) = some n := by
  obtain ⟨r, s', hlookup, hlists', hfound⟩ := hlists.find name
  have hdata : (Data.set s').Is (.set scores) := ⟨items, hlists'⟩
  refine ⟨r, s', _, ?_, h.setData_same hslot hv hdata, ?_, hlists', hfound⟩
  · simp [Engine.findMember, hlookup]
  · obtain ⟨-, hcontent⟩ := h.valid.modify i fun entry => { entry with data := .set s' }
    rw [Engine.setData, hcontent, Function.update_self, hslot, Option.map_some]

end Members

/-! ## One member -/

theorem zadd_refines {score : Double} (hscore : score.isNaN = false) (name : Bytes) :
    Refines m (.zadd key score name) (e.zadd key score name) := by
  obtain ⟨e', h', ⟨data, hfind, hv⟩ | ⟨hfind, hv⟩ | ⟨i, s, index, items, scores, hfind, hslot, hv,
    hlists⟩⟩ := h.findSet key
  · refine .of_write (appends_writeRefusal .notSortedSet) (e := e') (fun q => ?_) ?_ ?_
    · simp [zadd, hfind]
    · simp [Keyspace.Admits, Keyspace.reply, Keyspace.onScores_str _ hv]
    · simpa [Keyspace.after, Keyspace.scores, hv] using h'
  · obtain ⟨s', items', hinsert, hlists'⟩ := SortedSet.lists_empty.insert name hscore
    have hdata : (Data.set s').Is (.set (AList.insert name score ∅)) := ⟨items', hlists'⟩
    obtain ⟨e₁, hadd, h₁⟩ := h'.add hv hdata
    refine .of_write (appends_writeFlag true) (e := e₁) (fun q => ?_) ?_ ?_
    · simp [zadd, hfind, hinsert, hadd]
    · simp [Keyspace.Admits, Keyspace.reply, Keyspace.onScores_none _ hv]
    · simpa [Keyspace.after, Keyspace.scores, hv] using h₁
  · obtain ⟨s', items', hinsert, hlists'⟩ := hlists.insert name hscore
    have hdata : (Data.set s').Is (.set (scores.insert name score)) := ⟨items', hlists'⟩
    have h₁ := h'.setData hslot hdata
    refine .of_write (appends_writeFlag (scores.lookup name).isNone)
      (e := e'.setData i (.set s')) (fun q => ?_) ?_ ?_
    · simp [zadd, hfind, hinsert]
    · simp [Keyspace.Admits, Keyspace.reply, Keyspace.onScores_set _ hv]
    · simpa [Keyspace.after, Keyspace.scores, hv] using h₁

theorem zrem_refines (name : Bytes) : Refines m (.zrem key name) (e.zrem key name) := by
  obtain ⟨e', h', ⟨data, hfind, hv⟩ | ⟨hfind, hv⟩ | ⟨i, s, index, items, scores, hfind, hslot, hv,
    hlists⟩⟩ := h.findSet key
  · refine .of_write (appends_writeRefusal .notSortedSet) (e := e') (fun q => ?_) ?_ ?_
    · simp [zrem, hfind]
    · simp [Keyspace.Admits, Keyspace.reply, Keyspace.onScores_str _ hv]
    · simpa [Keyspace.after, hv] using h'
  · refine .of_write (appends_writeFlag false) (e := e') (fun q => ?_) ?_ ?_
    · simp [zrem, hfind]
    · simp [Keyspace.Admits, Keyspace.reply, Keyspace.onScores_none _ hv]
    · simpa [Keyspace.after, hv] using h'
  · obtain ⟨r, s', e₁, hmember, h₁, hslot₁, hlists₁, hnone, hsome⟩ :=
      h'.findMember hslot hv hlists name
    cases r with
    | none =>
      have hmissing := (hnone rfl).1
      refine .of_write (appends_writeFlag false) (e := e₁) (fun q => ?_) ?_ ?_
      · simp [zrem, hfind, hmember]
      · simp [Keyspace.Admits, Keyspace.reply, Keyspace.onScores_set _ hv, hmissing]
      · -- Erasing a name that is not there is no change.
        have hsame : scores.erase name = scores := AList.ext (List.kerase_of_notMem_keys
          (AList.lookup_eq_none.mp hmissing))
        simpa [Keyspace.after, hv, hsame] using (Represents.insert_same_iff hv).mpr h₁
    | some id =>
      obtain ⟨n, score, hn, hlookup, -⟩ := hsome id rfl
      obtain ⟨m', s₂, items', hdelete, hlists₂⟩ := hlists₁.delete hn
      have hdata : (Data.set s₂).Is (.set (scores.erase name)) := ⟨items', hlists₂⟩
      have h₂ := h₁.setData hslot₁ hdata
      refine .of_write (appends_writeFlag true) (e := e₁.setData i (.set s₂)) (fun q => ?_) ?_ ?_
      · simp [zrem, hfind, hmember, hdelete]
      · simp [Keyspace.Admits, Keyspace.reply, Keyspace.onScores_set _ hv, hlookup]
      · simpa [Keyspace.after, hv] using h₂

theorem zscore_refines (name : Bytes) : Refines m (.zscore key name) (e.zscore key name) := by
  obtain ⟨e', h', ⟨data, hfind, hv⟩ | ⟨hfind, hv⟩ | ⟨i, s, index, items, scores, hfind, hslot, hv,
    hlists⟩⟩ := h.findSet key
  · refine .of_write (appends_writeRefusal .notSortedSet) (e := e') (fun q => ?_) ?_ h'
    · simp [zscore, hfind]
    · simp [Keyspace.Admits, Keyspace.reply, Keyspace.onScores_str _ hv]
  · refine .of_write Buffer.appends_writeNil (e := e') (fun q => ?_) ?_ h'
    · simp [zscore, hfind]
    · simp [Keyspace.Admits, Keyspace.reply, Keyspace.onScores_none _ hv]
  · obtain ⟨r, s', e₁, hmember, h₁, -, hlists₁, hnone, hsome⟩ := h'.findMember hslot hv hlists name
    cases r with
    | none =>
      refine .of_write Buffer.appends_writeNil (e := e₁) (fun q => ?_) ?_ h₁
      · simp [zscore, hfind, hmember]
      · simp [Keyspace.Admits, Keyspace.reply, Keyspace.onScores_set _ hv, (hnone rfl).1]
    | some id =>
      obtain ⟨n, score, hn, hlookup, -⟩ := hsome id rfl
      refine .of_write (Buffer.appends_writeDouble score) (e := e₁) (fun q => ?_) ?_ h₁
      · simp [zscore, hfind, hmember, hlists₁.holds.member hn]
      · simp [Keyspace.Admits, Keyspace.reply, Keyspace.onScores_set _ hv, hlookup]

theorem zrank_refines (name : Bytes) : Refines m (.zrank key name) (e.zrank key name) := by
  obtain ⟨e', h', ⟨data, hfind, hv⟩ | ⟨hfind, hv⟩ | ⟨i, s, index, items, scores, hfind, hslot, hv,
    hlists⟩⟩ := h.findSet key
  · refine .of_write (appends_writeRefusal .notSortedSet) (e := e') (fun q => ?_) ?_ h'
    · simp [zrank, hfind]
    · simp [Keyspace.Admits, Keyspace.reply, Keyspace.onScores_str _ hv]
  · refine .of_write Buffer.appends_writeNil (e := e') (fun q => ?_) ?_ h'
    · simp [zrank, hfind]
    · simp [Keyspace.Admits, Keyspace.reply, Keyspace.onScores_none _ hv, Scores.sorted,
        Scores.members]
  · obtain ⟨r, s', e₁, hmember, h₁, -, hlists₁, hnone, hsome⟩ := h'.findMember hslot hv hlists name
    cases r with
    | none =>
      refine .of_write Buffer.appends_writeNil (e := e₁) (fun q => ?_) ?_ h₁
      · simp [zrank, hfind, hmember]
      · simp only [Keyspace.Admits, Keyspace.reply, Keyspace.onScores_set _ hv, (hnone rfl).2,
          Option.elim_none]
    | some id =>
      obtain ⟨n, score, hn, -, hindex⟩ := hsome id rfl
      refine .of_write (Buffer.appends_writeInt (Int64.ofNat n)) (e := e₁) (fun q => ?_) ?_ h₁
      · simp [zrank, hfind, hmember, hlists₁.holds.rank hn]
      · simp only [Keyspace.Admits, Keyspace.reply, Keyspace.onScores_set _ hv, hindex,
          Option.elim_some]

/-! ## Many members -/

theorem zcount_refines {low high : Double × Bytes} (hlow : low.1.isNaN = false)
    (hhigh : high.1.isNaN = false) :
    Refines m (.zcount key low high) (e.zcount key low high) := by
  obtain ⟨e', h', ⟨data, hfind, hv⟩ | ⟨hfind, hv⟩ | ⟨i, s, index, items, scores, hfind, hslot, hv,
    hlists⟩⟩ := h.findSet key
  · refine .of_write (appends_writeRefusal .notSortedSet) (e := e') (fun q => ?_) ?_ h'
    · simp [zcount, hfind]
    · simp [Keyspace.Admits, Keyspace.reply, Keyspace.onScores_str _ hv]
  · refine .of_write (Buffer.appends_writeInt 0) (e := e') (fun q => ?_) ?_ h'
    · simp [zcount, hfind]
    · simp [Keyspace.Admits, Keyspace.reply, Keyspace.onScores_none _ hv, Scores.members]
  · have hcount := hlists.countBetween hlow hhigh
    refine .of_write (Buffer.appends_writeInt (Int64.ofNat (scores.members.countP fun e =>
      !e.below ⟨low.2, low.1⟩ && e.below ⟨high.2, high.1⟩))) (e := e') (fun q => ?_) ?_ h'
    · simp [zcount, hfind, hcount]
    · simp [Keyspace.Admits, Keyspace.reply, Keyspace.onScores_set _ hv]

/-- **A listing** answers with the members of a range, or overflows. -/
theorem zquery_refines {score : Double} (hscore : score.isNaN = false) (name : Bytes)
    (offset limit : Int) :
    Refines m (.zquery key score name offset limit) (e.zquery key score name offset limit) ∨
      m.Oversized ∧ Overflows (e.zquery key score name offset limit) := by
  obtain ⟨e', h', ⟨data, hfind, hv⟩ | ⟨hfind, hv⟩ | ⟨i, s, index, items, scores, hfind, hslot, hv,
    hlists⟩⟩ := h.findSet key
  · refine .inl (.of_write (appends_writeRefusal .notSortedSet) (e := e') (fun q => ?_) ?_ h')
    · simp [zquery, hfind]
    · simp [Keyspace.Admits, Keyspace.reply, Keyspace.onScores_str _ hv]
  · refine .inl ⟨.arr [], e', fun q data marks hq => ?_, ?_, h'⟩
    · obtain ⟨q₁, hopen, h₁⟩ := hq.openArray
      have h₁ : q₁.Holds (data ++ [Tag.arr.byte] ++ List.replicate Buffer.slotWidth 0 ++
          Response.encodeAll []) ((data ++ [Tag.arr.byte]).length :: marks) := by
        rwa [Response.encodeAll, List.append_nil]
      obtain ⟨q₂, hclose, h₂⟩ := h₁.closeArray
      have hclose : q₁.closeArray 0 = .ok q₂ := hclose
      exact ⟨q₂, by simp [zquery, hfind, hopen, hclose], h₂⟩
    · simp [Keyspace.Admits, Keyspace.reply, Keyspace.onScores_none _ hv, Scores.range,
        Scores.sorted, Scores.members]
  · obtain ⟨start, hstart, hmembers⟩ := hlists.rangeStart hscore name offset limit
    rcases hstart with hstart | ⟨hstart, hsize⟩
    · have hsteps : items.length ≤ start + s.tree.stepBound :=
        Nat.le_add_left_of_le hlists.holds.length_le_stepBound
      have hrange : s.range score name offset limit.toNat
          = .ok (scores.range ⟨name, score⟩ offset limit) := by
        rw [SortedSet.range, hstart, ok_bind, hlists.holds.takeWithin limit.toNat start [] hsteps,
          hlists.sorted_eq]
        exact congrArg Except.ok hmembers
      refine .inl ⟨_, e', responds_zquery hfind hrange, ?_, h'⟩
      simp [Keyspace.Admits, Keyspace.reply, Keyspace.onScores_set _ hv, listing]
    · refine .inr ⟨⟨key, scores, hv, hsize⟩, fun q data marks hq => ?_⟩
      obtain ⟨q₁, hopen, -⟩ := hq.openArray
      simp [zquery, hfind, hopen, hstart]

/-! ## All commands -/

/-- **Every command** answers as the plain keyspace, or overflows. -/
theorem perform_refines {command : Command} (hnumeric : command.Numeric) (now : Nat) :
    Refines m command (e.perform command now) ∨
      m.Oversized ∧ Overflows (e.perform command now) := by
  cases command with
  | get key => exact .inl (get_refines h key)
  | set key value => exact .inl (set_refines h key value)
  | del key => exact .inl (del_refines h key)
  | keys => exact .inl (keys_refines h)
  | pexpire key ttl => exact .inl (pexpire_refines h key ttl now)
  | pttl key => exact .inl (pttl_refines h key now)
  | zadd key score name => exact .inl (zadd_refines h key hnumeric name)
  | zrem key name => exact .inl (zrem_refines h key name)
  | zscore key name => exact .inl (zscore_refines h key name)
  | zquery key score name offset limit => exact zquery_refines h key hnumeric name offset limit
  | zrank key name => exact .inl (zrank_refines h key name)
  | zcount key low high => exact .inl (zcount_refines h key hnumeric.1 hnumeric.2)

end Engine

end KeyServer
