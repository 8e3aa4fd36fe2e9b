import KeyServer.Command
import KeyServer.Engine.Expiry

/-!
# Executing commands

`Engine.execute` runs one request and writes exactly one value to a buffer: the reply, or
an error if the request is no command or its key has the other kind of value.  A command
that is refused has written nothing before the error and changed no key.
-/

namespace KeyServer

/-- Appends the error that a refused command is answered with. -/
def Buffer.writeRefusal (q : Buffer) (e : CommandError) : Except Fault Buffer :=
  q.writeError e.code e.message

namespace Engine

/-- What a command leaves: its reply, appended to a buffer, and the engine after it. -/
abbrev Outcome := Except Fault (Buffer × Engine)

/-- Appends zero or one. -/
def writeFlag (q : Buffer) (flag : Bool) : Except Fault Buffer :=
  q.writeInt (if flag then 1 else 0)

/-! ## Strings and keys -/

/-- Answers with the string of a key. -/
def get (e : Engine) (key : Bytes) (out : Buffer) : Outcome := do
  match ← e.find key with
  | (none, e) => return (← out.writeNil, e)
  | (some (_, ⟨_, .str value, _⟩), e) => return (← out.writeStr value, e)
  | (some (_, ⟨_, .set _, _⟩), e) => return (← out.writeRefusal .notString, e)

/-- Gives a key a string, whatever it had before; its deadline stays. -/
def set (e : Engine) (key value : Bytes) (out : Buffer) : Outcome := do
  match ← e.find key with
  | (none, e) => do
    let e ← e.add key (.str value)
    return (← out.writeNil, e)
  | (some (handle, entry), e) =>
    return (← out.writeNil, (e.setData handle (.str value)).dispose entry.data)

/-- Removes a key. -/
def del (e : Engine) (key : Bytes) (out : Buffer) : Outcome := do
  let (entry, keyspace) ← e.keyspace.delete (hashBytes key) (·.key == key)
  let e := { e with keyspace }
  let e := match entry with
    | some entry => e.discard entry
    | none => e
  return (← writeFlag out entry.isSome, e)

/-- Lists the keys. -/
def keys (e : Engine) (out : Buffer) : Outcome := do
  let entries ← e.keyspace.toList
  let out ← out.writeArray e.keyspace.size
  let out ← entries.foldlM (fun out entry => out.writeStr entry.key) out
  return (out, e)

/-- Sets or clears the deadline of a key. -/
def pexpire (e : Engine) (key : Bytes) (ttl : Int) (now : Nat) (out : Buffer) : Outcome := do
  match ← e.find key with
  | (none, e) => return (← writeFlag out false, e)
  | (some (handle, entry), e) =>
    return (← writeFlag out true, e.setTtl handle entry.heapIndex ttl now)

/-- Answers with the milliseconds that a key has left: `-1` if it has no deadline, `-2` if
there is no such key. -/
def pttl (e : Engine) (key : Bytes) (now : Nat) (out : Buffer) : Outcome := do
  match ← e.find key with
  | (none, e) => return (← out.writeInt (-2), e)
  | (some (_, ⟨_, _, none⟩), e) => return (← out.writeInt (-1), e)
  | (some (_, ⟨_, _, some pos⟩), e) =>
    match e.deadlines.items[pos]? with
    | some deadline => return (← out.writeInt (Int64.ofNat (deadline.expiresAt - now)), e)
    | none => throw .outOfRange

/-! ## Sorted sets -/

/-- Adds a member or changes its score.  A missing key gets an empty set first. -/
def zadd (e : Engine) (key : Bytes) (score : Double) (name : Bytes) (out : Buffer) : Outcome := do
  match ← e.findSet key with
  | (.error refusal, e) => return (← out.writeRefusal refusal, e)
  | (.ok (some (handle, members)), e) =>
    let (isNew, members) ← members.insert name score
    return (← writeFlag out isNew, e.setData handle (.set members))
  | (.ok none, e) =>
    let (isNew, members) ← SortedSet.empty.insert name score
    let e ← e.add key (.set members)
    return (← writeFlag out isNew, e)

/-- Looks a member up; the set remembers how far the lookup moved its index. -/
def findMember (e : Engine) (handle : Nat) (members : SortedSet) (name : Bytes) :
    Except Fault (Option Nat × SortedSet × Engine) := do
  let (id, members) ← members.lookup name
  return (id, members, e.setData handle (.set members))

/-- Removes a member.  The key stays, also with an empty set. -/
def zrem (e : Engine) (key name : Bytes) (out : Buffer) : Outcome := do
  match ← e.findSet key with
  | (.error refusal, e) => return (← out.writeRefusal refusal, e)
  | (.ok none, e) => return (← writeFlag out false, e)
  | (.ok (some (handle, members)), e) =>
    match ← e.findMember handle members name with
    | (none, _, e) => return (← writeFlag out false, e)
    | (some id, members, e) =>
      let (_, members) ← members.delete id
      return (← writeFlag out true, e.setData handle (.set members))

/-- Answers with the score of a member. -/
def zscore (e : Engine) (key name : Bytes) (out : Buffer) : Outcome := do
  match ← e.findSet key with
  | (.error refusal, e) => return (← out.writeRefusal refusal, e)
  | (.ok none, e) => return (← out.writeNil, e)
  | (.ok (some (handle, members)), e) =>
    match ← e.findMember handle members name with
    | (none, _, e) => return (← out.writeNil, e)
    | (some id, members, e) => return (← out.writeDouble (← members.member id).score, e)

/-- Answers with the position of a member. -/
def zrank (e : Engine) (key name : Bytes) (out : Buffer) : Outcome := do
  match ← e.findSet key with
  | (.error refusal, e) => return (← out.writeRefusal refusal, e)
  | (.ok none, e) => return (← out.writeNil, e)
  | (.ok (some (handle, members)), e) =>
    match ← e.findMember handle members name with
    | (none, _, e) => return (← out.writeNil, e)
    | (some id, members, e) => return (← out.writeInt (Int64.ofNat (← members.rank id)), e)

/-- Appends names and scores from a node on, until `limit` pairs are written. -/
def writePairs (members : SortedSet) (limit : Int) :
    (steps : Nat) → (at? : Option Nat) → (pairs : Nat) → Buffer → Except Fault (Nat × Buffer)
  | _, none, pairs, out => .ok (pairs, out)
  | steps, some id, pairs, out =>
    if limit ≤ pairs then .ok (pairs, out)
    else match steps with
      | 0 => .error .endlessLinks
      | steps + 1 => do
        let m ← members.member id
        let out ← out.writeStr m.name
        let out ← out.writeDouble m.score
        writePairs members limit steps (← members.successor id) (pairs + 1) out

/-- Lists members in order, from `offset` positions after the first that is not before a
pair.  Their number is filled in at the end. -/
def zquery (e : Engine) (key : Bytes) (score : Double) (name : Bytes) (offset limit : Int)
    (out : Buffer) : Outcome := do
  match ← e.findSet key with
  | (.error refusal, e) => return (← out.writeRefusal refusal, e)
  | (.ok found, e) =>
    let out ← out.openArray
    let (pairs, out) ← match found with
      | none => pure (0, out)
      | some (_, members) => do
        let start ← members.rangeStart score name offset
        writePairs members limit members.tree.stepBound start 0 out
    return (← out.closeArray (pairs * 2), e)

/-- Counts members between two pairs. -/
def zcount (e : Engine) (key : Bytes) (low high : Double × Bytes) (out : Buffer) : Outcome := do
  match ← e.findSet key with
  | (.error refusal, e) => return (← out.writeRefusal refusal, e)
  | (.ok none, e) => return (← out.writeInt 0, e)
  | (.ok (some (_, members)), e) =>
    return (← out.writeInt (Int64.ofNat (← members.countBetween low high)), e)

/-! ## Requests -/

/-- Runs a command. -/
def perform (e : Engine) (command : Command) (now : Nat) (out : Buffer) : Outcome :=
  match command with
  | .get key => e.get key out
  | .set key value => e.set key value out
  | .del key => e.del key out
  | .keys => e.keys out
  | .pexpire key ttl => e.pexpire key ttl now out
  | .pttl key => e.pttl key now out
  | .zadd key score name => e.zadd key score name out
  | .zrem key name => e.zrem key name out
  | .zscore key name => e.zscore key name out
  | .zquery key score name offset limit => e.zquery key score name offset limit out
  | .zrank key name => e.zrank key name out
  | .zcount key low high => e.zcount key low high out

/-- Runs a request and appends its reply. -/
def execute (e : Engine) (args : List Bytes) (now : Nat) (out : Buffer) : Outcome := do
  match Command.parse args with
  | .ok command => e.perform command now out
  | .error refusal => return (← out.writeRefusal refusal, e)

/-- Runs a request and returns its reply as a value. -/
def query (e : Engine) (args : List Bytes) (now : Nat) : Except Fault (Response × Engine) := do
  let (out, e) ← e.execute args now Buffer.empty
  match Response.decode (← out.unread) with
  | .ok value => return (value, e)
  | .error cause => return (Response.error .unknown (Error.protocol cause).message, e)

end Engine

end KeyServer
