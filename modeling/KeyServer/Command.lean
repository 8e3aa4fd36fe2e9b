import KeyServer.Double.Numeral
import KeyServer.Error
import KeyServer.Text.Integer

/-!
# Commands

A request is a list of arguments of which the first is the name of a command.
`CommandKind.table` lists the names with the number of arguments they take; a name matches
up to the case of its letters.  `Command.parse` turns the arguments into a command, and
reports the first numeric argument that is no numeral.
-/

namespace KeyServer

/-- The commands there are. -/
inductive CommandKind where
  | get
  | set
  | del
  | keys
  | pexpire
  | pttl
  | zadd
  | zrem
  | zscore
  | zquery
  | zrank
  | zcount
  deriving DecidableEq, Repr

namespace CommandKind

/-- Each command with its name and the number of its arguments, the name included. -/
def table : List (String × Nat × CommandKind) :=
  [("get", 2, get), ("set", 3, set), ("del", 2, del), ("keys", 1, keys),
    ("pexpire", 3, pexpire), ("pttl", 2, pttl), ("zadd", 4, zadd), ("zrem", 3, zrem),
    ("zscore", 3, zscore), ("zquery", 6, zquery), ("zrank", 3, zrank), ("zcount", 6, zcount)]

/-- The command with a given name and number of arguments. -/
def resolve? (name : Bytes) (args : Nat) : Option CommandKind :=
  (table.find? fun (n, arity, _) => arity == args && Ascii.sameLetters name (Ascii.bytes n)).map
    fun (_, _, kind) => kind

end CommandKind

/-- A command with its arguments. -/
inductive Command where
  /-- Reads a string. -/
  | get (key : Bytes)
  /-- Stores a string. -/
  | set (key value : Bytes)
  /-- Removes a key. -/
  | del (key : Bytes)
  /-- Lists the keys. -/
  | keys
  /-- Lets a key live for some milliseconds, or for ever if they are negative. -/
  | pexpire (key : Bytes) (ttl : Int)
  /-- Asks how long a key will live. -/
  | pttl (key : Bytes)
  /-- Adds a member to a sorted set, or gives it a new score. -/
  | zadd (key : Bytes) (score : Double) (name : Bytes)
  /-- Removes a member. -/
  | zrem (key name : Bytes)
  /-- Asks for the score of a member. -/
  | zscore (key name : Bytes)
  /-- Lists at most `limit` members, from the one `offset` places after the first that is
  not before `(score, name)`. -/
  | zquery (key : Bytes) (score : Double) (name : Bytes) (offset limit : Int)
  /-- Asks for the place of a member in the order. -/
  | zrank (key name : Bytes)
  /-- Counts the members from one pair up to, and without, another. -/
  | zcount (key : Bytes) (low high : Double × Bytes)
  deriving DecidableEq, Repr

namespace Command

/-- Reads a score, which is a number. -/
def score (arg : Bytes) : Except CommandError Double :=
  match Double.ofBytes? arg with
  | some d => if d.isNaN then .error .expectFloat else .ok d
  | none => .error .expectFloat

/-- Reads an integer. -/
def integer (arg : Bytes) : Except CommandError Int :=
  match Integer.ofBytes? arg with
  | some i => .ok i
  | none => .error .expectInt

/-- Builds a command from the arguments after its name. -/
def build : CommandKind → List Bytes → Except CommandError Command
  | .get, [key] => .ok (.get key)
  | .set, [key, value] => .ok (.set key value)
  | .del, [key] => .ok (.del key)
  | .keys, [] => .ok .keys
  | .pexpire, [key, ttl] => return .pexpire key (← integer ttl)
  | .pttl, [key] => .ok (.pttl key)
  | .zadd, [key, value, name] => return .zadd key (← score value) name
  | .zrem, [key, name] => .ok (.zrem key name)
  | .zscore, [key, name] => .ok (.zscore key name)
  | .zquery, [key, value, name, offset, limit] => do
    let value ← score value
    let offset ← integer offset
    let limit ← integer limit
    return .zquery key value name offset limit
  | .zrank, [key, name] => .ok (.zrank key name)
  | .zcount, [key, value₁, name₁, value₂, name₂] => do
    let value₁ ← score value₁
    let value₂ ← score value₂
    return .zcount key (value₁, name₁) (value₂, name₂)
  | _, _ => .error .unknownCommand

/-- The command that some arguments stand for. -/
def parse (args : List Bytes) : Except CommandError Command :=
  match CommandKind.resolve? (args.headD []) args.length with
  | some kind => build kind args.tail
  | none => .error .unknownCommand

end Command

end KeyServer
