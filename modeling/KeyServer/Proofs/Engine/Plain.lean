import KeyServer.Engine.Execution
import Mathlib.Data.List.AList

/-! # A plain keyspace

What an engine is for, without tables, trees and heaps: a keyspace is a finite map from
keys to values, and a sorted set is a finite map from names to scores.  `Keyspace.reply`
and `Keyspace.after` tell what a command answers and what it leaves.  Two things are left
open: the order in which keys are listed, and deadlines, of which a plain keyspace knows
nothing (`Keyspace.Admits`).
-/

namespace KeyServer

/-! ## Scores -/

/-- The scores of some names. -/
abbrev Scores := AList fun _ : Bytes => Double

namespace Member

/-- The order by score and then by name. -/
def below (a b : Member) : Bool :=
  decide (a.score.key < b.score.key) || a.score.key == b.score.key && decide (a.name < b.name)

theorem below_iff {a b : Member} :
    a.below b = true ↔ a.score.key < b.score.key ∨ a.score.key = b.score.key ∧ a.name < b.name := by
  simp [below]

theorem below_trichotomy (a b : Member) :
    a.below b = true ∨ b.below a = true ∨ a.score.key = b.score.key ∧ a.name = b.name := by
  rw [below_iff, below_iff]
  rcases Int.lt_trichotomy a.score.key b.score.key with hlt | heq | hlt
  · exact .inl (.inl hlt)
  · by_cases hab : a.name < b.name
    · exact .inl (.inr ⟨heq, hab⟩)
    · by_cases hba : b.name < a.name
      · exact .inr (.inl (.inr ⟨heq.symm, hba⟩))
      · exact .inr (.inr ⟨heq, List.le_antisymm (List.not_lt.mp hba) (List.not_lt.mp hab)⟩)
  · exact .inr (.inl (.inl hlt))

theorem below_trans {a b c : Member} (h : a.below b = true) (h' : b.below c = true) :
    a.below c = true := by
  rw [below_iff] at h h' ⊢
  rcases h with hlt | ⟨heq, hlt⟩ <;> rcases h' with hlt' | ⟨heq', hlt'⟩
  · exact .inl (by omega)
  · exact .inl (by omega)
  · exact .inl (by omega)
  · exact .inr ⟨heq.trans heq', List.lt_trans hlt hlt'⟩

end Member

namespace Scores

/-- The members with their scores, in no particular order. -/
def members (s : Scores) : List Member := s.entries.map fun e => ⟨e.1, e.2⟩

/-- The members in order. -/
def sorted (s : Scores) : List Member := s.members.mergeSort fun a b => !b.below a

/-- At most `limit` members, from `offset` positions after the first one that is not below
a given one. -/
def range (s : Scores) (start : Member) (offset limit : Int) : List Member :=
  let first := s.sorted.countP (·.below start)
  if first < s.sorted.length ∧ 0 ≤ first + offset then
    (s.sorted.drop (first + offset).toNat).take limit.toNat
  else []

end Scores

/-! ## Keys -/

/-- The value of a key. -/
inductive Value where
  | str (data : Bytes)
  | set (scores : Scores)

/-- The values of some keys. -/
abbrev Keyspace := AList fun _ : Bytes => Value

namespace Keyspace

/-- Zero or one. -/
def flag (b : Bool) : Response := .int (if b then 1 else 0)

/-- The answer to a command that is refused. -/
def refusal (e : CommandError) : Response := .error e.code e.message

/-- The sorted set of a key.  A missing key has an empty one, a string is refused. -/
def scores (m : Keyspace) (key : Bytes) : Except CommandError Scores :=
  match m.lookup key with
  | none => .ok ∅
  | some (.set s) => .ok s
  | some (.str _) => .error .notSortedSet

/-- An answer about the sorted set of a key. -/
def onScores (m : Keyspace) (key : Bytes) (answer : Scores → Response) : Response :=
  match m.scores key with
  | .ok s => answer s
  | .error e => refusal e

section OnScores

variable {m : Keyspace} {key : Bytes} (answer : Scores → Response)

theorem onScores_none (h : m.lookup key = none) : m.onScores key answer = answer ∅ := by
  simp [onScores, scores, h]

theorem onScores_str {data : Bytes} (h : m.lookup key = some (.str data)) :
    m.onScores key answer = refusal .notSortedSet := by
  simp [onScores, scores, h]

theorem onScores_set {s : Scores} (h : m.lookup key = some (.set s)) :
    m.onScores key answer = answer s := by
  simp [onScores, scores, h]

end OnScores

/-- What a command answers. -/
def reply (m : Keyspace) : Command → Response
  | .get key =>
    match m.lookup key with
    | none => .nil
    | some (.str data) => .str data
    | some (.set _) => refusal .notString
  | .set _ _ => .nil
  | .del key => flag (m.lookup key).isSome
  | .keys => .arr (m.keys.map .str)
  | .pexpire key _ => flag (m.lookup key).isSome
  | .pttl _ => .int (-2)
  | .zadd key _ name => m.onScores key fun s => flag (s.lookup name).isNone
  | .zrem key name => m.onScores key fun s => flag (s.lookup name).isSome
  | .zscore key name => m.onScores key fun s => (s.lookup name).elim .nil .dbl
  | .zrank key name => m.onScores key fun s =>
    (s.sorted.findIdx? (·.name == name)).elim .nil fun n => .int (Int64.ofNat n)
  | .zcount key low high => m.onScores key fun s =>
    .int (Int64.ofNat
      (s.members.countP fun e => !e.below ⟨low.2, low.1⟩ && e.below ⟨high.2, high.1⟩))
  | .zquery key score name offset limit => m.onScores key fun s =>
    .arr ((s.range ⟨name, score⟩ offset limit).flatMap fun e => [.str e.name, .dbl e.score])

/-- What a command leaves. -/
def after (m : Keyspace) : Command → Keyspace
  | .set key data => m.insert key (.str data)
  | .del key => m.erase key
  | .zadd key score name =>
    match m.scores key with
    | .ok s => m.insert key (.set (s.insert name score))
    | .error _ => m
  | .zrem key name =>
    match m.lookup key with
    | some (.set s) => m.insert key (.set (s.erase name))
    | _ => m
  | _ => m

/-- Whether a command may be answered so: keys are listed in any order, and how long a key
will live is anyone's guess. -/
def Admits (m : Keyspace) (command : Command) (v : Response) : Prop :=
  match command with
  | .keys => ∃ keys : List Bytes, keys.Perm m.keys ∧ v = .arr (keys.map .str)
  | .pttl key => (m.lookup key = none → v = m.reply command) ∧ ∃ n, v = .int n
  | _ => v = m.reply command

/-- Whether a request may be answered so. -/
def AdmitsRequest (m : Keyspace) (args : List Bytes) (v : Response) : Prop :=
  match Command.parse args with
  | .ok command => m.Admits command v
  | .error e => v = refusal e

/-- What a request leaves. -/
def afterRequest (m : Keyspace) (args : List Bytes) : Keyspace :=
  match Command.parse args with
  | .ok command => m.after command
  | .error _ => m

/-- Without some keys. -/
def eraseAll (m : Keyspace) (keys : List Bytes) : Keyspace :=
  keys.foldl (fun m key => m.erase key) m

end Keyspace

/-! ## Runs -/

/-- What can happen to an engine. -/
inductive Event where
  /-- A request, at some time. -/
  | request (args : List Bytes) (now : Nat)
  /-- A sweep removes keys whose deadline has come. -/
  | sweep (now : Nat)

/-- What may be answered to the requests of a run, and what the run leaves.  A plain keyspace
leaves it to the sweeps which keys they remove. -/
inductive Keyspace.Runs : Keyspace → List Event → List Response → Keyspace → Prop where
  | nil (m : Keyspace) : Runs m [] [] m
  | request {m m' : Keyspace} {args : List Bytes} {v : Response} {events : List Event}
      {vs : List Response} (now : Nat) (hv : m.AdmitsRequest args v)
      (hrest : Runs (m.afterRequest args) events vs m') :
      Runs m (.request args now :: events) (v :: vs) m'
  | sweep {m m' : Keyspace} {events : List Event} {vs : List Response} (now : Nat)
      {gone : List Bytes} (hgone : ∀ key ∈ gone, key ∈ m)
      (hrest : Runs (m.eraseAll gone) events vs m') : Runs m (.sweep now :: events) vs m'

end KeyServer
