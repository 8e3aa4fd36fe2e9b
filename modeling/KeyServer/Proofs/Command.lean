import KeyServer.Command
import KeyServer.Fault
import KeyServer.Proofs.Text.Ascii

/-! # The language of commands

What some arguments mean can be told from the table of commands alone: a row is for so many
arguments with its name in front (`Accepts`), and every position behind the name has a way to be
read (`CommandKind.fields`).  `Parses args r` says so about the outcome `r`, with the errors told by
the code and the words that they are answered with.

* **`CommandKind.resolve?_eq_some_iff`**: the row that is found is the only one for the arguments.
* **`Command.build_eq`**: the parts of a command are the arguments in turn, each read its own way,
  and the first one that cannot be read decides on the error.
* **`Command.parse_eq_iff`**: so arguments are parsed just as the table says.
-/

namespace KeyServer

/-! ## Rows of the table -/

namespace CommandKind

/-- Whether a row of the table is for some arguments: they are as many as it says, and the first
one is its name up to the case of letters. -/
def Accepts (row : String × Nat × CommandKind) (args : List Bytes) : Prop :=
  args.length = row.2.1 ∧
    ∃ name rest, args = name :: rest ∧ List.Forall₂ Ascii.SameLetter name (Ascii.bytes row.1)

variable {row row' : String × Nat × CommandKind} {args : List Bytes}

theorem accepts_iff (hrow : row ∈ table) :
    (row.2.1 == args.length && Ascii.sameLetters (args.headD []) (Ascii.bytes row.1)) = true ↔
      Accepts row args := by
  have hpos : ∀ row ∈ table, row.2.1 ≠ 0 := by decide
  rw [Bool.and_eq_true, beq_iff_eq, Ascii.sameLetters_iff, Accepts, eq_comm]
  cases args with
  | nil => simpa using fun heq => absurd heq.symm (hpos row hrow)
  | cons name rest => simp

/-- **One row at most** is for some arguments, since no two of them have one name. -/
theorem eq_of_accepts (hrow : row ∈ table) (hrow' : row' ∈ table) (h : Accepts row args)
    (h' : Accepts row' args) : row = row' := by
  have hnames : ∀ row ∈ table, ∀ row' ∈ table,
      Ascii.sameLetters (Ascii.bytes row.1) (Ascii.bytes row'.1) = true → row = row' := by
    decide +kernel
  obtain ⟨-, name, rest, rfl, hname⟩ := h
  obtain ⟨-, _, _, ⟨⟩, hname'⟩ := h'
  rw [← Ascii.sameLetters_iff, Ascii.sameLetters, beq_iff_eq] at hname hname'
  apply hnames row hrow row' hrow'
  rw [Ascii.sameLetters, beq_iff_eq, ← hname, hname']

/-- A row that is found is for the arguments. -/
theorem accepts_of_find? (h : (table.find? fun (name, arity, _) => arity == args.length &&
      Ascii.sameLetters (args.headD []) (Ascii.bytes name)) = some row) :
    row ∈ table ∧ Accepts row args := by
  have hrow := List.mem_of_find?_eq_some h
  have hpred := List.find?_some h
  exact ⟨hrow, (accepts_iff hrow).mp hpred⟩

/-- **The command that is found** is the one of the row for the arguments. -/
theorem resolve?_eq_some_iff {kind : CommandKind} :
    resolve? (args.headD []) args.length = some kind ↔
      ∃ row ∈ table, Accepts row args ∧ row.2.2 = kind := by
  rw [resolve?, Option.map_eq_some_iff]
  constructor
  · rintro ⟨row, hfind, rfl⟩
    obtain ⟨hrow, haccepts⟩ := accepts_of_find? hfind
    exact ⟨row, hrow, haccepts, rfl⟩
  · rintro ⟨row, hrow, haccepts, rfl⟩
    cases hfind : table.find? fun (name, arity, _) => arity == args.length &&
        Ascii.sameLetters (args.headD []) (Ascii.bytes name) with
    | none => exact absurd ((accepts_iff hrow).mpr haccepts) (List.find?_eq_none.mp hfind row hrow)
    | some row' =>
      obtain ⟨hrow', haccepts'⟩ := accepts_of_find? hfind
      exact ⟨row', rfl, by rw [eq_of_accepts hrow' hrow haccepts' haccepts]⟩

end CommandKind

/-! ## Arguments -/

/-- No two errors have the same words. -/
theorem CommandError.message_injective {e e' : CommandError} (h : e.message = e'.message) :
    e = e' := by
  cases e <;> cases e' <;> first | rfl | simp [message] at h

namespace Command

theorem score_eq_ok_iff {arg : Bytes} {d : Double} :
    score arg = .ok d ↔ Double.ofBytes? arg = some d ∧ d.isNaN = false := by
  rw [score]
  cases Double.ofBytes? arg with
  | none => simp
  | some d' =>
    dsimp only
    cases hnumber : d'.isNaN with
    | true =>
      rw [if_pos rfl]
      refine ⟨fun h => (by cases h), ?_⟩
      rintro ⟨⟨⟩, hnumber'⟩
      rw [hnumber] at hnumber'
      cases hnumber'
    | false =>
      rw [if_neg Bool.false_ne_true, Except.ok.injEq, Option.some_inj]
      exact ⟨fun heq => ⟨heq, heq ▸ hnumber⟩, fun h => h.1⟩

theorem integer_eq_ok_iff {arg : Bytes} {i : Int} :
    integer arg = .ok i ↔
      Integer.Denotes arg i ∧ -0x8000000000000000 ≤ i ∧ i < 0x8000000000000000 := by
  rw [integer, ← Integer.ofBytes?_eq_some_iff]
  cases Integer.ofBytes? arg <;> simp

/-- A score that cannot be read is refused as no number. -/
theorem eq_of_score_eq_error {arg : Bytes} {e : CommandError} (h : score arg = .error e) :
    e = .expectFloat := by
  unfold score at h
  split at h
  · split at h <;> cases h
    rfl
  · cases h
    rfl

/-- An integer that cannot be read is refused as none. -/
theorem eq_of_integer_eq_error {arg : Bytes} {e : CommandError} (h : integer arg = .error e) :
    e = .expectInt := by
  unfold integer at h
  split at h <;> cases h
  rfl

end Command

/-- How an argument is read. -/
inductive Field where
  | text
  | float
  | int

/-- An argument that has been read. -/
inductive Operand where
  | text (data : Bytes)
  | float (value : Double)
  | int (value : Int)

namespace Field

/-- Whether an argument is read as an operand: a text as it is, a score as a number, an integer if
it fits into a signed 64-bit word. -/
inductive Reads : Field → Bytes → Operand → Prop where
  | text (arg : Bytes) : Reads .text arg (.text arg)
  | float {arg : Bytes} {d : Double} (hdouble : Double.ofBytes? arg = some d)
      (hnumber : d.isNaN = false) : Reads .float arg (.float d)
  | int {arg : Bytes} {i : Int} (hinteger : Integer.Denotes arg i)
      (hlow : -0x8000000000000000 ≤ i) (hhigh : i < 0x8000000000000000) : Reads .int arg (.int i)

/-- Whether an argument cannot be read, and the error that tells so. -/
inductive Refuses : Field → Bytes → CommandError → Prop where
  | float {arg : Bytes} {e : CommandError} (hnone : ∀ operand, ¬Reads .float arg operand)
      (hcode : e.code = .argument) (hmessage : e.message = "expect float") : Refuses .float arg e
  | int {arg : Bytes} {e : CommandError} (hnone : ∀ operand, ¬Reads .int arg operand)
      (hcode : e.code = .argument) (hmessage : e.message = "expect int") : Refuses .int arg e

/-- Whether arguments in turn are read as some operands. -/
inductive ReadsAll : List Field → List Bytes → List Operand → Prop where
  | nil : ReadsAll [] [] []
  | cons {f : Field} {arg : Bytes} {operand : Operand} {fs : List Field} {args : List Bytes}
      {operands : List Operand} (hfirst : f.Reads arg operand)
      (hrest : ReadsAll fs args operands) : ReadsAll (f :: fs) (arg :: args) (operand :: operands)

/-- Whether arguments in turn cannot be read, since one of them cannot and all before it can. -/
def RefusesAll (fs : List Field) (args : List Bytes) (e : CommandError) : Prop :=
  ∃ front f back before arg after read, fs = front ++ f :: back ∧ args = before ++ arg :: after ∧
    ReadsAll front before read ∧ f.Refuses arg e

/-- Reads an argument. -/
def read : Field → Bytes → Except CommandError Operand
  | .text, arg => .ok (.text arg)
  | .float, arg => (Command.score arg).map .float
  | .int, arg => (Command.integer arg).map .int

/-- Reads arguments in turn. -/
def readAll : List Field → List Bytes → Except CommandError (List Operand)
  | f :: fs, arg :: args => do
    let operand ← f.read arg
    (readAll fs args).map (operand :: ·)
  | _, _ => .ok []

variable {f : Field} {fs : List Field} {arg : Bytes} {args : List Bytes} {operand : Operand}
  {operands : List Operand} {e : CommandError}

theorem read_eq_ok_iff : f.read arg = .ok operand ↔ f.Reads arg operand := by
  cases f with
  | text =>
    rw [read, Except.ok.injEq]
    exact ⟨fun heq => heq ▸ .text arg, fun h => by cases h; rfl⟩
  | float =>
    rw [read, map_eq_ok_iff]
    constructor
    · rintro ⟨d, hd, ⟨⟩⟩
      obtain ⟨hdouble, hnumber⟩ := Command.score_eq_ok_iff.mp hd
      exact .float hdouble hnumber
    · intro h
      cases h with
      | float hdouble hnumber =>
        exact ⟨_, Command.score_eq_ok_iff.mpr ⟨hdouble, hnumber⟩, rfl⟩
  | int =>
    rw [read, map_eq_ok_iff]
    constructor
    · rintro ⟨i, hi, ⟨⟩⟩
      obtain ⟨hinteger, hlow, hhigh⟩ := Command.integer_eq_ok_iff.mp hi
      exact .int hinteger hlow hhigh
    · intro h
      cases h with
      | int hinteger hlow hhigh =>
        exact ⟨_, Command.integer_eq_ok_iff.mpr ⟨hinteger, hlow, hhigh⟩, rfl⟩

/-- The words tell which error it is. -/
theorem Refuses.eq {e' : CommandError} (h : f.Refuses arg e) (h' : f.Refuses arg e') : e = e' := by
  have hmessage : e.message = e'.message := by
    cases h with
    | float _ _ hmessage => cases h' with | float _ _ hmessage' => rw [hmessage, hmessage']
    | int _ _ hmessage => cases h' with | int _ _ hmessage' => rw [hmessage, hmessage']
  exact CommandError.message_injective hmessage

/-- What is not read is refused with the error for its field. -/
theorem refuses_of_read_eq_error (h : f.read arg = .error e) : f.Refuses arg e := by
  have hnone : ∀ operand, ¬f.Reads arg operand := by
    intro operand hreads
    rw [read_eq_ok_iff.mpr hreads] at h
    cases h
  cases f with
  | text => cases h
  | float =>
    obtain rfl := Command.eq_of_score_eq_error (map_eq_error_iff.mp h)
    exact .float hnone rfl rfl
  | int =>
    obtain rfl := Command.eq_of_integer_eq_error (map_eq_error_iff.mp h)
    exact .int hnone rfl rfl

/-- **An argument** is refused if it is not read, and only then. -/
theorem read_eq_error_iff : f.read arg = .error e ↔ f.Refuses arg e := by
  refine ⟨refuses_of_read_eq_error, fun h => ?_⟩
  cases hread : f.read arg with
  | ok operand =>
    have hreads := read_eq_ok_iff.mp hread
    cases h with
    | float hnone | int hnone => exact absurd hreads (hnone operand)
  | error e' => rw [h.eq (refuses_of_read_eq_error hread)]

/-- **Arguments in turn** are read if each of them is. -/
theorem readAll_eq_ok_iff : ∀ {fs : List Field} {args : List Bytes} {operands : List Operand},
    args.length = fs.length → (readAll fs args = .ok operands ↔ ReadsAll fs args operands)
  | [], [], operands, _ => by
    constructor
    · rintro ⟨⟩
      exact .nil
    · rintro ⟨⟩
      rfl
  | f :: fs, arg :: args, operands, hlength => by
    have ih : ∀ {operands}, readAll fs args = .ok operands ↔ ReadsAll fs args operands :=
      readAll_eq_ok_iff (Nat.succ.inj hlength)
    simp only [readAll, bind_eq_ok_iff, map_eq_ok_iff, read_eq_ok_iff, ih]
    constructor
    · rintro ⟨operand, hfirst, operands, hrest, ⟨⟩⟩
      exact .cons hfirst hrest
    · intro h
      cases h with
      | cons hfirst hrest => exact ⟨_, hfirst, _, hrest, rfl⟩

/-- **The first argument** that is not read decides on the error. -/
theorem readAll_eq_error_iff : ∀ {fs : List Field} {args : List Bytes},
    args.length = fs.length → (readAll fs args = .error e ↔ RefusesAll fs args e)
  | [], [], _ => by
    constructor
    · intro h
      cases h
    · rintro ⟨front, f, back, before, arg, after, read, hfields, -⟩
      simp at hfields
  | f :: fs, arg :: args, hlength => by
    have ih : readAll fs args = .error e ↔ RefusesAll fs args e :=
      readAll_eq_error_iff (Nat.succ.inj hlength)
    rw [readAll]
    cases hread : f.read arg with
    | error e' =>
      have hrefuses := read_eq_error_iff.mp hread
      rw [error_bind, Except.error.injEq]
      constructor
      · rintro rfl
        exact ⟨[], f, fs, [], arg, args, [], rfl, rfl, .nil, hrefuses⟩
      · rintro ⟨front, f', back, before, arg', after, read, hfields, hargs, hreads, h⟩
        cases hreads with
        | nil =>
          cases hfields
          cases hargs
          exact hrefuses.eq h
        | cons hfirst hrest =>
          cases hfields
          cases hargs
          rw [read_eq_ok_iff.mpr hfirst] at hread
          cases hread
    | ok operand =>
      have hfirst := read_eq_ok_iff.mp hread
      rw [ok_bind, map_eq_error_iff, ih]
      constructor
      · rintro ⟨front, f', back, before, arg', after, read, rfl, rfl, hreads, h⟩
        exact ⟨f :: front, f', back, arg :: before, arg', after, operand :: read, rfl, rfl,
          .cons hfirst hreads, h⟩
      · rintro ⟨front, f', back, before, arg', after, read, hfields, hargs, hreads, h⟩
        cases hreads with
        | nil =>
          cases hfields
          cases hargs
          rw [read_eq_error_iff.mpr h] at hread
          cases hread
        | cons hfirst' hreads =>
          cases hfields
          cases hargs
          exact ⟨_, f', back, _, arg', after, _, rfl, rfl, hreads, h⟩

end Field

/-! ## Commands -/

/-- How the arguments of a command are read. -/
def CommandKind.fields : CommandKind → List Field
  | .keys => []
  | .get | .del | .pttl => [.text]
  | .set | .zrem | .zscore | .zrank => [.text, .text]
  | .pexpire => [.text, .int]
  | .zadd => [.text, .float, .text]
  | .zquery => [.text, .float, .text, .int, .int]
  | .zcount => [.text, .float, .text, .float, .text]

namespace Command

/-- Which command it is. -/
def kind : Command → CommandKind
  | .get _ => .get
  | .set _ _ => .set
  | .del _ => .del
  | .keys => .keys
  | .pexpire _ _ => .pexpire
  | .pttl _ => .pttl
  | .zadd _ _ _ => .zadd
  | .zrem _ _ => .zrem
  | .zscore _ _ => .zscore
  | .zquery _ _ _ _ _ => .zquery
  | .zrank _ _ => .zrank
  | .zcount _ _ _ => .zcount

/-- Its arguments, as they follow its name. -/
def operands : Command → List Operand
  | .keys => []
  | .get key | .del key | .pttl key => [.text key]
  | .set key value => [.text key, .text value]
  | .pexpire key ttl => [.text key, .int ttl]
  | .zadd key score name => [.text key, .float score, .text name]
  | .zrem key name | .zscore key name | .zrank key name => [.text key, .text name]
  | .zquery key score name offset limit =>
    [.text key, .float score, .text name, .int offset, .int limit]
  | .zcount key low high =>
    [.text key, .float low.1, .text low.2, .float high.1, .text high.2]

/-- **A command** is told by its kind and its arguments. -/
theorem eq_of_operands {c c' : Command} (hkind : c.kind = c'.kind)
    (hoperands : c.operands = c'.operands) : c = c' := by
  cases c <;> cases c' <;> cases hkind <;> simp_all [operands, Prod.ext_iff]

/-- A row counts the name and the arguments. -/
theorem arity_eq {row : String × Nat × CommandKind} (hrow : row ∈ CommandKind.table) :
    row.2.1 = row.2.2.fields.length + 1 := by
  revert row
  decide

/-- **Building a command** is reading its arguments in turn. -/
theorem build_eq (kind : CommandKind) {args : List Bytes} (h : args.length = kind.fields.length) :
    (build kind args).map (fun c => (c.kind, c.operands))
      = (Field.readAll kind.fields args).map fun operands => (kind, operands) := by
  cases kind with
  | keys => match args, h with | [], _ => rfl
  | get | del | pttl => match args, h with | [_], _ => rfl
  | set | zrem | zscore | zrank => match args, h with | [_, _], _ => rfl
  | pexpire =>
    match args, h with
    | [key, ttl], _ =>
      simp only [build, CommandKind.fields, Field.readAll, Field.read]
      cases integer ttl <;> rfl
  | zadd =>
    match args, h with
    | [key, value, name], _ =>
      simp only [build, CommandKind.fields, Field.readAll, Field.read]
      cases score value <;> rfl
  | zquery =>
    match args, h with
    | [key, value, name, offset, limit], _ =>
      simp only [build, CommandKind.fields, Field.readAll, Field.read]
      cases score value <;> cases integer offset <;> cases integer limit <;> rfl
  | zcount =>
    match args, h with
    | [key, value₁, name₁, value₂, name₂], _ =>
      simp only [build, CommandKind.fields, Field.readAll, Field.read]
      cases score value₁ <;> cases score value₂ <;> rfl

section Build

variable {kind : CommandKind} {args : List Bytes} (h : args.length = kind.fields.length)

include h

theorem build_eq_ok_iff {c : Command} :
    build kind args = .ok c ↔ c.kind = kind ∧ Field.ReadsAll kind.fields args c.operands := by
  have hbuild := build_eq kind h
  rw [← Field.readAll_eq_ok_iff h]
  constructor
  · intro hc
    rw [hc] at hbuild
    obtain ⟨operands, hread, heq⟩ := map_eq_ok_iff.mp hbuild.symm
    cases heq
    exact ⟨rfl, hread⟩
  · rintro ⟨rfl, hread⟩
    rw [hread] at hbuild
    obtain ⟨c', hc', heq⟩ := map_eq_ok_iff.mp hbuild
    obtain ⟨hkind, hoperands⟩ := Prod.ext_iff.mp heq
    rw [hc', eq_of_operands hkind hoperands]

theorem build_eq_error_iff {e : CommandError} :
    build kind args = .error e ↔ Field.RefusesAll kind.fields args e := by
  rw [← Field.readAll_eq_error_iff h, ← map_eq_error_iff, build_eq kind h, map_eq_error_iff]

end Build

/-! ## Requests -/

/-- What some arguments are parsed to. -/
inductive Parses (args : List Bytes) : Except CommandError Command → Prop where
  /-- No row of the table is for them. -/
  | unknown {e : CommandError} (hnone : ∀ row ∈ CommandKind.table, ¬CommandKind.Accepts row args)
      (hcode : e.code = .unknown) (hmessage : e.message = "unknown command") :
      Parses args (.error e)
  /-- A row is, and the first argument that cannot be read decides on the error. -/
  | refused {row : String × Nat × CommandKind} {e : CommandError}
      (hrow : row ∈ CommandKind.table) (haccepts : CommandKind.Accepts row args)
      (hrefuses : Field.RefusesAll row.2.2.fields args.tail e) : Parses args (.error e)
  /-- A row is, and its command has the arguments at their places. -/
  | command {row : String × Nat × CommandKind} {c : Command}
      (hrow : row ∈ CommandKind.table) (haccepts : CommandKind.Accepts row args)
      (hkind : c.kind = row.2.2) (hreads : Field.ReadsAll row.2.2.fields args.tail c.operands) :
      Parses args (.ok c)

variable {args : List Bytes} {r : Except CommandError Command}

/-- Arguments that no row is for. -/
theorem parse_eq_iff_of_none (hnone : ∀ row ∈ CommandKind.table, ¬CommandKind.Accepts row args) :
    parse args = r ↔ Parses args r := by
  have hresolve : CommandKind.resolve? (args.headD []) args.length = none := by
    rw [Option.eq_none_iff_forall_ne_some]
    intro kind hkind
    obtain ⟨row, hrow, haccepts, -⟩ := CommandKind.resolve?_eq_some_iff.mp hkind
    exact hnone row hrow haccepts
  rw [parse, hresolve]
  constructor
  · rintro rfl
    exact .unknown hnone rfl rfl
  · intro h
    cases h with
    | @unknown e _ _ hmessage =>
      have he : e = .unknownCommand := CommandError.message_injective hmessage
      rw [he]
    | refused hrow haccepts | command hrow haccepts => exact absurd haccepts (hnone _ hrow)

/-- Arguments that a row is for. -/
theorem parse_eq_iff_of_accepts {row : String × Nat × CommandKind} (hrow : row ∈ CommandKind.table)
    (haccepts : CommandKind.Accepts row args) : parse args = r ↔ Parses args r := by
  have hlength : args.tail.length = row.2.2.fields.length := by
    rw [List.length_tail, haccepts.1, arity_eq hrow, Nat.add_sub_cancel]
  rw [parse, CommandKind.resolve?_eq_some_iff.mpr ⟨row, hrow, haccepts, rfl⟩]
  cases r with
  | ok c =>
    rw [build_eq_ok_iff hlength]
    constructor
    · rintro ⟨hkind, hreads⟩
      exact .command hrow haccepts hkind hreads
    · intro h
      cases h with
      | command hrow' haccepts' hkind hreads =>
        obtain rfl := CommandKind.eq_of_accepts hrow hrow' haccepts haccepts'
        exact ⟨hkind, hreads⟩
  | error e =>
    rw [build_eq_error_iff hlength]
    constructor
    · exact fun hrefuses => .refused hrow haccepts hrefuses
    · intro h
      cases h with
      | unknown hnone => exact absurd haccepts (hnone row hrow)
      | refused hrow' haccepts' hrefuses =>
        obtain rfl := CommandKind.eq_of_accepts hrow hrow' haccepts haccepts'
        exact hrefuses

/-- **Arguments are parsed as the table says**, whatever bytes they are: to the error for unknown
commands, to the error of the first argument that cannot be read, or to the command of the row for
them, with each argument at its place. -/
theorem parse_eq_iff (args : List Bytes) (r : Except CommandError Command) :
    parse args = r ↔ Parses args r := by
  by_cases h : ∃ row ∈ CommandKind.table, CommandKind.Accepts row args
  · obtain ⟨row, hrow, haccepts⟩ := h
    exact parse_eq_iff_of_accepts hrow haccepts
  · exact parse_eq_iff_of_none fun row hrow haccepts => h ⟨row, hrow, haccepts⟩

end Command

end KeyServer
