import TagCatalog.Command.Answer
import TagCatalog.Settings.File

/-! Running a command: settings are settled first, then the file of events is replayed, and the
answer is read off what the replay leaves. -/

namespace TagCatalog

structure Environment where
  file? : String → Option ByteArray
  /-- The settings file for when none is named. -/
  settingsFile : Option String := none

inductive Failure
  | usage
  | unknownOrder (name : String)
  | halt (h : Halt)

namespace Failure

def ofFault (f : Fault) : Failure := .halt (.fault f)

def message : Failure → String
  | .usage =>
    "Usage: [--format FORMAT] [--verbose] [--config FILE] COMMAND FILE [OPTIONS]\n" ++
      "Commands: replay, stats, query, verify"
  | .unknownOrder name => "Invalid sort: " ++ name
  | .halt (.fault f) => "Error: " ++ f.message
  | .halt .overflow => "Error: a sum is too large for its field"

def exitCode : Failure → Nat
  | .usage => 2
  | .unknownOrder _ => 3
  | .halt (.fault f) => f.exitCode
  | .halt .overflow => 101

end Failure

namespace Environment

variable (env : Environment)

def require (path : String) : Except Failure ByteArray :=
  match env.file? path with
  | some bytes => .ok bytes
  | none => .error (.ofFault .io)

def settings (named : Option String) : Except Failure Settings :=
  match named <|> env.settingsFile with
  | none => .ok {}
  | some path => do
    let bytes ← env.require path
    (Settings.load bytes).mapError .ofFault

def replay (s : Settings) (path : String) : Except Failure Replay := do
  (Replay.run s (← env.require path)).mapError .halt

end Environment

/-- An answer, and a snapshot to be written to a file before it is printed. -/
structure Outcome where
  answer : Answer
  snapshot : Option (String × Snapshot) := none

def Snapshot.text (s : Snapshot) : String := s.toJson.pretty

def Outcome.told (o : Outcome) (written : Bool) : Except Failure Answer :=
  if written then .ok o.answer else .error (.ofFault .io)

namespace Command

/-- The totals of a name, as a tag before as a language. -/
def rowsOfName (totals : Totals) (name : String) : List TopicTotals :=
  [Topic.tag name, Topic.language name].filterMap totals.topic?

def run (env : Environment) (s : Settings) : Command → Except Failure Outcome
  | .replay file snapshot => do
    let r ← env.replay s file
    return ⟨.replay (.ofReplay file r), snapshot.map (·, r.catalog.snapshot)⟩
  | .stats file name limit => do
    let totals := (← env.replay s file).catalog.totals
    let rows := match name with
      | some name => rowsOfName totals name
      | none => totals.topTags limit
    return { answer := .stats rows }
  | .query file q orderName =>
    match SortOrder.ofName? orderName with
    | none => .error (.unknownOrder orderName)
    | some order => do
      let r ← env.replay s file
      let ids ← (q.run s r.ledger.source r.catalog order).mapError .ofFault
      return { answer := .query (ids.filterMap r.ledger.byId?) }
  | .verify file => do
    return { answer := .verify (← env.replay s file).catalog.audit }

end Command

namespace Invocation

def run (env : Environment) (i : Invocation) : Except Failure Outcome := do
  i.command.run env (← env.settings i.settingsFile)

def files (env : Environment) (i : Invocation) : List String :=
  (i.settingsFile <|> env.settingsFile).toList ++ [i.command.file]

end Invocation

end TagCatalog
