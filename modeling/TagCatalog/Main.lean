import TagCatalog.Command.Run

/-! The command line: reads the files that the arguments name, writes a snapshot and prints the
answer. -/

namespace TagCatalog.CommandLine

/-- The variable that names a settings file. -/
def settingsVariable : String := "DINDEX_CONFIG"

def readFile? (path : String) : IO (Option ByteArray) := do
  match ← (IO.FS.readBinFile path).toBaseIO with
  | .ok bytes => return some bytes
  | .error _ => return none

def writeSnapshot (path : String) (s : Snapshot) : IO Bool := do
  match ← (IO.FS.writeFile path s.text).toBaseIO with
  | .ok () => return true
  | .error _ => return false

def fail (f : Failure) : IO UInt32 := do
  IO.eprintln f.message
  return f.exitCode.toUInt32

def report (format : Format) (o : Outcome) : IO UInt32 := do
  let written ← match o.snapshot with
    | some (path, s) => writeSnapshot path s
    | none => pure true
  match o.told written with
  | .ok answer =>
    IO.print (answer.print format)
    return answer.exitCode.toUInt32
  | .error f => fail f

def invoke (i : Invocation) : IO UInt32 := do
  let bare : Environment := { file? := fun _ => none, settingsFile := ← IO.getEnv settingsVariable }
  let read ← (i.files bare).mapM fun path => return (path, ← readFile? path)
  let env := { bare with file? := fun path => (read.lookup path).join }
  match i.run env with
  | .ok o => report i.format o
  | .error f => fail f

end TagCatalog.CommandLine

def main (args : List String) : IO UInt32 :=
  match TagCatalog.Invocation.read? args with
  | some i => TagCatalog.CommandLine.invoke i
  | none => TagCatalog.CommandLine.fail .usage
