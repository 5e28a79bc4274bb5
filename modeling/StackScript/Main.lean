import StackScript.CommandLine

/-! The program: it reads the script named on the command line, and runs it with its standard input
and output. Lines are read when the script asks for them, after what it has printed is sent out. -/
namespace StackScript.CommandLine

/-- The content of a file. -/
def readFile (path : String) : IO (Except FileError ByteArray) := do
  try
    return .ok (← IO.FS.readBinFile path)
  catch
    | .noFileOrDirectory .. => return .error .notFound
    | e => return .error (.other (toString e))

/-- Sends out what a machine has written and noted. -/
def send (m : Machine) : IO Machine := do
  let (pending, m) := m.takePending
  unless pending.output.isEmpty do
    let stdout ← IO.getStdout
    stdout.write pending.output
    stdout.flush
  unless pending.diagnostics.isEmpty do IO.eprint pending.diagnostics
  return m

/-- Reads a line with its end from standard input, after the bytes read before. -/
partial def readLine (line : ByteArray) : IO ByteArray := do
  let bytes ← (← IO.getStdin).read 1
  if bytes.isEmpty then return line
  let line := line ++ bytes
  if bytes.toList = [Console.lineEnd] then return line
  readLine line

/-- Takes steps until the run is over. -/
partial def drive (m : Machine) : IO (Halt × Machine) := do
  let m ←
    if m.awaitsLine then do
      let m ← send m
      pure (m.supply (← readLine .empty))
    else pure m
  match Machine.cycle.run m with
  | .ok _ m => drive m
  | .error halt m => return (halt, m)

/-- Runs a source on a machine. -/
def interpret (source : String) (m : Machine) : IO (Machine.Outcome × Machine) := do
  match m.start source with
  | .error (outcome, m) => return (outcome, m)
  | .ok m =>
    let (halt, m) ← drive m
    return m.conclude halt

/-- Carries out the command that the arguments ask for; gives the exit status. -/
def run (args : List String) : IO UInt8 := do
  match parse args with
  | none =>
    IO.eprint usage
    return 2
  | some .version =>
    IO.print versionText
    return 0
  | some (.run path config) =>
    match source path (← readFile path) with
    | .error refusal =>
      IO.eprint refusal.text
      return refusal.status
    | .ok text =>
      let (outcome, m) ← interpret text (Machine.new config {})
      let _ ← send m
      let (status, said) := verdict outcome
      IO.eprint said
      return status

end StackScript.CommandLine

def main (args : List String) : IO UInt32 := do
  return (← StackScript.CommandLine.run args).toUInt32
