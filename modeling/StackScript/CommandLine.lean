import StackScript.Machine.Session

/-! The command line: which script to run and how, and what the program says and answers when it
ends. -/
namespace StackScript.CommandLine

def programName : String := "uwu"
def version : String := "0.1.0"

/-- What is said when the version is asked for. -/
def versionText : String := programName ++ " " ++ version ++ "\n"

/-- The extension of script files. -/
def scriptExtension : String := "uwu"

def usage : String :=
  "usage: " ++ programName ++ " [-p|--print-code] [-e|--trace-execution] [-V|--version] SCRIPT\n"

inductive Command
  | version
  | run (path : String) (config : Config)
  deriving DecidableEq, Repr

/-- The options and the path met so far. -/
structure Arguments where
  config : Config := {}
  path : Option String := none
  version : Bool := false

/-- Takes a switch written with one letter. -/
def Arguments.letter (p : Arguments) : Char → Option Arguments
  | 'p' => some { p with config := { p.config with printCode := true } }
  | 'e' => some { p with config := { p.config with traceExecution := true } }
  | 'V' => some { p with version := true }
  | _ => none

/-- Takes an argument that is not a switch. -/
def Arguments.word (p : Arguments) (word : String) : Option Arguments :=
  match p.path with
  | none => some { p with path := some word }
  | some _ => none

def Arguments.argument (p : Arguments) (arg : String) : Option Arguments :=
  if arg = "--print-code" then p.letter 'p'
  else if arg = "--trace-execution" then p.letter 'e'
  else if arg = "--version" then p.letter 'V'
  else
    match arg.toList with
    | '-' :: '-' :: _ => none
    | '-' :: c :: letters => (c :: letters).foldlM Arguments.letter p
    | _ => p.word arg

/-- What the arguments ask for, if they make sense. -/
def parse (args : List String) : Option Command := do
  let p ← args.foldlM Arguments.argument {}
  if p.version then some .version else p.path.map (.run · p.config)

/-- The last part of a path, unless that goes up. -/
def fileName? (path : String) : Option String :=
  ((path.splitOn "/").filter fun part => part ≠ "" ∧ part ≠ ".").getLast?.filter (· ≠ "..")

/-- What follows the last point of a file name, unless the name starts with that point. -/
def extension? (path : String) : Option String := do
  match (← fileName? path).splitOn "." with
  | [] | [_] | ["", _] => none
  | parts => parts.getLast?

/-- Why a script cannot be read. -/
inductive FileError
  | notFound
  | notText
  | other (text : String)
  deriving DecidableEq, Repr

def FileError.message : FileError → String
  | notFound => "No such file or directory (os error 2)"
  | notText => "stream did not contain valid UTF-8"
  | other text => text

/-- Why nothing is run. -/
inductive Refusal
  | notScript (path : String)
  | unreadable (path : String) (error : FileError)
  deriving DecidableEq, Repr

def Refusal.text : Refusal → String
  | notScript path => "error: '" ++ path ++ "' is not a '." ++ scriptExtension ++ "' file\n"
  | unreadable path error =>
    "error: unable to read file \"" ++ path ++ "\": " ++ error.message ++ "\n"

def Refusal.status : Refusal → UInt8
  | notScript _ => 66
  | unreadable _ _ => 67

/-- The source in a file, whose content is only looked at if the path is that of a script. -/
def source (path : String) (content : Except FileError ByteArray) : Except Refusal String :=
  if extension? path ≠ some scriptExtension then .error (.notScript path)
  else
    match content with
    | .error error => .error (.unreadable path error)
    | .ok bytes =>
      match String.fromUTF8? bytes with
      | some text => .ok text
      | none => .error (.unreadable path .notText)

/-- The exit status after a run, and what is said about it. -/
def verdict : Machine.Outcome → UInt8 × String
  | .ok => (0, "")
  | .failure (.rejected errors) => (70, (Failure.rejected errors).text ++ "\n")
  | .failure (.failed error trace) => (71, (Failure.failed error trace).text ++ "\n")
  | .stuck _ => (101, "")

/-- What a run of the program leaves: its exit status and what it has written. -/
structure Result where
  status : UInt8
  output : ByteArray
  diagnostics : String

/-- Carries out a command, given the content of the file it names and the input of the program; a
script runs for at most a number of steps. -/
def execute (steps : Nat) (content : Except FileError ByteArray) (input : List UInt8) :
    Command → Option Result
  | .version => some ⟨0, versionText.toUTF8, ""⟩
  | .run path config =>
    match source path content with
    | .error refusal => some ⟨refusal.status, .empty, refusal.text⟩
    | .ok text => do
      let (outcome, m) ← (Machine.new config { input }).interpret steps text
      let (status, said) := verdict outcome
      some ⟨status, m.console.output, m.console.diagnostics ++ said⟩

end StackScript.CommandLine
