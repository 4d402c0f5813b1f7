import LeasedLocks.Authority
import LeasedLocks.CommandLine.Command
import LeasedLocks.Version
import LeasedLocks.Wire.Message

/-!
# Running a command

What a command prints and how it ends. Listening for connections is not done
here: `serve` only has its settings looked at.
-/

namespace LeasedLocks

/-- How a run of the program ended, and what it printed. -/
structure RunResult where
  exitCode : Nat
  output : String
  complaint : String
  deriving DecidableEq, Repr

namespace RunResult

def success (output : String) : RunResult := ⟨0, output, ""⟩

/-- A command that was understood but failed. -/
def failure (complaint : String) : RunResult := ⟨1, "", complaint⟩

/-- A command line that was not understood. -/
def misuse (complaint : String) : RunResult := ⟨2, "", complaint⟩

end RunResult

namespace Command

/-- The program and its version. -/
def title : String := "latch " ++ LeasedLocks.version

def usage : String := "\n".intercalate [
  "Latch: all-or-nothing locking of linked objects",
  "",
  "Usage: latch <COMMAND>",
  "",
  "Commands:",
  "  serve    Start the Latch HTTP lock server",
  "  check    Evaluate a JSON lock request message (stdin) against an empty table",
  "  version  Print version information",
  "  help     Print this message",
  "",
  "Options:",
  "  -h, --help     Print help",
  "  -V, --version  Print version",
  ""]

/-- The answers to the requests of a message, asked of an empty table. -/
def checkMessage (now : Millis) (input : String) : RunResult :=
  match Json.parse (Message.requests Json.maxDepth) input with
  | .error _ => .failure "Invalid JSON lock request message"
  | .ok rs =>
    match ((Authority.ofTable {} ∅).requestAll rs now).1 with
    | .error e => .failure e.message
    | .ok replies => .success ((Message.repliesToJson replies).pretty ++ "\n")

/-- Whether the command reads the standard input. -/
def readsInput : Command → Bool
  | check => true
  | _ => false

/-- Runs a command. -/
def run (now : Millis) (input : String) : Command → RunResult
  | serve settings =>
    if settings.sweepInterval.isZero then
      .failure "--reap-interval-secs must be greater than 0"
    else .failure ("Failed to bind " ++ settings.host ++ ":" ++ toString settings.socket)
  | check => checkMessage now input
  | version => .success (title ++ "\nAll-or-nothing object locking with leased expiry\n")
  | versionNumber => .success (title ++ "\n")
  | help => .success usage

/-- Runs a command line, or tells why it is not understood. -/
def runArguments (environment : String → Option String) (arguments : List String)
    (now : Millis) (input : String) : RunResult :=
  match ofArguments environment arguments with
  | .error e => .misuse e.message
  | .ok command => command.run now input

end Command

end LeasedLocks
