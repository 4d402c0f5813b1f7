import LeasedLocks.CommandLine.Run
import Std.Time.DateTime.Timestamp

/-!
The program: hands the command line, the environment, the clock and the
standard input to `Command.run`, and prints what it returns.
-/

namespace LeasedLocks

/-- What the environment has for the options of `serve`. -/
def environmentOf : List ServeOption → IO (List (String × String))
  | [] => return []
  | option :: rest => do
    let others ← environmentOf rest
    match option.environmentKey? with
    | none => return others
    | some key =>
      match ← IO.getEnv key with
      | none => return others
      | some value => return (key, value) :: others

/-- Prints what a run left behind. -/
def report (result : RunResult) : IO UInt32 := do
  (← IO.getStdout).putStr result.output
  if result.complaint != "" then
    (← IO.getStderr).putStrLn ("error: " ++ result.complaint)
  return UInt32.ofNat result.exitCode

end LeasedLocks

open LeasedLocks

def main (arguments : List String) : IO UInt32 := do
  let entries ← environmentOf ServeOption.all
  match Command.ofArguments (fun key => entries.lookup key) arguments with
  | .error e => report (.misuse e.message)
  | .ok command =>
    let bytes ← if command.readsInput then (← IO.getStdin).readBinToEnd else pure .empty
    match String.fromUTF8? bytes with
    | none => report (.failure "Failed to read stdin")
    | some input =>
      let moment ← Std.Time.Timestamp.now
      let now := moment.toMillisecondsSinceUnixEpoch.val.toNat.toUInt64
      report (command.run now input)
