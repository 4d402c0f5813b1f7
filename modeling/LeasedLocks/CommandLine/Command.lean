import LeasedLocks.CommandLine.Argument
import LeasedLocks.Duration

/-!
# Commands

What the command line can ask for, and how it is read. Reading stops at the
first word that is wrong.
-/

namespace LeasedLocks

/-- An option of the command that starts the service. Each takes a value. -/
inductive ServeOption where
  /-- The number to listen on. -/
  | socket
  /-- The address to listen on. -/
  | host
  /-- The lease of nodes that set none, in seconds. -/
  | defaultLease
  /-- The time between two sweeps, in seconds. -/
  | sweepInterval
  deriving DecidableEq, Repr

namespace ServeOption

def all : List ServeOption := [socket, host, defaultLease, sweepInterval]

def name : ServeOption → String
  | socket => "port"
  | host => "host"
  | defaultLease => "default-auto-unlock-secs"
  | sweepInterval => "reap-interval-secs"

def letter? : ServeOption → Option Char
  | socket => some 'p'
  | _ => none

/-- The variable of the environment that is used where the option is not. -/
def environmentKey? : ServeOption → Option String
  | socket => none
  | host => none
  | defaultLease => some "LATCH_DEFAULT_AUTO_UNLOCK_SECS"
  | sweepInterval => some "LATCH_REAP_INTERVAL_SECS"

def ofName? (s : String) : Option ServeOption := all.find? (·.name == s)

def ofLetter? (c : Char) : Option ServeOption := all.find? (·.letter? == some c)

end ServeOption

/-- Why a command line is not understood. -/
inductive UsageError where
  | missingCommand
  | unknownCommand (word : String)
  | unexpected (word : String)
  | missingValue (option : ServeOption)
  | invalidValue (option : ServeOption) (value : String)
  | repeated (option : ServeOption)
  deriving DecidableEq, Repr

def UsageError.message : UsageError → String
  | missingCommand => "a command is required"
  | unknownCommand word => "there is no command '" ++ word ++ "'"
  | unexpected word => "'" ++ word ++ "' is not expected here"
  | missingValue option => "--" ++ option.name ++ " needs a value"
  | invalidValue option value =>
    "'" ++ value ++ "' is not a value for --" ++ option.name
  | repeated option => "--" ++ option.name ++ " is given more than once"

/-- How the service is to be started. -/
structure ServeSettings where
  socket : Nat
  host : String
  defaultLease : Duration
  sweepInterval : Duration
  deriving DecidableEq, Repr

/-- The values of the options of `serve` that are known so far. -/
structure ServeSettings.Draft where
  socket : Option Nat := none
  host : Option String := none
  defaultLease : Option Nat := none
  sweepInterval : Option Nat := none
  deriving DecidableEq, Repr

namespace ServeSettings.Draft

def isSet (d : Draft) : ServeOption → Bool
  | .socket => d.socket.isSome
  | .host => d.host.isSome
  | .defaultLease => d.defaultLease.isSome
  | .sweepInterval => d.sweepInterval.isSome

/-- The draft with one more value, if the value suits the option. -/
def put? (d : Draft) (value : String) : ServeOption → Option Draft
  | .socket => (word16? value).map fun n => { d with socket := some n }
  | .host => some { d with host := some value }
  | .defaultLease => (word64? value).map fun n => { d with defaultLease := some n }
  | .sweepInterval => (word64? value).map fun n => { d with sweepInterval := some n }

/-- Takes over a value that was given for an option. -/
def choose (d : Draft) (option : ServeOption) (value : String) : Except UsageError Draft :=
  if d.isSet option then .error (.repeated option)
  else
    match d.put? value option with
    | some d => .ok d
    | none => .error (.invalidValue option value)

/-- Takes over what the environment has for options that were not given. -/
def fillIn (environment : String → Option String) (d : Draft) :
    List ServeOption → Except UsageError Draft
  | [] => .ok d
  | option :: rest =>
    match if d.isSet option then none else option.environmentKey?.bind environment with
    | none => d.fillIn environment rest
    | some value =>
      match d.put? value option with
      | some d => d.fillIn environment rest
      | none => .error (.invalidValue option value)

/-- The settings of a draft, with the usual values for what is not known. -/
def finish (d : Draft) : ServeSettings where
  socket := d.socket.getD 3200
  host := d.host.getD "0.0.0.0"
  defaultLease := .ofSeconds (d.defaultLease.getD 3600)
  sweepInterval := .ofSeconds (d.sweepInterval.getD 30)

end ServeSettings.Draft

/-- What a word after `serve` is. -/
inductive ServeWord where
  | help
  | separator
  /-- An option, with a value if there is one in the same word. -/
  | named (option : ServeOption) (value : Option String)
  | other
  deriving DecidableEq, Repr

def ServeWord.ofText (word : String) : ServeWord :=
  match Argument.ofText word with
  | .long "help" none => .help
  | .short 'h' _ => .help
  | .separator => .separator
  | .long name value =>
    match ServeOption.ofName? name with
    | some option => .named option value
    | none => .other
  | .short letter rest =>
    match ServeOption.ofLetter? letter with
    | some option => .named option (Argument.attached? rest)
    | none => .other
  | .plain _ => .other

/-- What the command line asks for. -/
inductive Command where
  /-- Start the service. -/
  | serve (settings : ServeSettings)
  /-- Answer a message against an empty table. -/
  | check
  /-- Tell the version and what the program is for. -/
  | version
  /-- Tell the version only. -/
  | versionNumber
  | help
  deriving DecidableEq, Repr

namespace Command

/-- Reads what follows a command that takes nothing. -/
def alone (command : Command) : List String → Except UsageError Command
  | [] => .ok command
  | word :: rest =>
    match Argument.ofText word, rest with
    | .long "help" none, _ => .ok .help
    | .short 'h' _, _ => .ok .help
    | .separator, [] => .ok command
    | .separator, extra :: _ => .error (.unexpected extra)
    | _, _ => .error (.unexpected word)

/-- The settings to start with once the words are read. -/
def serveAs (environment : String → Option String) (d : ServeSettings.Draft) :
    Except UsageError Command :=
  match d.fillIn environment ServeOption.all with
  | .error e => .error e
  | .ok d => .ok (.serve d.finish)

/-- Reads what follows `serve`. -/
def serveWith (environment : String → Option String) (d : ServeSettings.Draft) :
    List String → Except UsageError Command
  | [] => serveAs environment d
  | word :: rest =>
    match ServeWord.ofText word, rest with
    | .other, _ => .error (.unexpected word)
    | .help, _ => .ok .help
    | .separator, [] => serveAs environment d
    | .separator, extra :: _ => .error (.unexpected extra)
    | .named option (some value), rest =>
      match d.choose option value with
      | .error e => .error e
      | .ok d => serveWith environment d rest
    | .named option none, [] => .error (.missingValue option)
    | .named option none, value :: rest =>
      match Argument.value? value with
      | none => .error (.missingValue option)
      | some value =>
        match d.choose option value with
        | .error e => .error e
        | .ok d => serveWith environment d rest

/-- The words after `help`: at most the name of one command. -/
def helpOn : List String → Except UsageError Command
  | [] => .ok .help
  | word :: rest =>
    if ["serve", "check", "version", "help"].contains word then
      match rest with
      | [] => .ok .help
      | extra :: _ => .error (.unknownCommand extra)
    else .error (.unknownCommand word)

/-- Reads a command line. -/
def ofArguments (environment : String → Option String) :
    List String → Except UsageError Command
  | [] => .error .missingCommand
  | word :: rest =>
    match Argument.ofText word with
    | .long "help" none => .ok .help
    | .long "version" none => .ok .versionNumber
    | .short 'h' _ => .ok .help
    | .short 'V' _ => .ok .versionNumber
    | .plain "serve" => serveWith environment {} rest
    | .plain "check" => alone .check rest
    | .plain "version" => alone .version rest
    | .plain "help" => helpOn rest
    | .plain _ => .error (.unknownCommand word)
    | _ => .error (.unexpected word)

end Command

end LeasedLocks
