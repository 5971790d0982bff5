/-! # The grammar of command lines

  A command has options and subcommands, and its subcommands may have subcommands of their own. A
  command line is read from left to right:

  - The name of a subcommand moves on to that command; what follows belongs to it.
  - `--name value`, `--name=value`, `-n value`, `-n=value` and `-nvalue` give an option its
    value, `--name` and `-n` set a flag, and short flags may be run together.
  - An argument that starts with a dash is never taken for the value of the option before it,
    but a lone dash is.
  - Behind `--` there may be nothing more.
  - The command `help`, and every option that asks for information, ends the reading at once.

  An option is *held* from when it is named until the next option of the same command, or the end
  of the line. Only then its value is looked at, and the option counted as given. Thus a request for
  help wins over a bad value that is still held.
-/

namespace RuleChain

namespace Grammar

/-! ### Commands -/

/-- What an option is for. -/
inductive Purpose where
  /-- Asks for information; the command itself is not carried out. -/
  | info
  /-- Is set or not. -/
  | flag
  /-- Has a value, which has to be accepted. -/
  | value (accepts : String → Bool)

/-- An option of a command. -/
structure Opt where
  name : String
  /-- The letter that stands for the name. -/
  short : Option Char
  purpose : Purpose
  /-- Whether the command cannot do without it. -/
  isRequired : Bool

/-- A command. If it has subcommands, one of them has to be named. -/
inductive Command where
  | node (name : String) (options : List Opt) (subcommands : List Command)

namespace Command

def name : Command → String
  | .node name _ _ => name

def options : Command → List Opt
  | .node _ options _ => options

def subcommands : Command → List Command
  | .node _ _ subcommands => subcommands

def subcommand? (command : Command) (name : String) : Option Command :=
  command.subcommands.find? (·.name == name)

def long? (command : Command) (name : String) : Option Opt :=
  command.options.find? (·.name == name)

def short? (command : Command) (letter : Char) : Option Opt :=
  command.options.find? (·.short == some letter)

end Command

/-! ### One command of the line -/

/-- Why a command line asks for no task. -/
inductive Refusal where
  /-- It asks for information. -/
  | info
  /-- It does not follow the grammar. -/
  | misuse
deriving DecidableEq, Repr

/-- A command that has been named, with its options so far. -/
structure Level where
  command : Command
  /-- The options that are given; a flag has an empty value. -/
  given : List (String × String)
  /-- The option that is held, and its value if it has come already. -/
  held : Option (Opt × Option String)

namespace Level

def start (command : Command) : Level := ⟨command, [], none⟩

/-- Whether the next argument may be the value of an option. -/
def isWaiting (level : Level) : Bool :=
  match level.held with
  | some (_, none) => true
  | _ => false

/-- Counts an option as given; none may be given twice. -/
def give (level : Level) (opt : Opt) (value : String) : Except Refusal Level :=
  if level.given.any (·.1 == opt.name) then .error .misuse
  else
    let given := { level with given := (opt.name, value) :: level.given }
    match opt.purpose with
    | .value accepts => if accepts value then .ok given else .error .misuse
    | _ => .ok given

/-- Looks at the option that is held. -/
def settle (level : Level) : Except Refusal Level :=
  match level.held with
  | none => .ok level
  | some (_, none) => .error .misuse
  | some (opt, some value) => { level with held := none }.give opt value

/-- Names an option without a value. -/
def mention (level : Level) (opt : Opt) : Except Refusal Level := do
  let level ← level.settle
  match opt.purpose with
  | .info => throw .info
  | .flag => level.give opt ""
  | .value _ => return { level with held := some (opt, none) }

/-- Names an option together with its value. -/
def assign (level : Level) (opt : Opt) (value : String) : Except Refusal Level := do
  match opt.purpose with
  | .value _ => (← level.settle).give opt value
  | _ => throw .misuse

/-- Reads what stands behind two dashes. -/
def readLong (level : Level) (text : List Char) : Except Refusal Level :=
  match level.command.long? (String.ofList (text.takeWhile (· ≠ '='))) with
  | none => .error .misuse
  | some opt =>
    match text.dropWhile (· ≠ '=') with
    | [] => level.mention opt
    | _ :: value => level.assign opt (String.ofList value)

/-- Reads the letters behind one dash. The first that takes a value takes all that follows. -/
def readShort (level : Level) : List Char → Except Refusal Level
  | [] => .ok level
  | letter :: rest =>
    match level.command.short? letter with
    | none => .error .misuse
    | some opt =>
      match opt.purpose, rest with
      | .value _, [] => level.mention opt
      | .value _, '=' :: value => level.assign opt (String.ofList value)
      | .value _, value => level.assign opt (String.ofList value)
      | _, _ => do (← level.mention opt).readShort rest

/-- Reads an argument that is not the name of a subcommand. -/
def read (level : Level) (arg : String) : Except Refusal Level :=
  match arg.toList, level.held with
  | '-' :: '-' :: text, _ => level.readLong text
  | '-' :: c :: text, _ => level.readShort (c :: text)
  | _, some (opt, none) => .ok { level with held := some (opt, some arg) }
  | _, _ => .error .misuse

/-- Looks at the options of a command when the line has ended. -/
def finish (level : Level) : Except Refusal Level := do
  let level ← level.settle
  let isGiven := fun (opt : Opt) => level.given.any (·.1 == opt.name)
  if level.command.options.all fun opt => !opt.isRequired || isGiven opt then return level
  else throw .misuse

end Level

/-! ### The whole line -/

/-- How far a command line has been read. -/
inductive Progress where
  /-- The latest command can be given options, and so it is followed by those before it. -/
  | open (level : Level) (outer : List Level)
  /-- Nothing more may follow. -/
  | closed (level : Level) (outer : List Level)
  /-- Help has been asked for about a command. -/
  | helping (about : Command)

namespace Progress

/-- Reads one argument. -/
def read (progress : Progress) (arg : String) : Except Refusal Progress :=
  match progress with
  | .closed .. => .error .misuse
  | .helping about =>
    match about.subcommand? arg with
    | some command => .ok (.helping command)
    | none => .error .misuse
  | .open level outer =>
    let named := if level.isWaiting then none else level.command.subcommand? arg
    match named with
    | some command =>
      if command.name = "help" then .ok (.helping level.command)
      else .ok (.open (.start command) (level :: outer))
    | none =>
      if arg = "--" then .ok (.closed level outer)
      else (level.read arg).map (.open · outer)

/-- The commands of the line with their options, the latest command first. -/
def finish : Progress → Except Refusal (List Level)
  | .helping _ => .error .info
  | .open level outer => ended level outer
  | .closed level outer => ended level outer
where
  /-- Refuses a line whose latest command lacks a subcommand. -/
  ended (level : Level) (outer : List Level) : Except Refusal (List Level) :=
    if level.command.subcommands.isEmpty then (level :: outer).mapM Level.finish
    else .error .misuse

end Progress

/-- Reads the arguments of a command. -/
def read (command : Command) (args : List String) : Except Refusal (List Level) := do
  (← args.foldlM Progress.read (.open (.start command) [])).finish

/-- The value of an option; of several commands that are given it, the latest counts. -/
def value? (levels : List Level) (name : String) : Option String :=
  levels.findSome? fun level => (level.given.find? (·.1 == name)).map (·.2)

def hasFlag (levels : List Level) (name : String) : Bool := (value? levels name).isSome

end Grammar

end RuleChain
