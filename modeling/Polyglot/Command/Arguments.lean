import Polyglot.Language
import Polyglot.Path

/-!
# Command lines

`Request.ofArguments` reads the arguments of the program from left to right. The first word
that is not an option names the command; options may stand anywhere behind it, in long form,
in short form, or with several short ones in a row; after `--` nothing is an option. Reading
stops at the first argument that is wrong, and at a call for help. What is missing, and what
does not go together, is found at the end.
-/

set_option autoImplicit false

namespace Polyglot

/-- How the chain for a file is chosen: by a configuration file and a chain name, or by one
language. -/
structure ChainChoice where
  config : Option Path
  chain : Option String
  language : Option Language
deriving DecidableEq, Repr

/-- What the program can do. -/
inductive Command where
  | tree (file : Path) (choice : ChainChoice) (nested : Bool)
  | query (file : Path) (target : Language) (pattern : String) (choice : ChainChoice)
  | check (paths : List Path) (config : Option Path) (json : Bool) (jobs : Option Nat)
deriving DecidableEq, Repr

/-- The name of a command. -/
inductive Verb where
  | tree
  | query
  | check
deriving DecidableEq, Repr

/-- The command of a name. -/
def Verb.ofName? : String → Option Verb
  | "tree" => some .tree
  | "query" => some .query
  | "check" => some .check
  | _ => none

/-- Why a command line is refused. -/
inductive UsageError where
  | noCommand
  | unknownCommand (name : String)
  | unexpected (argument : String)
  | missingValue (option : String)
  | invalidValue (option value : String)
  | repeated (option : String)
  | conflict (first second : String)
  | missing (what : String)
deriving DecidableEq, Repr

/-- The message for a command line that is refused. -/
def UsageError.message : UsageError → String
  | .noCommand => "a command is needed: tree, query or check"
  | .unknownCommand name => "unknown command '" ++ name ++ "'"
  | .unexpected argument => "unexpected argument '" ++ argument ++ "'"
  | .missingValue option => "a value is needed for '" ++ option ++ "'"
  | .invalidValue option value => "invalid value '" ++ value ++ "' for '" ++ option ++ "'"
  | .repeated option => "'" ++ option ++ "' cannot be given more than once"
  | .conflict first second => "'" ++ first ++ "' cannot be used with '" ++ second ++ "'"
  | .missing what => "'" ++ what ++ "' is required"

/-- What a command line asks for. -/
inductive Request where
  | run (verbosity : Nat) (command : Command)
  | help
  | version
  | refused (cause : UsageError)
deriving DecidableEq, Repr

/-- What was given so far, whatever the command. -/
structure Given where
  verbosity : Nat
  paths : List Path
  config : Option Path
  chain : Option String
  language : Option Language
  target : Option Language
  pattern : Option String
  jobs : Option Nat
  nested : Bool
  json : Bool

namespace Given

/-- Before the first argument. -/
def nothing : Given :=
  ⟨0, [], none, none, none, none, none, none, false, false⟩

end Given

/-- What an option does: it changes what was given, it does so with a value, or it ends the
reading. -/
inductive OptionEffect where
  | flag (raise : Given → Except UsageError Given)
  | value (store : String → Given → Except UsageError Given)
  | stop (request : Request)

/-- An option and its names. -/
structure OptionForm where
  long : String
  short : Option Char
  effect : OptionEffect

namespace OptionForm

/-- An option with a value, which may be given once. -/
def valued {α : Type} (long : String) (short : Option Char) (read : String → Option α)
    (old : Given → Option α) (put : Given → Option α → Given) : OptionForm :=
  ⟨long, short, .value fun text g =>
    if (old g).isSome then .error (.repeated long)
    else match read text with
      | some a => .ok (put g (some a))
      | none => .error (.invalidValue long text)⟩

/-- An option without a value, which may be given once. -/
def flagged (long : String) (old : Given → Bool) (put : Given → Given) : OptionForm :=
  ⟨long, none, .flag fun g => if old g then .error (.repeated long) else .ok (put g)⟩

end OptionForm

/-- A path; it cannot be empty. -/
def Path.ofArgument? (text : String) : Option Path :=
  if text == "" then none else some ⟨text⟩

/-- A number of jobs: digits with or without a plus sign, for a number below `2 ^ 64`. -/
def jobCount? (text : String) : Option Nat :=
  let digits := match text.toList with
    | '+' :: rest => rest
    | all => all
  let n := digits.foldl (fun n c => 10 * n + (c.toNat - '0'.toNat)) 0
  if digits.isEmpty || !digits.all Char.isDigit || Nat.pow 2 64 ≤ n then none else some n

namespace Verb

/-- The option for a configuration file. -/
def configOption : OptionForm :=
  .valued "config" (some 'c') Path.ofArgument? (·.config) fun g a => { g with config := a }

/-- The options that choose a chain. -/
def chainOptions : List OptionForm :=
  [configOption,
    .valued "chain" none some (·.chain) fun g a => { g with chain := a },
    .valued "lang" none (fun s => (Language.parse s).toOption) (·.language)
      fun g a => { g with language := a }]

/-- The options that belong to one command. -/
def ownOptions : Verb → List OptionForm
  | .tree => .flagged "sexp" (·.nested) (fun g => { g with nested := true }) :: chainOptions
  | .query =>
    [.valued "target" (some 't') (fun s => (Language.parse s).toOption) (·.target)
        fun g a => { g with target := a },
      .valued "pattern" (some 'p') some (·.pattern) fun g a => { g with pattern := a }] ++
      chainOptions
  | .check =>
    [configOption,
      .flagged "json" (·.json) (fun g => { g with json := true }),
      .valued "jobs" (some 'j') jobCount? (·.jobs) fun g a => { g with jobs := a }]

/-- The options that go with a command, or with none yet. -/
def options (verb : Option Verb) : List OptionForm :=
  ⟨"verbose", some 'v', .flag fun g => .ok { g with verbosity := g.verbosity + 1 }⟩ ::
    ⟨"help", some 'h', .stop .help⟩ ::
    match verb with
    | none => [⟨"version", some 'V', .stop .version⟩]
    | some v => v.ownOptions

/-- Whether the command takes any number of paths. The others take one. -/
def takesMany : Verb → Bool
  | .check => true
  | _ => false

end Verb

namespace Given

/-- Takes an argument that is no option. -/
def add (g : Given) (verb : Verb) (text : String) : Except UsageError Given :=
  if !verb.takesMany && !g.paths.isEmpty then .error (.unexpected text)
  else match Path.ofArgument? text with
    | some p => .ok { g with paths := g.paths ++ [p] }
    | none => .error (.invalidValue "path" text)

/-- The command that was given. -/
def command (g : Given) : Verb → Except UsageError Command
  | .check => .ok (.check g.paths g.config g.json g.jobs)
  | verb =>
    if g.chain.isSome && g.language.isSome then .error (.conflict "chain" "lang")
    else
      let choice : ChainChoice := ⟨g.config, g.chain, g.language⟩
      match g.paths.head?, verb with
      | none, _ => .error (.missing "file")
      | some file, .query =>
        match g.target, g.pattern with
        | some target, some text => .ok (.query file target text choice)
        | none, _ => .error (.missing "target")
        | _, none => .error (.missing "pattern")
      | some file, _ => .ok (.tree file choice g.nested)

end Given

namespace Request

/-- A usage error as the outcome of reading. -/
def ofUsage {α : Type} : Except UsageError α → Except Request α
  | .ok a => .ok a
  | .error e => .error (.refused e)

/-- Reads an option in long form without its dashes. An option that still needs its value
comes along in the result. -/
def readLong (options : List OptionForm) (g : Given) (body : List Char) :
    Except Request (Given × Option OptionForm) :=
  let name := String.ofList (body.takeWhile (· != '='))
  let attached := body.dropWhile (· != '=')
  match options.find? fun o => o.long == name with
  | none => .error (.refused (.unexpected ("--" ++ String.ofList body)))
  | some o =>
    match o.effect, attached with
    | .value store, _ :: text => ofUsage ((store (String.ofList text) g).map fun g => (g, none))
    | .value _, [] => .ok (g, some o)
    | _, _ :: _ => .error (.refused (.unexpected ("--" ++ String.ofList body)))
    | .flag raise, [] => ofUsage ((raise g).map fun g => (g, none))
    | .stop request, [] => .error request

/-- Reads options in short form without their dash. What follows an option with a value is its
value, maybe behind an equals sign. -/
def readShort (options : List OptionForm) :
    Given → List Char → Except Request (Given × Option OptionForm)
  | g, [] => .ok (g, none)
  | g, c :: rest =>
    match options.find? fun o => o.short == some c with
    | none => .error (.refused (.unexpected (String.ofList ['-', c])))
    | some o =>
      match o.effect with
      | .stop request => .error request
      | .flag raise => do readShort options (← ofUsage (raise g)) rest
      | .value store =>
        if rest.isEmpty then .ok (g, some o)
        else
          let text := if rest.head? = some '=' then rest.drop 1 else rest
          ofUsage ((store (String.ofList text) g).map fun g => (g, none))

/-- Reads arguments that are no options. -/
def readPaths : Option Verb → Given → List String → Except Request (Option Verb × Given)
  | verb, g, [] => .ok (verb, g)
  | none, _, text :: _ => .error (.refused (.unexpected text))
  | some verb, g, text :: rest => do readPaths (some verb) (← ofUsage (g.add verb text)) rest

/-- What a call of the `help` command asks for: help on the program or on one command. -/
def helpOn : List String → Request
  | [] => .help
  | [name] =>
    if name == "help" || (Verb.ofName? name).isSome then .help
    else .refused (.unknownCommand name)
  | _ :: name :: _ => .refused (.unknownCommand name)

/-- Reads the arguments behind the given ones. `pending` is an option that waits for its
value. -/
def read : Option Verb → Option OptionForm → Given → List String →
    Except Request (Option Verb × Given)
  | verb, none, g, [] => .ok (verb, g)
  | _, some o, _, [] => .error (.refused (.missingValue o.long))
  | verb, some o, g, text :: rest =>
    match o.effect, text.toList with
    | _, '-' :: _ :: _ => .error (.refused (.missingValue o.long))
    | .value store, _ => do read verb none (← ofUsage (store text g)) rest
    | _, _ => .error (.refused (.unexpected text))
  | verb, none, g, text :: rest =>
    match text.toList with
    | ['-', '-'] => readPaths verb g rest
    | '-' :: '-' :: body => do
      let (g, pending) ← readLong (Verb.options verb) g body
      read verb pending g rest
    | '-' :: c :: body => do
      let (g, pending) ← readShort (Verb.options verb) g (c :: body)
      read verb pending g rest
    | _ =>
      match verb with
      | some v => do read verb none (← ofUsage (g.add v text)) rest
      | none =>
        match Verb.ofName? text with
        | some v => read (some v) none g rest
        | none =>
          .error (if text == "help" then helpOn rest else .refused (.unknownCommand text))

/-- What the arguments ask for. -/
def ofArguments (arguments : List String) : Request :=
  match read none none Given.nothing arguments with
  | .error request => request
  | .ok (none, _) => .refused .noCommand
  | .ok (some verb, g) =>
    match g.command verb with
    | .ok command => .run g.verbosity command
    | .error e => .refused e

end Request

end Polyglot
