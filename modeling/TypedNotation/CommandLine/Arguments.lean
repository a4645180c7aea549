import TypedNotation.Path

/-!
# Arguments of the command line

A line of arguments names a command. Options for all commands may stand before its name and behind
it; the place behind counts. An option with a value takes it from behind an equals sign or from the
next argument. Nothing may be given twice at one place. Behind two dashes every argument is a file.

The arguments are first read as words, and the words are then taken in order, so that the first
fault or the first call for help decides.
-/

namespace TypedNotation

/-- How a command writes what it has to say. -/
inductive OutputFormat where
  | text
  | json
  deriving DecidableEq, Inhabited

namespace OutputFormat

/-- The format of a name. -/
def ofName? (name : String) : Option OutputFormat :=
  if name == "text" then some text else if name == "json" then some json else none

end OutputFormat

/-- The options that all commands have. -/
structure CommonOptions where
  output : OutputFormat := .text
  quiet : Bool := false
  /-- The directory with the declarations and the settings. -/
  root : Path := ⟨"."⟩

/-- What is to be done. -/
inductive Command where
  /-- Without files, all below the root are checked. -/
  | check (files : List Path)
  | fix (file : Path) (write : Bool)
  | dump (file : Path)
  | chunks (file : Path)
  | tokens (file : Path)
  /-- Serves an editor over the standard streams. -/
  | serve

/-- What a line of arguments asks for. -/
inductive Invocation where
  | run (options : CommonOptions) (command : Command)
  | help
  | version
  /-- The arguments make no sense. -/
  | misuse

namespace Arguments

/-- The commands by name. -/
inductive Verb where
  | check
  | fix
  | dump
  | chunks
  | tokens
  | serve
  deriving DecidableEq, Inhabited

namespace Verb

/-- The command of a name. -/
def ofName? (name : String) : Option Verb :=
  [("check", check), ("fix", fix), ("dump", dump), ("chunks", chunks), ("tokens", tokens),
    ("lsp", serve)].lookup name

/-- The command of a verb with its files, if there are as many as it takes. -/
def command? (write : Bool) : Verb → List Path → Option Command
  | check, files => some (.check files)
  | fix, [file] => some (.fix file write)
  | dump, [file] => some (.dump file)
  | chunks, [file] => some (.chunks file)
  | tokens, [file] => some (.tokens file)
  | serve, [] => some .serve
  | _, _ => none

/-- Whether a verb takes another file besides some. -/
def takesFile : Verb → List Path → Bool
  | check, _ => true
  | serve, _ => false
  | _, files => files.isEmpty

end Verb

/-- An argument, together with the value that belongs to it. -/
inductive Word where
  | output (value : Option String)
  | root (value : Option String)
  | quiet
  | write
  | help
  | version
  | plain (text : String)
  /-- Two dashes. -/
  | divider
  | unknown
  deriving DecidableEq, Inhabited

/-- Whether an argument can be the value of the option before it. -/
def isValue (arg : String) : Bool :=
  arg == "-" || arg.toList.head? != some '-'

/-- The word of an option that has no value in the next argument. -/
def longOption (name : String) (value : Option String) : Word :=
  match name, value with
  | "output", value => .output value
  | "root", value => .root value
  | "quiet", none => .quiet
  | "write", none => .write
  | "help", none => .help
  | "version", none => .version
  | _, _ => .unknown

/-- The word of an argument by itself. -/
def single (arg : String) : Word :=
  match arg.toList with
  | '-' :: '-' :: rest =>
    let value := match rest.dropWhile (· != '=') with
      | [] => none
      | _ :: value => some (String.ofList value)
    longOption (String.ofList (rest.takeWhile (· != '='))) value
  | '-' :: 'h' :: _ => .help
  | '-' :: 'V' :: _ => .version
  | '-' :: _ :: _ => .unknown
  | _ => .plain arg

/-- The words of some arguments. -/
def words : List String → List Word
  | [] => []
  | [arg] => if arg == "--" then [.divider] else [single arg]
  | arg :: next :: rest =>
    if arg == "--" then .divider :: (next :: rest).map .plain
    else if arg == "--output" && isValue next then .output (some next) :: words rest
    else if arg == "--root" && isValue next then .root (some next) :: words rest
    else single arg :: words (next :: rest)

/-- What is given at one place. -/
structure Given where
  output : Option OutputFormat := none
  root : Option Path := none
  quiet : Bool := false
  write : Bool := false
  files : List Path := []

namespace Given

/-- Takes an option; nothing if it is given a second time, has no proper value, or is no option. -/
def take? (g : Given) : Word → Option Given
  | .output (some value) =>
    if g.output.isSome then none
    else (OutputFormat.ofName? value).map fun format => { g with output := some format }
  | .root (some value) =>
    if g.root.isSome || value.isEmpty then none else some { g with root := some ⟨value⟩ }
  | .quiet => if g.quiet then none else some { g with quiet := true }
  | .write => if g.write then none else some { g with write := true }
  | _ => none

/-- The options of two places, of which the second goes first. -/
def options (outer inner : Given) : CommonOptions :=
  let default : CommonOptions := {}
  { output := (inner.output.or outer.output).getD default.output
    quiet := inner.quiet || outer.quiet
    root := (inner.root.or outer.root).getD default.root }

end Given

/-- Takes the words behind the name of a command. -/
def behind (verb : Verb) (outer : Given) : Given → List Word → Invocation
  | g, [] =>
    match verb.command? g.write g.files with
    | some command => .run (outer.options g) command
    | none => .misuse
  | _, .help :: _ => .help
  | g, .divider :: rest => behind verb outer g rest
  | g, .plain file :: rest =>
    if file.isEmpty || !verb.takesFile g.files then .misuse
    else behind verb outer { g with files := g.files ++ [⟨file⟩] } rest
  | g, word :: rest =>
    if word = .write && verb != .fix then .misuse
    else
      match g.take? word with
      | some g => behind verb outer g rest
      | none => .misuse

/-- Takes the words that follow a call for help by name. -/
def helpOn : List Word → Invocation
  | [] => .help
  | [.plain name] => if (Verb.ofName? name).isSome || name == "help" then .help else .misuse
  | _ => .misuse

/-- Takes the words up to the name of a command, and then those behind it. -/
def before : Given → List Word → Invocation
  | _, [] => .misuse
  | _, .help :: _ => .help
  | _, .version :: _ => .version
  | g, .plain name :: rest =>
    if name == "help" then helpOn rest
    else
      match Verb.ofName? name with
      | some verb => behind verb g {} rest
      | none => .misuse
  | g, word :: rest =>
    if word = .write then .misuse
    else
      match g.take? word with
      | some g => before g rest
      | none => .misuse

/-- Reads a line of arguments. -/
def read (args : List String) : Invocation :=
  before {} (words args)

end Arguments

end TypedNotation
