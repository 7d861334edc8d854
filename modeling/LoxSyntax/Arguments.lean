/-!
The arguments of the command line, and what they ask for. They are taken in order, and the first
that settles the request does so; what follows it is not looked at. Behind a single dash stand
switches of one letter, which all settle the request, so only the first letter counts.
-/

namespace LoxSyntax

/-- What a run depends on besides its input. -/
structure Options where
  file : Option String := none
  showTokens : Bool := false
  requireSemicolons : Bool := false
  deriving DecidableEq

/-- Why arguments ask for nothing that can be done. -/
inductive Misuse
  | unexpected (arg : String)
  | unexpectedValue (arg value : String)
  | repeated (arg : String)
  | emptyName
  deriving DecidableEq

instance : ToString Misuse where
  toString
    | .unexpected arg => s!"unexpected argument '{arg}' found"
    | .unexpectedValue arg value =>
      s!"unexpected value '{value}' for '{arg}' found; no more were expected"
    | .repeated arg => s!"the argument '{arg}' cannot be used multiple times"
    | .emptyName => "a value is required for '[FILE]' but none was supplied"

inductive Request
  | run (options : Options)
  | help
  | version
  | misuse (cause : Misuse)
  deriving DecidableEq

namespace Options

/-- A plain argument is the name of the file; there is no place for a second one. -/
def withPlain (options : Options) (arg : String) : Except Misuse Options :=
  if options.file.isSome then .error (.unexpected arg)
  else if arg.isEmpty then .error .emptyName
  else .ok { options with file := some arg }

/-- Each option may be set once. -/
def withSwitch (options : Options) (arg : String) : Except Misuse Options :=
  match arg with
  | "--tokens" =>
    if options.showTokens then .error (.repeated arg)
    else .ok { options with showTokens := true }
  | "--require-semicolons" =>
    if options.requireSemicolons then .error (.repeated arg)
    else .ok { options with requireSemicolons := true }
  | _ => .error (.unexpected arg)

end Options

/-- The long options, none of which takes a value. -/
def longOptions : List String := ["--help", "--version", "--tokens", "--require-semicolons"]

/-- An argument that begins with two dashes, and the value behind the first equals sign in it. -/
def splitLong (arg : List Char) : String × Option String :=
  match arg.span (· ≠ '=') with
  | (name, []) => (String.ofList name, none)
  | (name, _ :: value) => (String.ofList name, some (String.ofList value))

/-- The misuse of an argument that a value has been given to. -/
def Misuse.ofValue (arg value : String) : Misuse :=
  if longOptions.contains arg then .unexpectedValue arg value else .unexpected arg

namespace Request

/-- The request of the letters behind a single dash, of which `letter` is the first. -/
def ofLetter (letter : Char) : Request :=
  match letter with
  | 'h' => .help
  | 'V' => .version
  | _ => .misuse (.unexpected s!"-{letter}")

/-- The request of the arguments that follow those which have set `options`. Behind `--` every
argument is plain, and a lone dash always is. -/
def ofRest (options : Options) (onlyPlain : Bool) : List String → Request
  | [] => .run options
  | arg :: rest =>
    let proceed : Except Misuse Options → Request
      | .ok options => ofRest options onlyPlain rest
      | .error cause => .misuse cause
    if onlyPlain then proceed (options.withPlain arg)
    else
      match arg.toList with
      | ['-', '-'] => ofRest options true rest
      | '-' :: '-' :: _ =>
        match splitLong arg.toList with
        | ("--help", none) => .help
        | ("--version", none) => .version
        | (name, none) => proceed (options.withSwitch name)
        | (name, some value) => .misuse (.ofValue name value)
      | '-' :: letter :: _ => ofLetter letter
      | _ => proceed (options.withPlain arg)

def ofArguments (args : List String) : Request := ofRest {} false args

end Request

def usageLine : String := "Usage: loxparse [OPTIONS] [FILE]\n"

def helpText : String :=
  "Parses Lox source and prints the syntax tree of every statement\n\n" ++ usageLine ++
  "\nArguments:\n" ++
  "  [FILE]  Source file to parse. Starts a prompt when omitted\n" ++
  "\nOptions:\n" ++
  "      --tokens              Also print the token stream\n" ++
  "      --require-semicolons  Require `;` after expression statements, " ++
  "not just after `print`\n" ++
  "  -h, --help                Print help\n" ++
  "  -V, --version             Print version\n"

def versionText : String := "loxparse 0.1.0\n"

/-- Advice that fits every misuse: the usage, and where to find help. -/
def generalAdvice (_ : Misuse) : String := s!"\n{usageLine}\nFor more information, try '--help'.\n"

end LoxSyntax
