import LoxSyntax.Arguments
import LoxSyntax.Lexed
import LoxSyntax.Program

/-!
The command line. A source comes from a file, or line by line from a prompt, and each of its
statements is shown on a line of its own. A faulty file ends the run with a failure. A faulty
line is answered with its report and the prompt goes on, until the input ends or is not text.
-/

namespace LoxSyntax

/-- What a run has written, and the code that it ends with. -/
structure Transcript where
  stdout : String
  stderr : String
  code : Nat
  deriving DecidableEq

/-- A fault of the system that keeps a file from being read. -/
structure SystemFault where
  description : String
  code : Nat
  deriving DecidableEq

instance : ToString SystemFault where
  toString fault := s!"{fault.description} (os error {fault.code})"

def SystemFault.missingFile : SystemFault := ⟨"No such file or directory", 2⟩

/-- What is shown of a source, and its report if anything is wrong with it. -/
structure Answer where
  shown : String
  report? : Option String
  deriving DecidableEq

/-- The items, each on a line of its own. -/
def asLines (items : List String) : String := String.join (items.map (· ++ "\n"))

def Token.listing (t : Token) : String := s!"{t.position} {t.kind.name} '{t.lexeme}'"

namespace Options

def settings (options : Options) : Settings :=
  { terminator := if options.requireSemicolons then .required else .optional }

/-- Tokens are listed before statements are read, so also of a program with a fault. -/
def answer (options : Options) (source : String) : Answer :=
  let lexed := Lexed.ofText source
  match lexed.result with
  | .error faults => ⟨"", some faults.text⟩
  | .ok tokens =>
    let listing := if options.showTokens then asLines (tokens.map Token.listing) else ""
    match readProgram options.settings lexed.stream with
    | .error faults => ⟨listing, some faults.text⟩
    | .ok statements => ⟨listing ++ asLines (statements.map Statement.render), none⟩

end Options

namespace Transcript

def success (shown : String) : Transcript := ⟨shown, "", 0⟩

def failure (shown message : String) : Transcript := ⟨shown, s!"Error: {message}\n", 1⟩

/-- Bytes were read where a text was expected. -/
def notText (shown : String) : Transcript := failure shown "stream did not contain valid UTF-8"

/-- What is wrong with the arguments, and what is advised. -/
def misuse (advice : Misuse → String) (cause : Misuse) : Transcript :=
  ⟨"", s!"error: {cause}\n{advice cause}", 2⟩

def precededBy (transcript : Transcript) (shown : String) : Transcript :=
  { transcript with stdout := shown ++ transcript.stdout }

end Transcript

namespace Options

/-- A run on a file, of which the content is given. -/
def fileRun (options : Options) (content : Except SystemFault ByteArray) : Transcript :=
  match content with
  | .error fault => .failure "" (toString fault)
  | .ok bytes =>
    match String.fromUTF8? bytes with
    | none => .notText ""
    | some source =>
      let answer := options.answer source
      match answer.report? with
      | none => .success answer.shown
      | some report => .failure answer.shown report

/-- What the prompt answers to a line. -/
def reply (options : Options) (line : String) : String :=
  let answer := options.answer line
  answer.shown ++ asLines answer.report?.toList

def promptText : String := "> "

/-- A run at the prompt, which is shown before every line and once more behind the last. -/
def session (options : Options) : List ByteArray → Transcript
  | [] => .success promptText
  | bytes :: later =>
    match String.fromUTF8? bytes with
    | none => .notText promptText
    | some line => (options.session later).precededBy (promptText ++ options.reply line)

end Options

/-- Cuts an input behind each newline. -/
def inputLines : List UInt8 → List (List UInt8)
  | [] => []
  | b :: rest =>
    if b = 10 then [b] :: inputLines rest
    else
      match inputLines rest with
      | [] => [[b]]
      | line :: later => (b :: line) :: later

/-- No byte of an input is lost, and every line has one. -/
theorem flatten_inputLines (bytes : List UInt8) : (inputLines bytes).flatten = bytes := by
  fun_induction inputLines bytes with
  | case1 => rfl
  | case2 rest ih => rw [List.flatten_cons, ih, List.singleton_append]
  | case3 b rest hb hnil ih =>
    rw [hnil] at ih
    simp only [List.flatten_nil] at ih
    simp [← ih]
  | case4 b rest hb line later hcons ih =>
    rw [hcons] at ih
    simp only [List.flatten_cons] at ih ⊢
    rw [List.cons_append, ih]

/-- A run of the program with the given arguments, files and input. How a misuse could be mended is
advised by whoever reads the arguments. -/
def commandLine (advice : Misuse → String) (args : List String)
    (file : String → Except SystemFault ByteArray) (input : ByteArray) : Transcript :=
  match Request.ofArguments args with
  | .help => .success helpText
  | .version => .success versionText
  | .misuse cause => .misuse advice cause
  | .run options =>
    match options.file with
    | some path => options.fileRun (file path)
    | none => options.session ((inputLines input.toList).map fun line => ⟨line.toArray⟩)

end LoxSyntax
