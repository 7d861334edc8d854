import LoxSyntax.CommandLine

/-!
The program itself: its arguments, files and terminal.
-/

namespace LoxSyntax.Main

open LoxSyntax

def systemFault : IO.Error → SystemFault
  | .permissionDenied .. => ⟨"Permission denied", 13⟩
  | .inappropriateType .. => ⟨"Is a directory", 21⟩
  | _ => .missingFile

def readFile (path : String) : IO (Except SystemFault ByteArray) := do
  match ← (IO.FS.readBinFile path).toBaseIO with
  | .ok bytes => return .ok bytes
  | .error fault => return .error (systemFault fault)

def finish (transcript : Transcript) : IO UInt32 := do
  let stdout ← IO.getStdout
  stdout.putStr transcript.stdout
  stdout.flush
  (← IO.getStderr).putStr transcript.stderr
  return transcript.code.toUInt32

/-- The bytes up to and with the next newline. -/
partial def readLine (input : IO.FS.Stream) (line : ByteArray) : IO ByteArray := do
  let next ← input.read 1
  let line := line ++ next
  if next.isEmpty || next.toList == [10] then return line else readLine input line

partial def prompt (options : Options) : IO UInt32 := do
  let stdout ← IO.getStdout
  stdout.putStr Options.promptText
  stdout.flush
  let line ← readLine (← IO.getStdin) .empty
  if line.isEmpty then return 0
  match String.fromUTF8? line with
  | none => finish (.notText "")
  | some text =>
    stdout.putStr (options.reply text)
    prompt options

end LoxSyntax.Main

def main (args : List String) : IO UInt32 := do
  match LoxSyntax.Request.ofArguments args with
  | .run options =>
    match options.file with
    | some path => LoxSyntax.Main.finish (options.fileRun (← LoxSyntax.Main.readFile path))
    | none => LoxSyntax.Main.prompt options
  | _ =>
    let transcript := LoxSyntax.commandLine LoxSyntax.generalAdvice args
      (fun _ => .error .missingFile) .empty
    LoxSyntax.Main.finish transcript
