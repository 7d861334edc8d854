import LoxSyntax.Lexed
import LoxSyntax.Program
import LoxSyntax.Quoted

/-!
The trace of a run: what happened to the text and to the tokens, in order. The trace of the
lexing is read off the tokens found, and the trace of a program off the history of its attempts,
so nothing is recorded while reading.
-/

namespace LoxSyntax

inductive Event
  | lexed (t : Token)
  | lexedAll (tokens faults : Nat)
  | consumed (t : Token)
  | parsed (s : Statement)
  | failed (d : Diagnostic SyntaxFault)
  | resumed (t : Token)
  deriving DecidableEq

namespace Event

/-- Events of single tokens are finer than those of whole texts and statements. -/
def level : Event → String
  | lexed _ => "TRACE"
  | consumed _ => "TRACE"
  | lexedAll _ _ => "DEBUG"
  | parsed _ => "DEBUG"
  | failed _ => "DEBUG"
  | resumed _ => "DEBUG"

def message : Event → String
  | lexed t => s!"{t.kind.name} {quoted t.lexeme} at {t.position}"
  | lexedAll tokens faults => s!"scanned {tokens} tokens, {faults} errors"
  | consumed t => s!"consumed {t.kind.name} '{t.lexeme}' at {t.position}"
  | parsed s => s!"parsed {s.render}"
  | failed d => toString d
  | resumed t => s!"resynchronized at '{t.lexeme}' ({t.position})"

instance : ToString Event where
  toString e := s!"{e.level} {e.message}"

/-- The record of an event as it is written down. -/
theorem toString_eq (e : Event) :
    toString e =
      match e with
      | lexed t => s!"TRACE {t.kind.name} {quoted t.lexeme} at {t.position}"
      | lexedAll tokens faults => s!"DEBUG scanned {tokens} tokens, {faults} errors"
      | consumed t => s!"TRACE consumed {t.kind.name} '{t.lexeme}' at {t.position}"
      | parsed s => s!"DEBUG parsed {s.render}"
      | failed d => s!"DEBUG {d}"
      | resumed t => s!"DEBUG resynchronized at '{t.lexeme}' ({t.position})" := by
  change e.level ++ " " ++ e.message = _
  cases e with
  | lexed t =>
    change "TRACE" ++ " " ++ (t.kind.name ++ " " ++ quoted t.lexeme ++ " at " ++ _) = _
    simp only [← String.append_assoc]
    rfl
  | lexedAll tokens faults =>
    change "DEBUG" ++ " " ++ ("scanned " ++ _ ++ " tokens, " ++ _ ++ " errors") = _
    simp only [← String.append_assoc]
    rfl
  | consumed t =>
    change "TRACE" ++ " " ++ ("consumed " ++ t.kind.name ++ " '" ++ t.lexeme ++ "' at " ++ _) = _
    simp only [← String.append_assoc]
    rfl
  | parsed s => rfl
  | failed d => rfl
  | resumed t =>
    change "DEBUG" ++ " " ++ ("resynchronized at '" ++ t.lexeme ++ "' (" ++ _ ++ ")") = _
    simp only [← String.append_assoc]
    rfl

end Event

def TokenStream.consumedUntil (s r : TokenStream) : List Event :=
  (s.readUntil r).map .consumed

def Lexed.events (lexed : Lexed) : List Event :=
  lexed.allTokens.map .lexed ++ [.lexedAll lexed.allTokens.length lexed.faults.length]

def Attempt.events (attempt : Attempt) : List Event :=
  match attempt.reading with
  | .done statement rest => attempt.begun.consumedUntil rest ++ [.parsed statement]
  | .stuck cause rest =>
    attempt.begun.consumedUntil rest ++ [.failed (rest.peek.diagnostic cause)] ++
      rest.consumedUntil attempt.resumed ++ [.resumed attempt.resumed.peek]

/-- The trace of a program. -/
def programEvents (settings : Settings) (s : TokenStream) : List Event :=
  (attempts settings.statement s).flatMap Attempt.events

/-- The trace of a stream read as one expression, which tells only what has been consumed. -/
def expressionEvents (settings : Settings) (s : TokenStream) : List Event :=
  s.consumedUntil (Grammar.wholeExpression settings.nestingLimit s).rest

end LoxSyntax
