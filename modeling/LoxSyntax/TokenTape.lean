import LoxSyntax.Trace

/-!
Token lists read by index. A tape is a list with the index of the token in view, and a log of what
has happened. Tokens are looked up by their indices, and a lookup past the list has no result; it
is the invariant of the tape, not a test, that keeps its index within the list. Whatever happens
is written down when it happens.
-/

namespace LoxSyntax

structure TokenTape where
  tokens : List Token
  /-- The index of the token in view. -/
  head : Nat
  log : List Event
  deriving DecidableEq

namespace TokenTape

/-- A tape on which nothing has happened. Only a list that ends in an end mark makes one. -/
def ofTokens (tokens : List Token) : Except StreamFault TokenTape :=
  match tokens.getLast? with
  | none => .error .empty
  | some last => if last.kind = .endMark then .ok ⟨tokens, 0, []⟩ else .error .noEndMark

def note (event : Event) (tape : TokenTape) : TokenTape :=
  { tape with log := tape.log ++ [event] }

def peek? (tape : TokenTape) : Option Token := tape.tokens[tape.head]?

/-- The token in front of the one in view. At the start of the list there is none. -/
def previous? (tape : TokenTape) : Option (Option Token) :=
  match tape.head with
  | 0 => some none
  | before + 1 => tape.tokens[before]?.map some

def atEnd? (tape : TokenTape) : Option Bool := do
  return (← tape.peek?).kind == .endMark

/-- The token in view, and the tape behind it. At an end mark the tape stays where it is. -/
def advance? (tape : TokenTape) : Option (Token × TokenTape) := do
  let t ← tape.peek?
  if ← tape.atEnd? then
    return (t, tape)
  else
    return (t, { tape.note (.consumed t) with head := tape.head + 1 })

def sees? (tape : TokenTape) (kind : Kind) : Option Bool := do
  return !(← tape.atEnd?) && (← tape.peek?).kind == kind

/-- Passes the token in view if it has one of `kinds`. -/
def take? (kinds : List Kind) (tape : TokenTape) : Option (Option Token × TokenTape) := do
  if ← kinds.anyM tape.sees? then
    let (t, behind) ← tape.advance?
    return (some t, behind)
  else
    return (none, tape)

/-- Passes a token of one kind, or refuses another one for the given cause. -/
def expect? (kind : Kind) (cause : SyntaxFault) (tape : TokenTape) :
    Option (Except (Diagnostic SyntaxFault) Token × TokenTape) := do
  if ← tape.sees? kind then
    let (t, behind) ← tape.advance?
    return (.ok t, behind)
  else
    return (.error ((← tape.peek?).diagnostic cause), tape)

end TokenTape

end LoxSyntax
