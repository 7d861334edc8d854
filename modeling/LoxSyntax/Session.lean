import LoxSyntax.TokenTape

/-!
Sessions: a reader of tokens is asked one question after the other. A state can be saved at any
time, and whatever has been saved can be gone back to. The readers are a tape, which looks its
tokens up by index, and a stream, which holds what has been read and what is left.
-/

namespace LoxSyntax

inductive Question
  | peek
  | previous
  | atEnd
  | advance
  | sees (kind : Kind)
  | take (kinds : List Kind)
  | takes (kinds : List Kind)
  | expect (kind : Kind) (cause : SyntaxFault)

inductive Response
  | token (t : Token)
  | found (t? : Option Token)
  | flag (b : Bool)
  | refused (d : Diagnostic SyntaxFault)
  deriving DecidableEq

namespace Response

def ofResult : Except (Diagnostic SyntaxFault) Token → Response
  | .ok t => token t
  | .error d => refused d

/-- No token of a wanted kind was there. -/
def IsNegative : Response → Prop
  | token _ => False
  | found t? => t? = none
  | flag b => b = false
  | refused _ => True

end Response

/-- A way to read tokens, with states in `σ`. -/
structure Reader (σ : Type) where
  answer? : Question → σ → Option (Response × σ)
  /-- The state when `left` is given up for one that has been saved. -/
  goBack : (left saved : σ) → σ
  /-- How many tokens lie in front of the one in view. -/
  place : σ → Nat

namespace TokenTape

/-- The log tells what has happened, so going back does not undo it. -/
def reader : Reader TokenTape where
  answer?
    | .peek, tape => return (.token (← tape.peek?), tape)
    | .previous, tape => return (.found (← tape.previous?), tape)
    | .atEnd, tape => return (.flag (← tape.atEnd?), tape)
    | .advance, tape => return (← tape.advance?).map .token id
    | .sees kind, tape => return (.flag (← tape.sees? kind), tape)
    | .take kinds, tape => return (← tape.take? kinds).map .found id
    | .takes kinds, tape => return (← tape.take? kinds).map (fun t? => .flag t?.isSome) id
    | .expect kind cause, tape => return (← tape.expect? kind cause).map .ofResult id
  goBack left saved := { left with head := saved.head }
  place := head

end TokenTape

namespace TokenStream

/-- A stream has an answer to every question. -/
def answer : Question → TokenStream → Response × TokenStream
  | .peek, s => (.token s.peek, s)
  | .previous, s => (.found s.previous?, s)
  | .atEnd, s => (.flag s.atEnd, s)
  | .advance, s => (.token s.peek, s.advance)
  | .sees kind, s => (.flag (s.sees [kind]), s)
  | .take kinds, s =>
    match s.take? kinds with
    | some (t, behind) => (.found t, behind)
    | none => (.found none, s)
  | .takes kinds, s =>
    match s.take? kinds with
    | some (_, behind) => (.flag true, behind)
    | none => (.flag false, s)
  | .expect kind cause, s =>
    let reading := s.expect kind cause
    (.ofResult reading.result, reading.rest)

def reader : Reader TokenStream where
  answer? question s := some (s.answer question)
  goBack _ saved := saved
  place := index

end TokenStream

inductive Action
  | ask (question : Question)
  | save
  /-- Goes back to the saved state with the given number, the latest having number 0. -/
  | restore (number : Nat)

structure Session (σ : Type) where
  current : σ
  /-- The states saved, the latest first. -/
  saved : List σ

namespace Session

variable {σ : Type}

def start (state : σ) : Session σ := ⟨state, []⟩

/-- Only a question has an answer. Where nothing has been saved there is nothing to go back to. -/
def act (reader : Reader σ) (action : Action) (session : Session σ) :
    Option (Option Response × Session σ) :=
  match action with
  | .ask question => do
    let (answer, current) ← reader.answer? question session.current
    return (some answer, { session with current })
  | .save => some (none, { session with saved := session.current :: session.saved })
  | .restore number =>
    match session.saved[number]? with
    | some saved => some (none, { session with current := reader.goBack session.current saved })
    | none => some (none, session)

/-- The answers to a list of actions and the session behind them. -/
def run (reader : Reader σ) : List Action → Session σ → Option (List Response × Session σ)
  | [], session => some ([], session)
  | action :: later, session => do
    let (answer?, next) ← session.act reader action
    let (answers, last) ← next.run reader later
    return (answer?.toList ++ answers, last)

/-- What is seen of a session that starts at `state`: its answers and the place at its end. -/
def seen (reader : Reader σ) (state : σ) (actions : List Action) : Option (List Response × Nat) :=
  ((start state).run reader actions).map fun (answers, session) =>
    (answers, reader.place session.current)

end Session

end LoxSyntax
