import LoxSyntax.Diagnostic
import LoxSyntax.TokenStream

/-!
Rules of a grammar that is read from left to right with one token in view. A rule that succeeds
has read at least one token; one that is stuck stands at the token that it cannot read, and the
diagnostic is pinned to that token. Both carry the stream that is left.
-/

namespace LoxSyntax

/-- A cause pinned to the place of a token. -/
def Token.diagnostic (t : Token) (cause : SyntaxFault) : Diagnostic SyntaxFault :=
  ⟨t.position, cause⟩

inductive Reading (α : Type)
  | done (value : α) (rest : TokenStream)
  | stuck (cause : SyntaxFault) (rest : TokenStream)

variable {α β : Type}

namespace Reading

def rest : Reading α → TokenStream
  | done _ rest => rest
  | stuck _ rest => rest

def value? : Reading α → Option α
  | done value _ => some value
  | stuck _ _ => none

def diagnostic? : Reading α → Option (Diagnostic SyntaxFault)
  | done _ _ => none
  | stuck cause rest => some (rest.peek.diagnostic cause)

def result : Reading α → Except (Diagnostic SyntaxFault) α
  | done value _ => .ok value
  | stuck cause rest => .error (rest.peek.diagnostic cause)

def map (f : α → β) : Reading α → Reading β
  | done value rest => done (f value) rest
  | stuck cause rest => stuck cause rest

def bind (reading : Reading α) (next : α → TokenStream → Reading β) : Reading β :=
  match reading with
  | done value rest => next value rest
  | stuck cause rest => stuck cause rest

/-- A reading of `s` that has read something if it is done. -/
def Forward (s : TokenStream) : Reading α → Prop
  | done _ rest => ∃ t taken, s.After (t :: taken) rest
  | stuck _ rest => ∃ taken, s.After taken rest

/-- A reading of `s` that may be done without having read anything. -/
def Onward (s : TokenStream) (reading : Reading α) : Prop := ∃ taken, s.After taken reading.rest

theorem Forward.onward {s : TokenStream} {reading : Reading α} (h : reading.Forward s) :
    reading.Onward s := by
  cases reading with
  | done value rest =>
    obtain ⟨t, taken, h⟩ := h
    exact ⟨t :: taken, h⟩
  | stuck cause rest => exact h

theorem Onward.forward_of_after {s r : TokenStream} {t : Token} {taken : List Token}
    {reading : Reading α} (h : s.After (t :: taken) r) (g : reading.Onward r) :
    reading.Forward s := by
  obtain ⟨more, g⟩ := g
  cases reading with
  | done value rest => exact ⟨t, taken ++ more, h.trans g⟩
  | stuck cause rest => exact ⟨_, h.trans g⟩

theorem Forward.map {s : TokenStream} {reading : Reading α} (h : reading.Forward s) (f : α → β) :
    (reading.map f).Forward s := by
  cases reading with
  | done value rest => exact h
  | stuck cause rest => exact h

theorem Forward.bind {s : TokenStream} {reading : Reading α} (h : reading.Forward s)
    {next : α → TokenStream → Reading β} (hnext : ∀ value rest, (next value rest).Onward rest) :
    (reading.bind next).Forward s := by
  cases reading with
  | done value rest =>
    obtain ⟨t, taken, h⟩ := h
    exact (hnext value rest).forward_of_after h
  | stuck cause rest => exact h

end Reading

/-- Reads a token of one kind, or is stuck at another with the given cause. -/
def TokenStream.expect (s : TokenStream) (kind : Kind) (cause : SyntaxFault) : Reading Token :=
  match s.take? [kind] with
  | some (t, rest) => .done t rest
  | none => .stuck cause s

theorem TokenStream.forward_expect (s : TokenStream) (kind : Kind) (cause : SyntaxFault) :
    (s.expect kind cause).Forward s := by
  unfold expect
  split
  · rename_i t rest h
    exact ⟨t, [], after_of_take? h⟩
  · exact ⟨[], .refl s⟩

structure Rule (α : Type) where
  read : TokenStream → Reading α
  forward : ∀ s, (read s).Forward s

/-- The rule that nothing satisfies. -/
def Rule.never (cause : SyntaxFault) : Rule α :=
  ⟨fun s => .stuck cause s, fun s => ⟨[], .refl s⟩⟩

end LoxSyntax
