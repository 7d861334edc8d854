import LoxSyntax.Trace

/-!
Lexing step by step. Tokens and faults are collected segment by segment as the text is cut, and
every token is written down when it is found; the end mark comes last, and then the counts.
-/

namespace LoxSyntax

structure Lexing where
  tokens : List Token := []
  faults : Report LexicalFault := []
  log : List Event := []

namespace Lexing

def push (t : Token) (lexing : Lexing) : Lexing :=
  { lexing with tokens := lexing.tokens ++ [t], log := lexing.log ++ [.lexed t] }

/-- What the segment that stands at `p` adds. -/
def turn (p : Position) (segment : Segment) (lexing : Lexing) : Lexing :=
  match segment.content with
  | .token kind literal => lexing.push ⟨kind, String.ofList segment.text, literal, p⟩
  | .fault cause => { lexing with faults := lexing.faults.add ⟨p, cause⟩ }
  | .blank => lexing
  | .comment => lexing

/-- Closes the tokens with an end mark that stands at `p`. -/
def close (p : Position) (lexing : Lexing) : Lexing :=
  let closed := lexing.push ⟨.endMark, "", none, p⟩
  { closed with log := closed.log ++ [.lexedAll closed.tokens.length closed.faults.length] }

/-- Goes on with `text`, which stands at `p`. -/
def go (p : Position) (text : List Char) (lexing : Lexing) : Lexing :=
  match text with
  | [] => lexing.close p
  | c :: rest =>
    let segment := Segment.first c rest
    go (p.after segment.text) (rest.drop (segment.text.length - 1)) (lexing.turn p segment)
termination_by text.length

def result (lexing : Lexing) : Except (Report LexicalFault) (List Token) :=
  if lexing.faults.isEmpty then .ok lexing.tokens else .error lexing.faults

def ofText (text : String) : Lexing := go .start text.toList {}

end Lexing

end LoxSyntax
