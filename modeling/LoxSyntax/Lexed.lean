import LoxSyntax.Diagnostic
import LoxSyntax.Segment
import LoxSyntax.TokenStream

/-!
A text read into tokens. Every segment stands where the ones before it end; the tokens and the
faults among them are kept with their places, and blanks and comments are dropped. A fault does
not end the reading, so one pass finds all of them.
-/

namespace LoxSyntax

/-- The segments with their places, the first of them standing at `p`. -/
def placed (p : Position) : List Segment → List (Position × Segment)
  | [] => []
  | s :: rest => (p, s) :: placed (p.after s.text) rest

namespace Segment

def token? (p : Position) (s : Segment) : Option Token :=
  match s.content with
  | .token kind literal => some ⟨kind, String.ofList s.text, literal, p⟩
  | _ => none

def fault? (p : Position) (s : Segment) : Option (Diagnostic LexicalFault) :=
  match s.content with
  | .fault cause => some ⟨p, cause⟩
  | _ => none

end Segment

/-- The tokens of a text, the mark that closes them, and what is wrong with the text. -/
structure Lexed where
  tokens : List Token
  endMark : Token
  faults : Report LexicalFault

namespace Lexed

def ofChars (text : List Char) : Lexed :=
  let placed := placed .start (segments text)
  { tokens := placed.filterMap fun (p, s) => s.token? p
    endMark := ⟨.endMark, "", none, Position.start.after text⟩
    faults := placed.filterMap fun (p, s) => s.fault? p }

def ofText (text : String) : Lexed := ofChars text.toList

def allTokens (lexed : Lexed) : List Token := lexed.tokens ++ [lexed.endMark]

/-- The tokens as a stream that nothing has been read from. -/
def stream (lexed : Lexed) : TokenStream := ⟨[], lexed.tokens, lexed.endMark⟩

/-- A text with a fault has no tokens to go on with. -/
def result (lexed : Lexed) : Except (Report LexicalFault) (List Token) :=
  if lexed.faults.isEmpty then .ok lexed.allTokens else .error lexed.faults

end Lexed

theorem placed_append (p : Position) (a b : List Segment) :
    placed p (a ++ b) = placed p a ++ placed (p.after (a.flatMap Segment.text)) b := by
  induction a generalizing p with
  | nil => rfl
  | cons s rest ih =>
    simp only [List.cons_append, placed, List.flatMap_cons, Position.after_append, ih]

theorem mem_of_mem_placed {p q : Position} {s : Segment} {segments : List Segment}
    (h : (q, s) ∈ placed p segments) : s ∈ segments := by
  induction segments generalizing p with
  | nil => cases h
  | cons first later ih =>
    rcases List.mem_cons.1 h with heq | hlater
    · cases heq
      exact List.mem_cons_self
    · exact List.mem_cons_of_mem first (ih hlater)

/-- Only the mark that closes the tokens of a text is an end mark. -/
theorem Lexed.kind_ne_endMark {text : List Char} {t : Token} (h : t ∈ (ofChars text).tokens) :
    t.kind ≠ .endMark := by
  obtain ⟨⟨p, s⟩, hmem, htoken⟩ := List.mem_filterMap.1 h
  obtain ⟨c, rest, rfl⟩ := mem_segments (mem_of_mem_placed hmem)
  intro hkind
  simp only [Segment.token?] at htoken
  cases hcontent : (Segment.first c rest).content with
  | token kind literal =>
    rw [hcontent] at htoken
    cases htoken
    exact Segment.content_first_ne c rest literal (hkind ▸ hcontent)
  | blank => simp [hcontent] at htoken
  | comment => simp [hcontent] at htoken
  | fault cause => simp [hcontent] at htoken

/-- The tokens of a text make a stream. -/
theorem Lexed.ofTokens_allTokens (text : List Char) :
    TokenStream.ofTokens (ofChars text).allTokens = .ok (ofChars text).stream :=
  TokenStream.ofTokens_append_cons (fun _ => kind_ne_endMark) rfl (fun _ h => nomatch h)

end LoxSyntax
