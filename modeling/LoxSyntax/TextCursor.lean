import LoxSyntax.Position

/-!
A cursor in a text. It holds the text, the characters still to come and the place of the next one.
How far it has come is not kept but measured: its byte offset is what the characters still to come
leave of the text, and by such offsets pieces of the text are cut out. Texts are measured in UTF-8.
Only passing a character moves a cursor.
-/

namespace LoxSyntax

/-- The bytes of `text` from the offset `start` up to the offset `stop`. Both have to lie between
two characters or at an end of the text, and `stop` not in front of `start`. -/
def slice? (text : String) (start stop : Nat) : Option String :=
  if h : String.Pos.Raw.IsValid text ⟨start⟩ ∧ String.Pos.Raw.IsValid text ⟨stop⟩ ∧
      start ≤ stop then
    some (String.extract (text.pos ⟨start⟩ h.1) (text.pos ⟨stop⟩ h.2.1))
  else none

structure TextCursor where
  source : String
  ahead : List Char
  position : Position
  deriving DecidableEq

namespace TextCursor

def ofText (text : String) : TextCursor := ⟨text, text.toList, .start⟩

/-- How many bytes of the text have been passed. -/
def offset (cursor : TextCursor) : Nat :=
  cursor.source.utf8ByteSize - (String.ofList cursor.ahead).utf8ByteSize

def peek (cursor : TextCursor) : Option Char := cursor.ahead[0]?

def peekNext (cursor : TextCursor) : Option Char := cursor.ahead[1]?

/-- At the end of the text the cursor stays where it is. -/
def advance (cursor : TextCursor) : TextCursor :=
  match cursor.ahead with
  | [] => cursor
  | c :: rest => { cursor with ahead := rest, position := cursor.position.next c }

/-- The cursor behind the next character if this is `c`. -/
def eat? (cursor : TextCursor) (c : Char) : Option TextCursor :=
  if cursor.peek = some c then some cursor.advance else none

theorem length_advance_lt {cursor : TextCursor} (h : cursor.ahead ≠ []) :
    cursor.advance.ahead.length < cursor.ahead.length := by
  unfold advance
  cases hahead : cursor.ahead with
  | nil => exact absurd hahead h
  | cons c rest => exact Nat.lt_succ_self rest.length

/-- Passes characters as long as they satisfy `p`. -/
def skipWhile (cursor : TextCursor) (p : Char → Bool) : TextCursor :=
  if _hnext : cursor.peek.any p then cursor.advance.skipWhile p else cursor
termination_by cursor.ahead.length
decreasing_by
  apply length_advance_lt
  intro hnil
  simp [peek, hnil] at _hnext

/-- Passes all characters, one after the other, and counts them. -/
def count (cursor : TextCursor) : Nat × TextCursor :=
  if _hnext : cursor.peek.isSome then
    let (later, last) := cursor.advance.count
    (later + 1, last)
  else (0, cursor)
termination_by cursor.ahead.length
decreasing_by
  apply length_advance_lt
  intro hnil
  simp [peek, hnil] at _hnext

/-- The text from `cursor` to `stop`. There is none when `stop` is a cursor in another text. -/
def textTo? (cursor stop : TextCursor) : Option String :=
  if cursor.source = stop.source then slice? cursor.source cursor.offset stop.offset else none

end TextCursor

end LoxSyntax
