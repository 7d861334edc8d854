import LoxSyntax.TextCursor

/-!
Sessions with a cursor in a text. The cursor is asked one question after the other, and some of
them move it. It can be marked where it stands, and it can be set back to every mark.
-/

namespace LoxSyntax

inductive TextQuestion
  | peek
  | peekNext
  | advance
  | eat (c : Char)
  | skipWhile (p : Char → Bool)
  | count

inductive TextResponse
  | character (c? : Option Char)
  | flag (b : Bool)
  | number (n : Nat)
  | done
  deriving DecidableEq

def TextCursor.answer : TextQuestion → TextCursor → TextResponse × TextCursor
  | .peek, cursor => (.character cursor.peek, cursor)
  | .peekNext, cursor => (.character cursor.peekNext, cursor)
  | .advance, cursor => (.character cursor.peek, cursor.advance)
  | .eat c, cursor =>
    match cursor.eat? c with
    | some behind => (.flag true, behind)
    | none => (.flag false, cursor)
  | .skipWhile p, cursor => (.done, cursor.skipWhile p)
  | .count, cursor =>
    let (n, last) := cursor.count
    (.number n, last)

inductive TextAction
  | ask (question : TextQuestion)
  | mark
  /-- Sets the cursor back to the mark with the given number, the first having number 0. -/
  | reset (number : Nat)

def TextAction.isMark : TextAction → Bool
  | mark => true
  | _ => false

structure TextSession where
  current : TextCursor
  /-- The cursors marked, the latest last. -/
  marks : List TextCursor

namespace TextSession

def start (text : String) : TextSession := ⟨.ofText text, []⟩

/-- A mark is answered by its number. Without such a mark a reset changes nothing. -/
def act (action : TextAction) (session : TextSession) : TextResponse × TextSession :=
  match action with
  | .ask question =>
    let (response, current) := session.current.answer question
    (response, { session with current })
  | .mark =>
    (.number session.marks.length, { session with marks := session.marks ++ [session.current] })
  | .reset number =>
    (.done, { session with current := session.marks[number]?.getD session.current })

/-- The responses to a list of actions and the session behind them. -/
def run : List TextAction → TextSession → List TextResponse × TextSession
  | [], session => ([], session)
  | action :: later, session =>
    let (response, next) := session.act action
    let (responses, last) := run later next
    (response :: responses, last)

def after (actions : List TextAction) (session : TextSession) : TextSession :=
  (session.run actions).2

end TextSession

end LoxSyntax
