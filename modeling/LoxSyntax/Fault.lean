/-!
What can be wrong with a text, a token list or a program, and how it is worded. A fault is a
cause only; where it lies is said by a diagnostic.
-/

namespace LoxSyntax

/-- What is wrong with the characters of a text. -/
inductive LexicalFault
  | strayCharacter (c : Char)
  | unclosedString
  deriving DecidableEq

/-- Why a list of tokens is no token stream. -/
inductive StreamFault
  | empty
  | noEndMark
  deriving DecidableEq

/-- Why the tokens read so far begin no program. -/
inductive SyntaxFault
  | unclosedGrouping
  | unterminatedPrint
  | unterminatedExpression
  | trailingToken
  | unexpectedToken (lexeme : String)
  | nestedDeeperThan (limit : Nat)
  deriving DecidableEq

instance : ToString LexicalFault where
  toString
    | .strayCharacter c => s!"Unexpected character '{c}'."
    | .unclosedString => "Unterminated string."

instance : ToString StreamFault where
  toString
    | .empty => "token stream is empty"
    | .noEndMark => "token stream does not end with an end-of-file token"

instance : ToString SyntaxFault where
  toString
    | .unclosedGrouping => "Expect ')' after expression."
    | .unterminatedPrint => "Expect ';' after value."
    | .unterminatedExpression => "Expect ';' after expression."
    | .trailingToken => "Expect end of expression."
    | .unexpectedToken lexeme => s!"Unexpected token '{lexeme}'"
    | .nestedDeeperThan limit => s!"Expression nests more than {limit} levels deep."

end LoxSyntax
