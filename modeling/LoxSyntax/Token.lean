import LoxSyntax.Position
import LoxSyntax.Shortest
import LoxSyntax.Vocabulary

/-!
Tokens: the lexemes of a text with their kinds, literals and places. A list of tokens is closed
by an end mark, which has an empty lexeme when it is read off a text.
-/

namespace LoxSyntax

inductive Kind
  | symbol (s : Symbol)
  | word (w : Word)
  | identifier
  | string
  | number
  | endMark
  deriving DecidableEq

inductive Literal
  | number (value : Double)
  | string (text : String)
  deriving DecidableEq

structure Token where
  kind : Kind
  lexeme : String
  literal : Option Literal
  position : Position
  deriving DecidableEq

namespace Kind

def name : Kind → String
  | symbol s => s.name
  | word w => w.name
  | identifier => "Identifier"
  | string => "Str"
  | number => "Number"
  | endMark => "Eof"

def all : List Kind :=
  Symbol.all.map symbol ++ Word.all.map word ++ [identifier, string, number, endMark]

def ofName? (text : String) : Option Kind := all.find? (·.name == text)

theorem mem_all (k : Kind) : k ∈ all := by
  cases k <;> simp [all, Symbol.mem_all, Word.mem_all]

end Kind

/-- Numbers are compared by value, so a literal that is not a number differs from itself. -/
def Literal.equal : Literal → Literal → Bool
  | .number a, .number b => a.equal b
  | .string a, .string b => a == b
  | _, _ => false

def Token.equal (a b : Token) : Bool :=
  a.kind == b.kind && a.lexeme == b.lexeme && a.position == b.position &&
    match a.literal, b.literal with
    | none, none => true
    | some x, some y => x.equal y
    | _, _ => false

end LoxSyntax
