/-!
The fixed vocabulary of the language: its symbols, which are punctuation and operators, and its
reserved words. Each has one spelling, and different ones are spelled differently. Besides its
spelling each has a name, under which it is shown.
-/

namespace LoxSyntax

inductive Symbol
  | leftParen | rightParen | leftBrace | rightBrace
  | comma | dot | minus | plus | semicolon | slash | star
  | bang | bangEqual | equal | equalEqual | greater | greaterEqual | less | lessEqual
  deriving DecidableEq

inductive Word
  | andWord | classWord | elseWord | falseWord | funWord | forWord | ifWord | nilWord
  | orWord | printWord | returnWord | superWord | thisWord | trueWord | varWord | whileWord
  deriving DecidableEq

namespace Symbol

def all : List Symbol :=
  [leftParen, rightParen, leftBrace, rightBrace, comma, dot, minus, plus, semicolon, slash, star,
    bang, bangEqual, equal, equalEqual, greater, greaterEqual, less, lessEqual]

def spelling : Symbol → String
  | leftParen => "("
  | rightParen => ")"
  | leftBrace => "\x7b"
  | rightBrace => "\x7d"
  | comma => ","
  | dot => "."
  | minus => "-"
  | plus => "+"
  | semicolon => ";"
  | slash => "/"
  | star => "*"
  | bang => "!"
  | bangEqual => "!="
  | equal => "="
  | equalEqual => "=="
  | greater => ">"
  | greaterEqual => ">="
  | less => "<"
  | lessEqual => "<="

def name : Symbol → String
  | leftParen => "LeftParen"
  | rightParen => "RightParen"
  | leftBrace => "LeftBrace"
  | rightBrace => "RightBrace"
  | comma => "Comma"
  | dot => "Dot"
  | minus => "Minus"
  | plus => "Plus"
  | semicolon => "Semicolon"
  | slash => "Slash"
  | star => "Star"
  | bang => "Bang"
  | bangEqual => "BangEqual"
  | equal => "Equal"
  | equalEqual => "EqualEqual"
  | greater => "Greater"
  | greaterEqual => "GreaterEqual"
  | less => "Less"
  | lessEqual => "LessEqual"

def ofSpelling? (text : String) : Option Symbol := all.find? (·.spelling == text)

theorem mem_all (s : Symbol) : s ∈ all := by cases s <;> decide

theorem ofSpelling?_eq_some_iff {text : String} {s : Symbol} :
    ofSpelling? text = some s ↔ s.spelling = text := by
  constructor
  · intro h
    simpa using List.find?_some h
  · rintro rfl
    cases s <;> decide

theorem spelling_injective {a b : Symbol} (h : a.spelling = b.spelling) : a = b :=
  Option.some.inj ((ofSpelling?_eq_some_iff.2 rfl).symm.trans (ofSpelling?_eq_some_iff.2 h.symm))

end Symbol

namespace Word

def all : List Word :=
  [andWord, classWord, elseWord, falseWord, funWord, forWord, ifWord, nilWord, orWord, printWord,
    returnWord, superWord, thisWord, trueWord, varWord, whileWord]

def spelling : Word → String
  | andWord => "and"
  | classWord => "class"
  | elseWord => "else"
  | falseWord => "false"
  | funWord => "fun"
  | forWord => "for"
  | ifWord => "if"
  | nilWord => "nil"
  | orWord => "or"
  | printWord => "print"
  | returnWord => "return"
  | superWord => "super"
  | thisWord => "this"
  | trueWord => "true"
  | varWord => "var"
  | whileWord => "while"

def name : Word → String
  | andWord => "And"
  | classWord => "Class"
  | elseWord => "Else"
  | falseWord => "False"
  | funWord => "Fun"
  | forWord => "For"
  | ifWord => "If"
  | nilWord => "Nil"
  | orWord => "Or"
  | printWord => "Print"
  | returnWord => "Return"
  | superWord => "Super"
  | thisWord => "This"
  | trueWord => "True"
  | varWord => "Var"
  | whileWord => "While"

def ofSpelling? (text : String) : Option Word := all.find? (·.spelling == text)

theorem mem_all (w : Word) : w ∈ all := by cases w <;> decide

theorem ofSpelling?_eq_some_iff {text : String} {w : Word} :
    ofSpelling? text = some w ↔ w.spelling = text := by
  constructor
  · intro h
    simpa using List.find?_some h
  · rintro rfl
    cases w <;> decide

theorem spelling_injective {a b : Word} (h : a.spelling = b.spelling) : a = b :=
  Option.some.inj ((ofSpelling?_eq_some_iff.2 rfl).symm.trans (ofSpelling?_eq_some_iff.2 h.symm))

end Word

end LoxSyntax
