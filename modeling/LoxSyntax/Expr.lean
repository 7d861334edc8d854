import LoxSyntax.Token

/-!
Expressions and statements, and their canonical text. The text is in parentheses throughout; an
operator stands in front of one operand and behind two, and a string is written as it is, without
quotes. An expression keeps the operator tokens that it was read from.
-/

namespace LoxSyntax

inductive Value
  | number (value : Double)
  | string (text : String)
  | boolean (value : Bool)
  | nil
  deriving DecidableEq

inductive Expr
  | literal (value : Value)
  | grouping (inner : Expr)
  | unary (operator : Token) (operand : Expr)
  | binary (left : Expr) (operator : Token) (right : Expr)
  deriving DecidableEq

inductive Statement
  | print (value : Expr)
  | expression (value : Expr)
  deriving DecidableEq

namespace Value

def ofLiteral : Literal → Value
  | .number value => number value
  | .string text => string text

def render : Value → String
  | number value => toString value
  | string text => text
  | boolean true => "true"
  | boolean false => "false"
  | nil => "nil"

def equal : Value → Value → Bool
  | number a, number b => a.equal b
  | string a, string b => a == b
  | boolean a, boolean b => a == b
  | nil, nil => true
  | _, _ => false

end Value

namespace Expr

def render : Expr → String
  | literal value => value.render
  | grouping inner => s!"(group {inner.render})"
  | unary operator operand => s!"({operator.lexeme} {operand.render})"
  | binary left operator right => s!"({left.render} {right.render} {operator.lexeme})"

/-- Equality of trees, operator tokens included, with numbers compared by value. -/
def equal : Expr → Expr → Bool
  | literal a, literal b => a.equal b
  | grouping a, grouping b => a.equal b
  | unary o a, unary q b => o.equal q && a.equal b
  | binary a o b, binary c q d => a.equal c && o.equal q && b.equal d
  | _, _ => false

end Expr

def Statement.render : Statement → String
  | print value => s!"(print {value.render})"
  | expression value => s!"(expr {value.render})"

end LoxSyntax
