import LoxSyntax.Position

/-!
Diagnostics: a cause pinned to a place. A report is a list of them in the order in which they
were found, and is shown with one line for each.
-/

namespace LoxSyntax

structure Diagnostic (κ : Type) where
  position : Position
  cause : κ
  deriving DecidableEq

abbrev Report (κ : Type) := List (Diagnostic κ)

variable {κ : Type} [ToString κ]

namespace Diagnostic

def message (d : Diagnostic κ) : String := toString d.cause

instance : ToString (Diagnostic κ) where
  toString d := s!"error (l. {d.position.line}, c. {d.position.col}): {d.message}"

end Diagnostic

namespace Report

def add (report : Report κ) (d : Diagnostic κ) : Report κ := report ++ [d]

/-- The report without its latest entry; an empty report stays empty. -/
def withoutLast (report : Report κ) : Report κ := report.dropLast

/-- One line for each diagnostic, without a newline behind the last. -/
def text (report : Report κ) : String :=
  "\n".intercalate (report.map toString)

end Report

end LoxSyntax
