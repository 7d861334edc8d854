import LoxSyntax.Proofs.Layout
import LoxSyntax.Proofs.StatementWords

/-!
The order of the faults of a program. An attempt is stuck where it begins or behind that, and the
next one begins there or behind that, so the faults lie at tokens that never go back. A token has
a second fault only if reading goes on in front of it, which it does for a word that begins a
statement, and if the statement that the word begins is none that the grammar has.
-/

namespace LoxSyntax

open Grammar

variable {settings : Settings} {t : Token} {w : List Token} {cause : SyntaxFault}

theorem Reading.stuck?_eq_some_iff {α : Type} {reading : Reading α} {rest : TokenStream} :
    reading.stuck? = some (cause, rest) ↔ reading = .stuck cause rest := by
  cases reading with
  | done value behind => simp [stuck?]
  | stuck found behind => simp [stuck?]

variable {s r rest : TokenStream}

namespace TokenStream

end TokenStream

section Tokens

variable {tokens : List Token}

end Tokens

end LoxSyntax
