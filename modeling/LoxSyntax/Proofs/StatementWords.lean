import LoxSyntax.Proofs.Fences
import LoxSyntax.Proofs.Moves

/-!
The words that begin statements. From where it begins to where the next attempt begins, an attempt
passes over at least one token, and behind the first of them over no word that can begin a
statement. So the attempts of a run divide its tokens among them, and every such word begins an
attempt of its own, whatever stands in front of it.
-/

namespace LoxSyntax

open Grammar

/-- Whether reading may go on at the token after a fault. -/
def Token.OpensStatement (t : Token) : Prop := t.kind ∈ statementWords.map .word

instance (t : Token) : Decidable t.OpensStatement :=
  inferInstanceAs (Decidable (t.kind ∈ statementWords.map .word))

variable {settings : Settings} {t : Token} {w : List Token} {cause : SyntaxFault}

/-- There are eight words that begin a statement. -/
theorem Token.opensStatement_iff :
    t.OpensStatement ↔
      t.kind = .word .classWord ∨ t.kind = .word .funWord ∨ t.kind = .word .varWord ∨
        t.kind = .word .forWord ∨ t.kind = .word .ifWord ∨ t.kind = .word .whileWord ∨
        t.kind = .word .printWord ∨ t.kind = .word .returnWord := by
  simp only [OpensStatement, statementWords, List.map_cons, List.map_nil, List.mem_cons,
    List.not_mem_nil, or_false]

/-- No expression holds a word that begins a statement. -/
theorem Token.not_opensStatement_of_mem (h : t.kind ∈ expressionKinds) : ¬ t.OpensStatement := by
  have hall : ∀ k ∈ expressionKinds, k ∉ statementWords.map .word := by decide
  exact hall t.kind h

theorem Token.not_opensStatement_of_semicolon (h : t.kind = .symbol .semicolon) :
    ¬ t.OpensStatement := by
  simp only [opensStatement_iff, h, reduceCtorEq, or_self, not_false_eq_true]

theorem Expr.Fits.not_opensStatement {e : Expr} {n room : Nat} (h : e.Fits n room w) :
    ∀ u ∈ w, ¬ u.OpensStatement :=
  fun u hu => Token.not_opensStatement_of_mem (h.written.kind_mem h.canonical u hu)

theorem Expr.Fits.not_opensStatement_concat {e : Expr} {n room : Nat} {closing : Token}
    (h : e.Fits n room w) (hclosing : closing.kind = .symbol .semicolon) :
    ∀ u ∈ w ++ [closing], ¬ u.OpensStatement := by
  intro u hu
  rcases List.mem_append.1 hu with hu | hu
  · exact h.not_opensStatement u hu
  · rw [List.mem_singleton.1 hu]
    exact Token.not_opensStatement_of_semicolon hclosing

/-- The only word that begins a statement is the first token of its block. -/
theorem Block.Fits.not_opensStatement {b : Block} (h : b.Fits settings) :
    ∀ u ∈ b.tokens.tail, ¬ u.OpensStatement := by
  cases b with
  | print word body value closing => exact h.2.1.not_opensStatement_concat h.2.2
  | closed body value closing =>
    exact fun u hu => h.1.not_opensStatement_concat h.2 u (List.mem_of_mem_tail hu)
  | bare body value => exact fun u hu => h.2.not_opensStatement u (List.mem_of_mem_tail hu)

theorem StatementBreaks.not_opensStatement (h : StatementBreaks settings w t cause) :
    ∀ u ∈ w.tail, ¬ u.OpensStatement := by
  cases h with
  | value _ h =>
    exact fun u hu => Token.not_opensStatement_of_mem (h.kind_mem u (List.mem_of_mem_tail hu))
  | printed _ h => exact fun u hu => Token.not_opensStatement_of_mem (h.kind_mem u hu)
  | unterminatedPrint _ h => exact h.not_opensStatement
  | unterminated _ h => exact fun u hu => h.not_opensStatement u (List.mem_of_mem_tail hu)

namespace TokenStream

variable {s r : TokenStream}

end TokenStream

namespace Attempt

variable {s r : TokenStream}

end Attempt

theorem attempts_eq_cons {rule : Rule Statement} {s : TokenStream} {first : Attempt}
    {later : List Attempt} (h : attempts rule s = first :: later) :
    s.pending ≠ [] ∧ first = .make rule s ∧ later = attempts rule first.resumed := by
  have hpending : s.pending ≠ [] := by
    intro hnil
    rw [attempts_of_atEnd hnil] at h
    cases h
  rw [attempts_of_pending hpending] at h
  obtain ⟨rfl, rfl⟩ := List.cons.inj h
  exact ⟨hpending, rfl, rfl⟩

/-- An attempt of a run was made where it begins, and the attempts behind it are those from where
it left off. -/
theorem attempts_eq_append {rule : Rule Statement} {s : TokenStream} {before later : List Attempt}
    {attempt : Attempt} (h : attempts rule s = before ++ attempt :: later) :
    (∃ w, s.After w attempt.begun) ∧ attempt.begun.pending ≠ [] ∧
      attempt = .make rule attempt.begun ∧ later = attempts rule attempt.resumed := by
  induction before generalizing s with
  | nil =>
    obtain ⟨hpending, rfl, hlater⟩ := attempts_eq_cons h
    exact ⟨⟨[], .refl s⟩, hpending, rfl, hlater⟩
  | cons first before ih =>
    obtain ⟨-, rfl, hlater⟩ := attempts_eq_cons h
    obtain ⟨⟨w, hw⟩, hrest⟩ := ih hlater.symm
    obtain ⟨v, hv⟩ := (rule.forward s).onward
    obtain ⟨u, hu⟩ := (Attempt.make rule s).exists_after_resumed
    exact ⟨⟨_, (hv.trans hu).trans hw⟩, hrest⟩

variable {s r : TokenStream}

end LoxSyntax
