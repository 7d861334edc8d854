import LoxSyntax.Proofs.Splits

/-!
Completions of what breaks off. Whatever was read can still be completed: a missing operand is
supplied, an open grouping is closed and a statement is terminated. Only the token that opens one
level too many must be given up. No completion nests deeper than what it completes.
-/

namespace LoxSyntax

open Grammar

/-- The tokens that something readable can begin with, of those read up to a fault. -/
def viable : SyntaxFault → List Token → List Token
  | .nestedDeeperThan _, w => w.dropLast
  | _, w => w

variable {settings : Settings} {limit n room m : Nat} {cause : SyntaxFault} {w u : List Token}
  {t : Token}

theorem viable_of_ne (h : ∀ m, cause ≠ .nestedDeeperThan m) (w : List Token) :
    viable cause w = w := by
  cases cause with
  | nestedDeeperThan m => exact absurd rfl (h m)
  | unclosedGrouping => rfl
  | unterminatedPrint => rfl
  | unterminatedExpression => rfl
  | trailingToken => rfl
  | unexpectedToken lexeme => rfl

/-- Tokens in front of those that break off are all kept. -/
theorem viable_append (a : List Token) (h : ∀ m, cause = .nestedDeeperThan m → w ≠ []) :
    viable cause (a ++ w) = a ++ viable cause w := by
  by_cases hcause : ∃ m, cause = .nestedDeeperThan m
  · obtain ⟨m, rfl⟩ := hcause
    exact List.dropLast_append_of_ne_nil (h m rfl)
  · have hne : ∀ m, cause ≠ .nestedDeeperThan m := fun m hm => hcause ⟨m, hm⟩
    rw [viable_of_ne hne, viable_of_ne hne]

namespace Grammar

theorem Breaks.ne_nil (h : Breaks limit n room w t (.nestedDeeperThan m)) : w ≠ [] := by
  generalize hcause : SyntaxFault.nestedDeeperThan m = cause at h
  induction h with
  | start h => cases hcause
  | deep h => exact List.cons_ne_nil _ _
  | operand hoperator h ih => exact List.cons_ne_nil _ _
  | inner hopening h ih => exact List.cons_ne_nil _ _
  | unclosed hopening h hends hclosing => cases hcause
  | left h ih => exact ih hcause
  | right hleft hoperator h ih => simp

theorem Breaks.viable_append (h : Breaks limit n room w t cause) (a : List Token) :
    viable cause (a ++ w) = a ++ viable cause w := by
  apply LoxSyntax.viable_append
  rintro m rfl
  exact h.ne_nil

/-- An expression that breaks off can be completed within the same room. -/
theorem Breaks.exists_completion (h : Breaks limit n room w t cause) :
    ∃ later, ∃ e : Expr, e.Fits n room (viable cause w ++ later) := by
  have hnil : ∀ room, (Expr.literal .nil).Fits 0 room [Word.nilWord.token] :=
    fun room => .literal (.nil rfl)
  induction h with
  | start h => exact ⟨_, _, hnil _⟩
  | deep h => exact ⟨_, _, hnil 0⟩
  | @operand room operator t w cause hoperator h ih =>
    obtain ⟨later, e, he⟩ := ih
    refine ⟨later, .unary operator e, ?_⟩
    have hviable := h.viable_append [operator]
    rw [List.singleton_append] at hviable
    rw [hviable]
    exact .unary hoperator he
  | @inner room opening t w cause hopening h ih =>
    obtain ⟨later, e, he⟩ := ih
    refine ⟨later ++ [Symbol.rightParen.token], .grouping e, ?_⟩
    have hviable := h.viable_append [opening]
    rw [List.singleton_append] at hviable
    rw [hviable, ← List.append_assoc]
    exact .grouping hopening he rfl
  | unclosed hopening h hends hclosing =>
    exact ⟨[Symbol.rightParen.token], .grouping _, .grouping hopening h rfl⟩
  | left h ih =>
    obtain ⟨later, e, he⟩ := ih
    exact ⟨later, e, he.mono (Nat.le_succ _)⟩
  | @right n room left operator t u v cause hleft hoperator h ih =>
    obtain ⟨later, e, he⟩ := ih
    refine ⟨later, .binary left operator e, ?_⟩
    have hviable := h.viable_append (u ++ [operator])
    rw [List.append_assoc, List.singleton_append] at hviable
    rw [hviable, List.append_assoc, List.append_assoc]
    exact .binary hleft hoperator he

theorem WholeBreaks.ne_nil (h : WholeBreaks limit w t (.nestedDeeperThan m)) : w ≠ [] := by
  rcases h with h | ⟨hcause, -⟩
  · exact h.ne_nil
  · cases hcause

theorem WholeBreaks.at_limit (h : WholeBreaks limit w t (.nestedDeeperThan m)) (other : Token) :
    WholeBreaks limit w other (.nestedDeeperThan m) := by
  rcases h with h | ⟨hcause, -⟩
  · exact .inl h.at_limit
  · cases hcause

theorem WholeBreaks.exists_completion (h : WholeBreaks limit w t cause) :
    ∃ later, ∃ e : Expr, e.Fits 4 limit (viable cause w ++ later) := by
  rcases h with h | ⟨rfl, -, -, e, he⟩
  · exact h.exists_completion
  · refine ⟨[], e, ?_⟩
    rw [List.append_nil]
    exact he

end Grammar

/-- A block holds the tokens of an expression, and the word and the semicolon around it. -/
theorem Block.Fits.kind_mem {b : Block} (h : b.Fits settings) :
    ∀ t ∈ b.tokens, t.kind ∈ .word .printWord :: .symbol .semicolon :: expressionKinds := by
  cases b with
  | print word body value closing =>
    obtain ⟨hword, hvalue, hclosing⟩ := h
    intro t ht
    simp only [tokens, List.cons_append, List.mem_cons, List.mem_append, List.not_mem_nil,
      or_false] at ht
    rcases ht with rfl | ht | rfl
    · simp [hword]
    · simp [hvalue.written.kind_mem hvalue.canonical t ht]
    · simp [hclosing]
  | closed body value closing =>
    obtain ⟨hvalue, hclosing⟩ := h
    intro t ht
    simp only [tokens, List.mem_append, List.mem_singleton] at ht
    rcases ht with ht | rfl
    · simp [hvalue.written.kind_mem hvalue.canonical t ht]
    · simp [hclosing]
  | bare body value =>
    intro t ht
    simp [h.2.written.kind_mem h.2.canonical t ht]

/-- No block holds an end mark. -/
theorem Block.Fits.ne_endMark {b : Block} (h : b.Fits settings) :
    ∀ t ∈ b.tokens, t.kind ≠ .endMark := by
  intro t ht hmark
  have hmem := h.kind_mem t ht
  rw [hmark] at hmem
  exact absurd hmem (by decide)

namespace StatementBreaks

theorem ne_nil (h : StatementBreaks settings w t (.nestedDeeperThan m)) : w ≠ [] := by
  cases h with
  | value hword h => exact h.ne_nil
  | printed hword h => exact List.cons_ne_nil _ _

theorem at_limit (h : StatementBreaks settings w t (.nestedDeeperThan m)) (other : Token) :
    StatementBreaks settings w other (.nestedDeeperThan m) := by
  cases h with
  | value hword h => exact .value (fun hnil => absurd hnil h.ne_nil) h.at_limit
  | printed hword h => exact .printed hword h.at_limit

/-- With a semicolon behind it a completed expression is a statement under all settings. -/
theorem exists_completion (h : StatementBreaks settings w t cause) :
    ∃ later, ∃ b : Block, b.Fits settings ∧ b.tokens = viable cause w ++ later := by
  cases h with
  | value hword h =>
    obtain ⟨later, e, he⟩ := h.exists_completion
    refine ⟨later ++ [Symbol.semicolon.token], .closed _ e Symbol.semicolon.token, ⟨he, rfl⟩, ?_⟩
    exact List.append_assoc _ later [Symbol.semicolon.token]
  | @printed word w t cause hword h =>
    obtain ⟨later, e, he⟩ := h.exists_completion
    have hviable := h.viable_append [word]
    rw [List.singleton_append] at hviable
    refine ⟨later ++ [Symbol.semicolon.token],
      .print word _ e Symbol.semicolon.token, ⟨hword, he, rfl⟩, ?_⟩
    rw [hviable]
    exact List.append_assoc (word :: viable cause w) later [Symbol.semicolon.token]
  | @unterminatedPrint word w t e hword he hends hclosing =>
    exact ⟨[Symbol.semicolon.token], .print word w e Symbol.semicolon.token,
      ⟨hword, he, rfl⟩, rfl⟩
  | @unterminated w t e hrequired he hends hclosing =>
    exact ⟨[Symbol.semicolon.token], .closed w e Symbol.semicolon.token, ⟨he, rfl⟩, rfl⟩

end StatementBreaks

namespace ProgramBreaks

theorem ne_nil (h : ProgramBreaks settings w t (.nestedDeeperThan m)) : w ≠ [] := by
  obtain ⟨blocks, u, rfl, -, hbreaks, -⟩ := h
  exact fun hnil => hbreaks.ne_nil (List.append_eq_nil_iff.1 hnil).2

theorem at_limit (h : ProgramBreaks settings w t (.nestedDeeperThan m)) (other : Token) :
    ProgramBreaks settings w other (.nestedDeeperThan m) := by
  obtain ⟨blocks, u, rfl, hchain, hbreaks, -⟩ := h
  obtain ⟨first, later, rfl⟩ := List.exists_cons_of_ne_nil hbreaks.ne_nil
  exact ⟨blocks, first :: later, rfl, hchain, hbreaks.at_limit other,
    fun hnil => absurd hnil (List.cons_ne_nil first later)⟩

theorem exists_completion (h : ProgramBreaks settings w t cause) :
    ∃ later, ∃ blocks : List Block, blocks.flatMap Block.tokens = viable cause w ++ later ∧
      ∀ b ∈ blocks, b.Fits settings := by
  obtain ⟨blocks, u, rfl, hchain, hbreaks, -⟩ := h
  obtain ⟨later, b, hb, htokens⟩ := hbreaks.exists_completion
  refine ⟨later, blocks ++ [b], ?_, ?_⟩
  · have hviable : viable cause (blocks.flatMap Block.tokens ++ u) =
        blocks.flatMap Block.tokens ++ viable cause u :=
      viable_append _ fun m hm => (hm ▸ hbreaks).ne_nil
    rw [List.flatMap_append, List.flatMap_cons, List.flatMap_nil, List.append_nil, htokens,
      hviable, List.append_assoc]
  · intro c hc
    rcases List.mem_append.1 hc with hc | hc
    · exact hchain.fits c hc
    · rw [List.mem_singleton.1 hc]
      exact hb

end ProgramBreaks

end LoxSyntax
