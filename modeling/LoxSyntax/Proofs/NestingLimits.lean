import LoxSyntax.Proofs.Traces
import LoxSyntax.Proofs.WholeExpressions

/-!
Two limits on nesting. Under the lower one a rule reads what it reads under the higher one, or it is
stuck at the lower limit: this passes from the operands to every rule that is made of them, by the
room that is left for nesting. So a run that never reports its limit is the run under any higher
one, and a program that is read under the higher limit is read under the lower one if its trees nest
no deeper. The depth that a machine counts is the same behind a rule as in front of it.
-/

namespace LoxSyntax

variable {α β : Type} {n m : Nat}

namespace Reading

/-- A reading under the limit `n`, next to one under a higher limit. -/
def CappedBy (n : Nat) (reading other : Reading α) : Prop :=
  reading = other ∨ ∃ rest, reading = .stuck (.nestedDeeperThan n) rest

theorem CappedBy.refl (reading : Reading α) : reading.CappedBy n reading := .inl rfl

theorem CappedBy.bind {reading other : Reading α} {next nextOther : α → TokenStream → Reading β}
    (h : reading.CappedBy n other)
    (hnext : ∀ value rest, (next value rest).CappedBy n (nextOther value rest)) :
    (reading.bind next).CappedBy n (other.bind nextOther) := by
  rcases h with rfl | ⟨rest, rfl⟩
  · cases reading with
    | done value rest => exact hnext value rest
    | stuck cause rest => exact .refl _
  · exact .inr ⟨rest, rfl⟩

theorem CappedBy.map {reading other : Reading α} (h : reading.CappedBy n other) (f : α → β) :
    (reading.map f).CappedBy n (other.map f) := by
  rcases h with rfl | ⟨rest, rfl⟩
  · exact .refl _
  · exact .inr ⟨rest, rfl⟩

end Reading

/-- A rule under the limit `n`, next to one under a higher limit. -/
def Rule.CappedBy (n : Nat) (rule other : Rule α) : Prop :=
  ∀ s, (rule.read s).CappedBy n (other.read s)

theorem Rule.cappedBy_never (n : Nat) (other : Rule α) :
    (Rule.never (.nestedDeeperThan n)).CappedBy n other := fun s => .inr ⟨s, rfl⟩

namespace Grammar

variable {rule other inner innerOther deeper deeperOther : Rule Expr}

theorem cappedBy_extend (h : rule.CappedBy n other) (operators : List Symbol) (left : Expr)
    (s : TokenStream) :
    (extend operators rule left s).CappedBy n (extend operators other left s) := by
  fun_induction extend operators rule left s with
  | case1 left s htake =>
    rw [extend_eq, htake]
    exact .refl _
  | case2 left s operator behind htake cause rest hread =>
    rw [extend_eq, htake]
    dsimp only
    rcases h behind with hsame | ⟨stop, hstuck⟩
    · rw [← hsame, hread]
      exact .refl _
    · rw [hread] at hstuck
      cases hstuck
      exact .inr ⟨rest, rfl⟩
  | case3 left s operator behind htake right rest hread ih =>
    rw [extend_eq operators other, htake]
    dsimp only
    rcases h behind with hsame | ⟨stop, hstuck⟩
    · rw [← hsame, hread]
      exact ih
    · rw [hread] at hstuck
      cases hstuck

theorem cappedBy_chain (h : rule.CappedBy n other) (operators : List Symbol) :
    (chain rule operators).CappedBy n (chain other operators) := fun s =>
  (h s).bind (cappedBy_extend h operators)

theorem cappedBy_binary (h : rule.CappedBy n other) : (binary rule).CappedBy n (binary other) := by
  unfold binary
  generalize binaryTiers = tiers
  induction tiers generalizing rule other with
  | nil => exact h
  | cons operators tiers ih => exact ih (cappedBy_chain h operators)

theorem cappedBy_primary (h : inner.CappedBy n innerOther) :
    (primary inner).CappedBy n (primary innerOther) := by
  intro s
  unfold primary
  dsimp only
  split
  · exact .refl _
  split
  · rename_i t behind htake
    exact (h behind).bind fun _ _ => .refl _
  · exact .refl _

theorem cappedBy_operand (hdeeper : deeper.CappedBy n deeperOther)
    (hinner : inner.CappedBy n innerOther) :
    (operand deeper inner).CappedBy n (operand deeperOther innerOther) := by
  intro s
  unfold operand
  dsimp only
  split
  · rename_i operator behind htake
    exact (hdeeper behind).map (Expr.unary operator)
  · exact cappedBy_primary hinner s

/-- Where there is less room the limit is reached sooner, and nothing else is read. -/
theorem cappedBy_unary {room roomOther : Nat} (h : room ≤ roomOther) :
    (unary n room).CappedBy n (unary m roomOther) := by
  induction room generalizing roomOther with
  | zero =>
    obtain ⟨deeper, inner, hother⟩ := unary_eq_operand m roomOther
    rw [hother, unary]
    exact cappedBy_operand (Rule.cappedBy_never n deeper) (Rule.cappedBy_never n inner)
  | succ room ih =>
    obtain ⟨roomOther, rfl⟩ := Nat.exists_eq_add_one_of_ne_zero (Nat.ne_zero_of_lt h)
    have hdeeper := ih (Nat.le_of_succ_le_succ h)
    rw [unary, unary]
    exact cappedBy_operand hdeeper (cappedBy_binary hdeeper)

theorem cappedBy_expression (h : n ≤ m) : (expression n).CappedBy n (expression m) :=
  cappedBy_binary (cappedBy_unary h)

theorem cappedBy_wholeExpression (h : n ≤ m) (s : TokenStream) :
    (wholeExpression n s).CappedBy n (wholeExpression m s) :=
  (cappedBy_expression h s).bind fun _ _ => .refl _

theorem cappedBy_statement (h : rule.CappedBy n other) (terminator : Terminator) :
    (statement terminator rule).CappedBy n (statement terminator other) := by
  intro s
  unfold statement
  dsimp only
  split
  · rename_i t behind htake
    exact (h behind).bind fun _ _ => .refl _
  · exact (h s).bind fun _ _ => .refl _

end Grammar

/-- Where no attempt is stuck at the lower limit, the same attempts are made under the higher. -/
theorem attempts_eq_of_cappedBy {rule other : Rule Statement} (h : rule.CappedBy n other)
    {s : TokenStream}
    (huncapped : ∀ attempt ∈ attempts rule s, ∀ rest,
      attempt.reading ≠ .stuck (.nestedDeeperThan n) rest) :
    attempts rule s = attempts other s := by
  fun_induction attempts rule s with
  | case1 s hend => rw [attempts_of_atEnd (List.isEmpty_iff.1 hend)]
  | case2 s hend attempt =>
    rename_i ih
    have hpending : s.pending ≠ [] := fun hnil => hend (List.isEmpty_iff.2 hnil)
    have hlater := ih fun later hlater => huncapped later (List.mem_cons_of_mem _ hlater)
    rcases h s with hsame | ⟨rest, hstuck⟩
    · have hmake : Attempt.make other s = attempt := congrArg (Attempt.mk s) hsame.symm
      rw [attempts_of_pending hpending, hmake, hlater]
    · exact absurd hstuck (huncapped attempt List.mem_cons_self rest)

/-- How the outcome under the limit `n` and the one under a higher limit stand to each other, if
`Flat` are the results that nest no deeper than `n`. -/
structure LimitOnlyReports (n : Nat) (Flat : α → Prop)
    (low high : Except (Report SyntaxFault) α) : Prop where
  alike : (∀ d ∈ reported low, d.cause ≠ .nestedDeeperThan n) → high = low
  ok_iff : ∀ value, high = .ok value → ((∃ other, low = .ok other) ↔ Flat value)
  told : ∀ value, high = .ok value → (∀ other, low ≠ .ok other) →
    ∃ d ∈ reported low, d.cause = .nestedDeeperThan n

/-- It is enough that the lower limit is the one cause of a difference, and that a result is found
under both limits or under none if it is flat. -/
theorem LimitOnlyReports.of_alike {Flat : α → Prop} {low high : Except (Report SyntaxFault) α}
    (halike : (∀ d ∈ reported low, d.cause ≠ .nestedDeeperThan n) → high = low)
    (hflat : ∀ value, high = .ok value → (low = .ok value ↔ Flat value)) :
    LimitOnlyReports n Flat low high where
  alike := halike
  ok_iff := by
    intro value hvalue
    rw [← hflat value hvalue]
    constructor
    · rintro ⟨other, hother⟩
      have hsame := halike (by rw [hother]; exact fun _ hd => nomatch hd)
      rw [← hsame, hvalue]
    · exact fun hlow => ⟨value, hlow⟩
  told := by
    intro value hvalue hlow
    by_contra hnone
    have hsame := halike fun d hd hcause => hnone ⟨d, hd, hcause⟩
    exact hlow value (hsame ▸ hvalue)

def Statement.nesting : Statement → Nat
  | print value => value.nesting
  | expression value => value.nesting

section Streams

variable {s : TokenStream} {terminator : Terminator}

theorem Expr.Fits.room {e : Expr} {k room : Nat} {w : List Token} (h : e.Fits k m w)
    (hle : e.nesting ≤ room) : e.Fits k room w :=
  { h with nesting_le := hle }

theorem Block.Fits.limit {b : Block} (h : b.Fits ⟨terminator, m⟩) (hle : b.statement.nesting ≤ n) :
    b.Fits ⟨terminator, n⟩ := by
  cases b with
  | print word body value closing => exact ⟨h.1, h.2.1.room hle, h.2.2⟩
  | closed body value closing => exact ⟨h.1.room hle, h.2⟩
  | bare body value => exact ⟨h.1, h.2.room hle⟩

theorem Block.Fits.nesting_le {b : Block} {settings : Settings} (h : b.Fits settings) :
    b.statement.nesting ≤ settings.nestingLimit := by
  cases b with
  | print word body value closing => exact h.2.1.nesting_le
  | closed body value closing => exact h.1.nesting_le
  | bare body value => exact h.2.nesting_le

theorem Block.Chain.limit {blocks : List Block} {t : Token}
    (h : Block.Chain ⟨terminator, m⟩ blocks t)
    (hle : ∀ b ∈ blocks, b.statement.nesting ≤ n) : Block.Chain ⟨terminator, n⟩ blocks t := by
  induction blocks with
  | nil => trivial
  | cons b later ih =>
    exact ⟨h.1.limit (hle b List.mem_cons_self), h.2.1,
      ih h.2.2 fun b hb => hle b (List.mem_cons_of_mem _ hb)⟩

theorem limitOnlyReports_readProgram (hs : s.Proper) (hle : n ≤ m) (terminator : Terminator) :
    LimitOnlyReports n (fun statements => ∀ statement ∈ statements, statement.nesting ≤ n)
      (readProgram ⟨terminator, n⟩ s) (readProgram ⟨terminator, m⟩ s) := by
  refine .of_alike ?_ ?_
  · intro huntold
    have hcapped : (Settings.statement ⟨terminator, n⟩).CappedBy n
        (Settings.statement ⟨terminator, m⟩) :=
      Grammar.cappedBy_statement (Grammar.cappedBy_expression hle) terminator
    have hattempts := attempts_eq_of_cappedBy hcapped (s := s) ?_
    · unfold readProgram
      rw [hattempts]
    · intro attempt hattempt rest hstuck
      have hd : rest.peek.diagnostic (.nestedDeeperThan n) ∈
          reported (readProgram ⟨terminator, n⟩ s) := by
        rw [readProgram, reported_outcome]
        exact List.mem_filterMap.2 ⟨attempt, hattempt, by rw [hstuck]; rfl⟩
      exact huntold _ hd rfl
  · intro statements hhigh
    obtain ⟨blocks, hchain, hpending, rfl⟩ := (readProgram_eq_ok_iff_chain hs).1 hhigh
    constructor
    · intro hlow statement hstatement
      obtain ⟨others, hothers, -, hsame⟩ := (readProgram_eq_ok_iff_chain hs).1 hlow
      rw [hsame] at hstatement
      obtain ⟨b, hb, rfl⟩ := List.mem_map.1 hstatement
      exact (hothers.fits b hb).nesting_le
    · intro hflat
      have hlimit := hchain.limit fun b hb => hflat _ (List.mem_map_of_mem hb)
      exact (readProgram_eq_ok_iff_chain hs).2 ⟨blocks, hlimit, hpending, rfl⟩

theorem limitOnlyReports_readExpression (hs : s.Proper) (hle : n ≤ m) (terminator : Terminator) :
    LimitOnlyReports n (fun e => e.nesting ≤ n)
      ((readExpression ⟨terminator, n⟩ s).mapError fun d => [d])
      ((readExpression ⟨terminator, m⟩ s).mapError fun d => [d]) := by
  have hok : ∀ limit e, (readExpression ⟨terminator, limit⟩ s).mapError (fun d => [d]) = .ok e ↔
      e.Fits 4 limit s.pending := by
    intro limit e
    have hfits : readExpression ⟨terminator, limit⟩ s = .ok e ↔ e.Fits 4 limit s.pending :=
      readExpression_eq_ok_iff_fits hs
    rw [← hfits]
    cases readExpression ⟨terminator, limit⟩ s with
    | ok value => simp [Except.mapError]
    | error d => simp [Except.mapError]
  refine .of_alike ?_ ?_
  · intro huntold
    unfold readExpression at huntold ⊢
    rcases Grammar.cappedBy_wholeExpression hle s with hsame | ⟨rest, hstuck⟩
    · dsimp only
      rw [hsame]
    · dsimp only at huntold
      rw [hstuck] at huntold
      exact absurd rfl (huntold _ List.mem_cons_self)
  · intro e hhigh
    rw [hok] at hhigh ⊢
    exact ⟨fun h => h.nesting_le, hhigh.room⟩

end Streams

/-- The run ends, with a value or a fault, and the depth is what it was. -/
def Machine.KeepsDepth (machine : Machine) (run : Machine.Run α) : Prop :=
  ∃ result behind, run machine = some (result, behind) ∧ behind.depth = machine.depth

theorem Machine.Reads.keepsDepth {machine : Machine} {s : TokenStream} {run : Machine.Run α}
    {read : TokenStream → Reading α} (hm : machine.tape.Shows s)
    (h : Machine.Reads machine.depth run read) : machine.KeepsDepth run :=
  ⟨_, _, (h machine s hm rfl).2, rfl⟩

/-- The limit on nesting acts in no other way than by being reported. Take a limit and one that is
no lower, on any list of tokens. If the lower one is not among the faults, both runs come to the
same statements, or to the same faults. If statements are read under the higher limit, then under
the lower one there are some exactly if none of these nests deeper, and otherwise the limit is among
the faults. The same holds of whole expressions. Whether they are read or given up, operands and
statements leave the depth as it was. -/
theorem nesting_limit_only_reports {tokens : List Token} {tape : TokenTape}
    (h : TokenTape.ofTokens tokens = .ok tape) (hle : n ≤ m) (terminator : Terminator) :
    (∃ low lowEnd high highEnd,
      Machine.readProgram ⟨terminator, n⟩ tape = some (low, lowEnd) ∧
        Machine.readProgram ⟨terminator, m⟩ tape = some (high, highEnd) ∧
        LimitOnlyReports n (fun statements => ∀ statement ∈ statements, statement.nesting ≤ n)
          low high ∧
        lowEnd.depth = 0 ∧ highEnd.depth = 0) ∧
    (∃ low lowEnd high highEnd,
      Machine.readExpression ⟨terminator, n⟩ tape = some (low, lowEnd) ∧
        Machine.readExpression ⟨terminator, m⟩ tape = some (high, highEnd) ∧
        LimitOnlyReports n (fun e => e.nesting ≤ n) (low.mapError fun d => [d])
          (high.mapError fun d => [d]) ∧
        lowEnd.depth = 0 ∧ highEnd.depth = 0) ∧
    ∀ (machine : Machine) (s : TokenStream), machine.tape.Shows s →
      (∀ room, n - machine.depth < room → machine.KeepsDepth (Machine.unary n room)) ∧
        (machine.depth = 0 → machine.KeepsDepth (Machine.statement ⟨terminator, n⟩)) := by
  obtain ⟨s, hs, hshows⟩ := TokenTape.exists_shows_of_ofTokens h
  have hproper := (TokenStream.ofTokens_eq_ok hs).2.1
  refine ⟨?_, ?_, ?_⟩
  · exact ⟨_, _, _, _, Machine.readProgram_of_shows hshows _, Machine.readProgram_of_shows hshows _,
      limitOnlyReports_readProgram hproper hle terminator, rfl, rfl⟩
  · exact ⟨_, _, _, _, Machine.readExpression_of_shows hshows _,
      Machine.readExpression_of_shows hshows _,
      limitOnlyReports_readExpression hproper hle terminator, rfl, rfl⟩
  · intro machine s hm
    refine ⟨fun room hroom => ?_, fun hdepth => ?_⟩
    · exact Machine.Reads.keepsDepth hm (Machine.reads_unary hroom)
    · exact Machine.Reads.keepsDepth hm (hdepth ▸ Machine.reads_statement ⟨terminator, n⟩)

theorem nesting_limit_only_reports_minus_nil :
    TokenTape.ofTokens [Symbol.minus.token, Word.nilWord.token, Token.mark] =
        .ok ⟨[Symbol.minus.token, Word.nilWord.token, Token.mark], 0, []⟩ ∧
      ∃ faults machine, Machine.readProgram ⟨.optional, 0⟩
          ⟨[Symbol.minus.token, Word.nilWord.token, Token.mark], 0, []⟩ =
            some (.error faults, machine) ∧
        (∃ d ∈ faults, d.cause = .nestedDeeperThan 0) ∧ machine.depth = 0 := by
  have h : TokenTape.ofTokens [Symbol.minus.token, Word.nilWord.token, Token.mark] =
      .ok ⟨[Symbol.minus.token, Word.nilWord.token, Token.mark], 0, []⟩ := rfl
  obtain ⟨⟨low, lowEnd, high, highEnd, hlow, hhigh, honly, hdepth, -⟩, -, -⟩ :=
    nesting_limit_only_reports h (Nat.zero_le 1) .optional
  have hread : high = .ok [.expression (.unary Symbol.minus.token (.literal .nil))] := by
    have hrun : (Machine.readProgram ⟨.optional, 1⟩
        ⟨[Symbol.minus.token, Word.nilWord.token, Token.mark], 0, []⟩).map Prod.fst =
          some (.ok [.expression (.unary Symbol.minus.token (.literal .nil))]) := by rfl
    rw [hhigh] at hrun
    exact Option.some.inj hrun
  have hnone : ∀ others, low ≠ .ok others := by
    intro others hothers
    have hflat := (honly.ok_iff _ hread).1 ⟨others, hothers⟩ _ List.mem_cons_self
    exact absurd hflat (by decide)
  have htold := honly.told _ hread hnone
  cases low with
  | ok others => exact absurd rfl (hnone others)
  | error faults => exact ⟨h, faults, lowEnd, hlow, htold, hdepth⟩

end LoxSyntax
