import LoxSyntax.Proofs.Statements

/-!
Programs up to their first fault. The attempts of a run read one block after another, each ending
where the next begins, until the stream ends or a statement breaks off. What the run comes to so
far is settled by the tokens read and the one in view behind them.
-/

namespace LoxSyntax

open Grammar

theorem attempts_of_atEnd {rule : Rule Statement} {s : TokenStream} (h : s.pending = []) :
    attempts rule s = [] := by
  have hend : s.atEnd = true := List.isEmpty_iff.2 h
  rw [attempts, dif_pos hend]

theorem attempts_of_pending {rule : Rule Statement} {s : TokenStream} (h : s.pending ≠ []) :
    attempts rule s =
      Attempt.make rule s :: attempts rule (Attempt.make rule s).resumed := by
  have hend : ¬ s.atEnd = true := fun hend => h (List.isEmpty_iff.1 hend)
  rw [attempts, dif_neg hend]

/-- Where and why a reading is stuck. -/
def Reading.stuck? {α : Type} : Reading α → Option (SyntaxFault × TokenStream)
  | .done _ _ => none
  | .stuck cause rest => some (cause, rest)

/-- Where and why the first statement of a run that fails is stuck. -/
def firstStuck? (history : List Attempt) : Option (SyntaxFault × TokenStream) :=
  history.findSome? (·.reading.stuck?)

/-- The reports of a run begin with what its first failing statement is stuck at. -/
theorem head?_diagnostics (history : List Attempt) :
    (history.filterMap (·.reading.diagnostic?)).head? =
      (firstStuck? history).map fun (cause, rest) => rest.peek.diagnostic cause := by
  rw [List.head?_filterMap]
  induction history with
  | nil => rfl
  | cons attempt later ih =>
    unfold firstStuck? at ih ⊢
    rw [List.findSome?_cons, List.findSome?_cons]
    cases hreading : attempt.reading with
    | done value rest => exact ih
    | stuck cause rest => rfl

theorem outcome_eq_ok_iff {history : List Attempt} {statements : List Statement} :
    outcome history = .ok statements ↔
      firstStuck? history = none ∧ statements = history.filterMap (·.reading.value?) := by
  have hhead := head?_diagnostics history
  unfold outcome
  split
  · rename_i hnil
    rw [hnil] at hhead
    have hnone : firstStuck? history = none := by simpa using hhead.symm
    simp only [hnone, Except.ok.injEq, true_and, eq_comm]
  · rename_i hne
    have hnone : firstStuck? history ≠ none := by
      intro hnone
      rw [hnone] at hhead
      exact hne (List.head?_eq_none_iff.1 hhead)
    simp [hnone]

/-- The faults that are reported in place of a result. -/
def reported {α : Type} : Except (Report SyntaxFault) α → Report SyntaxFault
  | .ok _ => []
  | .error faults => faults

/-- The first fault reported is the one that the first failing statement is stuck at. -/
theorem head?_reported_outcome (history : List Attempt) :
    (reported (outcome history)).head? =
      (firstStuck? history).map fun (cause, rest) => rest.peek.diagnostic cause := by
  rw [← head?_diagnostics]
  unfold outcome
  split
  · rename_i hnil
    rw [hnil]
    rfl
  · rfl

namespace Block

variable {settings : Settings} {b : Block} {blocks : List Block} {s rest : TokenStream}

theorem Fits.tokens_ne_nil (h : b.Fits settings) : b.tokens ≠ [] := by
  cases b with
  | print word body value closing => exact List.cons_ne_nil _ _
  | closed body value closing =>
    intro hnil
    cases (List.append_eq_nil_iff.1 hnil).2
  | bare body value =>
    obtain ⟨t, later, hbody, -⟩ := h.2.written.head h.2.canonical
    rw [tokens, hbody]
    exact List.cons_ne_nil _ _

/-- Each block is a statement and ends where the next one begins, the last one in front of `t`. -/
def Chain (settings : Settings) : List Block → Token → Prop
  | [], _ => True
  | b :: later, t =>
    b.Fits settings ∧ b.StopsAt ((later.flatMap tokens).headD t) ∧ Chain settings later t

theorem Chain.fits {t : Token} (h : Chain settings blocks t) : ∀ b ∈ blocks, b.Fits settings := by
  induction blocks with
  | nil => intro b hb; cases hb
  | cons first later ih =>
    intro b hb
    rcases List.mem_cons.1 hb with rfl | hb
    · exact h.1
    · exact ih h.2.2 b hb

/-- The blocks of a chain are read one after another. -/
theorem attempts_of_chain (hchain : Chain settings blocks rest.peek)
    (hw : s.After (blocks.flatMap tokens) rest) :
    ∃ history, attempts settings.statement s = history ++ attempts settings.statement rest ∧
      history.map (·.reading.result) = (blocks.map statement).map .ok := by
  induction blocks generalizing s with
  | nil =>
    have hs : rest = s := hw.nil_eq
    subst hs
    exact ⟨[], rfl, rfl⟩
  | cons b later ih =>
    obtain ⟨hb, hstop, hlater⟩ := hchain
    rw [List.flatMap_cons] at hw
    obtain ⟨behind, hbehind, hw⟩ := hw.split
    obtain ⟨history, hattempts, hresults⟩ := ih hlater hw
    have hread : settings.statement.read s = .done b.statement behind :=
      statement_of_fits hb hbehind (hw.peek_eq ▸ hstop)
    have hpending : s.pending ≠ [] := by
      intro hnil
      rw [hbehind.1] at hnil
      exact hb.tokens_ne_nil (List.append_eq_nil_iff.1 hnil).1
    have hresumed : (Attempt.make settings.statement s).resumed = behind := by
      rw [Attempt.resumed, Attempt.make, hread]
    refine ⟨Attempt.make settings.statement s :: history, ?_, ?_⟩
    · rw [attempts_of_pending hpending, hresumed, hattempts]
      rfl
    · rw [List.map_cons, List.map_cons, List.map_cons, hresults, Attempt.make, hread]
      rfl

end Block

/-- The tokens `w` begin a program of which the last statement cannot go on with `t`. -/
def ProgramBreaks (settings : Settings) (w : List Token) (t : Token) (cause : SyntaxFault) :
    Prop :=
  ∃ blocks u, w = blocks.flatMap Block.tokens ++ u ∧ Block.Chain settings blocks (u.headD t) ∧
    StatementBreaks settings u t cause ∧ (u = [] → t.kind ≠ .endMark)

variable {settings : Settings} {s rest : TokenStream}

/-- A stream is a chain of blocks up to its end, or up to a statement that breaks off. -/
theorem exists_chain (settings : Settings) (hs : s.Proper) :
    ∃ blocks rest, s.After (blocks.flatMap Block.tokens) rest ∧
      Block.Chain settings blocks rest.peek ∧
      (rest.pending = [] ∨
        rest.pending ≠ [] ∧ ∃ cause final, settings.statement.read rest = .stuck cause final) := by
  fun_induction attempts settings.statement s with
  | case1 s hend => exact ⟨[], s, .refl s, trivial, .inl (List.isEmpty_iff.1 hend)⟩
  | case2 s hend attempt ih =>
    have hpending : s.pending ≠ [] := fun h => hend (List.isEmpty_iff.2 h)
    have hexplained := explained_statement settings hs
    cases hread : settings.statement.read s with
    | stuck cause final => exact ⟨[], s, .refl s, trivial, .inr ⟨hpending, cause, final, hread⟩⟩
    | done statement behind =>
      rw [hread] at hexplained
      obtain ⟨b, hb, -, hbehind, hstop⟩ := hexplained
      have hresumed : attempt.resumed = behind := by
        simp only [attempt, Attempt.resumed, Attempt.make, hread]
      rw [hresumed] at ih
      obtain ⟨blocks, rest, hrest, hchain, hlast⟩ := ih (hbehind.proper hs)
      refine ⟨b :: blocks, rest, hbehind.trans hrest, ⟨hb, ?_, hchain⟩, hlast⟩
      rwa [← hrest.peek_eq]

/-- Attempts that are all done report nothing, and the run goes on behind them. -/
theorem firstStuck?_of_results {history : List Attempt} (later : List Attempt)
    {statements : List Statement}
    (h : history.map (·.reading.result) = statements.map .ok) :
    firstStuck? (history ++ later) = firstStuck? later ∧
      history.filterMap (·.reading.value?) = statements := by
  induction history generalizing statements with
  | nil =>
    cases statements with
    | nil => exact ⟨rfl, rfl⟩
    | cons statement rest => cases h
  | cons attempt rest ih =>
    cases statements with
    | nil => cases h
    | cons statement statements =>
      rw [List.map_cons, List.map_cons, List.cons.injEq] at h
      obtain ⟨hresult, hrest⟩ := h
      obtain ⟨hstuck, hvalues⟩ := ih hrest
      cases hreading : attempt.reading with
      | stuck cause final =>
        rw [hreading] at hresult
        cases hresult
      | done value final =>
        rw [hreading] at hresult
        cases hresult
        constructor
        · rw [firstStuck?, List.cons_append, List.findSome?_cons, hreading]
          exact hstuck
        · rw [List.filterMap_cons, hreading, hvalues]
          rfl

theorem firstStuck?_of_breaks (hs : s.Proper) {w : List Token} {cause : SyntaxFault}
    (hw : s.After w rest) (h : ProgramBreaks settings w rest.peek cause) :
    firstStuck? (attempts settings.statement s) = some (cause, rest) := by
  obtain ⟨blocks, u, rfl, hchain, hbreaks, hend⟩ := h
  obtain ⟨q, hq, hu⟩ := hw.split
  obtain ⟨history, hattempts, hresults⟩ := Block.attempts_of_chain (hu.peek_eq ▸ hchain) hq
  have hread : settings.statement.read q = .stuck cause rest := statement_of_breaks hbreaks hu
  have hpending : q.pending ≠ [] := by
    cases u with
    | nil =>
      rw [← hu.nil_eq]
      exact fun hnil => hend rfl (((hw.proper hs).peek_eq_endMark_iff).2 hnil)
    | cons t later =>
      rw [hu.1]
      exact List.cons_ne_nil _ _
  rw [hattempts, (firstStuck?_of_results _ hresults).1, attempts_of_pending hpending, firstStuck?,
    List.findSome?_cons, Attempt.make, hread]
  rfl

/-- The first statement that fails is the one that the tokens break off in. -/
theorem firstStuck?_eq_some_iff (hs : s.Proper) {cause : SyntaxFault} :
    firstStuck? (attempts settings.statement s) = some (cause, rest) ↔
      ∃ w, s.After w rest ∧ ProgramBreaks settings w rest.peek cause := by
  constructor
  · intro h
    obtain ⟨blocks, q, hq, hchain, hlast⟩ := exists_chain settings hs
    obtain ⟨history, hattempts, hresults⟩ := Block.attempts_of_chain hchain hq
    have hstuck := (firstStuck?_of_results (attempts settings.statement q) hresults).1
    rcases hlast with hend | ⟨hpending, found, final, hread⟩
    · rw [hattempts, hstuck, attempts_of_atEnd hend] at h
      cases h
    · have hexplained := explained_statement settings (hq.proper hs)
      rw [hread] at hexplained
      obtain ⟨u, hu, hbreaks⟩ := hexplained
      have hprogram :
          ProgramBreaks settings (blocks.flatMap Block.tokens ++ u) final.peek found := by
        refine ⟨blocks, u, rfl, hu.peek_eq ▸ hchain, hbreaks, ?_⟩
        rintro rfl hmark
        rw [hu.nil_eq] at hmark
        exact hpending ((hq.proper hs).peek_eq_endMark_iff.1 hmark)
      have hfound := firstStuck?_of_breaks hs (hq.trans hu) hprogram
      rw [h] at hfound
      cases hfound
      exact ⟨_, hq.trans hu, hprogram⟩
  · rintro ⟨w, hw, h⟩
    exact firstStuck?_of_breaks hs hw h

/-- A program is read exactly if its tokens are a chain of blocks. -/
theorem readProgram_eq_ok_iff_chain (hs : s.Proper) {statements : List Statement} :
    readProgram settings s = .ok statements ↔
      ∃ blocks, Block.Chain settings blocks s.endMark ∧
        s.pending = blocks.flatMap Block.tokens ∧ statements = blocks.map Block.statement := by
  have hchained : ∀ blocks q, s.After (blocks.flatMap Block.tokens) q → q.pending = [] →
      Block.Chain settings blocks q.peek →
      readProgram settings s = .ok (blocks.map Block.statement) := by
    intro blocks q hq hend hchain
    obtain ⟨history, hattempts, hresults⟩ := Block.attempts_of_chain hchain hq
    obtain ⟨hstuck, hvalues⟩ := firstStuck?_of_results [] hresults
    rw [readProgram, hattempts, attempts_of_atEnd hend]
    refine outcome_eq_ok_iff.2 ⟨hstuck, ?_⟩
    rw [List.append_nil, hvalues]
  constructor
  · intro h
    obtain ⟨blocks, q, hq, hchain, hlast⟩ := exists_chain settings hs
    rcases hlast with hend | ⟨hpending, found, final, hread⟩
    · have hblocks := hchained blocks q hq hend hchain
      rw [h] at hblocks
      cases hblocks
      refine ⟨blocks, ?_, ?_, rfl⟩
      · rw [← hq.2.2]
        rwa [TokenStream.peek, hend] at hchain
      · rw [hq.1, hend, List.append_nil]
    · obtain ⟨history, hattempts, hresults⟩ := Block.attempts_of_chain hchain hq
      have hstuck := (firstStuck?_of_results (attempts settings.statement q) hresults).1
      have hnone := (outcome_eq_ok_iff.1 h).1
      rw [hattempts, hstuck, attempts_of_pending hpending, firstStuck?, List.findSome?_cons,
        Attempt.make, hread] at hnone
      cases hnone
  · rintro ⟨blocks, hchain, hpending, rfl⟩
    have hq := s.after_pending
    rw [hpending] at hq
    exact hchained blocks _ hq rfl hchain

end LoxSyntax
