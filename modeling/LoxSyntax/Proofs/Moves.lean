import LoxSyntax.Proofs.Programs

/-!
Tokens moved to other places. No rule reads a place, so a stream of which all tokens are moved is
read as before: the trees hold the moved operators, and the faults lie at the moved tokens. The
same holds of all attempts of a program and of where each of them goes on.
-/

namespace LoxSyntax

variable {α β : Type} {f : Position → Position}

def Token.move (f : Position → Position) (t : Token) : Token :=
  { t with position := f t.position }

def Diagnostic.move {κ : Type} (f : Position → Position) (d : Diagnostic κ) : Diagnostic κ :=
  { d with position := f d.position }

def TokenStream.move (f : Position → Position) (s : TokenStream) : TokenStream :=
  ⟨s.past.map (Token.move f), s.pending.map (Token.move f), s.endMark.move f⟩

/-- The tree with all of its operator tokens moved. -/
def Expr.move (f : Position → Position) : Expr → Expr
  | literal value => literal value
  | grouping inner => grouping (inner.move f)
  | unary operator operand => unary (operator.move f) (operand.move f)
  | binary left operator right => binary (left.move f) (operator.move f) (right.move f)

def Statement.move (f : Position → Position) : Statement → Statement
  | print value => print (value.move f)
  | expression value => expression (value.move f)

/-- How a tree is shown has nothing to do with places. -/
theorem Expr.render_move (e : Expr) : (e.move f).render = e.render := by
  induction e with
  | literal value => rfl
  | grouping inner ih => rw [move, render, render, ih]
  | unary operator operand ih => rw [move, render, render, ih]; rfl
  | binary left operator right ihleft ihright => rw [move, render, render, ihleft, ihright]; rfl

theorem Statement.render_move (statement : Statement) :
    (statement.move f).render = statement.render := by
  cases statement with
  | print value => rw [move, render, render, value.render_move]
  | expression value => rw [move, render, render, value.render_move]

/-- The reading of a moved stream, with `g` for what is read. -/
def Reading.move (f : Position → Position) (g : α → β) : Reading α → Reading β
  | .done value rest => .done (g value) (rest.move f)
  | .stuck cause rest => .stuck cause (rest.move f)

/-- The rule reads a moved stream as it reads the stream. -/
def Rule.Moves (f : Position → Position) (g : α → α) (rule : Rule α) : Prop :=
  ∀ s, rule.read (s.move f) = (rule.read s).move f g

namespace TokenStream

variable {s : TokenStream}

theorem peek_move (f : Position → Position) (s : TokenStream) :
    (s.move f).peek = s.peek.move f := by
  unfold peek move
  cases s.pending with
  | nil => rfl
  | cons t rest => rfl

theorem advance_move (f : Position → Position) (s : TokenStream) :
    (s.move f).advance = s.advance.move f := by
  obtain ⟨past, pending, endMark⟩ := s
  cases pending with
  | nil => rfl
  | cons t rest => rfl

theorem sees_move (f : Position → Position) (s : TokenStream) (kinds : List Kind) :
    (s.move f).sees kinds = s.sees kinds := by
  unfold sees move
  cases s.pending with
  | nil => rfl
  | cons t rest => rfl

theorem index_move (f : Position → Position) (s : TokenStream) : (s.move f).index = s.index :=
  List.length_map _

theorem take?_move (f : Position → Position) (s : TokenStream) (kinds : List Kind) :
    (s.move f).take? kinds =
      (s.take? kinds).map fun (t, rest) => (t.move f, rest.move f) := by
  unfold take?
  rw [sees_move, peek_move, advance_move]
  split
  · rfl
  · rfl

theorem expect_move (f : Position → Position) (s : TokenStream) (kind : Kind)
    (cause : SyntaxFault) :
    (s.move f).expect kind cause = (s.expect kind cause).move f (Token.move f) := by
  unfold expect
  rw [take?_move]
  cases s.take? [kind] with
  | none => rfl
  | some taken => rfl

theorem atBoundary_move (f : Position → Position) (s : TokenStream) :
    (s.move f).atBoundary = s.atBoundary := by
  have hend : (s.move f).atEnd = s.atEnd := List.isEmpty_map
  have hprevious : (s.move f).previous? = s.previous?.map (Token.move f) := List.head?_map
  unfold atBoundary
  rw [hend, hprevious, sees_move, Option.any_map]
  rfl

theorem toBoundary_move (f : Position → Position) (s : TokenStream) :
    (s.move f).toBoundary = s.toBoundary.move f := by
  fun_induction toBoundary s with
  | case1 s hboundary => rw [toBoundary, dif_pos (by rwa [atBoundary_move])]
  | case2 s hboundary ih =>
    rw [toBoundary, dif_neg (by rwa [atBoundary_move]), advance_move, ih]

theorem recover_move (f : Position → Position) (begun s : TokenStream) :
    recover (begun.move f) (s.move f) = (recover begun s).move f := by
  unfold recover
  rw [index_move, index_move, advance_move]
  split
  · exact toBoundary_move f _
  · exact toBoundary_move f _

end TokenStream

namespace Reading

/-- A reading that goes on behind another one is moved if both are. -/
theorem bind_move {reading : Reading α} {g : α → α} {next : α → TokenStream → Reading β}
    {h : β → β}
    (hnext : ∀ value rest, next (g value) (rest.move f) = (next value rest).move f h) :
    (reading.move f g).bind next = (reading.bind next).move f h := by
  cases reading with
  | done value rest => exact hnext value rest
  | stuck cause rest => rfl

theorem map_move {γ δ : Type} {reading : Reading α} {g : α → γ} {k : α → β} {l : γ → δ} {h : β → δ}
    (hmap : ∀ value, l (g value) = h (k value)) :
    (reading.move f g).map l = (reading.map k).move f h := by
  cases reading with
  | done value rest => exact congrArg (done · (rest.move f)) (hmap value)
  | stuck cause rest => rfl

end Reading

namespace Grammar

variable {operand deeper inner : Rule Expr}

/-- One turn of a chain. -/
theorem extend_eq (operators : List Symbol) (operand : Rule Expr) (left : Expr)
    (s : TokenStream) :
    extend operators operand left s =
      match s.take? (operators.map .symbol) with
      | none => .done left s
      | some (operator, behind) =>
        (operand.read behind).bind fun right rest =>
          extend operators operand (.binary left operator right) rest := by
  rw [extend]
  split
  · rename_i htake
    rw [htake]
  · rename_i operator behind htake
    rw [htake]
    dsimp only
    split
    · rename_i hread
      rw [hread]
      rfl
    · rename_i hread
      rw [hread]
      rfl

theorem extend_move (operators : List Symbol) (hoperand : operand.Moves f (Expr.move f))
    (left : Expr) (s : TokenStream) :
    extend operators operand (left.move f) (s.move f) =
      (extend operators operand left s).move f (Expr.move f) := by
  fun_induction extend operators operand left s with
  | case1 left s htake =>
    rw [extend_eq, TokenStream.take?_move, htake]
    rfl
  | case2 left s operator behind htake cause rest hread =>
    rw [extend_eq, TokenStream.take?_move, htake]
    dsimp only [Option.map_some]
    rw [hoperand behind, hread]
    rfl
  | case3 left s operator behind htake right rest hread ih =>
    rw [extend_eq, TokenStream.take?_move, htake]
    dsimp only [Option.map_some]
    rw [hoperand behind, hread]
    exact ih

theorem moves_chain (operators : List Symbol) (h : operand.Moves f (Expr.move f)) :
    (chain operand operators).Moves f (Expr.move f) := by
  intro s
  change ((operand.read (s.move f)).bind _) = ((operand.read s).bind _).move f _
  rw [h s]
  exact Reading.bind_move fun left rest => extend_move operators h left rest

theorem moves_binary (h : operand.Moves f (Expr.move f)) :
    (binary operand).Moves f (Expr.move f) :=
  moves_chain _ (moves_chain _ (moves_chain _ (moves_chain _ h)))

theorem moves_primary (h : inner.Moves f (Expr.move f)) :
    (primary inner).Moves f (Expr.move f) := by
  intro s
  unfold primary
  dsimp only
  rw [TokenStream.take?_move, TokenStream.take?_move, TokenStream.peek_move]
  cases s.take? literalKinds with
  | some taken => rfl
  | none =>
    cases s.take? [.symbol .leftParen] with
    | none => rfl
    | some taken =>
      dsimp only [Option.map_none, Option.map_some]
      rw [h taken.2]
      refine Reading.bind_move fun e rest => ?_
      rw [TokenStream.expect_move]
      exact Reading.map_move fun _ => rfl

theorem moves_operand (hdeeper : deeper.Moves f (Expr.move f))
    (hinner : inner.Moves f (Expr.move f)) :
    (Grammar.operand deeper inner).Moves f (Expr.move f) := by
  intro s
  unfold Grammar.operand
  dsimp only
  rw [TokenStream.take?_move]
  cases s.take? (unaryOperators.map .symbol) with
  | none => exact moves_primary hinner s
  | some taken =>
    dsimp only [Option.map_some]
    rw [hdeeper taken.2]
    exact Reading.map_move fun _ => rfl

theorem moves_unary (limit room : Nat) : (unary limit room).Moves f (Expr.move f) := by
  induction room with
  | zero => exact moves_operand (fun _ => rfl) (fun _ => rfl)
  | succ room ih => exact moves_operand ih (moves_binary ih)

theorem moves_expression (limit : Nat) : (expression limit).Moves f (Expr.move f) :=
  moves_binary (moves_unary limit limit)

theorem terminated_move (terminator : Terminator) (e : Expr) (s : TokenStream) :
    terminated terminator (e.move f) (s.move f) =
      (terminated terminator e s).move f (Statement.move f) := by
  unfold terminated
  cases terminator with
  | required =>
    dsimp only
    rw [TokenStream.expect_move]
    exact Reading.map_move fun _ => rfl
  | optional =>
    dsimp only
    rw [TokenStream.take?_move]
    cases s.take? [.symbol .semicolon] with
    | none => rfl
    | some taken => rfl

theorem moves_statement (settings : Settings) :
    settings.statement.Moves f (Statement.move f) := by
  have hvalue : settings.expression.Moves f (Expr.move f) :=
    moves_expression settings.nestingLimit
  intro s
  unfold Settings.statement statement
  dsimp only
  rw [TokenStream.take?_move]
  cases s.take? [.word .printWord] with
  | none =>
    change (settings.expression.read (s.move f)).bind _ = _
    rw [hvalue s]
    exact Reading.bind_move fun e rest => terminated_move settings.terminator e rest
  | some taken =>
    change (settings.expression.read (taken.2.move f)).bind _ = _
    rw [hvalue taken.2]
    refine Reading.bind_move fun e rest => ?_
    rw [TokenStream.expect_move]
    exact Reading.map_move fun _ => rfl

end Grammar

namespace Attempt

def move (f : Position → Position) (attempt : Attempt) : Attempt :=
  ⟨attempt.begun.move f, attempt.reading.move f (Statement.move f)⟩

theorem resumed_move (f : Position → Position) (attempt : Attempt) :
    (attempt.move f).resumed = attempt.resumed.move f := by
  obtain ⟨begun, reading⟩ := attempt
  cases reading with
  | done value rest => rfl
  | stuck cause rest => exact TokenStream.recover_move f begun rest

end Attempt

/-- The attempts on a moved stream are the moved attempts. -/
theorem attempts_move {rule : Rule Statement} (hrule : rule.Moves f (Statement.move f))
    (s : TokenStream) : attempts rule (s.move f) = (attempts rule s).map (Attempt.move f) := by
  fun_induction attempts rule s with
  | case1 s hend =>
    have hmoved : (s.move f).atEnd = true := by
      rw [← hend]
      exact List.isEmpty_map
    rw [attempts, dif_pos hmoved]
    rfl
  | case2 s hend attempt ih =>
    have hmoved : ¬ (s.move f).atEnd = true := by
      intro hmoved
      exact hend (List.isEmpty_map.symm.trans hmoved)
    have hattempt : Attempt.make rule (s.move f) = attempt.move f :=
      congrArg (Attempt.mk (s.move f)) (hrule s)
    rw [attempts, dif_neg hmoved]
    dsimp only
    rw [hattempt, Attempt.resumed_move, ih]
    rfl

/-- What a moved history comes to. -/
theorem outcome_move (f : Position → Position) (history : List Attempt) :
    outcome (history.map (Attempt.move f)) =
      match outcome history with
      | .ok statements => .ok (statements.map (Statement.move f))
      | .error faults => .error (faults.map (Diagnostic.move f)) := by
  have hdiagnostics : (history.map (Attempt.move f)).filterMap (·.reading.diagnostic?) =
      (history.filterMap (·.reading.diagnostic?)).map (Diagnostic.move f) := by
    rw [List.filterMap_map, List.map_filterMap]
    congr 1
    funext attempt
    obtain ⟨begun, reading⟩ := attempt
    cases reading with
    | done value rest => rfl
    | stuck cause rest =>
      exact congrArg (fun t => some (t.diagnostic cause)) (TokenStream.peek_move f rest)
  have hvalues : (history.map (Attempt.move f)).filterMap (·.reading.value?) =
      (history.filterMap (·.reading.value?)).map (Statement.move f) := by
    rw [List.filterMap_map, List.map_filterMap]
    congr 1
    funext attempt
    obtain ⟨begun, reading⟩ := attempt
    cases reading with
    | done value rest => rfl
    | stuck cause rest => rfl
  unfold outcome
  rw [hdiagnostics, hvalues]
  cases history.filterMap (·.reading.diagnostic?) with
  | nil => rfl
  | cons d later => rfl

/-- A moved program has the moved statements, or the moved faults. -/
theorem readProgram_move (settings : Settings) (f : Position → Position) (s : TokenStream) :
    readProgram settings (s.move f) =
      match readProgram settings s with
      | .ok statements => .ok (statements.map (Statement.move f))
      | .error faults => .error (faults.map (Diagnostic.move f)) := by
  unfold readProgram
  rw [attempts_move (Grammar.moves_statement settings), outcome_move]

/-- At which tokens, counted from zero, the attempts of a run are stuck, and why. -/
def stuckPlaces (history : List Attempt) : List (Nat × SyntaxFault) :=
  (history.filterMap (·.reading.stuck?)).map fun (cause, rest) => (rest.index, cause)

theorem stuckPlaces_move (f : Position → Position) (history : List Attempt) :
    stuckPlaces (history.map (Attempt.move f)) = stuckPlaces history := by
  unfold stuckPlaces
  rw [List.filterMap_map, List.map_filterMap, List.map_filterMap]
  congr 1
  funext attempt
  obtain ⟨begun, reading⟩ := attempt
  cases reading with
  | done value rest => rfl
  | stuck cause rest =>
    exact congrArg (fun index => some (index, cause)) (TokenStream.index_move f rest)

theorem diagnostics_eq_map_stuck (history : List Attempt) :
    history.filterMap (·.reading.diagnostic?) =
      (history.filterMap (·.reading.stuck?)).map fun (cause, rest) =>
        rest.peek.diagnostic cause := by
  rw [List.map_filterMap]
  congr 1
  funext attempt
  cases attempt.reading with
  | done value rest => rfl
  | stuck cause rest => rfl

namespace TokenStream

theorem exists_after_advance (s : TokenStream) : ∃ w, s.After w s.advance := by
  cases hpending : s.pending with
  | nil =>
    refine ⟨[], ?_⟩
    rw [advance, hpending]
    exact .refl s
  | cons t rest => exact ⟨[t], after_advance hpending⟩

theorem exists_after_toBoundary (s : TokenStream) : ∃ w, s.After w s.toBoundary := by
  fun_induction toBoundary s with
  | case1 s hboundary => exact ⟨[], .refl s⟩
  | case2 s hboundary ih =>
    obtain ⟨w, hw⟩ := s.exists_after_advance
    obtain ⟨v, hv⟩ := ih
    exact ⟨w ++ v, hw.trans hv⟩

theorem exists_after_recover (begun s : TokenStream) : ∃ w, s.After w (recover begun s) := by
  unfold recover
  split
  · obtain ⟨w, hw⟩ := s.exists_after_advance
    obtain ⟨v, hv⟩ := s.advance.exists_after_toBoundary
    exact ⟨w ++ v, hw.trans hv⟩
  · exact s.exists_after_toBoundary

end TokenStream

theorem Attempt.exists_after_resumed (attempt : Attempt) :
    ∃ w, attempt.reading.rest.After w attempt.resumed := by
  obtain ⟨begun, reading⟩ := attempt
  cases reading with
  | done value rest => exact ⟨[], .refl rest⟩
  | stuck cause rest => exact TokenStream.exists_after_recover begun rest

/-- All attempts of a run stop at places of its stream. -/
theorem exists_after_of_mem_attempts {rule : Rule Statement} {s : TokenStream} {attempt : Attempt}
    (h : attempt ∈ attempts rule s) : ∃ w, s.After w attempt.reading.rest := by
  fun_induction attempts rule s with
  | case1 s hend => cases h
  | case2 s hend first ih =>
    obtain ⟨w, hw⟩ := (rule.forward s).onward
    rcases List.mem_cons.1 h with rfl | hlater
    · exact ⟨w, hw⟩
    · obtain ⟨v, hv⟩ := first.exists_after_resumed
      obtain ⟨u, hu⟩ := ih hlater
      exact ⟨w ++ v ++ u, (hw.trans hv).trans hu⟩

/-- Each fault of a program is pinned to the token that its statement is stuck at. -/
theorem diagnostics_eq_of_places {tokens : List Token} {s : TokenStream}
    (h : TokenStream.ofTokens tokens = .ok s) (rule : Rule Statement) :
    ((attempts rule s).filterMap (·.reading.diagnostic?)).map some =
      (stuckPlaces (attempts rule s)).map fun (index, cause) =>
        tokens[index]?.map (·.diagnostic cause) := by
  unfold stuckPlaces
  rw [diagnostics_eq_map_stuck, List.map_map, List.map_map]
  refine List.map_congr_left ?_
  rintro ⟨cause, rest⟩ hmem
  obtain ⟨attempt, hattempt, hstuck⟩ := List.mem_filterMap.1 hmem
  obtain ⟨w, hw⟩ := exists_after_of_mem_attempts hattempt
  cases hreading : attempt.reading with
  | done value behind =>
    rw [hreading] at hstuck
    cases hstuck
  | stuck found behind =>
    rw [hreading] at hstuck hw
    cases hstuck
    obtain ⟨hindex, -, hpeek⟩ := TokenStream.After.place hw h
    change some (rest.peek.diagnostic cause) = tokens[rest.index]?.map _
    rw [show rest.index = w.length from hindex, hpeek]
    rfl

/-- The faults lie at the tokens of the list that have the given indices. -/
def PinnedAt (tokens : List Token) (places : List (Nat × SyntaxFault))
    (faults : Report SyntaxFault) : Prop :=
  faults.map some = places.map fun (index, cause) => tokens[index]?.map (·.diagnostic cause)

theorem pinnedAt_of_readProgram {tokens : List Token} {s : TokenStream}
    (h : TokenStream.ofTokens tokens = .ok s) {settings : Settings} {faults : Report SyntaxFault}
    (hread : readProgram settings s = .error faults) :
    PinnedAt tokens (stuckPlaces (attempts settings.statement s)) faults := by
  have hfaults : faults = (attempts settings.statement s).filterMap (·.reading.diagnostic?) := by
    unfold readProgram outcome at hread
    split at hread
    · cases hread
    · exact (Except.error.inj hread).symm
  rw [hfaults]
  exact diagnostics_eq_of_places h settings.statement

section Alike

variable {s r : TokenStream}

theorem stuckPlaces_of_move_eq (h : r.move f = s.move f) (settings : Settings) :
    stuckPlaces (attempts settings.statement r) = stuckPlaces (attempts settings.statement s) := by
  have hrule : settings.statement.Moves f (Statement.move f) := Grammar.moves_statement settings
  rw [← stuckPlaces_move f, ← attempts_move hrule, h, attempts_move hrule, stuckPlaces_move]

/-- Streams that are alike but for places have the same outcome but for places. -/
theorem readProgram_of_move_eq (h : r.move f = s.move f) (settings : Settings) :
    (∃ statements others, readProgram settings s = .ok statements ∧
        readProgram settings r = .ok others ∧
        others.map (Statement.move f) = statements.map (Statement.move f)) ∨
      ∃ faults others, readProgram settings s = .error faults ∧
        readProgram settings r = .error others ∧
        others.map (Diagnostic.move f) = faults.map (Diagnostic.move f) := by
  have hs := readProgram_move settings f s
  have hr := readProgram_move settings f r
  rw [h, hs] at hr
  cases hread : readProgram settings s with
  | ok statements =>
    cases hother : readProgram settings r with
    | ok others =>
      rw [hread, hother] at hr
      exact .inl ⟨statements, others, rfl, rfl, (Except.ok.inj hr).symm⟩
    | error others =>
      rw [hread, hother] at hr
      cases hr
  | error faults =>
    cases hother : readProgram settings r with
    | ok others =>
      rw [hread, hother] at hr
      cases hr
    | error others =>
      rw [hread, hother] at hr
      exact .inr ⟨faults, others, rfl, rfl, (Except.error.inj hr).symm⟩

end Alike

theorem map_render_of_move_eq {statements others : List Statement}
    (h : others.map (Statement.move f) = statements.map (Statement.move f)) :
    others.map Statement.render = statements.map Statement.render := by
  have hrender := congrArg (List.map Statement.render) h
  rw [List.map_map, List.map_map] at hrender
  have hsame : Statement.render ∘ Statement.move f = Statement.render :=
    funext Statement.render_move
  rwa [hsame] at hrender

theorem map_message_of_move_eq {faults others : Report SyntaxFault}
    (h : others.map (Diagnostic.move f) = faults.map (Diagnostic.move f)) :
    others.map Diagnostic.message = faults.map Diagnostic.message := by
  have hmessage := congrArg (List.map Diagnostic.message) h
  rw [List.map_map, List.map_map] at hmessage
  exact hmessage

end LoxSyntax
