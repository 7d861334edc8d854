import LoxSyntax.Proofs.Machines
import LoxSyntax.Proofs.WholeExpressions
import LoxSyntax.Session
import Mathlib.Data.List.Forall2

/-!
Sessions on a tape and on the stream that it shows. Both readers give the same answers whatever is
asked, saved and gone back to, so a tape is never asked for a token that its list does not have, and
nothing behind the first end mark makes a difference. The same holds of programs and expressions,
which the machine reads off a tape.
-/

namespace LoxSyntax

namespace Session

variable {σ τ : Type}

/-- Two readers that give the same answers in related states. -/
structure Alike (related : σ → τ → Prop) (one : Reader σ) (other : Reader τ) : Prop where
  answer : ∀ {x y} (question : Question), related x y → ∃ answer x' y',
    one.answer? question x = some (answer, x') ∧ other.answer? question y = some (answer, y') ∧
      related x' y'
  goBack : ∀ {x y x' y'}, related x y → related x' y' →
    related (one.goBack x x') (other.goBack y y')
  place : ∀ {x y}, related x y → one.place x = other.place y

/-- Two sessions that stand at related states and have saved related ones. -/
structure Related (related : σ → τ → Prop) (here : Session σ) (there : Session τ) : Prop where
  current : related here.current there.current
  saved : List.Forall₂ related here.saved there.saved

variable {related : σ → τ → Prop} {one : Reader σ} {other : Reader τ} {here : Session σ}
  {there : Session τ}

theorem Alike.exists_act (h : Alike related one other) (hsessions : Related related here there)
    (action : Action) :
    ∃ answer? here' there', here.act one action = some (answer?, here') ∧
      there.act other action = some (answer?, there') ∧ Related related here' there' := by
  obtain ⟨hcurrent, hsaved⟩ := hsessions
  cases action with
  | ask question =>
    obtain ⟨answer, x, y, hx, hy, hnext⟩ := h.answer question hcurrent
    refine ⟨some answer, { here with current := x }, { there with current := y }, ?_, ?_, hnext,
      hsaved⟩
    · rw [act, hx]
      rfl
    · rw [act, hy]
      rfl
  | save => exact ⟨none, _, _, rfl, rfl, hcurrent, .cons hcurrent hsaved⟩
  | restore number =>
    have hlength := hsaved.length_eq
    unfold act
    dsimp only
    by_cases hnumber : number < here.saved.length
    · have hget := hsaved.get hnumber (hlength ▸ hnumber)
      rw [List.getElem?_eq_getElem hnumber, List.getElem?_eq_getElem (hlength ▸ hnumber)]
      exact ⟨none, _, _, rfl, rfl, h.goBack hcurrent hget, hsaved⟩
    · rw [List.getElem?_eq_none (Nat.le_of_not_lt hnumber),
        List.getElem?_eq_none (hlength ▸ Nat.le_of_not_lt hnumber)]
      exact ⟨none, _, _, rfl, rfl, hcurrent, hsaved⟩

theorem Alike.exists_run (h : Alike related one other) (actions : List Action)
    (hsessions : Related related here there) :
    ∃ answers here' there', here.run one actions = some (answers, here') ∧
      there.run other actions = some (answers, there') ∧ Related related here' there' := by
  induction actions generalizing here there with
  | nil => exact ⟨[], here, there, rfl, rfl, hsessions⟩
  | cons action later ih =>
    obtain ⟨answer?, here₁, there₁, hhere, hthere, hnext⟩ := h.exists_act hsessions action
    obtain ⟨answers, here₂, there₂, hhere', hthere', hlast⟩ := ih hnext
    refine ⟨answer?.toList ++ answers, here₂, there₂, ?_, ?_, hlast⟩
    · simp only [run, hhere, hhere', Option.bind_eq_bind, Option.bind_some]
      rfl
    · simp only [run, hthere, hthere', Option.bind_eq_bind, Option.bind_some]
      rfl

theorem Alike.seen_eq (h : Alike related one other) {x : σ} {y : τ} (hxy : related x y)
    (actions : List Action) : seen one x actions = seen other y actions := by
  have hstart : Related related (start x) (start y) := ⟨hxy, .nil⟩
  obtain ⟨answers, here, there, hhere, hthere, hlast⟩ := h.exists_run actions hstart
  rw [seen, seen, hhere, hthere]
  exact congrArg (fun place => some (answers, place)) (h.place hlast.current)

end Session

theorem TokenStream.After.index_of_past {s r : TokenStream} {taken : List Token}
    (h : s.After taken r) (hpast : s.past = []) : r.index = taken.length := by
  rw [h.index_eq, index, hpast, List.length_nil, Nat.zero_add]

/-- An answer takes at most one token, and none if it is negative. -/
theorem TokenStream.after_answer (question : Question) (s : TokenStream) :
    ∃ taken, s.After taken (s.answer question).2 ∧
      ((s.answer question).1.IsNegative → taken = []) := by
  cases question with
  | peek => exact ⟨[], .refl s, fun _ => rfl⟩
  | previous => exact ⟨[], .refl s, fun _ => rfl⟩
  | atEnd => exact ⟨[], .refl s, fun _ => rfl⟩
  | sees kind => exact ⟨[], .refl s, fun _ => rfl⟩
  | advance =>
    obtain ⟨taken, hafter⟩ := s.exists_after_advance
    exact ⟨taken, hafter, False.elim⟩
  | take kinds =>
    unfold answer
    dsimp only
    cases htake : s.take? kinds with
    | none => exact ⟨[], .refl s, fun _ => rfl⟩
    | some taken => exact ⟨_, after_of_take? htake, fun h => nomatch h⟩
  | takes kinds =>
    unfold answer
    dsimp only
    cases htake : s.take? kinds with
    | none => exact ⟨[], .refl s, fun _ => rfl⟩
    | some taken => exact ⟨_, after_of_take? htake, fun h => nomatch h⟩
  | expect kind cause =>
    unfold answer expect
    dsimp only
    cases htake : s.take? [kind] with
    | none => exact ⟨[], .refl s, fun _ => rfl⟩
    | some taken => exact ⟨_, after_of_take? htake, False.elim⟩

/-- What is seen of a machine at its end: what it comes to, where its tape stands and its log. -/
def Machine.seen {α : Type} (ended : Option (α × Machine)) : Option (α × Nat × List Event) :=
  ended.map fun (result, m) => (result, m.tape.head, m.tape.log)

theorem Machine.seen_some {α : Type} (result : α) (m : Machine) :
    Machine.seen (some (result, m)) = some (result, m.tape.head, m.tape.log) := rfl

namespace TokenTape

variable {tape : TokenTape} {s : TokenStream}

theorem Shows.answer?_eq (h : tape.Shows s) (question : Question) :
    reader.answer? question tape =
      some ((s.answer question).1, tape.moved s (s.answer question).2) := by
  have hstays := h.moved_self
  unfold reader TokenStream.answer
  cases question with
  | peek => simp [h.peek?_eq, hstays]
  | previous => simp [h.previous?_eq, hstays]
  | atEnd => simp [h.atEnd?_eq, hstays]
  | advance => simp [h.advance?_eq]
  | sees kind => simp [h.sees?_eq, hstays]
  | take kinds => cases htake : s.take? kinds <;> simp [h.take?_eq, htake, hstays]
  | takes kinds => cases htake : s.take? kinds <;> simp [h.take?_eq, htake, hstays]
  | expect kind cause => simp [h.expect?_eq]

/-- A tape of `tokens` that shows what has become of the stream `start`. -/
structure Follows (tokens : List Token) (start : TokenStream) (tape : TokenTape)
    (s : TokenStream) : Prop where
  tokens_eq : tape.tokens = tokens
  shows_stream : tape.Shows s
  exists_after : ∃ taken, start.After taken s

theorem alike_readers (tokens : List Token) (start : TokenStream) :
    Session.Alike (Follows tokens start) reader TokenStream.reader where
  answer {tape s} question := by
    rintro ⟨htokens, hshows, w, hw⟩
    obtain ⟨taken, htaken, -⟩ := s.after_answer question
    refine ⟨_, _, _, hshows.answer?_eq question, rfl, htokens, hshows.moved htaken, ?_⟩
    exact ⟨w ++ taken, hw.trans htaken⟩
  goBack {tape s tape' s'} := by
    rintro ⟨htokens, -, -⟩ ⟨htokens', hshows', hw'⟩
    refine ⟨htokens, ⟨hshows'.proper, hshows'.head_eq, ?_⟩, hw'⟩
    change ∃ later, tape.tokens = _
    rw [htokens, ← htokens']
    exact hshows'.tokens_eq
  place := fun ⟨_, hshows, _⟩ => hshows.head_eq

/-- The tape of a list can be relied on to be the stream up to the first end mark. -/
structure SafeView (tape : TokenTape) (s : TokenStream) : Prop where
  /-- A session comes to its end, so no token is looked up past the list. Its answers are those of
  the stream, and it stands at the place of the stream, no further than the first end mark. -/
  session : ∀ actions, ∃ answers here there,
    (Session.start tape).run reader actions = some (answers, here) ∧
      (Session.start s).run TokenStream.reader actions = some (answers, there) ∧
      here.current.head = there.current.index ∧
      there.current.past.reverse ++ there.current.pending = s.pending ∧
      here.current.head ≤ s.pending.length
  /-- Of the actions behind a session only going back moves to the left; a negative answer leaves
  the tape as it was, and so does advancing at the first end mark. -/
  act : ∀ actions answers here, (Session.start tape).run reader actions = some (answers, here) →
    ∀ action, ∃ answer? next, here.act reader action = some (answer?, next) ∧
      (next.current.head < here.current.head → ∃ number, action = .restore number) ∧
      (∀ answer ∈ answer?, answer.IsNegative → next.current = here.current) ∧
      (action = .ask .advance → here.current.head = s.pending.length →
        next.current = here.current)
  program : ∀ settings, ∃ m, Machine.readProgram settings tape = some (readProgram settings s, m) ∧
    m.tape.head = s.pending.length
  expression : ∀ settings, ∃ m,
    Machine.readExpression settings tape = some (readExpression settings s, m) ∧
      m.tape.head ≤ s.pending.length

/-- A question moves a tape that shows a stream only to the right, and not at all if the answer is
negative or if nothing is left to advance over. -/
theorem Shows.exists_answer (h : tape.Shows s) (question : Question) :
    ∃ answer next, reader.answer? question tape = some (answer, next) ∧ tape.head ≤ next.head ∧
      (answer.IsNegative → next = tape) ∧ (question = .advance → s.pending = [] → next = tape) := by
  obtain ⟨taken, hafter, hnegative⟩ := s.after_answer question
  refine ⟨_, _, h.answer?_eq question, ?_, ?_, ?_⟩
  · change tape.head ≤ (s.answer question).2.index
    rw [h.head_eq, hafter.index_eq]
    exact Nat.le_add_right _ _
  · intro hanswer
    rw [hnegative hanswer] at hafter
    rw [hafter.nil_eq, h.moved_self]
  · rintro rfl hpending
    have hstays : s.advance = s := by rw [TokenStream.advance, hpending]
    change tape.moved s s.advance = tape
    rw [hstays, h.moved_self]

/-- What an action does in a session whose tape shows a stream, whatever it is. -/
theorem Shows.exists_act {here : Session TokenTape} (h : here.current.Shows s) (action : Action) :
    ∃ answer? next, here.act reader action = some (answer?, next) ∧
      (next.current.head < here.current.head → ∃ number, action = .restore number) ∧
      (∀ answer ∈ answer?, answer.IsNegative → next.current = here.current) ∧
      (action = .ask .advance → s.pending = [] → next.current = here.current) := by
  have hnone (answer : Response) : answer ∉ (none : Option Response) := Option.not_mem_none _
  cases action with
  | ask question =>
    obtain ⟨answer, next, hanswer, hhead, hnegative, hadvance⟩ := h.exists_answer question
    refine ⟨some answer, { here with current := next }, ?_, ?_, ?_, ?_⟩
    · rw [Session.act, hanswer]
      rfl
    · exact fun hback => absurd hhead (Nat.not_le_of_lt hback)
    · rintro _ ⟨⟩
      exact hnegative
    · rintro ⟨⟩
      exact hadvance rfl
  | save =>
    exact ⟨none, _, rfl, fun hback => absurd hback (Nat.lt_irrefl _),
      fun answer hmem => absurd hmem (hnone answer), fun heq => Action.noConfusion heq⟩
  | restore number =>
    cases hsaved : here.saved[number]? with
    | none =>
      refine ⟨none, here, ?_, fun _ => ⟨number, rfl⟩,
        fun answer hmem => absurd hmem (hnone answer), fun heq => Action.noConfusion heq⟩
      rw [Session.act, hsaved]
    | some saved =>
      refine ⟨none, { here with current := reader.goBack here.current saved }, ?_,
        fun _ => ⟨number, rfl⟩, fun answer hmem => absurd hmem (hnone answer),
        fun heq => Action.noConfusion heq⟩
      rw [Session.act, hsaved]

theorem Shows.exists_session (h : tape.Shows s) (actions : List Action) :
    ∃ answers here there, (Session.start tape).run reader actions = some (answers, here) ∧
      (Session.start s).run TokenStream.reader actions = some (answers, there) ∧
      here.current.Shows there.current ∧ ∃ taken, s.After taken there.current := by
  have hstart : Session.Related (Follows tape.tokens s) (Session.start tape) (Session.start s) :=
    ⟨⟨rfl, h, [], .refl s⟩, .nil⟩
  obtain ⟨answers, here, there, hhere, hthere, hlast⟩ :=
    (alike_readers tape.tokens s).exists_run actions hstart
  exact ⟨answers, here, there, hhere, hthere, hlast.current.shows_stream,
    hlast.current.exists_after⟩

theorem safeView_of_shows (h : tape.Shows s) (hpast : s.past = []) : tape.SafeView s where
  session actions := by
    obtain ⟨answers, here, there, hhere, hthere, hshows, taken, hafter⟩ :=
      h.exists_session actions
    refine ⟨answers, here, there, hhere, hthere, hshows.head_eq, ?_, ?_⟩
    · rw [hafter.2.1, hpast, List.append_nil, List.reverse_reverse, hafter.1]
    · rw [hshows.head_eq, hafter.index_of_past hpast, ← hafter.length_pending]
      exact Nat.le_add_right _ _
  act actions answers here hrun action := by
    obtain ⟨answers', here', there, hhere, -, hshows, taken, hafter⟩ := h.exists_session actions
    cases hrun.symm.trans hhere
    obtain ⟨answer?, next, hact, hback, hnegative, hadvance⟩ := hshows.exists_act action
    refine ⟨answer?, next, hact, hback, hnegative, fun haction hplace => hadvance haction ?_⟩
    have hlength := hafter.length_pending
    rw [hshows.head_eq, hafter.index_of_past hpast] at hplace
    exact List.length_eq_zero_iff.1 (by omega)
  program settings := by
    refine ⟨_, Machine.readProgram_of_shows h settings, ?_⟩
    change s.index + s.pending.length = s.pending.length
    rw [TokenStream.index, hpast, List.length_nil, Nat.zero_add]
  expression settings := by
    have hread := Machine.reads_wholeExpression settings.nestingLimit ⟨tape, 0⟩ s h rfl
    obtain ⟨⟨taken, hafter⟩, -⟩ := hread
    refine ⟨_, Machine.readExpression_of_shows h settings, ?_⟩
    change (Grammar.wholeExpression settings.nestingLimit s).rest.index ≤ s.pending.length
    rw [hafter.index_of_past hpast, ← hafter.length_pending]
    exact Nat.le_add_right _ _

/-- Nothing that is asked of two tapes, or read off them by the machine, tells them apart. -/
structure Indistinct (tape other : TokenTape) : Prop where
  session : ∀ actions, Session.seen reader tape actions = Session.seen reader other actions
  program : ∀ settings,
    Machine.seen (Machine.readProgram settings tape) =
      Machine.seen (Machine.readProgram settings other)
  expression : ∀ settings,
    Machine.seen (Machine.readExpression settings tape) =
      Machine.seen (Machine.readExpression settings other)

theorem indistinct_of_shows {other : TokenTape} (h : tape.Shows s) (hother : other.Shows s)
    (hlog : tape.log = other.log) : tape.Indistinct other where
  session actions := by
    rw [(alike_readers tape.tokens s).seen_eq ⟨rfl, h, [], .refl s⟩ actions,
      (alike_readers other.tokens s).seen_eq ⟨rfl, hother, [], .refl s⟩ actions]
  program settings := by
    rw [Machine.readProgram_of_shows h, Machine.readProgram_of_shows hother, Machine.seen_some,
      Machine.seen_some]
    simp only [Machine.finished, hlog]
  expression settings := by
    rw [Machine.readExpression_of_shows h, Machine.readExpression_of_shows hother,
      Machine.seen_some, Machine.seen_some]
    simp only [Machine.moved, moved, hlog]

/-- A token list is accepted exactly if it ends in an end mark. Its tape is then a safe view of its
stream, which is the list up to the first end mark, and the tape of any other accepted list that
agrees with it up to there cannot be told from it. -/
theorem safe_view (tokens : List Token) :
    ((∃ tape, ofTokens tokens = .ok tape) ↔
      ∃ last, tokens.getLast? = some last ∧ last.kind = .endMark) ∧
    ∀ tape, ofTokens tokens = .ok tape → ∃ s, TokenStream.ofTokens tokens = .ok s ∧
      s.past = [] ∧ s.pending = tokens.takeWhile (·.kind ≠ .endMark) ∧ tape.SafeView s ∧
      ∀ before mark later later' other, tokens = before ++ mark :: later →
        (∀ t ∈ before, t.kind ≠ .endMark) → mark.kind = .endMark →
        ofTokens (before ++ mark :: later') = .ok other → tape.Indistinct other := by
  refine ⟨⟨?_, ?_⟩, ?_⟩
  · rintro ⟨tape, htape⟩
    exact (ofTokens_eq_ok_iff.1 htape).2
  · exact fun hlast => ⟨_, ofTokens_eq_ok_iff.2 ⟨rfl, hlast⟩⟩
  intro tape htape
  obtain ⟨s, hs, hshows⟩ := exists_shows_of_ofTokens htape
  have hpast := (TokenStream.ofTokens_eq_ok hs).1
  refine ⟨s, hs, hpast, TokenStream.pending_eq_takeWhile hs, safeView_of_shows hshows hpast, ?_⟩
  rintro before mark later later' other rfl hbefore hmark hother
  obtain ⟨r, hr, hshows'⟩ := exists_shows_of_ofTokens hother
  have hsame : r = s :=
    (TokenStream.eq_of_ofTokens hr hbefore hmark).trans
      (TokenStream.eq_of_ofTokens hs hbefore hmark).symm
  obtain ⟨rfl, -⟩ := ofTokens_eq_ok_iff.1 htape
  obtain ⟨rfl, -⟩ := ofTokens_eq_ok_iff.1 hother
  exact indistinct_of_shows hshows (hsame ▸ hshows') rfl

theorem safe_view_inner_mark :
    ofTokens [Symbol.minus.token, .mark, Symbol.plus.token, .mark] =
      .ok ⟨[Symbol.minus.token, .mark, Symbol.plus.token, .mark], 0, []⟩ ∧
    ofTokens [Symbol.minus.token, .mark] = .ok ⟨[Symbol.minus.token, .mark], 0, []⟩ ∧
    Indistinct ⟨[Symbol.minus.token, .mark, Symbol.plus.token, .mark], 0, []⟩
      ⟨[Symbol.minus.token, .mark], 0, []⟩ := by
  refine ⟨rfl, rfl, ?_⟩
  obtain ⟨s, -, -, -, -, hlater⟩ :=
    (safe_view [Symbol.minus.token, .mark, Symbol.plus.token, .mark]).2 _ rfl
  exact hlater [Symbol.minus.token] .mark [Symbol.plus.token, .mark] [] _ rfl
    (by simp [Symbol.token]) rfl rfl

end TokenTape

end LoxSyntax
