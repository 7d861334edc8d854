import LoxSyntax.Proofs.Programs
import LoxSyntax.Proofs.WholeExpressions

/-!
Semicolons as fences. An attempt neither reads nor passes over anything beyond a semicolon, so
what lies in front of one is read as if the stream ended there, and what lies behind it as if the
stream began there. The outcome of a program is joined from the outcomes of such parts.
-/

namespace LoxSyntax

open Grammar

variable {settings : Settings} {z w v : List Token}

theorem ne_semicolon_cons {word : Token} (hword : word.kind = .word .printWord)
    (hw : ∀ u ∈ w, u.kind ≠ .symbol .semicolon) :
    ∀ u ∈ word :: w, u.kind ≠ .symbol .semicolon := by
  intro u hu
  rcases List.mem_cons.1 hu with rfl | hu
  · rw [hword]
    exact Kind.noConfusion
  · exact hw u hu

/-- A semicolon in a block is its last token, and then the block ends whatever follows. -/
theorem Block.Fits.semicolon_last {b : Block} (h : b.Fits settings) {a rest : List Token}
    {t : Token} (htokens : b.tokens = a ++ t :: rest) (ht : t.kind = .symbol .semicolon) :
    rest = [] ∧ ∀ u, b.StopsAt u := by
  have hlast : ∀ {front : List Token} {closing : Token},
      (∀ u ∈ front, u.kind ≠ .symbol .semicolon) → front ++ [closing] = a ++ t :: rest →
      rest = [] := by
    intro front closing hfront hconcat
    by_cases hrest : rest = []
    · exact hrest
    · have hdrop := congrArg List.dropLast hconcat
      rw [List.dropLast_concat, List.dropLast_append_of_ne_nil (List.cons_ne_nil t rest),
        List.dropLast_cons_of_ne_nil hrest] at hdrop
      exact absurd ht (hfront t (by rw [hdrop]; simp))
  cases b with
  | print word body value closing =>
    obtain ⟨hword, hvalue, -⟩ := h
    exact ⟨hlast (ne_semicolon_cons hword hvalue.ne_semicolon) htokens, fun _ => trivial⟩
  | closed body value closing =>
    exact ⟨hlast h.1.ne_semicolon htokens, fun _ => trivial⟩
  | bare body value =>
    change body = a ++ t :: rest at htokens
    exact absurd ht (h.2.ne_semicolon t (by rw [htokens]; simp))

/-- A statement breaks off in front of the first semicolon behind its begin. -/
theorem StatementBreaks.ne_semicolon {t : Token} {cause : SyntaxFault}
    (h : StatementBreaks settings w t cause) : ∀ u ∈ w, u.kind ≠ .symbol .semicolon := by
  cases h with
  | value _ h => exact fun u hu => ne_semicolon_of_mem (h.kind_mem u hu)
  | printed hword h =>
    exact ne_semicolon_cons hword fun u hu => ne_semicolon_of_mem (h.kind_mem u hu)
  | unterminatedPrint hword h => exact ne_semicolon_cons hword h.ne_semicolon
  | unterminated _ h => exact h.ne_semicolon

namespace TokenStream

variable {s p s' p' r q rest : TokenStream}

/-- Two places that look alike to what is begun in front of them: both lie behind a semicolon, or
both are the end. -/
inductive Fences (r q : TokenStream) : Prop
  | semicolon (hr : ∃ t ∈ r.previous?, t.kind = .symbol .semicolon)
      (hq : ∃ t ∈ q.previous?, t.kind = .symbol .semicolon)
  | finish (hr : r.pending = []) (hq : q.pending = []) (hmark : r.endMark = q.endMark)

/-- Nothing goes beyond a fence that holds a semicolon at its end only. -/
theorem Fences.within (h : Fences r q) (hr : s.After z r) (hz : z ≠ []) (hw : s.After w rest)
    (hlast : ∀ a t b, w = a ++ t :: b → t.kind = .symbol .semicolon → b = []) :
    ∃ v, z = w ++ v ∧ rest.After v r := by
  have hbegins : w <+: z := by
    rcases hw.total hr with hwz | ⟨u, rfl⟩
    · exact hwz
    have hu : u = [] := by
      cases h with
      | semicolon hbehind _ =>
        obtain ⟨t, ht, hkind⟩ := hbehind
        rw [hr.previous?_of_ne_nil hz] at ht
        cases ht
        rw [← List.dropLast_concat_getLast hz, List.append_assoc] at hlast
        exact hlast _ _ u rfl hkind
      | finish hend _ _ =>
        have hpending := (hr.of_append hw).1
        rw [hend] at hpending
        exact (List.append_eq_nil_iff.1 hpending.symm).1
    exact ⟨[], by rw [hu, List.append_nil, List.append_nil]⟩
  obtain ⟨v, rfl⟩ := hbegins
  exact ⟨v, rfl, hw.of_append hr⟩

theorem Fences.atBoundary (h : Fences r q) : r.atBoundary = true ∧ q.atBoundary = true := by
  cases h with
  | semicolon hr hq =>
    obtain ⟨t, ht, hkind⟩ := hr
    obtain ⟨u, hu, hsemicolon⟩ := hq
    rw [Option.mem_def] at ht hu
    simp [TokenStream.atBoundary, ht, hu, hkind, hsemicolon]
  | finish hr hq _ => simp [TokenStream.atBoundary, atEnd, hr, hq]

theorem toBoundary_of_atBoundary (h : s.atBoundary = true) : s.toBoundary = s := by
  rw [toBoundary, dif_pos h]

/-- In front of fences the same tokens are passed over, and the fences are never passed. -/
theorem Fences.toBoundary (h : Fences r q) (hr : s.After z r) (hq : p.After z q)
    (hprevious : s.previous? = p.previous?) :
    ∃ x y, z = x ++ y ∧ s.After x s.toBoundary ∧ p.After x p.toBoundary := by
  induction z generalizing s p with
  | nil =>
    have hs : r = s := hr.nil_eq
    have hp : q = p := hq.nil_eq
    subst hs hp
    rw [toBoundary_of_atBoundary h.atBoundary.1, toBoundary_of_atBoundary h.atBoundary.2]
    exact ⟨[], [], rfl, .refl _, .refl _⟩
  | cons t later ih =>
    have halike : s.atBoundary = p.atBoundary := by
      simp only [TokenStream.atBoundary, atEnd, sees, hr.1, hq.1, hprevious, List.cons_append,
        List.isEmpty_cons, List.head?_cons]
    by_cases hs : s.atBoundary = true
    · rw [toBoundary_of_atBoundary hs, toBoundary_of_atBoundary (halike ▸ hs)]
      exact ⟨[], t :: later, rfl, .refl s, .refl p⟩
    · have hp : ¬ p.atBoundary = true := halike ▸ hs
      have hone : s.After [t] s.advance := after_advance hr.1
      have hother : p.After [t] p.advance := after_advance hq.1
      have hnext : s.advance.previous? = p.advance.previous? := by
        rw [hone.previous?_eq, hother.previous?_eq]
        rfl
      obtain ⟨x, y, rfl, hx, hy⟩ := ih (hone.of_append hr) (hother.of_append hq) hnext
      rw [TokenStream.toBoundary, dif_neg hs, TokenStream.toBoundary.eq_def p, dif_neg hp]
      exact ⟨t :: x, y, rfl, hone.trans hx, hother.trans hy⟩

/-- Behind the same tokens the same ones are passed over. -/
theorem Fences.toBoundary_of_after (h : Fences r q) (hr : s.After (w ++ v) r)
    (hq : p.After (w ++ v) q) (hw : w ≠ []) (hs : s.After w s') (hp : p.After w p') :
    ∃ x y, w ++ v = x ++ y ∧ x ≠ [] ∧ s.After x s'.toBoundary ∧ p.After x p'.toBoundary := by
  have hprevious : s'.previous? = p'.previous? := by
    rw [hs.previous?_of_ne_nil hw, hp.previous?_of_ne_nil hw]
  obtain ⟨x, y, rfl, hx, hy⟩ := h.toBoundary (hs.of_append hr) (hp.of_append hq) hprevious
  refine ⟨w ++ x, y, (List.append_assoc w x y).symm, ?_, hs.trans hx, hp.trans hy⟩
  exact fun hnil => hw (List.append_eq_nil_iff.1 hnil).1

/-- Two readings that are stuck at one place go on at one place. -/
theorem Fences.recover (h : Fences r q) (hr : s.After (w ++ v) r) (hq : p.After (w ++ v) q)
    (hz : w ++ v ≠ []) (hs : s.After w s') (hp : p.After w p') :
    ∃ x y, w ++ v = x ++ y ∧ x ≠ [] ∧ s.After x (recover s s') ∧ p.After x (recover p p') := by
  have hsIndex := hs.index_eq
  have hpIndex := hp.index_eq
  unfold TokenStream.recover
  by_cases hw : w = []
  · subst hw
    obtain ⟨t, later, rfl⟩ := List.exists_cons_of_ne_nil hz
    have hsSame : s' = s := hs.nil_eq
    have hpSame : p' = p := hp.nil_eq
    subst hsSame hpSame
    rw [if_pos rfl, if_pos rfl]
    exact h.toBoundary_of_after (w := [t]) (v := later) hr hq (List.cons_ne_nil t [])
      (after_advance hr.1) (after_advance hq.1)
  · have hlength : 0 < w.length := List.length_pos_iff.2 hw
    rw [if_neg (by omega), if_neg (by omega)]
    exact h.toBoundary_of_after hr hq hw hs hp

/-- Behind what is read the same token is in view, unless a semicolon was read last. -/
theorem Fences.peek_eq (h : Fences r q) (hr : s.After z r) (hq : p.After z q) :
    p.peek = s.peek ∨ z = [] ∧ ∃ t ∈ s.previous?, t.kind = .symbol .semicolon := by
  by_cases hz : z = []
  · subst hz
    have hs : r = s := hr.nil_eq
    have hp : q = p := hq.nil_eq
    subst hs hp
    cases h with
    | semicolon hbehind _ => exact .inr ⟨rfl, hbehind⟩
    | finish hend hother hmark => exact .inl (by rw [peek, peek, hend, hother, hmark])
  · obtain ⟨t, later, rfl⟩ := List.exists_cons_of_ne_nil hz
    exact .inl (by rw [hr.peek_cons, hq.peek_cons])

/-- In front of fences one attempt reads and passes over the same, with the same result. -/
theorem Fences.attempt (h : Fences r q) (hs : s.Proper) (hr : s.After z r) (hq : p.After z q)
    (hz : z ≠ []) (settings : Settings) :
    ∃ x y, z = x ++ y ∧ x ≠ [] ∧
      s.After x (Attempt.make settings.statement s).resumed ∧
      p.After x (Attempt.make settings.statement p).resumed ∧
      (Attempt.make settings.statement s).reading.result =
        (Attempt.make settings.statement p).reading.result := by
  have hexplained := explained_statement settings hs
  unfold Attempt.resumed Attempt.make
  dsimp only
  cases hread : settings.statement.read s with
  | done statement behind =>
    rw [hread] at hexplained
    obtain ⟨b, hb, rfl, hbehind, hstop⟩ := hexplained
    obtain ⟨v, rfl, hv⟩ := h.within hr hz hbehind fun a t rest htokens ht =>
      (hb.semicolon_last htokens ht).1
    obtain ⟨other, hother, hu⟩ := hq.split
    have hstops : b.StopsAt other.peek := by
      rcases h.peek_eq hv hu with hpeek | ⟨-, t, ht, hkind⟩
      · rwa [hpeek]
      · rw [hbehind.previous?_of_ne_nil hb.tokens_ne_nil] at ht
        cases ht
        exact (hb.semicolon_last (List.dropLast_concat_getLast hb.tokens_ne_nil).symm hkind).2 _
    rw [statement_of_fits hb hother hstops]
    exact ⟨b.tokens, v, rfl, hb.tokens_ne_nil, hbehind, hother, rfl⟩
  | stuck cause rest =>
    rw [hread] at hexplained
    obtain ⟨w, hw, hbreaks⟩ := hexplained
    have hne := hbreaks.ne_semicolon
    obtain ⟨v, rfl, hv⟩ := h.within hr hz hw fun a t b heq ht =>
      absurd ht (hne t (by rw [heq]; simp))
    obtain ⟨other, hother, hu⟩ := hq.split
    have hpeek : other.peek = rest.peek := by
      rcases h.peek_eq hv hu with hpeek | ⟨rfl, t, ht, hkind⟩
      · exact hpeek
      · rw [List.append_nil] at hz
        rw [hw.previous?_of_ne_nil hz] at ht
        cases ht
        exact absurd hkind (hne _ (List.getLast_mem hz))
    rw [statement_of_breaks (hpeek ▸ hbreaks) hother]
    obtain ⟨x, y, hxy, hx, hsx, hpx⟩ := h.recover hr hq hz hw hother
    exact ⟨x, y, hxy, hx, hsx, hpx, by rw [Reading.result, Reading.result, hpeek]⟩

/-- What is attempted in front of fences has the same results. -/
theorem Fences.exists_attempts (h : z ≠ [] → Fences r q) (hs : s.Proper) (hr : s.After z r)
    (hq : p.After z q) (settings : Settings) :
    ∃ history other,
      attempts settings.statement s = history ++ attempts settings.statement r ∧
      attempts settings.statement p = other ++ attempts settings.statement q ∧
      history.map (·.reading.result) = other.map (·.reading.result) := by
  induction hlength : z.length using Nat.strongRecOn generalizing z s p with
  | ind n ih =>
    by_cases hz : z = []
    · subst hz
      rw [hr.nil_eq, hq.nil_eq]
      exact ⟨[], [], rfl, rfl, rfl⟩
    · have hsPending : s.pending ≠ [] := by
        rw [hr.1]
        exact fun hnil => hz (List.append_eq_nil_iff.1 hnil).1
      have hpPending : p.pending ≠ [] := by
        rw [hq.1]
        exact fun hnil => hz (List.append_eq_nil_iff.1 hnil).1
      obtain ⟨x, y, rfl, hx, hsx, hpx, hresult⟩ := (h hz).attempt hs hr hq hz settings
      have hxLength : 0 < x.length := List.length_pos_iff.2 hx
      have hlt : y.length < n := by
        rw [← hlength, List.length_append]
        omega
      obtain ⟨history, other, hhistory, hother, hresults⟩ :=
        ih y.length hlt (fun _ => h hz) (hsx.proper hs) (hsx.of_append hr) (hpx.of_append hq) rfl
      refine ⟨Attempt.make settings.statement s :: history,
        Attempt.make settings.statement p :: other, ?_, ?_, ?_⟩
      · rw [attempts_of_pending hsPending, hhistory]
        rfl
      · rw [attempts_of_pending hpPending, hother]
        rfl
      · rw [List.map_cons, List.map_cons, hresult, hresults]

end TokenStream

/-- What two programs come to, one behind the other: the statements of both, or if one of them
fails the faults of both. -/
def joinOutcomes (first second : Except (Report SyntaxFault) (List Statement)) :
    Except (Report SyntaxFault) (List Statement) :=
  match first, second with
  | .ok before, .ok behind => .ok (before ++ behind)
  | _, _ => .error (reported first ++ reported second)

theorem outcome_append (first second : List Attempt) :
    outcome (first ++ second) = joinOutcomes (outcome first) (outcome second) := by
  unfold outcome
  rw [List.filterMap_append, List.filterMap_append]
  cases first.filterMap (·.reading.diagnostic?) with
  | nil =>
    cases second.filterMap (·.reading.diagnostic?) with
    | nil => rfl
    | cons d later => rfl
  | cons d later =>
    cases second.filterMap (·.reading.diagnostic?) with
    | nil => simp only [joinOutcomes, reported, List.cons_append]
    | cons e rest => rfl

theorem joinOutcomes_ok_nil (first : Except (Report SyntaxFault) (List Statement)) :
    joinOutcomes first (.ok []) = first := by
  cases first with
  | ok before => rw [joinOutcomes, List.append_nil]
  | error faults => simp only [joinOutcomes, reported, List.append_nil]

/-- A history comes to what its readings come to, wherever they were made. -/
theorem outcome_eq_of_results {history other : List Attempt}
    (h : history.map (·.reading.result) = other.map (·.reading.result)) :
    outcome history = outcome other := by
  induction history generalizing other with
  | nil => rw [List.map_eq_nil_iff.1 h.symm]
  | cons attempt later ih =>
    obtain ⟨twin, rest, rfl, hresult, hrest⟩ := List.map_eq_cons_iff.1 h.symm
    have hsingle : outcome [attempt] = outcome [twin] := by
      unfold outcome
      cases hreading : attempt.reading <;> cases htwin : twin.reading <;>
        simp_all [Reading.result, Reading.diagnostic?, Reading.value?]
    show outcome ([attempt] ++ later) = outcome ([twin] ++ rest)
    rw [outcome_append, outcome_append, hsingle, ih hrest.symm]

namespace TokenStream

variable {s p r q : TokenStream}

/-- A program goes on behind a fence as one that begins there. -/
theorem Fences.readProgram_eq (h : z ≠ [] → Fences r q) (hs : s.Proper) (hr : s.After z r)
    (hq : p.After z q) (hend : r.pending = []) (settings : Settings) :
    readProgram settings p = joinOutcomes (readProgram settings s) (readProgram settings q) := by
  obtain ⟨history, other, hhistory, hother, hresults⟩ := Fences.exists_attempts h hs hr hq settings
  rw [attempts_of_atEnd hend, List.append_nil] at hhistory
  rw [readProgram, readProgram, hhistory, hother, outcome_append, outcome_eq_of_results hresults,
    readProgram]

/-- What was read before has no part in a program. -/
theorem readProgram_of_pending_eq (hs : s.Proper) (hpending : s.pending = p.pending)
    (hmark : s.endMark = p.endMark) (settings : Settings) :
    readProgram settings p = readProgram settings s := by
  have hpEnd : p.After s.pending ⟨s.pending.reverse ++ p.past, [], p.endMark⟩ :=
    hpending ▸ p.after_pending
  have hfences : s.pending ≠ [] → Fences ⟨s.pending.reverse ++ s.past, [], s.endMark⟩
      ⟨s.pending.reverse ++ p.past, [], p.endMark⟩ := fun _ => .finish rfl rfl hmark
  have hnothing : readProgram settings ⟨s.pending.reverse ++ p.past, [], p.endMark⟩ = .ok [] := by
    rw [readProgram, attempts_of_atEnd rfl]
    rfl
  rw [Fences.readProgram_eq hfences hs s.after_pending hpEnd rfl settings, hnothing,
    joinOutcomes_ok_nil]

end TokenStream

/-- A program comes to what its tokens up to a semicolon and those behind it come to. -/
theorem readProgram_append_eq_joinOutcomes {a b : List Token} {mark : Token} {s : TokenStream}
    (ha : ∀ t ∈ a, t.kind ≠ .endMark) (hlast : ∀ t ∈ a.getLast?, t.kind = .symbol .semicolon)
    (hmark : mark.kind = .endMark) (hb : TokenStream.ofTokens b = .ok s) (settings : Settings) :
    ∃ first whole, TokenStream.ofTokens (a ++ [mark]) = .ok first ∧
      TokenStream.ofTokens (a ++ b) = .ok whole ∧
      readProgram settings whole =
        joinOutcomes (readProgram settings first) (readProgram settings s) := by
  obtain ⟨-, hs, later, rfl, hlater⟩ := TokenStream.ofTokens_eq_ok hb
  have hall : ∀ t ∈ a ++ s.pending, t.kind ≠ .endMark := by
    intro t ht
    rcases List.mem_append.1 ht with ht | ht
    · exact ha t ht
    · exact hs.pending_ne t ht
  have hwhole : TokenStream.ofTokens (a ++ (s.pending ++ s.endMark :: later)) =
      .ok ⟨[], a ++ s.pending, s.endMark⟩ := by
    rw [← List.append_assoc]
    exact TokenStream.ofTokens_append_cons hall hs.endMark_eq hlater
  refine ⟨⟨[], a, mark⟩, ⟨[], a ++ s.pending, s.endMark⟩,
    TokenStream.ofTokens_concat ha hmark, hwhole, ?_⟩
  have hfirst : TokenStream.After ⟨[], a, mark⟩ a ⟨a.reverse ++ [], [], mark⟩ :=
    TokenStream.after_pending ⟨[], a, mark⟩
  have hmiddle : TokenStream.After ⟨[], a ++ s.pending, s.endMark⟩ a
      ⟨a.reverse ++ [], s.pending, s.endMark⟩ := TokenStream.after_of_pending_eq rfl
  have hfences : a ≠ [] → TokenStream.Fences ⟨a.reverse ++ [], [], mark⟩
      ⟨a.reverse ++ [], s.pending, s.endMark⟩ := by
    intro hne
    have hkind := hlast (a.getLast hne) (List.getLast?_eq_some_getLast hne)
    exact .semicolon ⟨_, hfirst.previous?_of_ne_nil hne, hkind⟩
      ⟨_, hmiddle.previous?_of_ne_nil hne, hkind⟩
  have hsecond : readProgram settings ⟨a.reverse ++ [], s.pending, s.endMark⟩ =
      readProgram settings s :=
    TokenStream.readProgram_of_pending_eq (p := ⟨a.reverse ++ [], s.pending, s.endMark⟩) hs
      rfl rfl settings
  rw [TokenStream.Fences.readProgram_eq hfences ⟨ha, hmark⟩ hfirst hmiddle rfl settings, hsecond]

/-- The open grouping breaks off at its semicolon, and the minus is an operator of its own. -/
theorem readProgram_grouping_semicolon_minus :
    ∃ first whole,
      TokenStream.ofTokens ([Symbol.leftParen.token, Word.nilWord.token, Symbol.semicolon.token] ++
        [Token.mark]) = .ok first ∧
      TokenStream.ofTokens ([Symbol.leftParen.token, Word.nilWord.token, Symbol.semicolon.token] ++
        [Symbol.minus.token, Word.nilWord.token, Token.mark]) = .ok whole ∧
      (reported (readProgram {} first)).head? =
        some (Symbol.semicolon.token.diagnostic .unclosedGrouping) ∧
      readProgram {} whole = joinOutcomes (readProgram {} first)
        (.ok [.expression (.unary Symbol.minus.token (.literal .nil))]) := by
  have hnil : ∀ n room, (Expr.literal .nil).Fits n room [Word.nilWord.token] :=
    fun _ _ => .literal (.nil rfl)
  have hbreaks : ProgramBreaks {} [Symbol.leftParen.token, Word.nilWord.token]
      Symbol.semicolon.token .unclosedGrouping := by
    refine ⟨[], _, rfl, trivial, .value (fun h => (nomatch h)) ?_, fun h => (nomatch h)⟩
    exact .left (.left (.left (.left
      (.unclosed rfl (hnil 4 127) (Token.ends_of_semicolon rfl) (by decide)))))
  have hstuck : firstStuck? (attempts (Settings.statement {}) ⟨[], [Symbol.leftParen.token,
      Word.nilWord.token, Symbol.semicolon.token], Token.mark⟩) =
      some (.unclosedGrouping, ⟨[Word.nilWord.token, Symbol.leftParen.token],
        [Symbol.semicolon.token], Token.mark⟩) :=
    firstStuck?_of_breaks ⟨by decide, rfl⟩ ⟨rfl, rfl, rfl⟩ hbreaks
  have hhead : (reported (readProgram {} ⟨[], [Symbol.leftParen.token, Word.nilWord.token,
      Symbol.semicolon.token], Token.mark⟩)).head? =
      some (Symbol.semicolon.token.diagnostic .unclosedGrouping) := by
    rw [readProgram, head?_reported_outcome, hstuck]
    rfl
  have hsecond : readProgram {} ⟨[], [Symbol.minus.token, Word.nilWord.token], Token.mark⟩ =
      .ok [.expression (.unary Symbol.minus.token (.literal .nil))] := by
    apply (readProgram_eq_ok_iff_chain ⟨by decide, rfl⟩).2
    exact ⟨[.bare _ _], ⟨⟨rfl, .unary (.inr rfl) (hnil 0 127)⟩,
      ⟨Token.ends_of_tier?_eq_none rfl 4, by decide⟩, trivial⟩, rfl, rfl⟩
  obtain ⟨first, whole, hfirst, hwhole, heq⟩ := readProgram_append_eq_joinOutcomes
    (a := [Symbol.leftParen.token, Word.nilWord.token, Symbol.semicolon.token])
    (b := [Symbol.minus.token, Word.nilWord.token, Token.mark])
    (s := ⟨[], [Symbol.minus.token, Word.nilWord.token], Token.mark⟩)
    (by decide) (by decide) (show Token.mark.kind = .endMark from rfl) rfl {}
  refine ⟨first, whole, hfirst, hwhole, ?_, ?_⟩
  · cases hfirst
    exact hhead
  · rw [heq, hsecond]

end LoxSyntax
