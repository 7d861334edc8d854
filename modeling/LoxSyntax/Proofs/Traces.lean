import LoxSyntax.Lexing
import LoxSyntax.Proofs.Layout
import LoxSyntax.Proofs.Machines
import LoxSyntax.Proofs.StatementWords

/-!
What a log tells. The log of the lexing lists the tokens, and the log of the machine tells the
whole reading: every token is consumed once and in order, whatever fails; every fault reported is
there, and behind it the token at which reading goes on; and so is every statement of a program
that is read without faults. Since the log is that of the history of the attempts, all of this is
shown attempt by attempt.
-/

namespace LoxSyntax

theorem Segment.text_append_drop (c : Char) (rest : List Char) :
    (first c rest).text ++ rest.drop ((first c rest).text.length - 1) = c :: rest := by
  obtain ⟨tail, htext, later, rfl⟩ := text_first c rest
  rw [htext, List.length_cons, Nat.add_sub_cancel, List.drop_left, List.cons_append]

namespace Lexing

/-- What has been found so far and the placed segments `found` behind it. -/
def extended (lexing : Lexing) (found : List (Position × Segment)) : Lexing where
  tokens := lexing.tokens ++ found.filterMap fun (p, s) => s.token? p
  faults := lexing.faults ++ found.filterMap fun (p, s) => s.fault? p
  log := lexing.log ++ (found.filterMap fun (p, s) => s.token? p).map .lexed

theorem extended_nil (lexing : Lexing) : lexing.extended [] = lexing := by
  simp [extended]

theorem extended_cons (lexing : Lexing) (p : Position) (s : Segment)
    (found : List (Position × Segment)) :
    lexing.extended ((p, s) :: found) = (lexing.turn p s).extended found := by
  unfold extended turn
  cases hcontent : s.content with
  | token kind literal => simp [Segment.token?, Segment.fault?, hcontent, push]
  | fault cause => simp [Segment.token?, Segment.fault?, hcontent, Report.add]
  | blank => simp [Segment.token?, Segment.fault?, hcontent]
  | comment => simp [Segment.token?, Segment.fault?, hcontent]

theorem go_eq (p : Position) (text : List Char) (lexing : Lexing) :
    lexing.go p text = (lexing.extended (placed p (segments text))).close (p.after text) := by
  fun_induction go p text lexing with
  | case1 p lexing => rw [segments_nil, placed, extended_nil, Position.after_nil]
  | case2 p lexing c rest segment ih =>
    have hplace : (p.after segment.text).after (rest.drop (segment.text.length - 1)) =
        p.after (c :: rest) := by
      rw [← Position.after_append, Segment.text_append_drop]
    rw [ih, hplace, segments_cons, placed, extended_cons]

/-- Lexing step by step comes to the tokens and faults of the text, with the events in order. -/
theorem ofText_eq (text : String) :
    ofText text =
      ⟨(Lexed.ofText text).allTokens, (Lexed.ofText text).faults, (Lexed.ofText text).events⟩ := by
  rw [ofText, go_eq]
  simp [extended, close, push, Lexed.events, Lexed.allTokens, Lexed.ofText, Lexed.ofChars]

theorem result_ofText (text : String) : (ofText text).result = (Lexed.ofText text).result := by
  rw [ofText_eq]
  rfl

end Lexing

namespace Event

def isConsumed : Event → Bool
  | consumed _ => true
  | _ => false

def isParsed : Event → Bool
  | parsed _ => true
  | _ => false

def isFailed : Event → Bool
  | failed _ => true
  | _ => false

def isResumed : Event → Bool
  | resumed _ => true
  | _ => false

/-- Records of one form are written down in one form. -/
theorem map_toString_map {α : Type} {event : α → Event} {record : α → String}
    (h : ∀ x, toString (event x) = record x) (xs : List α) :
    (xs.map event).map toString = xs.map record := by
  rw [List.map_map]
  exact List.map_congr_left fun x _ => h x

variable {w : List Token}

@[simp] theorem filter_isConsumed_map : (w.map consumed).filter isConsumed = w.map consumed :=
  List.filter_eq_self.2 (by simp [isConsumed])

/-- Tokens consumed are of no other kind. -/
theorem filter_map_consumed {kind : Event → Bool} (hkind : ∀ t, kind (consumed t) = false) :
    (w.map consumed).filter kind = [] :=
  List.filter_eq_nil_iff.2 (by simp [hkind])

end Event

/-- An element of a concatenation lies in one of its parts. -/
theorem exists_part_of_flatMap_eq {α β : Type} {f : α → List β} {xs : List α} {front back : List β}
    {e : β} (h : xs.flatMap f = front ++ e :: back) :
    ∃ earlier x later pre post, xs = earlier ++ x :: later ∧ f x = pre ++ e :: post ∧
      front = earlier.flatMap f ++ pre ∧ back = post ++ later.flatMap f := by
  induction xs generalizing front with
  | nil => simp at h
  | cons x xs ih =>
    rw [List.flatMap_cons] at h
    rcases List.append_eq_append_iff.1 h with ⟨middle, rfl, hrest⟩ | ⟨middle, hx, hback⟩
    · obtain ⟨earlier, y, later, pre, post, rfl, hy, rfl, rfl⟩ := ih hrest
      exact ⟨x :: earlier, y, later, pre, post, rfl, hy, by simp, rfl⟩
    · cases middle with
      | nil =>
        have hrest : xs.flatMap f = [] ++ e :: back := hback.symm
        obtain ⟨earlier, y, later, pre, post, rfl, hy, hpre, rfl⟩ := ih hrest
        refine ⟨x :: earlier, y, later, pre, post, rfl, hy, ?_, rfl⟩
        rw [List.flatMap_cons, List.append_assoc, ← hpre, hx, List.append_nil, List.append_nil]
      | cons first middle =>
        obtain ⟨rfl, rfl⟩ := List.cons.inj hback
        exact ⟨[], x, xs, front, middle, rfl, hx, rfl, rfl⟩

namespace Attempt

/-- The token at which reading goes on, if the attempt fails. -/
def resumption? (attempt : Attempt) : Option Token :=
  attempt.reading.diagnostic?.map fun _ => attempt.resumed.peek

/-- What an attempt writes down: the tokens read, and the statement, or the fault, the tokens
passed over and the token at which reading goes on. -/
theorem events_eq (attempt : Attempt) {taken : List Token}
    (h : attempt.begun.After taken attempt.reading.rest) :
    (∃ statement, attempt.reading.value? = some statement ∧
      attempt.reading.diagnostic? = none ∧ attempt.begun.After taken attempt.resumed ∧
      attempt.events = taken.map .consumed ++ [.parsed statement]) ∨
    ∃ d skipped, attempt.reading.value? = none ∧ attempt.reading.diagnostic? = some d ∧
      attempt.begun.After (taken ++ skipped) attempt.resumed ∧
      attempt.events =
        taken.map .consumed ++
          .failed d :: (skipped.map .consumed ++ [.resumed attempt.resumed.peek]) := by
  obtain ⟨skipped, hskipped⟩ := attempt.exists_after_resumed
  obtain ⟨begun, reading⟩ := attempt
  have htaken : begun.consumedUntil reading.rest = taken.map .consumed :=
    congrArg (List.map Event.consumed) h.readUntil_eq
  cases reading with
  | done statement rest => exact .inl ⟨statement, rfl, rfl, h, congrArg (· ++ _) htaken⟩
  | stuck cause rest =>
    refine .inr ⟨_, skipped, rfl, rfl, h.trans hskipped, ?_⟩
    have hread : rest.consumedUntil (resumed ⟨begun, .stuck cause rest⟩) = skipped.map .consumed :=
      congrArg (List.map Event.consumed) hskipped.readUntil_eq
    change begun.consumedUntil rest ++ [.failed _] ++ rest.consumedUntil _ ++ [.resumed _] = _
    rw [hread, show begun.consumedUntil rest = _ from htaken]
    simp only [List.append_assoc, List.cons_append]
    rfl

end Attempt

section Log

variable {rule : Rule Statement} {s : TokenStream}

/-- An attempt reads or passes over the tokens up to where it leaves off, each once. -/
theorem Attempt.exists_consumed (rule : Rule Statement) (s : TokenStream) :
    ∃ w, s.After w (make rule s).resumed ∧
      (make rule s).events.filter Event.isConsumed = w.map .consumed := by
  obtain ⟨taken, htaken⟩ := (rule.forward s).onward
  rcases (make rule s).events_eq htaken with
    ⟨statement, -, -, hafter, hevents⟩ | ⟨d, skipped, -, -, hafter, hevents⟩
  · refine ⟨taken, hafter, ?_⟩
    rw [hevents, List.filter_append, Event.filter_isConsumed_map]
    exact List.append_nil _
  · refine ⟨taken ++ skipped, hafter, ?_⟩
    rw [hevents]
    simp [Event.isConsumed]

/-- The attempts in front of another one have consumed all tokens in front of it. -/
theorem exists_consumed_of_attempts_eq {earlier later : List Attempt} {attempt : Attempt}
    (h : attempts rule s = earlier ++ attempt :: later) :
    ∃ w, s.After w attempt.begun ∧
      (earlier.flatMap Attempt.events).filter Event.isConsumed = w.map .consumed := by
  induction earlier generalizing s with
  | nil =>
    obtain ⟨-, rfl, -⟩ := attempts_eq_cons h
    exact ⟨[], .refl s, rfl⟩
  | cons first earlier ih =>
    obtain ⟨-, rfl, hlater⟩ := attempts_eq_cons h
    obtain ⟨w, hw, hconsumed⟩ := Attempt.exists_consumed rule s
    obtain ⟨v, hv, hlaterConsumed⟩ := ih hlater.symm
    refine ⟨w ++ v, hw.trans hv, ?_⟩
    rw [List.flatMap_cons, List.filter_append, hconsumed, hlaterConsumed, List.map_append]

theorem filter_isConsumed_attempts (rule : Rule Statement) (s : TokenStream) :
    ((attempts rule s).flatMap Attempt.events).filter Event.isConsumed =
      s.pending.map .consumed := by
  fun_induction attempts rule s with
  | case1 s hend => rw [List.isEmpty_iff.1 hend]; rfl
  | case2 s hend attempt ih =>
    obtain ⟨w, hw, hconsumed⟩ := Attempt.exists_consumed rule s
    rw [List.flatMap_cons, List.filter_append, ih, hw.1, List.map_append]
    exact congrArg (· ++ _) hconsumed

/-- The records of one kind that a history writes down, when the kind is none of tokens consumed. An
attempt ends with its statement, or it has a fault and a token at which reading goes on. -/
theorem filter_events_flatMap {α : Type} {kind : Event → Bool} {found : Attempt → Option α}
    {event : α → Event} (hconsumed : ∀ t, kind (.consumed t) = false)
    (hdone : ∀ begun statement rest, [Event.parsed statement].filter kind =
      (found ⟨begun, .done statement rest⟩).toList.map event)
    (hstuck : ∀ begun cause rest, [Event.failed (rest.peek.diagnostic cause),
        .resumed (Attempt.mk begun (.stuck cause rest)).resumed.peek].filter kind =
      (found ⟨begun, .stuck cause rest⟩).toList.map event) (history : List Attempt) :
    (history.flatMap Attempt.events).filter kind = (history.filterMap found).map event := by
  rw [List.filter_flatMap, List.filterMap_eq_flatMap_toList, List.map_flatMap]
  congr 1
  funext ⟨begun, reading⟩
  unfold Attempt.events TokenStream.consumedUntil
  cases reading with
  | done statement rest =>
    rw [List.filter_append, Event.filter_map_consumed hconsumed, List.nil_append, hdone begun]
  | stuck cause rest =>
    rw [List.filter_append, List.filter_append, List.filter_append,
      Event.filter_map_consumed hconsumed, Event.filter_map_consumed hconsumed, List.nil_append,
      List.append_nil, ← List.filter_append, ← hstuck begun]
    rfl

theorem filter_isFailed_flatMap (history : List Attempt) :
    (history.flatMap Attempt.events).filter Event.isFailed =
      (history.filterMap (·.reading.diagnostic?)).map .failed :=
  filter_events_flatMap (fun _ => rfl) (fun _ _ _ => rfl) (fun _ _ _ => rfl) history

theorem filter_isParsed_flatMap (history : List Attempt) :
    (history.flatMap Attempt.events).filter Event.isParsed =
      (history.filterMap (·.reading.value?)).map .parsed :=
  filter_events_flatMap (fun _ => rfl) (fun _ _ _ => rfl) (fun _ _ _ => rfl) history

theorem filter_isResumed_flatMap (history : List Attempt) :
    (history.flatMap Attempt.events).filter Event.isResumed =
      (history.filterMap Attempt.resumption?).map .resumed :=
  filter_events_flatMap (fun _ => rfl) (fun _ _ _ => rfl) (fun _ _ _ => rfl) history

/-- Behind an attempt the next one begins where it left off, or the stream ends there. -/
theorem begun_of_attempts_eq {earlier later : List Attempt} {attempt : Attempt}
    (h : attempts rule s = earlier ++ attempt :: later) :
    (later = [] → attempt.resumed.pending = []) ∧
      ∀ next ∈ later.head?, next.begun = attempt.resumed := by
  obtain ⟨-, -, -, hlater⟩ := attempts_eq_append h
  constructor
  · intro hnil
    by_contra hpending
    rw [hnil, attempts_of_pending hpending] at hlater
    cases hlater
  · cases later with
    | nil => exact fun next hnext => absurd hnext (Option.not_mem_none next)
    | cons first later =>
      obtain ⟨-, hfirst, -⟩ := attempts_eq_cons hlater.symm
      intro next hnext
      rw [List.head?_cons, Option.mem_some_iff] at hnext
      rw [← hnext, hfirst]
      rfl

/-- What stands around a failure that an attempt has written down. -/
theorem Attempt.around_failed {attempt : Attempt} {taken : List Token} {pre post : List Event}
    {d : Diagnostic SyntaxFault} (hafter : attempt.begun.After taken attempt.reading.rest)
    (h : attempt.events = pre ++ .failed d :: post) :
    ∃ skipped : List Token, attempt.reading.diagnostic? = some d ∧
      attempt.begun.After (taken ++ skipped) attempt.resumed ∧ pre = taken.map .consumed ∧
      post = skipped.map .consumed ++ [.resumed attempt.resumed.peek] := by
  rcases attempt.events_eq hafter with
    ⟨statement, -, -, -, hevents⟩ | ⟨found, skipped, -, hfound, hresumed, hevents⟩
  · have hmem : Event.failed d ∈ taken.map Event.consumed ++ [.parsed statement] := by
      rw [← hevents, h]
      simp
    simp at hmem
  · rw [hevents, List.append_cons_inj_of_notMem (by simp) (by simp)] at h
    obtain ⟨rfl, heq, rfl⟩ := h
    cases heq
    exact ⟨skipped, hfound, hresumed, rfl, rfl⟩

/-- What stands in front of the token at which reading goes on. -/
theorem Attempt.around_resumed {attempt : Attempt} {taken : List Token} {pre post : List Event}
    {t : Token} (hafter : attempt.begun.After taken attempt.reading.rest)
    (h : attempt.events = pre ++ .resumed t :: post) :
    ∃ (d : Diagnostic SyntaxFault) (skipped : List Token),
      pre = taken.map .consumed ++ .failed d :: skipped.map .consumed := by
  rcases attempt.events_eq hafter with
    ⟨statement, -, -, -, hevents⟩ | ⟨found, skipped, -, hfound, hresumed, hevents⟩
  · have hmem : Event.resumed t ∈ taken.map Event.consumed ++ [.parsed statement] := by
      rw [← hevents, h]
      simp
    simp at hmem
  · have hlast : attempt.events =
        (taken.map .consumed ++ .failed found :: skipped.map .consumed) ++
          .resumed attempt.resumed.peek :: [] := by
      rw [hevents, List.append_assoc, List.cons_append]
    rw [hlast, List.append_cons_inj_of_notMem (by simp) (by simp)] at h
    exact ⟨found, skipped, h.1.symm⟩

/-- Every failure is followed by the tokens passed over and the token at which reading goes on. -/
theorem exists_resumed_of_failed {tokens : List Token} {front back : List Event}
    {d : Diagnostic SyntaxFault} (hs : TokenStream.ofTokens tokens = .ok s)
    (h : (attempts rule s).flatMap Attempt.events = front ++ .failed d :: back) :
    ∃ (skipped : List Token) (t : Token) (rest : List Event),
      back = skipped.map .consumed ++ .resumed t :: rest ∧
      tokens[front.countP Event.isConsumed + skipped.length]? = some t ∧
      ∃ earlier attempt later, attempts rule s = earlier ++ attempt :: later ∧
        attempt.reading.diagnostic? = some d ∧ rest = later.flatMap Attempt.events ∧
        (later = [] → t.kind = .endMark) ∧ ∀ next ∈ later.head?, next.begun.peek = t := by
  obtain ⟨earlier, attempt, later, pre, post, hattempts, hevents, rfl, rfl⟩ :=
    exists_part_of_flatMap_eq h
  obtain ⟨before, hbefore, hconsumed⟩ := exists_consumed_of_attempts_eq hattempts
  obtain ⟨-, -, hmake, -⟩ := attempts_eq_append hattempts
  obtain ⟨hend, hnext⟩ := begun_of_attempts_eq hattempts
  obtain ⟨taken, htaken⟩ : attempt.reading.Onward attempt.begun := by
    rw [hmake]
    exact (rule.forward attempt.begun).onward
  obtain ⟨skipped, hd, hresumed, rfl, rfl⟩ := Attempt.around_failed htaken hevents
  have hafter := hbefore.trans hresumed
  refine ⟨skipped, attempt.resumed.peek, later.flatMap Attempt.events, ?_, ?_, earlier, attempt,
    later, hattempts, hd, rfl, ?_, ?_⟩
  · simp
  · have hplace := (TokenStream.After.place hafter hs).2.2
    have hcount : (earlier.flatMap Attempt.events ++ taken.map Event.consumed).countP
        Event.isConsumed = (before ++ taken).length := by
      rw [List.countP_eq_length_filter, List.filter_append, hconsumed,
        Event.filter_isConsumed_map, ← List.map_append, List.length_map]
    rw [hcount, ← List.length_append, List.append_assoc]
    exact hplace
  · intro hnil
    have hproper := hafter.proper (TokenStream.ofTokens_eq_ok hs).2.1
    exact hproper.peek_eq_endMark_iff.2 (hend hnil)
  · intro next hmem
    rw [hnext next hmem]

/-- In front of every token at which reading goes on there are a failure and tokens passed over. -/
theorem exists_failed_of_resumed {front back : List Event} {t : Token}
    (h : (attempts rule s).flatMap Attempt.events = front ++ .resumed t :: back) :
    ∃ (earlier : List Event) (d : Diagnostic SyntaxFault) (skipped : List Token),
      front = earlier ++ .failed d :: skipped.map .consumed := by
  obtain ⟨earlier, attempt, later, pre, post, hattempts, hevents, rfl, rfl⟩ :=
    exists_part_of_flatMap_eq h
  obtain ⟨-, -, hmake, -⟩ := attempts_eq_append hattempts
  obtain ⟨taken, htaken⟩ : attempt.reading.Onward attempt.begun := by
    rw [hmake]
    exact (rule.forward attempt.begun).onward
  obtain ⟨d, skipped, rfl⟩ := Attempt.around_resumed htaken hevents
  exact ⟨earlier.flatMap Attempt.events ++ taken.map .consumed, d, skipped, by simp⟩

end Log

theorem reported_outcome (history : List Attempt) :
    reported (outcome history) = history.filterMap (·.reading.diagnostic?) := by
  unfold outcome
  split
  · rename_i hnil
    rw [hnil]
    rfl
  · rfl

/-- What the log of a program says about the tokens it was read from, the history of its attempts
and what they come to. -/
structure TellsProgram (tokens : List Token) (history : List Attempt)
    (result : Except (Report SyntaxFault) (List Statement)) (log : List Event) : Prop where
  /-- All tokens in front of the end mark are consumed, each once and in order. -/
  consumed : log.filter Event.isConsumed = tokens.dropLast.map .consumed
  consumed_text : (log.filter Event.isConsumed).map toString =
    tokens.dropLast.map fun t => s!"TRACE consumed {t.kind.name} '{t.lexeme}' at {t.position}"
  failed : log.filter Event.isFailed = (reported result).map .failed
  failed_text : (log.filter Event.isFailed).map toString =
    (reported result).map fun d => s!"DEBUG {d}"
  /-- Behind a failure stand tokens passed over and then the token at which reading goes on. It is
  the one behind all tokens consumed so far, where the next attempt begins, or the end mark. -/
  resumed_of_failed : ∀ front d back, log = front ++ .failed d :: back →
    ∃ (skipped : List Token) (t : Token) (rest : List Event),
      back = skipped.map .consumed ++ .resumed t :: rest ∧
      tokens[front.countP Event.isConsumed + skipped.length]? = some t ∧
      ∃ earlier attempt later, history = earlier ++ attempt :: later ∧
        attempt.reading.diagnostic? = some d ∧ rest = later.flatMap Attempt.events ∧
        (later = [] → t.kind = .endMark) ∧ ∀ next ∈ later.head?, next.begun.peek = t
  /-- Reading goes on nowhere else. -/
  failed_of_resumed : ∀ front t back, log = front ++ .resumed t :: back →
    ∃ (earlier : List Event) (d : Diagnostic SyntaxFault) (skipped : List Token),
      front = earlier ++ .failed d :: skipped.map .consumed
  /-- One such token is written down for each attempt that fails. -/
  resumed : log.filter Event.isResumed = (history.filterMap Attempt.resumption?).map .resumed
  resumed_text : (log.filter Event.isResumed).map toString =
    (history.filterMap Attempt.resumption?).map fun t =>
      s!"DEBUG resynchronized at '{t.lexeme}' ({t.position})"
  parsed : ∀ statements, result = .ok statements →
    log.filter Event.isParsed = statements.map .parsed ∧
      (log.filter Event.isParsed).map toString =
        statements.map fun statement => s!"DEBUG parsed {statement.render}"

theorem tellsProgram_programEvents (settings : Settings) {tokens : List Token} {s : TokenStream}
    (hs : TokenStream.ofTokens tokens = .ok s) (hone : s.pending = tokens.dropLast) :
    TellsProgram tokens (attempts settings.statement s) (readProgram settings s)
      (programEvents settings s) := by
  have hconsumed : (programEvents settings s).filter Event.isConsumed =
      tokens.dropLast.map .consumed := by
    rw [programEvents, filter_isConsumed_attempts, hone]
  have hfailed : (programEvents settings s).filter Event.isFailed =
      (reported (readProgram settings s)).map .failed := by
    rw [programEvents, filter_isFailed_flatMap, readProgram, reported_outcome]
  have hresumed : (programEvents settings s).filter Event.isResumed =
      ((attempts settings.statement s).filterMap Attempt.resumption?).map .resumed :=
    filter_isResumed_flatMap _
  refine ⟨hconsumed, ?_, hfailed, ?_, fun _ _ _ => exists_resumed_of_failed hs,
    fun _ _ _ => exists_failed_of_resumed, hresumed, ?_, ?_⟩
  · rw [hconsumed]
    exact Event.map_toString_map (fun t => Event.toString_eq (.consumed t)) _
  · rw [hfailed]
    exact Event.map_toString_map (fun d => Event.toString_eq (.failed d)) _
  · rw [hresumed]
    exact Event.map_toString_map (fun t => Event.toString_eq (.resumed t)) _
  · intro statements hresult
    have hparsed : (programEvents settings s).filter Event.isParsed =
        statements.map .parsed := by
      rw [(outcome_eq_ok_iff.1 hresult).2]
      exact filter_isParsed_flatMap _
    refine ⟨hparsed, ?_⟩
    rw [hparsed]
    exact Event.map_toString_map (fun statement => Event.toString_eq (.parsed statement)) _

/-- The log of a text without lexical faults tells its whole reading. The lexing lists the tokens
and counts them; then the machine reads them as a program and comes to the result of the program,
whatever the settings, and its log tells all of it. -/
theorem log_tells_program (settings : Settings) {source : String} {tokens : List Token}
    (h : (Lexed.ofText source).result = .ok tokens) :
    (Lexing.ofText source).result = .ok tokens ∧
    (Lexing.ofText source).log = tokens.map .lexed ++ [.lexedAll tokens.length 0] ∧
    (Lexing.ofText source).log.map toString =
      tokens.map (fun t => s!"TRACE {t.kind.name} {quoted t.lexeme} at {t.position}") ++
        [s!"DEBUG scanned {tokens.length} tokens, 0 errors"] ∧
    ∃ s m, TokenStream.ofTokens tokens = .ok s ∧
      Machine.readProgram settings ⟨tokens, 0, []⟩ = some (readProgram settings s, m) ∧
      (Lexing.ofText source).log ++ m.tape.log =
        (Lexed.ofText source).events ++ programEvents settings s ∧
      TellsProgram tokens (attempts settings.statement s) (readProgram settings s)
        m.tape.log := by
  have hresult := (Lexing.result_ofText source).trans h
  obtain ⟨hfaults, rfl⟩ := Lexed.result_eq_ok_iff.1 h
  have hs := Lexed.ofTokens_allTokens source.toList
  have hrun := Machine.readProgram_of_shows (TokenTape.shows_of_ofTokens hs) settings
  have hlog : (Lexing.ofText source).log = (Lexed.ofText source).allTokens.map .lexed ++
      [.lexedAll (Lexed.ofText source).allTokens.length 0] := by
    rw [Lexing.ofText_eq, Lexed.events, hfaults]
    rfl
  refine ⟨hresult, hlog, ?_, _, _, hs, hrun, ?_, ?_⟩
  · rw [hlog, List.map_append, Event.map_toString_map fun t => Event.toString_eq (.lexed t),
      List.map_singleton, Event.toString_eq]
    simp only [String.append_assoc]
    rfl
  · rw [Lexing.ofText_eq]
    rfl
  · refine tellsProgram_programEvents settings hs ?_
    rw [Lexed.allTokens, List.dropLast_concat]
    rfl

/-- The operand is missing; the semicolon is passed over and reading goes on at the end mark. -/
theorem log_tells_program_minus_semicolon :
    (Lexed.ofText "-;").result = .ok [⟨.symbol .minus, "-", none, ⟨1, 1⟩⟩,
        ⟨.symbol .semicolon, ";", none, ⟨1, 2⟩⟩, ⟨.endMark, "", none, ⟨1, 3⟩⟩] ∧
      (Lexing.ofText "-;").log.map toString =
        ["TRACE Minus \"-\" at 1:1", "TRACE Semicolon \";\" at 1:2", "TRACE Eof \"\" at 1:3",
          "DEBUG scanned 3 tokens, 0 errors"] ∧
      ∃ result m, Machine.readProgram {} ⟨[⟨.symbol .minus, "-", none, ⟨1, 1⟩⟩,
          ⟨.symbol .semicolon, ";", none, ⟨1, 2⟩⟩, ⟨.endMark, "", none, ⟨1, 3⟩⟩], 0, []⟩ =
            some (result, m) ∧
        (m.tape.log.filter Event.isConsumed).map toString =
          ["TRACE consumed Minus '-' at 1:1", "TRACE consumed Semicolon ';' at 1:2"] ∧
        (m.tape.log.filter Event.isFailed).map toString =
          ["DEBUG error (l. 1, c. 2): Unexpected token ';'"] ∧
        (m.tape.log.filter Event.isResumed).map toString =
          ["DEBUG resynchronized at '' (1:3)"] := by
  have h : (Lexed.ofText "-;").result = .ok [⟨.symbol .minus, "-", none, ⟨1, 1⟩⟩,
      ⟨.symbol .semicolon, ";", none, ⟨1, 2⟩⟩, ⟨.endMark, "", none, ⟨1, 3⟩⟩] := by cbv
  obtain ⟨-, -, hlog, s, m, hs, hrun, -, htells⟩ := log_tells_program {} h
  cases hs
  refine ⟨h, ?_, _, m, hrun, ?_, ?_, ?_⟩
  · rw [hlog]
    cbv
  · rw [htells.consumed_text]
    cbv
  · rw [htells.failed_text]
    cbv
  · rw [htells.resumed_text]
    cbv

end LoxSyntax
