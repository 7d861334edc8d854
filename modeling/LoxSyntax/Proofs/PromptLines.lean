import LoxSyntax.Proofs.Fences
import LoxSyntax.Proofs.InputLines
import LoxSyntax.Proofs.Linebreaks

/-!
Texts read line by line. Where no string goes on beyond a line and each line closes its last
statement, a program comes to what its lines come to by themselves, each as many lines further
down as stand in front of it. So a file is accepted if the prompt accepts all of its lines, and
shows what they show.
-/

namespace LoxSyntax

namespace Lexed

theorem proper_stream_down {lexed : Lexed} (h : lexed.stream.Proper) (n : Nat) :
    (lexed.down n).stream.Proper := by
  refine ⟨fun t ht => ?_, h.endMark_eq⟩
  obtain ⟨u, hu, rfl⟩ := List.mem_map.1 ht
  exact h.pending_ne u hu

/-- A string that is not closed in front of a newline is not closed by it. -/
theorem unclosed_append_newline {text : List Char} {p : Position}
    (h : ⟨p, .unclosedString⟩ ∈ (ofChars text).faults) :
    ⟨p, .unclosedString⟩ ∈ (ofChars (text ++ ['\n'])).faults := by
  obtain ⟨before, body, rfl, hplace, houtside, hclosed⟩ := unclosed_mem_faults_iff.1 h
  refine unclosed_mem_faults_iff.2 ⟨before, body ++ ['\n'], ?_, hplace, houtside, ?_⟩
  · rw [List.append_assoc, List.cons_append]
  · intro hmem
    rcases List.mem_append.1 hmem with hmem | hmem
    · exact hclosed hmem
    · cases List.mem_singleton.1 hmem

/-- A line without faults is read as it is by itself, whatever lines follow it. -/
theorem ofChars_line {body : List Char} (hbody : '\n' ∉ body)
    (h : (ofChars (body ++ ['\n'])).faults = []) (later : List Char) :
    ofChars (body ++ ['\n'] ++ later) =
      (ofChars (body ++ ['\n'])).join ((ofChars later).down 1) := by
  have hclosed : ∀ d ∈ (ofChars body).faults, d.cause ≠ .unclosedString := by
    rintro ⟨p, cause⟩ hd rfl
    have hmem := unclosed_append_newline hd
    rw [h] at hmem
    cases hmem
  have hnothing : ofChars [] = ⟨[], (ofChars []).endMark, []⟩ := by
    rw [ofChars, segments_nil]
    rfl
  have hcount : 1 + body.count '\n' = 1 := by rw [List.count_eq_zero.2 hbody]
  have hline := ofChars_append_newline hclosed []
  have hwhole := ofChars_append_newline hclosed later
  rw [hcount] at hline hwhole
  rw [List.append_assoc, List.singleton_append, hwhole, hline, hnothing]
  simp [join, down]

end Lexed

/-- What a program comes to when its tokens are moved. -/
def movedOutcome (f : Position → Position) :
    Except (Report SyntaxFault) (List Statement) → Except (Report SyntaxFault) (List Statement)
  | .ok statements => .ok (statements.map (Statement.move f))
  | .error faults => .error (faults.map (Diagnostic.move f))

/-- The trees that a program is shown as. -/
def rendered : Except (Report SyntaxFault) (List Statement) → List String
  | .ok statements => statements.map Statement.render
  | .error _ => []

section Outcomes

variable {first second : Except (Report SyntaxFault) (List Statement)} {f : Position → Position}

theorem readProgram_move_eq (settings : Settings) (f : Position → Position) (s : TokenStream) :
    readProgram settings (s.move f) = movedOutcome f (readProgram settings s) := by
  rw [readProgram_move]
  rfl

theorem reported_joinOutcomes :
    reported (joinOutcomes first second) = reported first ++ reported second := by
  cases first with
  | ok before =>
    cases second with
    | ok behind => rfl
    | error faults => rfl
  | error faults => rfl

theorem reported_movedOutcome :
    reported (movedOutcome f first) = (reported first).map (Diagnostic.move f) := by
  cases first with
  | ok statements => rfl
  | error faults => rfl

theorem joinOutcomes_eq_ok {statements : List Statement}
    (h : joinOutcomes first second = .ok statements) :
    ∃ before behind, first = .ok before ∧ second = .ok behind ∧ statements = before ++ behind := by
  cases first with
  | error faults => cases h
  | ok before =>
    cases second with
    | error faults => cases h
    | ok behind => exact ⟨before, behind, rfl, rfl, (Except.ok.inj h).symm⟩

theorem movedOutcome_eq_ok {statements : List Statement}
    (h : movedOutcome f first = .ok statements) :
    ∃ before, first = .ok before ∧ statements = before.map (Statement.move f) := by
  cases first with
  | error faults => cases h
  | ok before => exact ⟨before, rfl, (Except.ok.inj h).symm⟩

end Outcomes

/-- A program whose first part closes its last statement is joined from its parts. -/
theorem Lexed.readProgram_join {first second : Lexed} (hfirst : first.stream.Proper)
    (hsecond : second.stream.Proper)
    (hlast : ∀ t ∈ first.tokens.getLast?, t.kind = .symbol .semicolon) (settings : Settings) :
    readProgram settings (first.join second).stream =
      joinOutcomes (readProgram settings first.stream) (readProgram settings second.stream) := by
  let front : TokenStream := ⟨first.tokens.reverse, [], first.endMark⟩
  let middle : TokenStream := ⟨first.tokens.reverse, second.tokens, second.endMark⟩
  have hfront : first.stream.After first.tokens front :=
    ⟨(List.append_nil _).symm, (List.append_nil _).symm, rfl⟩
  have hmiddle : (first.join second).stream.After first.tokens middle :=
    ⟨rfl, (List.append_nil _).symm, rfl⟩
  have hfences : first.tokens ≠ [] → TokenStream.Fences front middle := by
    intro hne
    have hkind := hlast (first.tokens.getLast hne) (List.getLast?_eq_some_getLast hne)
    exact .semicolon ⟨_, hfront.previous?_of_ne_nil hne, hkind⟩
      ⟨_, hmiddle.previous?_of_ne_nil hne, hkind⟩
  rw [TokenStream.Fences.readProgram_eq hfences hfirst hfront hmiddle rfl settings]
  exact congrArg _
    (TokenStream.readProgram_of_pending_eq (p := middle) hsecond rfl rfl settings)

theorem Lexed.ofText_empty : (ofText "").tokens = [] ∧ (ofText "").faults = [] := by
  rw [ofText, String.toList_empty, ofChars, segments_nil]
  exact ⟨rfl, rfl⟩

theorem asLines_flatMap {α : Type} (items : List α) (f : α → List String) :
    asLines (items.flatMap f) = String.join (items.map fun item => asLines (f item)) := by
  induction items with
  | nil => rfl
  | cons item later ih =>
    rw [List.flatMap_cons, List.map_cons, String.join_cons, ← ih, asLines, List.map_append,
      String.join_append]
    rfl

/-- A line that has tokens. Unless there is only their mark, the last but the mark is a semicolon.
-/
def CompleteLine (line : String) : Prop :=
  ∃ tokens mark, (Lexed.ofText line).result = .ok (tokens ++ [mark]) ∧
    ∀ t ∈ tokens.getLast?, t.kind = .symbol .semicolon

namespace CompleteLine

variable {line : String}

theorem faults_eq_nil (h : CompleteLine line) : (Lexed.ofText line).faults = [] := by
  obtain ⟨tokens, mark, hresult, -⟩ := h
  exact (Lexed.result_eq_ok_iff.1 hresult).1

theorem last_semicolon (h : CompleteLine line) :
    ∀ t ∈ (Lexed.ofText line).tokens.getLast?, t.kind = .symbol .semicolon := by
  obtain ⟨tokens, mark, hresult, hlast⟩ := h
  have htokens := congrArg List.dropLast (Lexed.result_eq_ok_iff.1 hresult).2
  rw [List.dropLast_concat, Lexed.dropLast_allTokens] at htokens
  rwa [← htokens]

theorem ofText_append (h : CompleteLine line) {body : List Char}
    (hline : line.toList = body ++ ['\n']) (hbody : '\n' ∉ body) (later : String) :
    Lexed.ofText (line ++ later) = (Lexed.ofText line).join ((Lexed.ofText later).down 1) := by
  have hfaults := h.faults_eq_nil
  rw [Lexed.ofText, hline] at hfaults
  rw [Lexed.ofText, Lexed.ofText, String.toList_append, hline]
  exact Lexed.ofChars_line hbody hfaults later.toList

end CompleteLine

/-- The lines of a text, all of which are complete. -/
structure CompleteLines (lines : List String) : Prop where
  cut : Lines lines
  complete : ∀ line ∈ lines, CompleteLine line

namespace Options

/-- What a text comes to when its tokens are read as a program. -/
def program (options : Options) (source : String) :
    Except (Report SyntaxFault) (List Statement) :=
  readProgram options.settings (Lexed.ofText source).stream

/-- What is wrong with the program. -/
def syntaxFaults (options : Options) (source : String) : Report SyntaxFault :=
  reported (options.program source)

variable {options : Options} {source : String}

theorem program_empty (options : Options) : options.program "" = .ok [] := by
  rw [program, readProgram, attempts_of_atEnd Lexed.ofText_empty.1]
  rfl

theorem syntaxFaults_eq_nil_iff :
    options.syntaxFaults source = [] ↔ ∃ statements, options.program source = .ok statements := by
  unfold syntaxFaults program readProgram outcome
  split
  · exact iff_of_true rfl ⟨_, rfl⟩
  · rename_i hne
    refine iff_of_false (fun hnil => hne hnil) ?_
    rintro ⟨statements, hok⟩
    cases hok

theorem program_of_refused (h : options.syntaxFaults source ≠ []) :
    options.program source = .error (options.syntaxFaults source) := by
  unfold syntaxFaults at h ⊢
  cases hprogram : options.program source with
  | ok statements =>
    rw [hprogram] at h
    exact absurd rfl h
  | error faults => rfl

end Options

namespace CompleteLines

variable {options : Options} {line : String} {later lines : List String}

theorem tail (h : CompleteLines (line :: later)) : CompleteLines later := by
  refine ⟨?_, fun l hl => h.complete l (List.mem_cons_of_mem line hl)⟩
  cases h.cut with
  | last hne hline => exact .nil
  | cons hline hbody hlater => exact hlater

theorem head (h : CompleteLines (line :: later)) : CompleteLine line :=
  h.complete line List.mem_cons_self

/-- No line has a fault of its characters, so neither has the text. -/
theorem faults_eq_nil (h : CompleteLines lines) :
    (Lexed.ofText (String.join lines)).faults = [] := by
  induction lines with
  | nil => exact Lexed.ofText_empty.2
  | cons line later ih =>
    have hline := h.head.faults_eq_nil
    cases h.cut with
    | last hne hend => rwa [String.join_cons, String.join_nil, String.append_empty]
    | cons hnewline hbody _ =>
      rw [String.join_cons, h.head.ofText_append hnewline hbody, Lexed.join, hline, Lexed.down,
        ih h.tail]
      rfl

/-- The first line and those behind it are read one after the other, the latter a line further
down. -/
theorem program_join_cons (h : CompleteLines (line :: later)) :
    options.program (String.join (line :: later)) =
      joinOutcomes (options.program line)
        (movedOutcome (.down 1) (options.program (String.join later))) := by
  cases h.cut with
  -- behind the last line nothing is left, and an empty program changes nothing
  | last hne hend =>
    rw [String.join_cons, String.join_nil, String.append_empty, Options.program_empty]
    exact (joinOutcomes_ok_nil _).symm
  | cons hnewline hbody _ =>
    have hbehind := Lexed.proper_stream_down (Lexed.proper_stream (String.join later)) 1
    rw [Options.program, String.join_cons, h.head.ofText_append hnewline hbody,
      Lexed.readProgram_join (Lexed.proper_stream line) hbehind h.head.last_semicolon,
      Options.program, Options.program, ← readProgram_move_eq]
    rfl

/-- The faults of the text are those of its lines, moved down to them. -/
theorem syntaxFaults_join (h : CompleteLines lines) :
    options.syntaxFaults (String.join lines) =
      (lines.mapIdx fun k line =>
        (options.syntaxFaults line).map (Diagnostic.move (.down k))).flatten := by
  induction lines with
  | nil =>
    rw [String.join_nil, Options.syntaxFaults, Options.program_empty]
    rfl
  | cons line later ih =>
    have hzero : Diagnostic.move (Position.down 0) = (id : Diagnostic SyntaxFault → _) := rfl
    rw [Options.syntaxFaults, h.program_join_cons, reported_joinOutcomes, reported_movedOutcome,
      ← Options.syntaxFaults, ← Options.syntaxFaults, ih h.tail, List.mapIdx_cons,
      List.flatten_cons, List.map_flatten, hzero, List.map_id]
    -- the lines behind the first one lie one line further down in the whole
    rw [List.mapIdx_eq_zipIdx_map, List.mapIdx_eq_zipIdx_map, List.map_map]
    congr 2
    exact List.map_congr_left fun (l, k) _ => List.map_map

/-- The text is without faults exactly if all of its lines are. -/
theorem syntaxFaults_join_eq_nil_iff (h : CompleteLines lines) :
    options.syntaxFaults (String.join lines) = [] ↔
      ∀ line ∈ lines, options.syntaxFaults line = [] := by
  rw [h.syntaxFaults_join, List.flatten_eq_nil_iff]
  constructor
  · intro hnil line hline
    obtain ⟨k, hk, rfl⟩ := List.getElem_of_mem hline
    exact List.map_eq_nil_iff.1 (hnil _ (List.mem_mapIdx.2 ⟨k, hk, rfl⟩))
  · intro hnil moved hmoved
    obtain ⟨k, hk, rfl⟩ := List.mem_mapIdx.1 hmoved
    exact List.map_eq_nil_iff.2 (hnil _ (List.getElem_mem hk))

/-- If the text is accepted, it has the trees of all of its lines. -/
theorem rendered_program_join (h : CompleteLines lines)
    (haccepted : options.syntaxFaults (String.join lines) = []) :
    rendered (options.program (String.join lines)) =
      lines.flatMap fun line => rendered (options.program line) := by
  induction lines with
  | nil =>
    rw [String.join_nil, Options.program_empty]
    rfl
  | cons line later ih =>
    obtain ⟨statements, hok⟩ := Options.syntaxFaults_eq_nil_iff.1 haccepted
    rw [hok]
    rw [h.program_join_cons] at hok
    obtain ⟨before, moved, hbefore, hmoved, rfl⟩ := joinOutcomes_eq_ok hok
    obtain ⟨behind, hbehind, rfl⟩ := movedOutcome_eq_ok hmoved
    rw [List.flatMap_cons, ← ih h.tail (Options.syntaxFaults_eq_nil_iff.2 ⟨behind, hbehind⟩),
      hbefore, hbehind, rendered, List.map_append, List.map_map]
    exact congrArg _ (List.map_congr_left fun statement _ => statement.render_move)

end CompleteLines

namespace Options

variable {options : Options} {source : String} {lines : List String}

section Answers

variable (htokens : options.showTokens = false) (hlexed : (Lexed.ofText source).faults = [])

include htokens hlexed

/-- A text whose program is accepted is answered with its trees. -/
theorem answer_of_accepted (h : options.syntaxFaults source = []) :
    options.answer source = ⟨asLines (rendered (options.program source)), none⟩ := by
  have hresult := Lexed.result_eq_ok_iff.2 ⟨hlexed, rfl⟩
  obtain ⟨statements, hok⟩ := syntaxFaults_eq_nil_iff.1 h
  rw [hok]
  unfold program at hok
  simp [answer, hresult, htokens, hok, rendered]

/-- A text whose program is refused is answered with the faults of the program. -/
theorem answer_of_refused (h : options.syntaxFaults source ≠ []) :
    options.answer source = ⟨"", some (options.syntaxFaults source).text⟩ := by
  have hresult := Lexed.result_eq_ok_iff.2 ⟨hlexed, rfl⟩
  have herror := program_of_refused h
  generalize options.syntaxFaults source = faults at herror
  unfold program at herror
  simp [answer, hresult, htokens, herror]

theorem report?_eq_none_iff :
    (options.answer source).report? = none ↔ options.syntaxFaults source = [] := by
  by_cases h : options.syntaxFaults source = []
  · rw [answer_of_accepted htokens hlexed h]
    exact iff_of_true rfl h
  · rw [answer_of_refused htokens hlexed h]
    exact iff_of_false (Option.some_ne_none _) h

theorem reply_of_accepted (h : options.syntaxFaults source = []) :
    options.reply source = asLines (rendered (options.program source)) := by
  rw [reply, answer_of_accepted htokens hlexed h]
  exact String.append_empty

theorem reply_of_refused (h : options.syntaxFaults source ≠ []) :
    options.reply source = (options.syntaxFaults source).text ++ "\n" := by
  rw [reply, answer_of_refused htokens hlexed h]
  simp [asLines]

end Answers

/-- A file of which all lines are accepted shows the replies to them. -/
theorem fileRun_of_accepted (htokens : options.showTokens = false) (h : CompleteLines lines)
    (haccepted : ∀ line ∈ lines, options.syntaxFaults line = []) :
    options.fileRun (.ok (String.join lines).toUTF8) =
      .success (String.join (lines.map options.reply)) := by
  have hwhole := h.syntaxFaults_join_eq_nil_iff.2 haccepted
  have hreplies : asLines (rendered (options.program (String.join lines))) =
      String.join (lines.map options.reply) := by
    rw [h.rendered_program_join hwhole, asLines_flatMap]
    refine congrArg String.join (List.map_congr_left fun line hline => ?_)
    exact (reply_of_accepted htokens (h.complete line hline).faults_eq_nil
      (haccepted line hline)).symm
  rw [fileRun_of_answer (answer_of_accepted htokens h.faults_eq_nil hwhole), hreplies]

/-- Any other file is refused with its faults. -/
theorem fileRun_of_refused (htokens : options.showTokens = false) (h : CompleteLines lines)
    (hrefused : options.syntaxFaults (String.join lines) ≠ []) :
    options.fileRun (.ok (String.join lines).toUTF8) =
      .failure "" (options.syntaxFaults (String.join lines)).text :=
  fileRun_of_report (answer_of_refused htokens h.faults_eq_nil hrefused)

end Options

/-- The prompt and a file agree line by line, on a text of complete lines. The prompt answers every
line. The file is accepted if all of its lines are, and then it shows what the lines show; if it is
not accepted, its faults are those of the lines, in order, each moved down by the lines in front of
it. -/
theorem commandLine_file_eq_prompt (advice : Misuse → String) {options : Options} {path : String}
    {onFile atPrompt : List String} {file : String → Except SystemFault ByteArray}
    {input : ByteArray} {lines : List String}
    (hfile : Request.ofArguments onFile = .run { options with file := some path })
    (hprompt : Request.ofArguments atPrompt = .run { options with file := none })
    (htokens : options.showTokens = false) (hlines : CompleteLines lines)
    (hcontent : file path = .ok (String.join lines).toUTF8) :
    let run := commandLine advice onFile file input
    commandLine advice atPrompt file (String.join lines).toUTF8 =
        ⟨String.join (lines.map fun line => Options.promptText ++ options.reply line) ++
          Options.promptText, "", 0⟩ ∧
      (∀ line ∈ lines, ((options.answer line).report? = none ↔ options.syntaxFaults line = []) ∧
        (options.syntaxFaults line ≠ [] →
          options.reply line = (options.syntaxFaults line).text ++ "\n")) ∧
      (run.code = 0 ↔ ∀ line ∈ lines, (options.answer line).report? = none) ∧
      (run.code = 0 → run = ⟨String.join (lines.map options.reply), "", 0⟩) ∧
      (run.code ≠ 0 →
        run = ⟨"", s!"Error: {(options.syntaxFaults (String.join lines)).text}\n", 1⟩ ∧
        (options.answer (String.join lines)).report? =
          some (options.syntaxFaults (String.join lines)).text) ∧
      options.syntaxFaults (String.join lines) =
        (lines.mapIdx fun k line =>
          (options.syntaxFaults line).map (Diagnostic.move (.down k))).flatten := by
  intro run
  have hreports : ∀ line ∈ lines,
      (options.answer line).report? = none ↔ options.syntaxFaults line = [] := fun line hline =>
    Options.report?_eq_none_iff htokens (hlines.complete line hline).faults_eq_nil
  have haccepted : (∀ line ∈ lines, (options.answer line).report? = none) ↔
      ∀ line ∈ lines, options.syntaxFaults line = [] := forall₂_congr hreports
  have hrun : run = options.fileRun (.ok (String.join lines).toUTF8) := by
    simp only [run, commandLine, hfile, hcontent]
    rfl
  refine ⟨?_, fun line hline => ⟨hreports line hline, ?_⟩, ?_⟩
  · simp only [commandLine, hprompt]
    exact Options.session_inputLines { options with file := none } hlines.cut
  · exact Options.reply_of_refused htokens (hlines.complete line hline).faults_eq_nil
  · rw [haccepted]
    by_cases hall : ∀ line ∈ lines, options.syntaxFaults line = []
    · rw [Options.fileRun_of_accepted htokens hlines hall] at hrun
      have hcode : run.code = 0 := congrArg Transcript.code hrun
      exact ⟨iff_of_true hcode hall, fun _ => hrun, fun hne => absurd hcode hne,
        hlines.syntaxFaults_join⟩
    · have hrefused : options.syntaxFaults (String.join lines) ≠ [] :=
        fun hnil => hall (hlines.syntaxFaults_join_eq_nil_iff.1 hnil)
      have hanswer := Options.answer_of_refused htokens hlines.faults_eq_nil hrefused
      rw [Options.fileRun_of_refused htokens hlines hrefused] at hrun
      have hcode : run.code ≠ 0 := by
        rw [hrun]
        exact Nat.one_ne_zero
      exact ⟨iff_of_false hcode hall, fun hzero => absurd hzero hcode,
        fun _ => ⟨hrun, congrArg Answer.report? hanswer⟩, hlines.syntaxFaults_join⟩

set_option maxRecDepth 1024 in
/-- The grouping is not closed in the second line, where the prompt starts counting again. -/
theorem commandLine_file_eq_prompt_open_grouping :
    let source := "print nil;\n(nil;"
    commandLine generalAdvice [] (fun _ => .ok source.toUTF8) source.toUTF8 =
        .success "> (print nil)\n> error (l. 1, c. 5): Expect ')' after expression.\n> " ∧
      commandLine generalAdvice ["script.lox"] (fun _ => .ok source.toUTF8) .empty =
        ⟨"", "Error: error (l. 2, c. 5): Expect ')' after expression.\n", 1⟩ := by
  have hlines : Lines ["print nil;\n", "(nil;"] :=
    .cons (show "print nil;\n".toList = "print nil;".toList ++ ['\n'] by decide) (by decide)
      (.last (by decide) (by decide))
  have hfirst : (Lexed.ofText "print nil;\n").result =
      .ok ([⟨.word .printWord, "print", none, ⟨1, 1⟩⟩, ⟨.word .nilWord, "nil", none, ⟨1, 7⟩⟩,
        ⟨.symbol .semicolon, ";", none, ⟨1, 10⟩⟩] ++ [⟨.endMark, "", none, ⟨2, 1⟩⟩]) := by cbv
  have hsecond : (Lexed.ofText "(nil;").result =
      .ok ([⟨.symbol .leftParen, "(", none, ⟨1, 1⟩⟩, ⟨.word .nilWord, "nil", none, ⟨1, 2⟩⟩,
        ⟨.symbol .semicolon, ";", none, ⟨1, 5⟩⟩] ++ [⟨.endMark, "", none, ⟨1, 6⟩⟩]) := by cbv
  have hcomplete : CompleteLines ["print nil;\n", "(nil;"] := by
    refine ⟨hlines, List.forall_mem_cons.2 ⟨⟨_, _, hfirst, ?_⟩,
      List.forall_mem_singleton.2 ⟨_, _, hsecond, ?_⟩⟩⟩
    · decide
    · decide
  have haccepted : Options.program {} "print nil;\n" = .ok [.print (.literal .nil)] := by cbv
  have hrefused : Options.program {} "(nil;" = .error [⟨⟨1, 5⟩, .unclosedGrouping⟩] := by cbv
  have hnone : Options.syntaxFaults {} "print nil;\n" = [] := congrArg reported haccepted
  have hone : Options.syntaxFaults {} "(nil;" = [⟨⟨1, 5⟩, .unclosedGrouping⟩] :=
    congrArg reported hrefused
  obtain ⟨hprompt, hreports, hcode, -, hfailure, hfaults⟩ :=
    @commandLine_file_eq_prompt generalAdvice {} "script.lox" ["script.lox"] []
      (fun _ => .ok "print nil;\n(nil;".toUTF8) .empty ["print nil;\n", "(nil;"]
      rfl rfl rfl hcomplete rfl
  obtain ⟨hreport, hreply⟩ := hreports "(nil;" (by decide)
  constructor
  · have hfirstReply : Options.reply {} "print nil;\n" = "(print nil)\n" := by
      rw [Options.reply_of_accepted rfl (Lexed.result_eq_ok_iff.1 hfirst).1 hnone, haccepted]
      rfl
    refine hprompt.trans ?_
    rw [List.map_cons, List.map_cons, hfirstReply, hreply (by rw [hone]; decide), hone]
    rfl
  · have hcodes : (commandLine generalAdvice ["script.lox"]
        (fun _ => .ok "print nil;\n(nil;".toUTF8) .empty).code ≠ 0 := by
      intro hzero
      have hnil := hreport.1 (hcode.1 hzero "(nil;" (by decide))
      rw [hone] at hnil
      cases hnil
    refine (hfailure hcodes).1.trans ?_
    rw [hfaults]
    simp only [List.mapIdx_cons, hnone, hone]
    rfl

end LoxSyntax
