import LoxSyntax.Proofs.Mending
import LoxSyntax.Proofs.Respacing

/-!
Texts joined at a newline. Outside a string nothing goes on beyond a newline, so the text in front
of one is cut as it is by itself, and the text behind it as if it began there. The joined text has
the tokens and the faults of both parts, those of the second part as many lines further down as
the first one takes.
-/

namespace LoxSyntax

/-- The same column, `n` lines further down. -/
def Position.down (n : Nat) (p : Position) : Position := ⟨p.line + n, p.col⟩

namespace Position

theorem next_down (n : Nat) (p : Position) (c : Char) :
    (p.down n).next c = (p.next c).down n := by
  unfold next down
  by_cases hc : c = '\n'
  · rw [if_pos hc, if_pos hc]
    exact congrArg (Position.mk · 1) (Nat.add_right_comm p.line n 1)
  · rw [if_neg hc, if_neg hc]

theorem after_down (n : Nat) (p : Position) (text : List Char) :
    (p.down n).after text = (p.after text).down n := by
  induction text generalizing p with
  | nil => rfl
  | cons c rest ih => rw [after_cons, next_down, ih, after_cons]

/-- Behind a text and a newline the places are those of a text of its own, further down. -/
theorem start_after_newline (text : List Char) :
    (start.after text).next '\n' = start.down (1 + text.count '\n') := by
  have hline := line_after start text
  change (⟨(start.after text).line + 1, 1⟩ : Position) = ⟨1 + (1 + text.count '\n'), 1⟩
  rw [hline]
  congr 1
  change 1 + text.count '\n' + 1 = _
  omega

end Position

/-- A run of characters that are no newlines ends in front of a newline as at the end of the text.
-/
theorem takeWhile_append_newline {p : Char → Bool} (hp : p '\n' = false) (rest b : List Char) :
    (rest ++ '\n' :: b).takeWhile p = rest.takeWhile p ∧
      (rest ++ '\n' :: b).dropWhile p = rest.dropWhile p ++ '\n' :: b := by
  induction rest with
  | nil => exact ⟨by simp [hp], by simp [hp]⟩
  | cons c rest ih =>
    cases hc : p c with
    | true => simpa [hc] using ih
    | false => simp [hc]

theorem fraction_append_newline (rest b : List Char) :
    fraction (rest ++ '\n' :: b) = fraction rest := by
  cases rest with
  | nil => rfl
  | cons c rest =>
    by_cases hc : c = '.'
    · subst hc
      exact (takeWhile_append_newline (by decide) rest b).1
    · simp [fraction, hc]

namespace Segment

variable {c : Char} {rest : List Char}

theorem symbol_append_newline (c : Char) (rest b : List Char) :
    symbol c (rest ++ '\n' :: b) = symbol c rest := by
  cases rest with
  | cons d rest => rfl
  | nil =>
    have hpair : Symbol.ofSpelling? (String.ofList [c, '\n']) = none := by
      refine Option.eq_none_iff_forall_ne_some.2 fun s hs => ?_
      refine s.spelling_not_blank '\n' ?_ rfl
      rw [Symbol.ofSpelling?_eq_some_iff.1 hs, String.toList_ofList]
      simp
    unfold symbol
    simp only [List.nil_append, List.take_succ_cons, List.take_zero, List.take_nil, hpair]
    split <;> simp_all

/-- A string that is closed ends at its quote, whatever follows. -/
theorem quoted_append (hclosed : '"' ∈ rest) (later : List Char) :
    quoted (rest ++ later) = quoted rest := by
  obtain ⟨body, more, rfl, hbody⟩ := List.eq_append_cons_of_mem hclosed
  have hrun := decide_ne_of_not_mem hbody
  have hshort := (span_append hrun ('"' :: more) (by simp)).1
  have hlong := (span_append hrun ('"' :: (more ++ later)) (by simp)).1
  have hmem : '"' ∈ body ++ '"' :: (more ++ later) := by simp
  rw [List.append_assoc, List.cons_append, quoted, quoted, hshort, hlong, if_pos hclosed,
    if_pos hmem]

/-- But for a string that is never closed, no segment takes anything beyond a newline that it does
not have already. -/
theorem first_append_newline (h : (first c rest).content ≠ .fault .unclosedString) (b : List Char) :
    first c (rest ++ '\n' :: b) = first c rest := by
  cases hlead : Lead.ofChar c with
  | blank => rw [first_of_blank hlead, first_of_blank hlead]
  | digit =>
    obtain ⟨htake, hdrop⟩ := takeWhile_append_newline (p := Char.isDigit) rfl rest b
    rw [first_of_digit hlead, first_of_digit hlead, number, number, htake, hdrop,
      fraction_append_newline]
  | letter =>
    have htake := (takeWhile_append_newline (p := isNamePart) rfl rest b).1
    rw [first_of_letter hlead, first_of_letter hlead, name, name, htake]
  | quote =>
    obtain rfl := Lead.eq_of_ofChar hlead
    by_cases hclosed : '"' ∈ rest
    · exact quoted_append hclosed ('\n' :: b)
    · exact absurd (by rw [first_quote, quoted, if_neg hclosed]) h
  | mark =>
    have hhead : (rest ++ '\n' :: b).head? = some '/' ↔ rest.head? = some '/' := by
      cases rest with
      | nil => simp
      | cons d rest => rfl
    have hcomment : comment (rest ++ '\n' :: b) = comment rest :=
      congrArg (fun body => Segment.mk ('/' :: body) .comment)
        (takeWhile_append_newline (p := (· ≠ '\n')) rfl rest b).1
    simp only [first_of_mark hlead, hhead, hcomment, symbol_append_newline]

end Segment

/-- Outside strings a newline is a segment of its own, with the same segments in front of it and
behind it as if nothing else were there. -/
theorem segments_append_newline {a : List Char}
    (h : ∀ s ∈ segments a, s.content ≠ .fault .unclosedString) (b : List Char) :
    segments (a ++ '\n' :: b) = segments a ++ ⟨['\n'], .blank⟩ :: segments b := by
  induction a using segments_induction with
  | nil =>
    rw [segments_nil, List.nil_append, segments_cons]
    rfl
  | cons c rest later htext hsegments ih =>
    rw [hsegments] at h ⊢
    have hfirst := Segment.first_append_newline (h _ List.mem_cons_self) b
    have hlater := ih fun s hs => h s (List.mem_cons_of_mem _ hs)
    obtain ⟨tail, hfirstText, -⟩ := Segment.text_first c rest
    rw [hfirstText] at htext
    obtain rfl : rest = tail ++ later := (List.cons.inj htext).2
    rw [List.cons_append, segments_cons, hfirst, hfirstText, List.length_cons,
      Nat.add_sub_cancel, List.append_assoc, List.drop_left, hlater, List.cons_append]

section Shifts

variable {n : Nat}

theorem placed_down (p : Position) (pieces : List Segment) :
    placed (p.down n) pieces = (placed p pieces).map fun (q, s) => (q.down n, s) := by
  induction pieces generalizing p with
  | nil => rfl
  | cons s rest ih => rw [placed, placed, Position.after_down, ih, List.map_cons]

/-- What is read off pieces further down is what is read off them, moved. -/
theorem filterMap_down {α : Type} {read : Position → Segment → Option α} {g : α → α}
    (hread : ∀ p s, read (p.down n) s = (read p s).map g) (pieces : List (Position × Segment)) :
    (pieces.map fun (q, s) => (q.down n, s)).filterMap (fun (p, s) => read p s) =
      (pieces.filterMap fun (p, s) => read p s).map g := by
  rw [List.filterMap_map, List.map_filterMap]
  exact congrArg (List.filterMap · pieces) (funext fun (p, s) => hread p s)

theorem Segment.token?_down (p : Position) (s : Segment) :
    s.token? (p.down n) = (s.token? p).map (Token.move (Position.down n)) := by
  unfold token?
  cases s.content <;> rfl

theorem Segment.fault?_down (p : Position) (s : Segment) :
    s.fault? (p.down n) = (s.fault? p).map (Diagnostic.move (Position.down n)) := by
  unfold fault?
  cases s.content <;> rfl

end Shifts

namespace Lexed

/-- The text with everything in it `n` lines further down. -/
def down (n : Nat) (lexed : Lexed) : Lexed :=
  ⟨lexed.tokens.map (Token.move (Position.down n)), lexed.endMark.move (Position.down n),
    lexed.faults.map (Diagnostic.move (Position.down n))⟩

/-- The tokens and faults of two texts, one behind the other. -/
def join (first second : Lexed) : Lexed :=
  ⟨first.tokens ++ second.tokens, second.endMark, first.faults ++ second.faults⟩

theorem content_ne_unclosed {text : List Char}
    (h : ∀ d ∈ (ofChars text).faults, d.cause ≠ .unclosedString) :
    ∀ s ∈ segments text, s.content ≠ .fault .unclosedString := by
  intro s hs hcontent
  obtain ⟨p, hplaced⟩ := exists_mem_placed .start hs
  refine h ⟨p, .unclosedString⟩ (List.mem_filterMap.2 ⟨_, hplaced, ?_⟩) rfl
  simp [Segment.fault?, hcontent]

/-- What is read of a text outside strings is joined from what is read of its parts. -/
theorem ofChars_append_newline {a : List Char}
    (h : ∀ d ∈ (ofChars a).faults, d.cause ≠ .unclosedString) (b : List Char) :
    ofChars (a ++ '\n' :: b) = (ofChars a).join ((ofChars b).down (1 + a.count '\n')) := by
  have hplaced : placed .start (segments (a ++ '\n' :: b)) =
      placed .start (segments a) ++ (Position.start.after a, ⟨['\n'], .blank⟩) ::
        (placed .start (segments b)).map fun (q, s) => (q.down (1 + a.count '\n'), s) := by
    rw [segments_append_newline (content_ne_unclosed h), placed_append, flatMap_text_segments,
      placed, Position.after_cons, Position.after_nil, Position.start_after_newline, placed_down]
  have hmark : Position.start.after (a ++ '\n' :: b) =
      (Position.start.after b).down (1 + a.count '\n') := by
    rw [Position.after_append, Position.after_cons, Position.start_after_newline,
      Position.after_down]
  unfold ofChars
  simp only [hplaced, hmark, List.filterMap_append]
  -- the newline itself is neither a token nor a fault
  rw [List.filterMap_cons_none rfl, List.filterMap_cons_none rfl,
    filterMap_down Segment.token?_down, filterMap_down Segment.fault?_down]
  rfl

theorem dropLast_allTokens (lexed : Lexed) : lexed.allTokens.dropLast = lexed.tokens :=
  List.dropLast_concat

theorem result_eq_error_iff {lexed : Lexed} {faults : Report LexicalFault} :
    lexed.result = .error faults ↔ faults ≠ [] ∧ faults = lexed.faults := by
  constructor
  · intro hresult
    have hne : lexed.faults ≠ [] := by
      intro hnil
      rw [result_eq_ok_iff.2 ⟨hnil, rfl⟩] at hresult
      cases hresult
    rw [result_of_faults_ne_nil hne] at hresult
    cases hresult
    exact ⟨hne, rfl⟩
  · rintro ⟨hne, rfl⟩
    exact result_of_faults_ne_nil hne

end Lexed

/-- Lexing distributes over a newline outside strings. What the text in front of it has is what it
has by itself but for the closing mark, and what the text behind it has is what that has by itself,
with as many lines added as the newline and those in front of it make. -/
theorem lexed_append_newline {a b : String}
    (h : ∀ d ∈ (Lexed.ofText a).faults, d.cause ≠ .unclosedString) :
    let whole := Lexed.ofText (a ++ "\n" ++ b)
    let shift := Position.down (1 + a.toList.count '\n')
    whole.allTokens =
        (Lexed.ofText a).tokens ++ (Lexed.ofText b).allTokens.map (Token.move shift) ∧
      whole.faults =
        (Lexed.ofText a).faults ++ (Lexed.ofText b).faults.map (Diagnostic.move shift) ∧
      (∀ tokens, whole.result = .ok tokens ↔ ∃ before behind,
        (Lexed.ofText a).result = .ok before ∧ (Lexed.ofText b).result = .ok behind ∧
          tokens = before.dropLast ++ behind.map (Token.move shift)) ∧
      ∀ faults, whole.result = .error faults ↔ faults ≠ [] ∧
        faults =
          (Lexed.ofText a).faults ++ (Lexed.ofText b).faults.map (Diagnostic.move shift) := by
  intro whole shift
  have hwhole : whole =
      (Lexed.ofText a).join ((Lexed.ofText b).down (1 + a.toList.count '\n')) := by
    have htext : (a ++ "\n" ++ b).toList = a.toList ++ '\n' :: b.toList := by simp
    rw [show whole = Lexed.ofChars (a ++ "\n" ++ b).toList from rfl, htext]
    exact Lexed.ofChars_append_newline h b.toList
  have htokens : whole.allTokens =
      (Lexed.ofText a).tokens ++ (Lexed.ofText b).allTokens.map (Token.move shift) := by
    simp only [hwhole, Lexed.allTokens, Lexed.join, Lexed.down, List.map_append, List.append_assoc]
    rfl
  have hfaults : whole.faults =
      (Lexed.ofText a).faults ++ (Lexed.ofText b).faults.map (Diagnostic.move shift) := by
    rw [hwhole]
    rfl
  refine ⟨htokens, hfaults, ?_, ?_⟩
  · intro tokens
    rw [Lexed.result_eq_ok_iff, hfaults, List.append_eq_nil_iff, List.map_eq_nil_iff, htokens]
    constructor
    · rintro ⟨⟨ha, hb⟩, rfl⟩
      refine ⟨_, _, Lexed.result_eq_ok_iff.2 ⟨ha, rfl⟩, Lexed.result_eq_ok_iff.2 ⟨hb, rfl⟩, ?_⟩
      rw [Lexed.dropLast_allTokens]
    · rintro ⟨before, behind, hbefore, hbehind, rfl⟩
      obtain ⟨ha, rfl⟩ := Lexed.result_eq_ok_iff.1 hbefore
      obtain ⟨hb, rfl⟩ := Lexed.result_eq_ok_iff.1 hbehind
      rw [Lexed.dropLast_allTokens]
      exact ⟨⟨ha, hb⟩, rfl⟩
  · intro faults
    rw [Lexed.result_eq_error_iff, hfaults]

/-- The two slashes make no comment, and the stray character and the quote that is never closed are
found two lines further down. -/
theorem lexed_append_newline_slash_slash :
    (Lexed.ofText "!/").faults = [] ∧
      (Lexed.ofText ("!/" ++ "\n" ++ "/\n# \"")).result =
        .error [⟨⟨3, 1⟩, .strayCharacter '#'⟩, ⟨⟨3, 3⟩, .unclosedString⟩] ∧
      (Lexed.ofText ("!/" ++ "\n" ++ "/\n# \"")).allTokens =
        [⟨.symbol .bang, "!", none, ⟨1, 1⟩⟩, ⟨.symbol .slash, "/", none, ⟨1, 2⟩⟩,
          ⟨.symbol .slash, "/", none, ⟨2, 1⟩⟩, ⟨.endMark, "", none, ⟨3, 4⟩⟩] := by
  have hfirst : Lexed.ofText "!/" = ⟨[⟨.symbol .bang, "!", none, ⟨1, 1⟩⟩,
      ⟨.symbol .slash, "/", none, ⟨1, 2⟩⟩], ⟨.endMark, "", none, ⟨1, 3⟩⟩, []⟩ := by cbv
  have hsecond : Lexed.ofText "/\n# \"" = ⟨[⟨.symbol .slash, "/", none, ⟨1, 1⟩⟩],
      ⟨.endMark, "", none, ⟨2, 4⟩⟩,
      [⟨⟨2, 1⟩, .strayCharacter '#'⟩, ⟨⟨2, 3⟩, .unclosedString⟩]⟩ := by cbv
  have hclosed : ∀ d ∈ (Lexed.ofText "!/").faults, d.cause ≠ .unclosedString := by
    rw [hfirst]
    intro d hd
    cases hd
  obtain ⟨htokens, -, -, herror⟩ := lexed_append_newline (b := "/\n# \"") hclosed
  refine ⟨by rw [hfirst], (herror _).2 ⟨List.cons_ne_nil _ _, ?_⟩, ?_⟩
  · rw [hfirst, hsecond]
    rfl
  · rw [htokens, hfirst, hsecond]
    rfl

end LoxSyntax
