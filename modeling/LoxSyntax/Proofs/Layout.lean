import LoxSyntax.Proofs.LongestMatch

/-!
Layout: the blanks and comments between lexemes. A text without faults is woven of its lexemes
and the gaps around them, so nothing of it is lost, and each token stands where the text in front
of its lexeme ends.
-/

namespace LoxSyntax

/-- Blanks and comments. A comment ends in front of a newline, and the last gap of a text may end
in a comment as well. -/
inductive Layout (final : Bool) : List Char → Prop
  | nil : Layout final []
  | blank {c : Char} {rest : List Char} (hc : isBlank c = true) (h : Layout final rest) :
      Layout final (c :: rest)
  | comment {body rest : List Char} (hbody : '\n' ∉ body)
      (hend : rest.head? = some '\n' ∨ rest = [] ∧ final = true) (h : Layout final rest) :
      Layout final ('/' :: '/' :: body ++ rest)

/-- A gap, and lexemes with gaps behind them, put together. -/
def woven (opening : List Char) (laid : List (Token × List Char)) : List Char :=
  opening ++ laid.flatMap fun (t, gap) => t.lexeme.toList ++ gap

theorem woven_nil (opening : List Char) : woven opening [] = opening := List.append_nil opening

theorem woven_cons (opening gap : List Char) (t : Token) (laid : List (Token × List Char)) :
    woven opening ((t, gap) :: laid) = opening ++ (t.lexeme.toList ++ woven gap laid) := by
  simp [woven, List.flatMap_cons]

theorem woven_append (front opening : List Char) (laid : List (Token × List Char)) :
    woven (front ++ opening) laid = front ++ woven opening laid := List.append_assoc _ _ _

namespace Lexed

theorem result_eq_ok_iff {lexed : Lexed} {tokens : List Token} :
    lexed.result = .ok tokens ↔ lexed.faults = [] ∧ tokens = lexed.allTokens := by
  unfold result
  cases hfaults : lexed.faults with
  | nil => simp [eq_comm]
  | cons d later => simp

/-- A text without faults is read from the stream that its tokens make. -/
theorem stream_of_result {source : String} {tokens : List Token} {s : TokenStream}
    (h : (ofText source).result = .ok tokens) (hs : TokenStream.ofTokens tokens = .ok s) :
    (ofText source).faults = [] ∧ tokens = (ofText source).allTokens ∧
      s = (ofText source).stream := by
  obtain ⟨hfaults, rfl⟩ := result_eq_ok_iff.1 h
  exact ⟨hfaults, rfl, Except.ok.inj (hs.symm.trans (ofTokens_allTokens source.toList))⟩

theorem result_of_faults {source : String} (h : (ofText source).faults = []) :
    (ofText source).result = .ok (ofText source).allTokens ∧
      TokenStream.ofTokens (ofText source).allTokens = .ok (ofText source).stream :=
  ⟨result_eq_ok_iff.2 ⟨h, rfl⟩, ofTokens_allTokens source.toList⟩

/-- A text without faults is cut into items. -/
theorem content_ne_fault {text : List Char} (h : (ofChars text).faults = []) {s : Segment}
    (hs : s ∈ segments text) (cause : LexicalFault) : s.content ≠ .fault cause := by
  intro hcontent
  obtain ⟨p, hplaced⟩ := exists_mem_placed .start hs
  have hmem : (⟨p, cause⟩ : Diagnostic LexicalFault) ∈ (ofChars text).faults :=
    List.mem_filterMap.2 ⟨_, hplaced, by simp [Segment.fault?, hcontent]⟩
  rw [h] at hmem
  cases hmem

theorem position_of_token? {p : Position} {s : Segment} {t : Token} (h : s.token? p = some t) :
    t.position = p := by
  unfold Segment.token? at h
  split at h
  · cases h
    rfl
  · cases h

/-- The tokens of a text stand one behind the other. -/
theorem pairwise_allTokens (text : List Char) :
    (ofChars text).allTokens.Pairwise fun a b => a.position.Precedes b.position := by
  refine List.pairwise_append.2 ⟨?_, List.pairwise_singleton _ _, ?_⟩
  · refine List.pairwise_filterMap.2 ((pairwise_placed (fun s hs => s.text_ne_nil hs) _).imp ?_)
    rintro ⟨p, s⟩ ⟨q, r⟩ hprecedes t ht u hu
    rw [position_of_token? ht, position_of_token? hu]
    exact hprecedes
  · intro t ht mark hmark
    obtain ⟨⟨p, s⟩, hplaced, htoken⟩ := List.mem_filterMap.1 ht
    rw [List.mem_singleton.1 hmark, position_of_token? htoken]
    exact precedes_of_mem_placed hplaced

end Lexed

/-- What is no fault is skipped or is a token. -/
theorem Content.skipped_or_token {k : Content} (h : ∀ cause, k ≠ .fault cause) :
    (k = .blank ∨ k = .comment) ∨ ∃ kind literal, k = .token kind literal := by
  cases k with
  | token kind literal => exact .inr ⟨kind, literal, rfl⟩
  | blank => exact .inl (.inl rfl)
  | comment => exact .inl (.inr rfl)
  | fault cause => exact absurd rfl (h cause)

theorem Segment.token?_of_skipped {p : Position} {s : Segment}
    (h : s.content = .blank ∨ s.content = .comment) : s.token? p = none := by
  unfold token?
  rcases h with h | h
  · rw [h]
  · rw [h]

namespace Longest

variable {text later : List Char} {s : Segment}

theorem of_content {c : Char} {rest : List Char}
    (h : ∀ cause, (Segment.first c rest).content ≠ .fault cause) :
    Longest (c :: rest) (Segment.first c rest) := by
  rcases Segment.longest_first c rest with hlongest | ⟨-, ⟨-, hfault⟩ | ⟨-, hfault⟩⟩
  · exact hlongest
  · exact absurd (by rw [hfault]) (h .unclosedString)
  · exact absurd (by rw [hfault]) (h (.strayCharacter c))

/-- A comment goes on to the end of its line. -/
theorem of_comment (h : Longest text s) (hs : s.content = .comment)
    (htext : text = s.text ++ later) :
    (∃ body, '\n' ∉ body ∧ s.text = '/' :: '/' :: body) ∧ ∀ d ∈ later.head?, d = '\n' := by
  have hitem := h.item
  rw [hs] at hitem
  rcases hitem.of_mark rfl with ⟨symbol, -, hsymbol⟩ | ⟨body, hbody, htaken, -⟩
  · cases hsymbol
  refine ⟨⟨body, hbody, htaken⟩, ?_⟩
  intro d hd
  by_cases hnewline : d = '\n'
  · exact hnewline
  · have hlonger : Item ('/' :: '/' :: (body ++ [d])) .comment := by
      refine .comment fun hmem => ?_
      rcases List.mem_append.1 hmem with hmem | hmem
      · exact hbody hmem
      · exact hnewline (List.mem_singleton.1 hmem).symm
    have hprefix : '/' :: '/' :: (body ++ [d]) <+: text := by
      obtain ⟨more, rfl⟩ : ∃ more, later = d :: more := by
        cases later with
        | nil => cases hd
        | cons e more => cases hd; exact ⟨more, rfl⟩
      exact ⟨more, by rw [htext, htaken]; simp⟩
    have hle := h.longest _ _ hlonger hprefix
    rw [htaken] at hle
    simp only [List.length_cons, List.length_append, List.length_nil] at hle
    omega

end Longest

/-- A text at `p` that is woven of tokens and gaps: each token stands where the text in front of it
ends, and the gaps are layout. -/
structure Weave (p : Position) (opening : List Char) (laid : List (Token × List Char)) : Prop where
  layout : Layout laid.isEmpty opening
  gaps : ∀ before t gap later, laid = before ++ (t, gap) :: later →
    t.position = p.after (woven opening before) ∧ Layout later.isEmpty gap

namespace Weave

variable {p : Position} {opening : List Char} {laid : List (Token × List Char)}

theorem nil (p : Position) : Weave p [] [] := by
  refine ⟨.nil, ?_⟩
  intro before t gap later hsplit
  cases (List.append_eq_nil_iff.1 hsplit.symm).2

/-- More layout in front of the opening gap. -/
theorem front {text : List Char} (h : Weave (p.after text) opening laid)
    (hlayout : Layout laid.isEmpty (text ++ opening)) : Weave p (text ++ opening) laid := by
  refine ⟨hlayout, ?_⟩
  intro before t gap later hsplit
  rw [woven_append, Position.after_append]
  exact h.gaps before t gap later hsplit

/-- A token in front of the opening gap. -/
theorem token {t : Token} (h : Weave (p.after t.lexeme.toList) opening laid)
    (ht : t.position = p) : Weave p [] ((t, opening) :: laid) := by
  refine ⟨.nil, ?_⟩
  intro before u gap later hsplit
  cases before with
  | nil =>
    cases hsplit
    exact ⟨ht, h.layout⟩
  | cons first before =>
    obtain ⟨hfirst, hlater⟩ := List.cons.inj hsplit
    subst hfirst
    rw [woven_cons, List.nil_append, Position.after_append]
    exact h.gaps before u gap later hlater

end Weave

/-- A blank or a comment in front of layout is layout: a comment goes on to a newline, which is
part of the gap, or to the end. -/
theorem Longest.layout_append {s : Segment} {opening later : List Char} {final : Bool}
    (h : Longest (s.text ++ later) s) (hskipped : s.content = .blank ∨ s.content = .comment)
    (hlayout : Layout final opening)
    (hnewline : later.head? = some '\n' → opening.head? = some '\n')
    (hend : later = [] → opening = [] ∧ final = true) : Layout final (s.text ++ opening) := by
  rcases hskipped with hblank | hcomment
  · have hitem := h.item
    rw [hblank] at hitem
    obtain ⟨-, c, hc, htext⟩ := hitem.of_blank rfl
    rw [htext]
    exact .blank hc hlayout
  · obtain ⟨⟨body, hbody, htext⟩, hhead⟩ := h.of_comment hcomment rfl
    rw [htext]
    refine .comment hbody ?_ hlayout
    cases hlater : later.head? with
    | some d => exact .inl (hnewline (by rw [hlater, hhead d hlater]))
    | none => exact .inr (hend (List.head?_eq_none_iff.1 hlater))

/-- A text without faults, taken apart into gaps and lexemes. No lexeme starts with a newline, so a
newline is always part of a gap. -/
theorem exists_weave {text : List Char} (p : Position)
    (h : ∀ s ∈ segments text, ∀ cause, s.content ≠ .fault cause) :
    ∃ opening laid, text = woven opening laid ∧ Weave p opening laid ∧
      laid.map Prod.fst = (placed p (segments text)).filterMap (fun (p, s) => s.token? p) ∧
      (text.head? = some '\n' → opening.head? = some '\n') := by
  induction text using segments_induction generalizing p with
  | nil => exact ⟨[], [], rfl, .nil p, by rw [segments_nil]; rfl, id⟩
  | cons c rest later htext hsegments ih =>
    rw [hsegments] at h ⊢
    have hlongest : Longest (c :: rest) (Segment.first c rest) :=
      .of_content (h _ List.mem_cons_self)
    obtain ⟨opening, laid, rfl, hweave, htokens, hnewline⟩ :=
      ih (p.after (Segment.first c rest).text) fun s hs => h s (List.mem_cons_of_mem _ hs)
    obtain ⟨tail, hfirst, -⟩ := Segment.text_first c rest
    generalize Segment.first c rest = segment at *
    rw [htext] at hlongest ⊢
    rcases Content.skipped_or_token (h segment List.mem_cons_self) with
      hskipped | ⟨kind, literal, hcontent⟩
    · refine ⟨segment.text ++ opening, laid, (woven_append _ _ _).symm, hweave.front ?_, ?_, ?_⟩
      · refine hlongest.layout_append hskipped hweave.layout hnewline fun hnil => ?_
        rw [hnil, segments_nil] at htokens
        obtain rfl : laid = [] := List.map_eq_nil_iff.1 htokens
        exact ⟨(woven_nil opening).symm.trans hnil, rfl⟩
      · simp only [placed, List.filterMap_cons, Segment.token?_of_skipped hskipped, htokens]
      · rw [hfirst]
        exact id
    · have htoken : segment.token? p = some ⟨kind, String.ofList segment.text, literal, p⟩ := by
        rw [Segment.token?, hcontent]
      refine ⟨[], (⟨kind, String.ofList segment.text, literal, p⟩, opening) :: laid,
        ?_, .token ?_ rfl, ?_, ?_⟩
      · rw [woven_cons, String.toList_ofList, List.nil_append]
      · rw [String.toList_ofList]
        exact hweave
      · simp only [placed, List.filterMap_cons, htoken, List.map_cons, htokens]
      · intro hhead
        have hitem := hlongest.item
        rw [hfirst, hcontent] at hitem
        rw [hfirst] at hhead
        cases hhead
        obtain ⟨d, more, hd, hlead⟩ := hitem.lead_eq
        cases hd
        cases (hitem.of_blank hlead.symm).1

/-- Nothing of a text without faults is lost: it is woven of the lexemes of its tokens, in order,
and of gaps that hold nothing but blanks and comments. Each token stands at the place that is
counted off the text in front of its lexeme, and a mark closes the tokens behind all of the text. -/
theorem lexed_text_eq_woven {source : String} {tokens : List Token}
    (h : (Lexed.ofText source).result = .ok tokens) :
    ∃ opening laid mark, tokens = laid.map Prod.fst ++ [mark] ∧
      source.toList = woven opening laid ∧ Layout laid.isEmpty opening ∧
      (∀ before t gap later, laid = before ++ (t, gap) :: later →
        t.kind ≠ .endMark ∧ t.position = .behind (woven opening before) ∧
          Layout later.isEmpty gap) ∧
      mark.kind = .endMark ∧ mark.lexeme = "" ∧ mark.position = .behind source.toList ∧
      tokens.Pairwise fun a b => a.position.Precedes b.position := by
  obtain ⟨hfaults, rfl⟩ := Lexed.result_eq_ok_iff.1 h
  obtain ⟨opening, laid, htext, hweave, htokens, -⟩ :=
    exists_weave .start fun s hs => Lexed.content_ne_fault hfaults hs
  refine ⟨opening, laid, (Lexed.ofText source).endMark, ?_, htext, hweave.layout, ?_, rfl, rfl,
    Position.after_start source.toList, Lexed.pairwise_allTokens source.toList⟩
  · rw [htokens]
    rfl
  · intro before t gap later hsplit
    obtain ⟨hposition, hgap⟩ := hweave.gaps before t gap later hsplit
    have hmem : t ∈ (Lexed.ofChars source.toList).tokens := by
      change t ∈ (placed .start (segments source.toList)).filterMap _
      rw [← htokens, hsplit]
      simp
    exact ⟨Lexed.kind_ne_endMark hmem, by rw [hposition, Position.after_start], hgap⟩

/-- A comment and a newline stand in front of the second lexeme, which holds a newline itself. -/
theorem lexed_text_eq_woven_minus_string :
    (Lexed.ofText "-// x\n\"\n\"").result = .ok [⟨.symbol .minus, "-", none, ⟨1, 1⟩⟩,
        ⟨.string, "\"\n\"", some (.string "\n"), ⟨2, 1⟩⟩, ⟨.endMark, "", none, ⟨3, 2⟩⟩] ∧
      ∃ opening laid, laid.map Prod.fst = [⟨.symbol .minus, "-", none, ⟨1, 1⟩⟩,
          ⟨.string, "\"\n\"", some (.string "\n"), ⟨2, 1⟩⟩] ∧
        "-// x\n\"\n\"".toList = woven opening laid := by
  have h : (Lexed.ofText "-// x\n\"\n\"").result = .ok [⟨.symbol .minus, "-", none, ⟨1, 1⟩⟩,
      ⟨.string, "\"\n\"", some (.string "\n"), ⟨2, 1⟩⟩, ⟨.endMark, "", none, ⟨3, 2⟩⟩] := by cbv
  obtain ⟨opening, laid, mark, htokens, htext, -⟩ := lexed_text_eq_woven h
  refine ⟨h, opening, laid, ?_, htext⟩
  have hfront := congrArg List.dropLast htokens
  rw [List.dropLast_concat] at hfront
  exact hfront.symm

end LoxSyntax
