import LoxSyntax.Proofs.Layout
import LoxSyntax.Proofs.Moves

/-!
Lexemes laid out anew. A lexeme in front of a blank is cut off as it was, so a text without faults
keeps its tokens when its gaps are replaced by others, each of which starts with a blank where it
stands behind a lexeme. Only the places of the tokens change, and no program depends on these.
-/

namespace LoxSyntax

theorem isNamePart_not_blank {d : Char} (h : isNamePart d = true) : ¬ isBlank d = true := by
  rcases Bool.or_eq_true_iff.1 h with hstart | hdigit
  · exact Lead.not_blank_of_isNameStart hstart
  · exact Lead.not_blank_of_isDigit hdigit

theorem Symbol.spelling_not_blank (s : Symbol) : ∀ d ∈ s.spelling.toList, ¬ isBlank d = true := by
  have hnone : s.spelling.toList.any isBlank = false := by cases s <;> rfl
  exact List.any_eq_false.1 hnone

theorem Numeral.not_blank {text : List Char} (h : Numeral text) :
    ∀ d ∈ text, ¬ isBlank d = true := by
  intro d hd
  rcases h.isDigit_or_eq_point d hd with hdigit | rfl
  · exact Lead.not_blank_of_isDigit hdigit
  · decide

namespace Item

variable {u later more : List Char} {b : Char} {kind : Kind} {literal : Option Literal}
  {k k' : Content}

theorem lead_of_append (h : Item u k) (hlonger : Item (u ++ more) k') : k'.lead = k.lead := by
  obtain ⟨c, rest, rfl, hlead⟩ := h.lead_eq
  rw [List.cons_append] at hlonger
  obtain ⟨d, tail, htext, hlonger⟩ := hlonger.lead_eq
  cases htext
  exact hlonger.symm.trans hlead

/-- A string ends at its closing quote, whatever stands behind it. -/
theorem string_not_extended {body : List Char} (hbody : '"' ∉ body)
    (hlonger : Item ('"' :: body ++ ['"'] ++ b :: more) k') : False := by
  obtain ⟨other, hother, htext, -⟩ := hlonger.of_quote ((Item.string hbody).lead_of_append hlonger)
  rw [List.cons_append, List.cons_append, List.cons_append] at htext
  have hsame := (List.cons.inj htext).2
  have hprefix : '"' :: body ++ ['"'] <+: '"' :: (other ++ ['"']) :=
    ⟨b :: more, congrArg (List.cons '"') hsame⟩
  have hfirst := (Segment.eq_of_quoted_isPrefix hbody hprefix).2
  have hsecond := (Segment.eq_of_quoted_isPrefix hother (List.prefix_refl _)).2
  rw [show other = body from hsecond.symm.trans hfirst] at hsame
  have hlength := congrArg List.length hsame
  simp only [List.length_append, List.length_cons, List.length_nil] at hlength
  omega

/-- A blank ends every lexeme, and so does a closing quote, whatever stands behind it. -/
theorem not_extended (h : Item u (.token kind literal)) (hb : isBlank b = true)
    (hlonger : Item (u ++ b :: more) k') : False := by
  have hlead := h.lead_of_append hlonger
  have hmem : b ∈ u ++ b :: more := by simp
  cases h with
  | symbol s =>
    rcases hlonger.of_mark hlead with ⟨s', hs', -⟩ | ⟨body, -, hcomment, -⟩
    · exact s'.spelling_not_blank b (hs' ▸ hmem) hb
    · obtain ⟨c, rest, hspelling, hlength, -⟩ := s.lead_spelling
      cases rest with
      | nil =>
        rw [hspelling] at hcomment
        cases hcomment
        cases hb
      | cons d tail =>
        obtain rfl : tail = [] := List.length_eq_zero_iff.1 (by simpa using hlength)
        rw [hspelling] at hcomment
        cases hcomment
        exact s.spelling_ne_comment [] hspelling
  | string hbody => exact string_not_extended hbody hlonger
  | number _ _ => exact (hlonger.of_digit hlead).1.not_blank b hmem hb
  | reserved _ | identifier _ _ _ =>
    obtain ⟨-, c, rest, htext, hc, hrest⟩ := hlonger.of_letter hlead
    rw [htext] at hmem
    rcases List.mem_cons.1 hmem with rfl | hmem
    · exact Lead.not_blank_of_isNameStart hc hb
    · exact isNamePart_not_blank (hrest b hmem) hb

/-- An item is the longest one if none goes on behind it as the text does. -/
theorem longest_of_not_extended {text : List Char} (h : Item u k)
    (hnone : ∀ b more k', text.head? = some b → ¬ Item (u ++ b :: more) k') :
    Longest (u ++ text) ⟨u, k⟩ := by
  refine ⟨h, List.prefix_append u text, ?_⟩
  intro q k' hq hprefix
  by_cases hle : q.length ≤ u.length
  · exact hle
  · have hbegins : u <+: q :=
      List.prefix_of_prefix_length_le (List.prefix_append u text) hprefix (by omega)
    obtain ⟨more, rfl⟩ := hbegins
    cases more with
    | nil => exact absurd (by simp) hle
    | cons b more =>
      obtain ⟨behind, hbehind⟩ := (List.prefix_append_right_inj u).1 hprefix
      exact absurd hq (hnone b more k' (by rw [← hbehind]; rfl))

/-- In front of a blank, or at the end, a lexeme is the longest item. -/
theorem longest_of_blank (h : Item u (.token kind literal))
    (hlater : ∀ d ∈ later.head?, isBlank d = true) :
    Longest (u ++ later) ⟨u, .token kind literal⟩ :=
  h.longest_of_not_extended fun b _ _ hb hlonger => h.not_extended (hlater b hb) hlonger

end Item

/-- A lexeme in front of a blank, or at the end, is cut off as it is. -/
theorem segments_lexeme {u later : List Char} {kind : Kind} {literal : Option Literal}
    (h : Item u (.token kind literal)) (hlater : ∀ d ∈ later.head?, isBlank d = true) :
    segments (u ++ later) = ⟨u, .token kind literal⟩ :: segments later :=
  segments_of_longest (s := ⟨u, .token kind literal⟩) (h.longest_of_blank hlater)

/-- Layout is cut into blanks and comments, whatever stands behind it. -/
theorem segments_layout {gap : List Char} (h : Layout false gap) (later : List Char) :
    ∃ skipped, segments (gap ++ later) = skipped ++ segments later ∧
      ∀ s ∈ skipped, s.content = .blank ∨ s.content = .comment := by
  induction h with
  | nil => exact ⟨[], rfl, fun _ hs => nomatch hs⟩
  | @blank c rest hc h ih =>
    obtain ⟨skipped, hskipped, hcontents⟩ := ih
    refine ⟨⟨[c], .blank⟩ :: skipped, ?_, ?_⟩
    · rw [List.cons_append, segments_cons, Segment.first_of_blank (Lead.ofChar_of_isBlank hc)]
      exact congrArg _ hskipped
    · intro s hs
      rcases List.mem_cons.1 hs with rfl | hs
      · exact .inl rfl
      · exact hcontents s hs
  | @comment body rest hbody hend h ih =>
    obtain ⟨skipped, hskipped, hcontents⟩ := ih
    have hnewline : rest.head? = some '\n' := hend.resolve_right fun hfinal => nomatch hfinal.2
    have htake : (body ++ (rest ++ later)).takeWhile (· ≠ '\n') = body := by
      refine (span_append (decide_ne_of_not_mem hbody) (rest ++ later) ?_).1
      intro d hd
      rw [List.head?_append, hnewline] at hd
      cases hd
      decide
    have hfirst : Segment.first '/' ('/' :: (body ++ (rest ++ later))) =
        ⟨'/' :: '/' :: body, .comment⟩ := by
      rw [← congrArg (fun run => Segment.mk ('/' :: '/' :: run) .comment) htake]
      rfl
    refine ⟨⟨'/' :: '/' :: body, .comment⟩ :: skipped, ?_, ?_⟩
    · rw [List.append_assoc, List.cons_append, List.cons_append, segments_cons, hfirst]
      simp only [List.length_cons, Nat.add_sub_cancel, List.drop_succ_cons, List.drop_left]
      exact congrArg _ hskipped
    · intro s hs
      rcases List.mem_cons.1 hs with rfl | hs
      · exact .inr rfl
      · exact hcontents s hs

/-- The token with its place forgotten. -/
def Token.unplaced (t : Token) : Token := t.move fun _ => .start

def Statement.unplaced (statement : Statement) : Statement := statement.move fun _ => .start

/-- Gaps of blanks and closed comments. A gap behind a lexeme starts with a blank, and only the gap
behind the last lexeme may be empty. -/
structure Respaced (opening : List Char) (laid : List (Token × List Char)) : Prop where
  opening : Layout false opening
  gaps : ∀ before t gap later, laid = before ++ (t, gap) :: later →
    Layout false gap ∧ (later ≠ [] ∨ gap ≠ [] → ∃ c ∈ gap.head?, isBlank c = true)

theorem Respaced.nil {opening : List Char} (h : Layout false opening) : Respaced opening [] := by
  refine ⟨h, ?_⟩
  intro before t gap later hsplit
  cases (List.append_eq_nil_iff.1 hsplit.symm).2

theorem Respaced.cons {opening gap : List Char} {t : Token} {laid : List (Token × List Char)}
    (hopening : Layout false opening)
    (hgap : laid ≠ [] ∨ gap ≠ [] → ∃ c ∈ gap.head?, isBlank c = true) (h : Respaced gap laid) :
    Respaced opening ((t, gap) :: laid) := by
  refine ⟨hopening, ?_⟩
  intro before u rest later hsplit
  cases before with
  | nil =>
    cases hsplit
    exact ⟨h.opening, hgap⟩
  | cons first before =>
    obtain ⟨hfirst, hlater⟩ := List.cons.inj hsplit
    exact h.gaps before u rest later hlater

theorem Respaced.tail {opening gap : List Char} {t : Token} {laid : List (Token × List Char)}
    (h : Respaced opening ((t, gap) :: laid)) : Respaced gap laid :=
  ⟨(h.gaps [] t gap laid rfl).1, fun before u later rest hsplit =>
    h.gaps ((t, gap) :: before) u later rest (congrArg (List.cons (t, gap)) hsplit)⟩

/-- Behind a lexeme stands a blank, or nothing. -/
theorem Respaced.isBlank_head? {opening gap : List Char} {t : Token}
    {laid : List (Token × List Char)} (h : Respaced opening ((t, gap) :: laid)) :
    ∀ d ∈ (woven gap laid).head?, isBlank d = true := by
  have hgap := (h.gaps [] t gap laid rfl).2
  intro d hd
  by_cases hempty : laid = [] ∧ gap = []
  · obtain ⟨rfl, rfl⟩ := hempty
    cases hd
  · have hsome : laid ≠ [] ∨ gap ≠ [] := by
      by_cases hlaid : laid = []
      · exact .inr fun hnil => hempty ⟨hlaid, hnil⟩
      · exact .inl hlaid
    obtain ⟨c, hc, hblank⟩ := hgap hsome
    rw [woven, List.head?_append, Option.mem_def.1 hc] at hd
    cases hd
    exact hblank

/-- What is skipped gives no tokens and no faults. -/
theorem filterMap_token?_skipped {skipped : List Segment}
    (h : ∀ s ∈ skipped, s.content = .blank ∨ s.content = .comment) :
    skipped.filterMap (Segment.token? .start) = [] ∧
      ∀ s ∈ skipped, ∀ cause, s.content ≠ .fault cause := by
  refine ⟨List.filterMap_eq_nil_iff.2 fun s hs => Segment.token?_of_skipped (h s hs), ?_⟩
  intro s hs cause hcause
  rcases h s hs with hblank | hcomment
  · exact nomatch hblank.symm.trans hcause
  · exact nomatch hcomment.symm.trans hcause

/-- A text that is woven of lexemes with such gaps has their tokens, and no faults. -/
theorem segments_woven {opening : List Char} {laid : List (Token × List Char)}
    (hitems : ∀ x ∈ laid, Item x.1.lexeme.toList (.token x.1.kind x.1.literal))
    (h : Respaced opening laid) :
    (segments (woven opening laid)).filterMap (Segment.token? .start) =
        laid.map (fun x => x.1.unplaced) ∧
      ∀ s ∈ segments (woven opening laid), ∀ cause, s.content ≠ .fault cause := by
  induction laid generalizing opening with
  | nil =>
    obtain ⟨skipped, hskipped, hcontents⟩ := segments_layout h.opening []
    rw [List.append_nil, segments_nil, List.append_nil] at hskipped
    rw [woven_nil, hskipped]
    exact filterMap_token?_skipped hcontents
  | cons x laid ih =>
    obtain ⟨t, gap⟩ := x
    obtain ⟨skipped, hskipped, hcontents⟩ :=
      segments_layout h.opening (t.lexeme.toList ++ woven gap laid)
    have ht := hitems (t, gap) List.mem_cons_self
    obtain ⟨htokens, hfaults⟩ := ih (fun x hx => hitems x (List.mem_cons_of_mem _ hx)) h.tail
    rw [woven_cons, hskipped, segments_lexeme ht h.isBlank_head?]
    constructor
    · rw [List.filterMap_append, (filterMap_token?_skipped hcontents).1, List.nil_append,
        List.filterMap_cons, htokens]
      simp only [Segment.token?, String.ofList_toList]
      rfl
    · intro s hs cause
      rcases List.mem_append.1 hs with hs | hs
      · exact (filterMap_token?_skipped hcontents).2 s hs cause
      · rcases List.mem_cons.1 hs with rfl | hs
        · exact Content.noConfusion
        · exact hfaults s hs cause

namespace Lexed

/-- A lexeme is an item by itself. -/
theorem item_of_mem_tokens {text : List Char} {t : Token} (h : t ∈ (ofChars text).tokens) :
    Item t.lexeme.toList (.token t.kind t.literal) := by
  obtain ⟨⟨p, s⟩, hplaced, htoken⟩ := List.mem_filterMap.1 h
  obtain ⟨c, rest, rfl⟩ := mem_segments (mem_of_mem_placed hplaced)
  change (Segment.first c rest).token? p = some t at htoken
  unfold Segment.token? at htoken
  split at htoken
  · rename_i kind literal hcontent
    cases htoken
    have hlongest : Longest (c :: rest) (Segment.first c rest) :=
      .of_content fun cause hcause => by rw [hcontent] at hcause; cases hcause
    rw [String.toList_ofList, ← hcontent]
    exact hlongest.item
  · cases htoken

theorem unplaced_token? (p : Position) (s : Segment) :
    (s.token? p).map Token.unplaced = s.token? .start := by
  unfold Segment.token?
  cases s.content <;> rfl

/-- But for their places the tokens of a text are settled by its segments. -/
theorem map_unplaced_placed (p : Position) (pieces : List Segment) :
    ((placed p pieces).filterMap fun (p, s) => s.token? p).map Token.unplaced =
      pieces.filterMap (Segment.token? .start) := by
  induction pieces generalizing p with
  | nil => rfl
  | cons s rest ih =>
    rw [placed, List.filterMap_cons, List.filterMap_cons, ← ih (p.after s.text),
      ← unplaced_token? p s]
    cases htoken : s.token? p with
    | none => simp only [htoken, Option.map_none]
    | some t => simp only [htoken, Option.map_some, List.map_cons]

theorem map_unplaced_tokens (text : List Char) :
    (ofChars text).tokens.map Token.unplaced =
      (segments text).filterMap (Segment.token? .start) :=
  map_unplaced_placed .start (segments text)

theorem faults_eq_nil {text : List Char}
    (h : ∀ s ∈ segments text, ∀ cause, s.content ≠ .fault cause) : (ofChars text).faults = [] := by
  refine List.filterMap_eq_nil_iff.2 ?_
  rintro ⟨p, s⟩ hplaced
  have hs := h s (mem_of_mem_placed hplaced)
  cases hcontent : s.content with
  | fault cause => exact absurd hcontent (hs cause)
  | token kind literal => simp only [Segment.fault?, hcontent]
  | blank => simp only [Segment.fault?, hcontent]
  | comment => simp only [Segment.fault?, hcontent]

end Lexed

/-- Layout has no part in what a text is read as. If the lexemes of a text without faults are laid
out with other gaps, its tokens stay the same but for their places. Then every reading of the tokens
as a program comes to the same statements, which differ in the places of operators only, or to the
same faults at the same tokens. -/
theorem readProgram_respaced {source other : String} {tokens : List Token}
    (h : (Lexed.ofText source).result = .ok tokens) {mark : Token} {opening : List Char}
    {laid : List (Token × List Char)} (hlaid : tokens = laid.map Prod.fst ++ [mark])
    (hgaps : Respaced opening laid) (hother : other.toList = woven opening laid) :
    ∃ others, (Lexed.ofText other).result = .ok others ∧
      others.map Token.unplaced = tokens.map Token.unplaced ∧
      ∃ s r, TokenStream.ofTokens tokens = .ok s ∧ TokenStream.ofTokens others = .ok r ∧
        ∀ settings,
          (∃ statements moved, readProgram settings s = .ok statements ∧
            readProgram settings r = .ok moved ∧
            moved.map Statement.unplaced = statements.map Statement.unplaced ∧
            moved.map Statement.render = statements.map Statement.render) ∨
          ∃ faults moved places, readProgram settings s = .error faults ∧
            readProgram settings r = .error moved ∧
            moved.map Diagnostic.message = faults.map Diagnostic.message ∧
            PinnedAt tokens places faults ∧ PinnedAt others places moved := by
  obtain ⟨-, rfl⟩ := Lexed.result_eq_ok_iff.1 h
  have hfront : (Lexed.ofText source).tokens = laid.map Prod.fst :=
    (List.append_inj' hlaid rfl).1
  have hitems : ∀ x ∈ laid, Item x.1.lexeme.toList (.token x.1.kind x.1.literal) := by
    intro x hx
    have hmem : x.1 ∈ (Lexed.ofChars source.toList).tokens := by
      rw [show (Lexed.ofChars source.toList).tokens = laid.map Prod.fst from hfront]
      exact List.mem_map_of_mem hx
    exact Lexed.item_of_mem_tokens hmem
  obtain ⟨htokens, hfaults⟩ := segments_woven hitems hgaps
  rw [← hother] at htokens hfaults
  have hsame : (Lexed.ofText other).tokens.map Token.unplaced =
      (Lexed.ofText source).tokens.map Token.unplaced := by
    rw [Lexed.ofText, Lexed.map_unplaced_tokens, htokens, hfront, List.map_map]
    rfl
  have hresult : (Lexed.ofText other).result = .ok (Lexed.ofText other).allTokens :=
    Lexed.result_eq_ok_iff.2 ⟨Lexed.faults_eq_nil hfaults, rfl⟩
  have hstream : TokenStream.ofTokens (Lexed.ofText source).allTokens =
      .ok (Lexed.ofText source).stream := Lexed.ofTokens_allTokens source.toList
  have hotherStream : TokenStream.ofTokens (Lexed.ofText other).allTokens =
      .ok (Lexed.ofText other).stream := Lexed.ofTokens_allTokens other.toList
  have hmove : (Lexed.ofText other).stream.move (fun _ => .start) =
      (Lexed.ofText source).stream.move fun _ => .start :=
    congrArg (fun pending => TokenStream.mk [] pending ⟨.endMark, "", none, .start⟩) hsame
  refine ⟨_, hresult, ?_, _, _, hstream, hotherStream, ?_⟩
  · rw [Lexed.allTokens, Lexed.allTokens, List.map_append, List.map_append, hsame]
    rfl
  · intro settings
    rcases readProgram_of_move_eq hmove settings with
      ⟨statements, moved, hread, hmoved, halike⟩ | ⟨faults, moved, hread, hmoved, halike⟩
    · exact .inl ⟨statements, moved, hread, hmoved, halike, map_render_of_move_eq halike⟩
    · refine .inr ⟨faults, moved, _, hread, hmoved, map_message_of_move_eq halike,
        pinnedAt_of_readProgram hstream hread, ?_⟩
      rw [← stuckPlaces_of_move_eq hmove]
      exact pinnedAt_of_readProgram hotherStream hmoved

/-- The string looks like a comment, and the comments that are put around it look like lexemes. -/
theorem readProgram_respaced_bang_string :
    (Lexed.ofText "!\"//\"").result = .ok [⟨.symbol .bang, "!", none, ⟨1, 1⟩⟩,
        ⟨.string, "\"//\"", some (.string "//"), ⟨1, 2⟩⟩, ⟨.endMark, "", none, ⟨1, 6⟩⟩] ∧
      ∃ others, (Lexed.ofText "//!\n! // \"\n\"//\"").result = .ok others ∧
        others.map Token.unplaced = [⟨.symbol .bang, "!", none, .start⟩,
          ⟨.string, "\"//\"", some (.string "//"), .start⟩, ⟨.endMark, "", none, .start⟩] := by
  have h : (Lexed.ofText "!\"//\"").result = .ok [⟨.symbol .bang, "!", none, ⟨1, 1⟩⟩,
      ⟨.string, "\"//\"", some (.string "//"), ⟨1, 2⟩⟩, ⟨.endMark, "", none, ⟨1, 6⟩⟩] := by cbv
  have hnewline : Layout false ['\n'] := .blank rfl .nil
  have hopening : Layout false ('/' :: '/' :: ['!'] ++ ['\n']) :=
    .comment (by decide) (.inl rfl) hnewline
  have hgap : Layout false (' ' :: ('/' :: '/' :: [' ', '"'] ++ ['\n'])) :=
    .blank rfl (.comment (by decide) (.inl rfl) hnewline)
  have hgaps : Respaced ('/' :: '/' :: ['!'] ++ ['\n'])
      [(⟨.symbol .bang, "!", none, ⟨1, 1⟩⟩, ' ' :: ('/' :: '/' :: [' ', '"'] ++ ['\n'])),
        (⟨.string, "\"//\"", some (.string "//"), ⟨1, 2⟩⟩, [])] :=
    .cons hopening (fun _ => ⟨' ', rfl, rfl⟩) (.cons hgap (by simp) (.nil .nil))
  have hother : "//!\n! // \"\n\"//\"".toList = woven ('/' :: '/' :: ['!'] ++ ['\n'])
      [(⟨.symbol .bang, "!", none, ⟨1, 1⟩⟩, ' ' :: ('/' :: '/' :: [' ', '"'] ++ ['\n'])),
        (⟨.string, "\"//\"", some (.string "//"), ⟨1, 2⟩⟩, [])] := rfl
  obtain ⟨others, hothers, hsame, -⟩ := readProgram_respaced h rfl hgaps hother
  exact ⟨h, others, hothers, hsame⟩

end LoxSyntax
