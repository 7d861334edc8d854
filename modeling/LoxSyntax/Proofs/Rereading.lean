import LoxSyntax.Proofs.Renderings
import LoxSyntax.Proofs.Respelling
import LoxSyntax.Proofs.WholeExpressions

/-!
Canonical texts read again. The text of a literal is the lexeme of a token that stands for the same
value, unless the value is infinite, so a literal is read back from its text. The text of a grouping
has the word `group` behind its parenthesis. No expression starts with such a word, so although the
text has tokens it is never read as an expression.
-/

namespace LoxSyntax

/-- A literal that is no string, in any number of groupings. -/
def Expr.Simple : Expr → Prop
  | literal value => ∀ text, value ≠ .string text
  | grouping inner => inner.Simple
  | unary _ _ => False
  | binary _ _ _ => False

theorem Expr.WrittenAs.exists_denotes {v : Value} {w : List Token}
    (h : (Expr.literal v).WrittenAs w) : ∃ t, w = [t] ∧ t.Denotes v := by
  cases h with
  | @literal t _ h => exact ⟨t, rfl, h⟩

variable {u later : List Char} {k k' : Content}

namespace Item

/-- A word or a number ends in front of a closing parenthesis. -/
theorem longest_of_closing (h : Item u k) (hlead : k.lead = .letter ∨ k.lead = .digit)
    (hlater : ∀ c ∈ later.head?, c = ')') : Longest (u ++ later) ⟨u, k⟩ := by
  refine h.longest_of_not_extended fun b more k' hb hlonger => ?_
  have hsame := h.lead_of_append hlonger
  have hclosing : b = ')' := hlater b hb
  have hmem : ')' ∈ u ++ b :: more := by simp [hclosing]
  rcases hlead with hlead | hlead
  · obtain ⟨-, c, rest, htext, hc, hrest⟩ := hlonger.of_letter (hsame.trans hlead)
    rw [htext] at hmem
    rcases List.mem_cons.1 hmem with rfl | hmem
    · cases hc
    · exact absurd (hrest _ hmem) (by decide)
  · rcases (hlonger.of_digit (hsame.trans hlead)).1.isDigit_or_eq_point _ hmem with hdigit | hpoint
    · cases hdigit
    · exact absurd hpoint (by decide)

end Item

/-- No symbol of two characters starts with a parenthesis. -/
theorem Symbol.length_spelling_of_head {s : Symbol} {c : Char}
    (h : s.spelling.toList.head? = some c) (hc : c = '(' ∨ c = ')') :
    s.spelling.toList.length = 1 := by
  revert h
  rcases hc with rfl | rfl
  · cases s <;> decide
  · cases s <;> decide

theorem Segment.first_parenthesis {c : Char} {s : Symbol} (hs : s.spelling.toList = [c])
    (hc : c = '(' ∨ c = ')') (later : List Char) :
    first c later = ⟨[c], .token (.symbol s) none⟩ := by
  have hitem : Item [c] (.token (.symbol s) none) := hs ▸ .symbol s
  have hlongest : Longest ([c] ++ later) ⟨[c], .token (.symbol s) none⟩ := by
    refine hitem.longest_of_not_extended fun b more k' hb hlonger => ?_
    rcases hlonger.of_mark (hitem.lead_of_append hlonger) with ⟨r, hr, -⟩ | ⟨body, -, htext, -⟩
    · have hlength := r.length_spelling_of_head (by rw [← hr]; rfl) hc
      rw [← hr] at hlength
      simp at hlength
    · rcases hc with rfl | rfl
      · cases htext
      · cases htext
  exact first_eq_of_longest hlongest

theorem item_group : Item "group".toList (.token .identifier none) := by
  have hfree : ∀ w : Word, w.spelling.toList ≠ "group".toList := by
    intro w
    cases w <;> decide
  exact .identifier rfl (List.all_eq_true.1 rfl) hfree

/-- The segments of a grouping in front of what it holds. -/
def groupPieces : List Segment :=
  [⟨['('], .token (.symbol .leftParen) none⟩, ⟨"group".toList, .token .identifier none⟩,
    ⟨[' '], .blank⟩]

theorem segments_group (later : List Char) :
    segments ('(' :: ("group".toList ++ ' ' :: later)) = groupPieces ++ segments later := by
  have hopening : Segment.first '(' ("group".toList ++ ' ' :: later) =
      ⟨['('], .token (.symbol .leftParen) none⟩ :=
    Segment.first_parenthesis (s := .leftParen) rfl (.inl rfl) _
  have hblank : ∀ d ∈ (' ' :: later).head?, isBlank d = true := by
    intro d hd
    cases hd
    rfl
  rw [segments_cons, hopening]
  change _ :: segments ("group".toList ++ ' ' :: later) = _
  rw [segments_lexeme item_group hblank, segments_cons, Segment.first_of_blank rfl]
  rfl

theorem segments_closing (later : List Char) :
    segments (')' :: later) = ⟨[')'], .token (.symbol .rightParen) none⟩ :: segments later := by
  have hclosing : Segment.first ')' later = ⟨[')'], .token (.symbol .rightParen) none⟩ :=
    Segment.first_parenthesis (s := .rightParen) rfl (.inr rfl) _
  rw [segments_cons, hclosing]
  rfl

/-- The text of a simple tree has no faults if the values in it are written as words or numbers. -/
theorem segments_render {e : Expr} {w : List Token} (h : e.WrittenAs w) (hsimple : e.Simple)
    (hvalues : ∀ t ∈ w, ∀ v, t.Denotes v → (∀ text, v ≠ .string text) →
      ∃ k : Content, Item v.render.toList k ∧ (k.lead = .letter ∨ k.lead = .digit))
    (hlater : ∀ c ∈ later.head?, c = ')') :
    ∃ pieces, segments (e.render.toList ++ later) = pieces ++ segments later ∧
      ∀ s ∈ pieces, ∀ cause, s.content ≠ .fault cause := by
  induction h generalizing later with
  | @literal t value h =>
    obtain ⟨k, hitem, hlead⟩ := hvalues t List.mem_cons_self value h hsimple
    have hlongest := hitem.longest_of_closing hlead hlater
    refine ⟨[⟨value.render.toList, k⟩], ?_, ?_⟩
    · rw [Expr.render, segments_of_longest (s := ⟨value.render.toList, k⟩) hlongest]
      rfl
    · intro s hs cause hcause
      obtain rfl := List.mem_singleton.1 hs
      obtain rfl : k = .fault cause := hcause
      rcases hlead with hlead | hlead <;> cases hlead
  | @grouping opening closing inner w hopening h hclosing ih =>
    have hinner : ∀ t ∈ w, t ∈ opening :: w ++ [closing] := fun t ht =>
      List.mem_append_left _ (List.mem_cons_of_mem _ ht)
    have hclosed : ∀ c ∈ (')' :: later).head?, c = ')' := by
      intro c hc
      cases hc
      rfl
    obtain ⟨pieces, hpieces, hfaults⟩ := ih hsimple (fun t ht => hvalues t (hinner t ht)) hclosed
    refine ⟨groupPieces ++ pieces ++ [⟨[')'], .token (.symbol .rightParen) none⟩], ?_, ?_⟩
    · rw [Expr.toList_render_grouping, segments_group, hpieces, segments_closing,
        List.append_assoc, List.append_assoc]
      rfl
    · intro s hs cause
      rw [List.mem_append, List.mem_append, List.mem_singleton] at hs
      rcases hs with (hs | hs) | rfl
      · simp only [groupPieces, List.mem_cons, List.not_mem_nil, or_false] at hs
        rcases hs with rfl | rfl | rfl <;> exact Content.noConfusion
      · exact hfaults s hs cause
      · exact Content.noConfusion
  | unary h ih => exact hsimple.elim
  | binary hleft hright ihleft ihright => exact hsimple.elim

theorem item_inf : Item "inf".toList (.token .identifier none) := by
  have hfree : ∀ w : Word, w.spelling.toList ≠ "inf".toList := by
    intro w
    cases w <;> decide
  exact .identifier rfl (List.all_eq_true.1 rfl) hfree

namespace Lexed

/-- A token of a text that stands for a value but is no string. The value is written as a word or a
number, which stands for the same value unless this is infinite. -/
theorem exists_item_render {text : List Char} {t : Token} (ht : t ∈ (ofChars text).tokens)
    {v : Value} (h : t.Denotes v) (hv : ∀ text, v ≠ .string text) :
    ∃ kind literal, Item v.render.toList (.token kind literal) ∧
      ((Content.token kind literal).lead = .letter ∨ (Content.token kind literal).lead = .digit) ∧
      ((∀ negative, v ≠ .number (.infinite negative)) → ∀ lexeme p,
        (Token.mk kind lexeme literal p).Denotes v) := by
  have hitem := item_of_mem_tokens ht
  have hnumber : t.kind = .number → ∃ value, t.literal = some (.number value) ∧
      ((∃ rank, value = .finite false rank) ∨ value = .infinite false) := by
    intro hkind
    rw [hkind] at hitem
    obtain ⟨hnumeral, value, hvalue, hcontent⟩ := hitem.of_digit rfl
    exact ⟨value, (Content.token.inj hcontent).2, hnumeral.value_eq hvalue⟩
  have hstring : t.kind = .string → ∃ body, t.literal = some (.string body) := by
    intro hkind
    rw [hkind] at hitem
    obtain ⟨body, -, -, hcontent⟩ := hitem.of_quote rfl
    exact ⟨_, (Content.token.inj hcontent).2⟩
  cases h with
  | falsehood => exact ⟨_, _, .reserved .falseWord, .inl rfl, fun _ _ _ => .falsehood rfl⟩
  | truth => exact ⟨_, _, .reserved .trueWord, .inl rfl, fun _ _ _ => .truth rfl⟩
  | nil => exact ⟨_, _, .reserved .nilWord, .inl rfl, fun _ _ _ => .nil rfl⟩
  | @literal l hkind hl =>
    rcases hkind with hkind | hkind
    · obtain ⟨value, hvalue, hsign⟩ := hnumber hkind
      obtain rfl := Option.some.inj (hl.symm.trans hvalue)
      rcases hsign with ⟨rank, rfl⟩ | rfl
      · exact ⟨_, _, Double.item_toString rank, .inr rfl, fun _ _ _ => .literal (.inl rfl) rfl⟩
      · exact ⟨_, _, item_inf, .inl rfl, fun hfinite => absurd rfl (hfinite false)⟩
    · obtain ⟨body, hbody⟩ := hstring hkind
      obtain rfl := Option.some.inj (hl.symm.trans hbody)
      exact absurd rfl (hv body)
  | bare hkind hl =>
    rcases hkind with hkind | hkind
    · obtain ⟨value, hvalue, -⟩ := hnumber hkind
      rw [hl] at hvalue
      cases hvalue
    · obtain ⟨body, hbody⟩ := hstring hkind
      rw [hl] at hbody
      cases hbody

/-- A text that is one lexeme has one token. -/
theorem tokens_of_item {text : List Char} {kind : Kind} {literal : Option Literal}
    (h : Item text (.token kind literal)) :
    (ofChars text).tokens = [⟨kind, String.ofList text, literal, ⟨1, 1⟩⟩] := by
  have hsegments : segments (text ++ []) = ⟨text, .token kind literal⟩ :: segments [] :=
    segments_lexeme h fun _ hd => nomatch hd
  rw [List.append_nil, segments_nil] at hsegments
  rw [ofChars, hsegments]
  rfl

/-- A text with the word of groupings behind its first parenthesis is no expression. -/
theorem readExpression_group {text : String} {pieces : List Segment}
    (h : segments text.toList = groupPieces ++ pieces) {settings : Settings}
    (hlimit : settings.nestingLimit ≠ 0) :
    readExpression settings (ofText text).stream =
      .error ⟨⟨1, 2⟩, .unexpectedToken "group"⟩ := by
  obtain ⟨later, hpending⟩ : ∃ later, (ofText text).tokens =
      ⟨.symbol .leftParen, "(", none, ⟨1, 1⟩⟩ :: ⟨.identifier, "group", none, ⟨1, 2⟩⟩ :: later := by
    rw [ofText, ofChars, h]
    exact ⟨_, rfl⟩
  obtain ⟨room, hroom⟩ := Nat.exists_eq_add_one_of_ne_zero hlimit
  have hstart : Grammar.Breaks (room + 1) 4 (room + 1) [⟨.symbol .leftParen, "(", none, ⟨1, 1⟩⟩]
      ⟨.identifier, "group", none, ⟨1, 2⟩⟩ (.unexpectedToken "group") :=
    .left (.left (.left (.left (.inner rfl (.left (.left (.left (.left (.start (by decide))))))))))
  have hafter := TokenStream.after_of_pending_eq (s := (ofText text).stream)
    (show _ = [⟨.symbol .leftParen, "(", none, ⟨1, 1⟩⟩] ++ _ from hpending)
  have hread : Grammar.wholeExpression (room + 1) (ofText text).stream =
      .stuck (.unexpectedToken "group") _ :=
    (Grammar.wholeExpression_eq_stuck_iff (proper_stream text)).2 ⟨_, hafter, .inl hstart⟩
  rw [readExpression, hroom, hread]
  rfl

end Lexed

/-- Not every simple tree is read again from its text: `(true)` is read as a grouping, but what is
written for it is not read at all. -/
theorem not_forall_reread :
    ¬ ∀ (source : String) (tokens : List Token) (s : TokenStream) (e : Expr),
      (Lexed.ofText source).result = .ok tokens → TokenStream.ofTokens tokens = .ok s →
      readExpression {} s = .ok e → e.Simple →
      ∃ others r again, (Lexed.ofText e.render).result = .ok others ∧
        TokenStream.ofTokens others = .ok r ∧ readExpression {} r = .ok again ∧
        again.render = e.render := by
  intro hall
  have h : (Lexed.ofText "(true)").result = .ok [⟨.symbol .leftParen, "(", none, ⟨1, 1⟩⟩,
      ⟨.word .trueWord, "true", none, ⟨1, 2⟩⟩, ⟨.symbol .rightParen, ")", none, ⟨1, 6⟩⟩,
      ⟨.endMark, "", none, ⟨1, 7⟩⟩] := by cbv
  have hread : readExpression {} ⟨[], [⟨.symbol .leftParen, "(", none, ⟨1, 1⟩⟩,
      ⟨.word .trueWord, "true", none, ⟨1, 2⟩⟩, ⟨.symbol .rightParen, ")", none, ⟨1, 6⟩⟩],
      ⟨.endMark, "", none, ⟨1, 7⟩⟩⟩ = .ok (.grouping (.literal (.boolean true))) := by cbv
  obtain ⟨others, r, again, hothers, hr, hagain, -⟩ :=
    hall "(true)" _ _ _ h rfl hread fun _ => Value.noConfusion
  obtain ⟨-, -, rfl⟩ := Lexed.stream_of_result hothers hr
  have hgroup : segments "(group true)".toList = groupPieces ++ segments "true)".toList :=
    segments_group "true)".toList
  have hstuck : readExpression {} (Lexed.ofText "(group true)").stream =
      .error ⟨⟨1, 2⟩, .unexpectedToken "group"⟩ := Lexed.readExpression_group hgroup (by decide)
  cases hstuck.symm.trans hagain

/-- Simple trees read again from their texts. If a text is read as a literal or a literal in
groupings, and no string, then the text of the tree has tokens. A literal is read from it again,
unless its value is infinite. A grouping is not: the reading is stuck at the word of the
grouping. -/
theorem readExpression_render {source : String} {tokens : List Token}
    (h : (Lexed.ofText source).result = .ok tokens) {s : TokenStream}
    (hs : TokenStream.ofTokens tokens = .ok s) {settings : Settings} {e : Expr}
    (hread : readExpression settings s = .ok e) (hsimple : e.Simple) :
    ∃ others r, (Lexed.ofText e.render).result = .ok others ∧
      TokenStream.ofTokens others = .ok r ∧
      (∀ value, e = .literal value → (∀ negative, value ≠ .number (.infinite negative)) →
        readExpression settings r = .ok e) ∧
      ∀ inner, e = .grouping inner →
        readExpression settings r = .error ⟨⟨1, 2⟩, .unexpectedToken "group"⟩ := by
  obtain ⟨-, rfl, rfl⟩ := Lexed.stream_of_result h hs
  have hfits := (readExpression_eq_ok_iff_fits (Lexed.proper_stream source)).1 hread
  have hvalues : ∀ t ∈ (Lexed.ofText source).tokens, ∀ v, t.Denotes v →
      (∀ text, v ≠ .string text) →
      ∃ k : Content, Item v.render.toList k ∧ (k.lead = .letter ∨ k.lead = .digit) := by
    intro t ht v hv hplain
    obtain ⟨kind, literal, hitem, hlead, -⟩ := Lexed.exists_item_render ht hv hplain
    exact ⟨_, hitem, hlead⟩
  have hend : ∀ c ∈ ([] : List Char).head?, c = ')' := fun _ hc => nomatch hc
  obtain ⟨pieces, hpieces, hsound⟩ := segments_render hfits.written hsimple hvalues hend
  rw [List.append_nil, segments_nil, List.append_nil] at hpieces
  have hfaults : (Lexed.ofText e.render).faults = [] :=
    Lexed.faults_eq_nil fun s hs => hsound s (hpieces ▸ hs)
  obtain ⟨hothers, hr⟩ := Lexed.result_of_faults hfaults
  refine ⟨_, _, hothers, hr, ?_, ?_⟩
  · rintro value rfl hfinite
    obtain ⟨t, ht, hdenotes⟩ : ∃ t, (Lexed.ofText source).tokens = [t] ∧ t.Denotes value :=
      hfits.written.exists_denotes
    have hmem : t ∈ (Lexed.ofText source).tokens := by
      rw [ht]
      exact List.mem_singleton_self t
    obtain ⟨kind, literal, hitem, -, hsame⟩ := Lexed.exists_item_render hmem hdenotes hsimple
    have hpending := Lexed.tokens_of_item hitem
    rw [String.ofList_toList] at hpending
    refine (readExpression_eq_ok_iff_fits (Lexed.proper_stream _)).2 ?_
    rw [show (Lexed.ofText (Expr.literal value).render).stream.pending = _ from hpending]
    exact .literal (hsame hfinite _ _)
  · rintro inner rfl
    have hnesting := hfits.nesting_le
    rw [Expr.nesting] at hnesting
    have htext := inner.toList_render_grouping []
    rw [List.append_nil] at htext
    have hgroup := segments_group (inner.render.toList ++ [')'])
    rw [← htext] at hgroup
    exact Lexed.readExpression_group hgroup (by omega)

/-- The grouping is given up at its word, although the word is no fault of the text. -/
theorem readExpression_render_open_nil :
    (Lexed.ofText "(nil)").result = .ok [⟨.symbol .leftParen, "(", none, ⟨1, 1⟩⟩,
        ⟨.word .nilWord, "nil", none, ⟨1, 2⟩⟩, ⟨.symbol .rightParen, ")", none, ⟨1, 5⟩⟩,
        ⟨.endMark, "", none, ⟨1, 6⟩⟩] ∧
      ∃ others r, (Lexed.ofText "(group nil)").result = .ok others ∧
        TokenStream.ofTokens others = .ok r ∧
        readExpression {} r = .error ⟨⟨1, 2⟩, .unexpectedToken "group"⟩ := by
  have h : (Lexed.ofText "(nil)").result = .ok [⟨.symbol .leftParen, "(", none, ⟨1, 1⟩⟩,
      ⟨.word .nilWord, "nil", none, ⟨1, 2⟩⟩, ⟨.symbol .rightParen, ")", none, ⟨1, 5⟩⟩,
      ⟨.endMark, "", none, ⟨1, 6⟩⟩] := by cbv
  have hread : readExpression {} ⟨[], [⟨.symbol .leftParen, "(", none, ⟨1, 1⟩⟩,
      ⟨.word .nilWord, "nil", none, ⟨1, 2⟩⟩, ⟨.symbol .rightParen, ")", none, ⟨1, 5⟩⟩],
      ⟨.endMark, "", none, ⟨1, 6⟩⟩⟩ = .ok (.grouping (.literal .nil)) := by cbv
  obtain ⟨others, r, hothers, hr, -, hstuck⟩ :=
    readExpression_render h rfl hread fun _ => Value.noConfusion
  exact ⟨h, others, r, hothers, hr, hstuck _ rfl⟩

end LoxSyntax
