import LoxSyntax.Proofs.Completions
import LoxSyntax.Proofs.Respacing
import LoxSyntax.Proofs.ShortestNumerals

/-!
Numbers spelled anew. Where a number stands its spelling can be replaced by the text of its double,
which is a numeral of the same value. A segment ends where it did, since what follows it starts with
the same character, or with another digit; only a point could join two spellings, and no program
holds one. The tokens then differ in the lexemes and places of numbers and in no other way, and no
program depends on these.
-/

namespace LoxSyntax

variable {u later more : List Char} {b d : Char} {k k' : Content}

theorem Symbol.not_isDigit_spelling (s : Symbol) : ∀ c ∈ s.spelling.toList, ¬ c.isDigit = true := by
  have hnone : s.spelling.toList.any Char.isDigit = false := by cases s <;> rfl
  exact List.any_eq_false.1 hnone

/-- What follows may start with another digit in place of a digit, and else starts alike. -/
def Follows (later other : List Char) : Prop :=
  ∀ b ∈ other.head?, ∃ d ∈ later.head?, d = b ∨ b.isDigit = true ∧ d.isDigit = true

namespace Item

/-- Where an item that is no number goes on with `b`, some item goes on with `d`. -/
theorem exists_extended (h : Item u k) (hnumber : k.lead ≠ .digit)
    (hlonger : Item (u ++ b :: more) k') (hd : d = b ∨ b.isDigit = true ∧ d.isDigit = true) :
    ∃ extended, Item (u ++ [d]) extended := by
  have hlead := h.lead_of_append hlonger
  obtain ⟨c, tail, rfl, -⟩ := h.lead_eq
  cases hk : k.lead with
  | digit => exact absurd hk hnumber
  | blank =>
    obtain ⟨-, e, -, htext⟩ := hlonger.of_blank (hlead.trans hk)
    simp at htext
  | letter =>
    obtain ⟨-, e, rest, htext, he, hrest⟩ := hlonger.of_letter (hlead.trans hk)
    obtain ⟨rfl, rfl⟩ := List.cons.inj htext
    have hpart : isNamePart d = true := by
      rcases hd with rfl | ⟨-, hdigit⟩
      · exact hrest d (by simp)
      · simp [isNamePart, hdigit]
    refine ⟨_, .name he fun f hf => ?_⟩
    rcases List.mem_append.1 hf with hf | hf
    · exact hrest f (List.mem_append_left _ hf)
    · rw [List.mem_singleton.1 hf]
      exact hpart
  | quote =>
    obtain ⟨body, hbody, htext, -⟩ := h.of_quote hk
    rw [htext] at hlonger
    exact (string_not_extended hbody hlonger).elim
  | mark =>
    have hsame : ¬ b.isDigit = true → d = b := fun hb =>
      hd.resolve_right fun hdigits => hb hdigits.1
    rcases hlonger.of_mark (hlead.trans hk) with ⟨s, hs, -⟩ | ⟨body, hbody, htext, -⟩
    · have hb := s.not_isDigit_spelling b (by rw [← hs]; simp)
      obtain ⟨e, rest, hspelling, hlength, -⟩ := s.lead_spelling
      rw [hspelling, List.cons_append] at hs
      obtain ⟨rfl, hrest⟩ := List.cons.inj hs
      rw [← hrest, List.length_append, List.length_cons] at hlength
      obtain rfl : tail = [] := List.length_eq_zero_iff.1 (by omega)
      obtain rfl : more = [] := List.length_eq_zero_iff.1 (by omega)
      rw [hsame hb]
      exact ⟨_, hs ▸ hspelling ▸ Item.symbol s⟩
    · cases tail with
      | nil =>
        cases htext
        rw [hsame (by decide)]
        exact ⟨_, .comment List.not_mem_nil⟩
      | cons e tail =>
        simp only [List.cons_append, List.cons.injEq] at htext
        obtain ⟨rfl, rfl, rfl⟩ := htext
        refine ⟨_, .comment fun hmem => ?_⟩
        rcases List.mem_append.1 hmem with hmem | hmem
        · exact hbody (List.mem_append_left _ hmem)
        · have hnewline : '\n' = d := List.mem_singleton.1 hmem
          rcases hd with rfl | ⟨-, hdigit⟩
          · exact hbody (by simp [← hnewline])
          · rw [← hnewline] at hdigit
            cases hdigit

end Item

theorem Numeral.append_digit (h : Numeral u) (hd : d.isDigit = true) : Numeral (u ++ [d]) := by
  have hdigits : ∀ {run : List Char}, (∀ c ∈ run, c.isDigit = true) →
      ∀ c ∈ run ++ [d], c.isDigit = true := by
    intro run hrun c hc
    rcases List.mem_append.1 hc with hc | hc
    · exact hrun c hc
    · rw [List.mem_singleton.1 hc]
      exact hd
  cases h with
  | whole hne hwhole => exact .whole (List.append_ne_nil_of_left_ne_nil hne _) (hdigits hwhole)
  | @fractional whole fraction hwhole hwholeDigits hfraction hfractionDigits =>
    rw [List.append_assoc, List.cons_append]
    exact .fractional hwhole hwholeDigits (List.append_ne_nil_of_left_ne_nil hfraction _)
      (hdigits hfractionDigits)

theorem Numeral.exists_ofDecimal (h : Numeral u) :
    ∃ digits, Double.ofText? u = some (.ofDecimal digits) := by
  cases h with
  | whole hne hdigits =>
    exact ⟨_, (Double.ofText?_digits hne hdigits (fun _ h => absurd h List.not_mem_nil)).1⟩
  | fractional hwhole hwholeDigits hfraction hfractionDigits =>
    exact ⟨_, (Double.ofText?_digits hwhole hwholeDigits hfractionDigits).2⟩

/-- The value of a numeral has no sign. -/
theorem Numeral.value_eq (h : Numeral u) {value : Double} (hvalue : Double.ofText? u = some value) :
    (∃ rank, value = .finite false rank) ∨ value = .infinite false := by
  obtain ⟨digits, hdigits⟩ := h.exists_ofDecimal
  obtain rfl := Option.some.inj (hvalue.symm.trans hdigits)
  unfold Double.ofDecimal Double.ofRank
  split
  · exact .inl ⟨_, rfl⟩
  · exact .inr rfl

/-- The text of a finite double without a sign is a number of the same value. -/
theorem Double.item_toString (rank : Fin Double.ranks) :
    Item (toString (finite false rank)).toList
      (.token .number (some (.number (.finite false rank)))) := by
  have hnumeral : Numeral (toString (finite false rank)).toList := by
    rw [toList_toString_finite]
    exact Decimal.numeral_chars _
  exact .number hnumeral (ofText?_toString _)

namespace Longest

variable {other : List Char} {s : Segment}

/-- A segment that is no number does not depend on how the digits behind it are spelled. -/
theorem behind (h : Longest (s.text ++ later) s) (hnumber : s.content.lead ≠ .digit)
    (hfollows : Follows later other) : Longest (s.text ++ other) s := by
  refine h.item.longest_of_not_extended fun b more k' hb hlonger => ?_
  obtain ⟨d, hd, halike⟩ := hfollows b hb
  obtain ⟨extended, hextended⟩ := h.item.exists_extended hnumber hlonger halike
  obtain ⟨rest, rfl⟩ := List.head?_eq_some_iff.1 hd
  have hlength := h.longest _ _ hextended ⟨rest, by simp⟩
  simp at hlength

theorem not_isDigit_behind (h : Longest (s.text ++ later) s) (hnumber : s.content.lead = .digit) :
    ∀ d ∈ later.head?, ¬ d.isDigit = true := by
  intro d hd hdigit
  have hnumeral := (h.item.of_digit hnumber).1.append_digit hdigit
  obtain ⟨digits, hvalue⟩ := hnumeral.exists_ofDecimal
  obtain ⟨rest, rfl⟩ := List.head?_eq_some_iff.1 hd
  have hlength := h.longest _ _ (.number hnumeral hvalue) ⟨rest, by simp⟩
  simp at hlength

/-- In front of neither a digit nor a point every numeral is cut off as it is. -/
theorem of_number (h : Item s.text s.content) (hnumber : s.content.lead = .digit)
    (hend : ∀ b ∈ other.head?, ¬ b.isDigit = true ∧ b ≠ '.') : Longest (s.text ++ other) s := by
  refine h.longest_of_not_extended fun b more k' hb hlonger => ?_
  have hnumeral := (hlonger.of_digit ((h.lead_of_append hlonger).trans hnumber)).1
  rcases hnumeral.isDigit_or_eq_point b (by simp) with hdigit | hpoint
  · exact (hend b hb).1 hdigit
  · exact (hend b hb).2 hpoint

end Longest

namespace Segment

/-- A number is spelled as the double is written that it stands for. -/
def respelled (s : Segment) : Segment :=
  match s.content with
  | .token .number (some (.number value)) => { s with text := (toString value).toList }
  | _ => s

/-- A segment of a program: neither a fault, nor a point, nor a number that is not finite. -/
structure Sound (s : Segment) : Prop where
  no_fault : ∀ cause, s.content ≠ .fault cause
  no_point : s.content ≠ .token (.symbol .dot) none
  finite : ∀ value, s.content = .token .number (some (.number value)) →
    ∃ negative rank, value = .finite negative rank

theorem content_respelled (s : Segment) : s.respelled.content = s.content := by
  unfold respelled
  split
  · rfl
  · rfl

theorem respelled_of_number {s : Segment} {value : Double}
    (h : s.content = .token .number (some (.number value))) :
    s.respelled = ⟨(toString value).toList, .token .number (some (.number value))⟩ := by
  unfold respelled
  rw [h]

theorem respelled_of_ne {s : Segment}
    (h : ∀ value, s.content ≠ .token .number (some (.number value))) : s.respelled = s := by
  unfold respelled
  split
  · rename_i value hcontent
    exact absurd hcontent (h value)
  · rfl

theorem respelled_of_lead {s : Segment} (h : s.content.lead ≠ .digit) : s.respelled = s :=
  respelled_of_ne fun value hcontent => h (by rw [hcontent]; rfl)

theorem respelled_respelled (s : Segment) : s.respelled.respelled = s.respelled := by
  by_cases h : ∃ value, s.content = .token .number (some (.number value))
  · obtain ⟨value, hvalue⟩ := h
    rw [respelled_of_number hvalue, respelled_of_number rfl]
  · have hsame := respelled_of_ne fun value hvalue => h ⟨value, hvalue⟩
    rw [hsame, hsame]

theorem Sound.item_respelled {s : Segment} (h : s.Sound) (hitem : Item s.text s.content) :
    Item s.respelled.text s.respelled.content := by
  by_cases hlead : s.content.lead = .digit
  · obtain ⟨hnumeral, value, hvalue, hcontent⟩ := hitem.of_digit hlead
    rw [respelled_of_number hcontent]
    rcases hnumeral.value_eq hvalue with ⟨rank, rfl⟩ | rfl
    · exact Double.item_toString rank
    · obtain ⟨negative, rank, hfinite⟩ := h.finite _ hcontent
      cases hfinite
  · rw [respelled_of_lead hlead]
    exact hitem

end Segment

/-- The text with every number spelled as the double is written that it stands for. -/
def respell (text : List Char) : List Char :=
  (segments text).flatMap fun s => s.respelled.text

/-- A point that starts a segment is a segment of its own. -/
theorem ne_point_of_sound {c : Char} {rest : List Char} (h : (Segment.first c rest).Sound) :
    c ≠ '.' := by
  rintro rfl
  have hlongest := Longest.of_content h.no_fault
  obtain ⟨hlead, tail, htext, -⟩ := hlongest.item.of_isPrefix hlongest.isPrefix
  rcases hlongest.item.of_mark (hlead.trans rfl) with ⟨s, hs, hcontent⟩ | ⟨body, -, hslash, -⟩
  · have hpoint : s.spelling.toList.head? = some '.' := by rw [← hs, htext]; rfl
    have hdot : s = .dot := by
      revert hpoint
      cases s <;> decide
    exact h.no_point (hdot ▸ hcontent)
  · rw [htext] at hslash
    cases hslash

/-- The text spelled anew starts with the same character, or with another digit. -/
theorem follows_respell {text : List Char} (h : ∀ s ∈ segments text, s.Sound) :
    Follows text (respell text) := by
  intro b hb
  cases text with
  | nil =>
    rw [respell, segments_nil] at hb
    cases hb
  | cons c rest =>
    rw [segments_cons] at h
    have hsound := h _ List.mem_cons_self
    have hlongest := Longest.of_content hsound.no_fault
    obtain ⟨hlead, tail, htext, -⟩ := hlongest.item.of_isPrefix hlongest.isPrefix
    refine ⟨c, rfl, ?_⟩
    rw [respell, segments_cons, List.flatMap_cons] at hb
    by_cases hdigit : (Segment.first c rest).content.lead = .digit
    · have hitem := hsound.item_respelled hlongest.item
      obtain ⟨e, more, hspelled, he⟩ := hitem.lead_eq
      rw [Segment.content_respelled, hdigit] at he
      rw [hspelled] at hb
      cases hb
      exact .inr ⟨Lead.isDigit_of_ofChar he, Lead.isDigit_of_ofChar (hlead.symm.trans hdigit)⟩
    · rw [Segment.respelled_of_lead hdigit, htext] at hb
      cases hb
      exact .inl rfl

/-- A text spelled anew is cut where it was. -/
theorem segments_respell {text : List Char} (h : ∀ s ∈ segments text, s.Sound) :
    segments (respell text) = (segments text).map Segment.respelled := by
  induction text using segments_induction with
  | nil => rw [respell, segments_nil, List.flatMap_nil, segments_nil, List.map_nil]
  | cons c rest later htext hsegments ih =>
    rw [hsegments] at h
    have hsound := h _ List.mem_cons_self
    have hlater : ∀ s ∈ segments later, s.Sound := fun s hs => h s (List.mem_cons_of_mem _ hs)
    have hfollows := follows_respell hlater
    have hlongest := Longest.of_content hsound.no_fault
    have hrespell : respell (c :: rest) =
        (Segment.first c rest).respelled.text ++ respell later := by
      rw [respell, hsegments, List.flatMap_cons, respell]
    have hcut : Longest ((Segment.first c rest).respelled.text ++ respell later)
        (Segment.first c rest).respelled := by
      rw [htext] at hlongest
      by_cases hdigit : (Segment.first c rest).content.lead = .digit
      · refine .of_number (hsound.item_respelled hlongest.item) ?_ fun b hb => ?_
        · rw [Segment.content_respelled, hdigit]
        · obtain ⟨d, hd, halike⟩ := hfollows b hb
          have hend := hlongest.not_isDigit_behind hdigit d hd
          obtain rfl := halike.resolve_right fun hdigits => hend hdigits.2
          obtain ⟨more, rfl⟩ := List.head?_eq_some_iff.1 hd
          rw [segments_cons] at hlater
          exact ⟨hend, ne_point_of_sound (hlater _ List.mem_cons_self)⟩
      · rw [Segment.respelled_of_lead hdigit]
        exact hlongest.behind hdigit hfollows
    rw [hrespell, segments_of_longest hcut, ih hlater, hsegments, List.map_cons]

theorem respell_respell {text : List Char} (h : ∀ s ∈ segments text, s.Sound) :
    respell (respell text) = respell text := by
  have hsame : ∀ s : Segment, s.respelled.respelled.text = s.respelled.text := fun s => by
    rw [s.respelled_respelled]
  rw [respell, segments_respell h, List.flatMap_map, respell]
  simp only [hsame]

namespace Token

/-- A number with the text of its double for a lexeme, and any other token as it is. -/
def respelled (t : Token) : Token :=
  match t.kind, t.literal with
  | .number, some (.number value) => { t with lexeme := toString value }
  | _, _ => t

theorem respelled_of_ne {t : Token} (h : t.kind ≠ .number) : t.respelled = t := by
  unfold respelled
  split
  · rename_i hkind _
    exact absurd hkind h
  · rfl

@[simp] theorem kind_respelled (t : Token) : t.respelled.kind = t.kind := by
  unfold respelled
  split
  · rfl
  · rfl

@[simp] theorem literal_respelled (t : Token) : t.respelled.literal = t.literal := by
  unfold respelled
  split
  · rfl
  · rfl

theorem unplaced_respelled (t : Token) : t.respelled.unplaced = t.unplaced.respelled := by
  obtain ⟨kind, lexeme, literal, position⟩ := t
  cases kind with
  | number =>
    cases literal with
    | none => rfl
    | some l =>
      cases l with
      | number value => rfl
      | string text => rfl
  | _ => rfl

theorem Denotes.respelled {t : Token} {v : Value} (h : t.Denotes v) : t.respelled.Denotes v := by
  rw [denotes_iff] at h ⊢
  unfold value at h ⊢
  rw [kind_respelled, literal_respelled]
  exact h

end Token

theorem Segment.token?_respelled (p : Position) (s : Segment) :
    s.respelled.token? p = (s.token? p).map Token.respelled := by
  by_cases h : ∃ value, s.content = .token .number (some (.number value))
  · obtain ⟨value, hvalue⟩ := h
    rw [respelled_of_number hvalue]
    unfold token?
    rw [hvalue]
    simp only [Option.map_some, Token.respelled, String.ofList_toList]
  · have hne : ∀ value, s.content ≠ .token .number (some (.number value)) := fun value hvalue =>
      h ⟨value, hvalue⟩
    rw [respelled_of_ne hne]
    unfold token?
    split
    · rename_i kind literal hcontent
      rw [Option.map_some]
      unfold Token.respelled
      split
      · rename_i value hkind hliteral
        cases hkind
        cases hliteral
        exact absurd hcontent (hne value)
      · rfl
    · rfl

namespace Expr

theorem WrittenAs.respelled {e : Expr} {w : List Token} (h : e.WrittenAs w)
    (hcanonical : e.Canonical) : e.WrittenAs (w.map Token.respelled) := by
  induction h with
  | literal h => exact .literal h.respelled
  | grouping hopening h hclosing ih =>
    rw [List.cons_append, List.map_cons, List.map_append, List.map_singleton, ← List.cons_append]
    exact .grouping (by rwa [Token.kind_respelled]) (ih hcanonical) (by rwa [Token.kind_respelled])
  | @unary operator operand w h ih =>
    have hoperator : operator.respelled = operator := Token.respelled_of_ne (by
      rcases hcanonical.1 with hkind | hkind
      · rw [hkind]; exact Kind.noConfusion
      · rw [hkind]; exact Kind.noConfusion)
    rw [List.map_cons, hoperator]
    exact .unary (ih hcanonical.2.2)
  | @binary left operator right u v hleft hright ihleft ihright =>
    obtain ⟨n, htier, -, -, hleftCanonical, hrightCanonical⟩ := hcanonical
    have hoperator : operator.respelled = operator := Token.respelled_of_ne (by
      rintro hkind
      rw [hkind] at htier
      cases htier)
    rw [List.map_append, List.map_cons, hoperator]
    exact .binary (ihleft hleftCanonical) (ihright hrightCanonical)

theorem Fits.respelled {e : Expr} {n room : Nat} {w : List Token} (h : e.Fits n room w) :
    e.Fits n room (w.map Token.respelled) :=
  { h with written := h.written.respelled h.canonical }

end Expr

namespace Block

variable {settings : Settings}

def respelled : Block → Block
  | print word body value closing =>
    print word.respelled (body.map Token.respelled) value closing.respelled
  | closed body value closing => closed (body.map Token.respelled) value closing.respelled
  | bare body value => bare (body.map Token.respelled) value

theorem tokens_respelled (b : Block) : b.respelled.tokens = b.tokens.map Token.respelled := by
  cases b with
  | print word body value closing => simp [respelled, tokens]
  | closed body value closing => simp [respelled, tokens]
  | bare body value => rfl

theorem statement_respelled (b : Block) : b.respelled.statement = b.statement := by
  cases b with
  | print word body value closing => rfl
  | closed body value closing => rfl
  | bare body value => rfl

theorem Fits.respelled {b : Block} (h : b.Fits settings) : b.respelled.Fits settings := by
  cases b with
  | print word body value closing =>
    exact ⟨by rw [Token.kind_respelled]; exact h.1, h.2.1.respelled,
      by rw [Token.kind_respelled]; exact h.2.2⟩
  | closed body value closing =>
    exact ⟨h.1.respelled, by rw [Token.kind_respelled]; exact h.2⟩
  | bare body value => exact ⟨h.1, h.2.respelled⟩

theorem StopsAt.respelled {b : Block} {t u : Token} (h : b.StopsAt t) (hkind : u.kind = t.kind) :
    b.respelled.StopsAt u := by
  cases b with
  | print word body value closing => trivial
  | closed body value closing => trivial
  | bare body value =>
    obtain ⟨hends, hsemicolon⟩ := h
    rw [← hkind] at hsemicolon
    refine ⟨fun n hn => hends n (hkind ▸ hn), hsemicolon⟩

theorem flatMap_tokens_respelled (blocks : List Block) :
    (blocks.map Block.respelled).flatMap tokens = (blocks.flatMap tokens).map Token.respelled := by
  rw [List.flatMap_map, List.map_flatMap]
  simp only [tokens_respelled]

theorem Chain.respelled {blocks : List Block} {t : Token} (h : Chain settings blocks t) :
    Chain settings (blocks.map Block.respelled) t := by
  induction blocks with
  | nil => trivial
  | cons b later ih =>
    obtain ⟨hb, hstop, hlater⟩ := h
    refine ⟨hb.respelled, hstop.respelled ?_, ih hlater⟩
    rw [flatMap_tokens_respelled]
    cases later.flatMap tokens with
    | nil => rfl
    | cons u rest => exact u.kind_respelled

end Block

/-- How numbers are spelled is not seen by a program. -/
theorem readProgram_respelled {s : TokenStream} {settings : Settings} {statements : List Statement}
    (hs : s.Proper) (h : readProgram settings s = .ok statements) :
    readProgram settings { s with pending := s.pending.map Token.respelled } = .ok statements := by
  have hproper : ({ s with pending := s.pending.map Token.respelled } : TokenStream).Proper := by
    refine ⟨fun t ht => ?_, hs.endMark_eq⟩
    obtain ⟨u, hu, rfl⟩ := List.mem_map.1 ht
    rw [Token.kind_respelled]
    exact hs.pending_ne u hu
  obtain ⟨blocks, hchain, hpending, rfl⟩ := (readProgram_eq_ok_iff_chain hs).1 h
  refine (readProgram_eq_ok_iff_chain hproper).2
    ⟨blocks.map Block.respelled, hchain.respelled, ?_, ?_⟩
  · rw [Block.flatMap_tokens_respelled, ← hpending]
  · rw [List.map_map]
    exact List.map_congr_left fun b _ => b.statement_respelled.symm

namespace Lexed

/-- What is not a point is no point in the text either, and numbers are what their tokens say. -/
theorem sound_of_tokens {text : List Char} (hfaults : (ofChars text).faults = [])
    (hpoint : ∀ t ∈ (ofChars text).tokens, t.kind ≠ .symbol .dot)
    (hfinite : ∀ t ∈ (ofChars text).tokens, ∀ value, t.literal = some (.number value) →
      ∃ negative rank, value = .finite negative rank) :
    ∀ s ∈ segments text, s.Sound := by
  intro s hs
  obtain ⟨p, hplaced⟩ := exists_mem_placed .start hs
  have htoken : ∀ kind literal, s.content = .token kind literal →
      ⟨kind, String.ofList s.text, literal, p⟩ ∈ (ofChars text).tokens := by
    intro kind literal hcontent
    exact List.mem_filterMap.2 ⟨_, hplaced, by simp [Segment.token?, hcontent]⟩
  refine ⟨content_ne_fault hfaults hs, fun hcontent => ?_, fun value hcontent => ?_⟩
  · exact hpoint _ (htoken _ _ hcontent) rfl
  · exact hfinite _ (htoken _ _ hcontent) value rfl

/-- The tokens of the text spelled anew are those of the text with their numbers spelled anew. -/
theorem map_unplaced_respell {text : List Char} (h : ∀ s ∈ segments text, s.Sound) :
    (ofChars (respell text)).tokens.map Token.unplaced =
      ((ofChars text).tokens.map Token.respelled).map Token.unplaced := by
  have htoken : ∀ s : Segment,
      s.respelled.token? .start = (s.token? .start).map Token.respelled :=
    Segment.token?_respelled .start
  rw [map_unplaced_tokens, segments_respell h, List.filterMap_map, List.map_map]
  have hcomm : Token.unplaced ∘ Token.respelled = Token.respelled ∘ Token.unplaced :=
    funext Token.unplaced_respelled
  rw [hcomm, ← List.map_map, map_unplaced_tokens, List.map_filterMap]
  exact List.filterMap_congr fun s _ => htoken s

end Lexed

/-- No program holds a point. -/
theorem ne_dot_of_readProgram {s : TokenStream} {settings : Settings} {statements : List Statement}
    (hs : s.Proper) (h : readProgram settings s = .ok statements) :
    ∀ t ∈ s.pending, t.kind ≠ .symbol .dot := by
  obtain ⟨blocks, hchain, hpending, -⟩ := (readProgram_eq_ok_iff_chain hs).1 h
  intro t ht hdot
  rw [hpending] at ht
  obtain ⟨b, hb, ht⟩ := List.mem_flatMap.1 ht
  have hmem := (hchain.fits b hb).kind_mem t ht
  rw [hdot] at hmem
  exact absurd hmem (by decide)

/-- How numbers are spelled does not matter. In a text that is read as a program, and all of whose
numbers are finite, let every number be spelled as its double is written. This text has the same
tokens but for the lexemes of numbers and for places, and it is read as the same statements but for
the places of operators, which are written as before. A second time nothing is changed. -/
theorem readProgram_respell {source other : String} {tokens : List Token}
    (h : (Lexed.ofText source).result = .ok tokens) {s : TokenStream}
    (hs : TokenStream.ofTokens tokens = .ok s) {settings : Settings} {statements : List Statement}
    (hread : readProgram settings s = .ok statements)
    (hfinite : ∀ t ∈ tokens, ∀ value, t.literal = some (.number value) →
      ∃ negative rank, value = .finite negative rank)
    (hother : other.toList = respell source.toList) :
    ∃ others r moved, (Lexed.ofText other).result = .ok others ∧
      others.map Token.unplaced = (tokens.map Token.respelled).map Token.unplaced ∧
      TokenStream.ofTokens others = .ok r ∧ readProgram settings r = .ok moved ∧
      moved.map Statement.unplaced = statements.map Statement.unplaced ∧
      moved.map Statement.render = statements.map Statement.render ∧
      respell other.toList = other.toList := by
  obtain ⟨hfaults, rfl, rfl⟩ := Lexed.stream_of_result h hs
  have hproper := Lexed.proper_stream source
  have hsound : ∀ s ∈ segments source.toList, s.Sound :=
    Lexed.sound_of_tokens hfaults (ne_dot_of_readProgram hproper hread)
      fun t ht => hfinite t (List.mem_append_left _ ht)
  have htokens : (Lexed.ofText other).tokens.map Token.unplaced =
      ((Lexed.ofText source).tokens.map Token.respelled).map Token.unplaced := by
    rw [Lexed.ofText, hother]
    exact Lexed.map_unplaced_respell hsound
  have hotherFaults : (Lexed.ofChars other.toList).faults = [] := by
    refine Lexed.faults_eq_nil fun s hs cause => ?_
    rw [hother, segments_respell hsound] at hs
    obtain ⟨piece, hpiece, rfl⟩ := List.mem_map.1 hs
    rw [Segment.content_respelled]
    exact (hsound piece hpiece).no_fault cause
  obtain ⟨hothers, hr⟩ := Lexed.result_of_faults hotherFaults
  have hmove : (Lexed.ofText other).stream.move (fun _ => .start) =
      TokenStream.move (fun _ => .start) { (Lexed.ofText source).stream with
        pending := (Lexed.ofText source).stream.pending.map Token.respelled } :=
    congrArg (fun pending => TokenStream.mk [] pending ⟨.endMark, "", none, .start⟩) htokens
  have hrespelled := readProgram_respelled hproper hread
  rcases readProgram_of_move_eq hmove settings with
    ⟨same, moved, hsame, hmoved, halike⟩ | ⟨faults, moved, hfaults, -⟩
  · obtain rfl := Except.ok.inj (hrespelled.symm.trans hsame)
    refine ⟨_, _, moved, hothers, ?_, hr, hmoved, halike, map_render_of_move_eq halike, ?_⟩
    · rw [Lexed.allTokens, Lexed.allTokens, List.map_append, List.map_append, List.map_append,
        ← htokens]
      rfl
    · rw [hother, respell_respell hsound]
  · rw [hrespelled] at hfaults
    cases hfaults

/-- A zero behind the point is no part of the text of a double. -/
theorem readProgram_respell_trailing_zero :
    (Lexed.ofText "1.50").result = .ok [⟨.number, "1.50", some (.number (.ofDecimal ⟨150, 2⟩)),
        ⟨1, 1⟩⟩, ⟨.endMark, "", none, ⟨1, 5⟩⟩] ∧
      "1.5".toList = respell "1.50".toList ∧
      ∃ others r moved, (Lexed.ofText "1.5").result = .ok others ∧
        TokenStream.ofTokens others = .ok r ∧ readProgram {} r = .ok moved ∧
        moved.map Statement.render = ["(expr 1.5)"] := by
  have hvalue : toString (Double.ofDecimal ⟨150, 2⟩) = "1.5" := by decide +kernel
  have hfinite : ∃ negative rank, Double.ofDecimal ⟨150, 2⟩ = .finite negative rank :=
    ⟨false, ⟨0x3FF8000000000000, by decide⟩, by decide +kernel⟩
  have hsegments : segments "1.50".toList =
      [⟨"1.50".toList, .token .number (some (.number (.ofDecimal ⟨150, 2⟩)))⟩] := by
    show segments ['1', '.', '5', '0'] = _
    rw [segments_cons]
    show Segment.number '1' ['.', '5', '0'] :: segments [] = _
    rw [segments_nil]
    rfl
  have h : (Lexed.ofText "1.50").result = .ok [⟨.number, "1.50",
      some (.number (.ofDecimal ⟨150, 2⟩)), ⟨1, 1⟩⟩, ⟨.endMark, "", none, ⟨1, 5⟩⟩] := by
    rw [Lexed.ofText, Lexed.ofChars, hsegments]
    rfl
  have hother : "1.5".toList = respell "1.50".toList := by
    rw [respell, hsegments, List.flatMap_singleton, Segment.respelled_of_number rfl, hvalue]
  have hread : ∀ value, readProgram {} ⟨[], [⟨.number, "1.50", some (.number value), ⟨1, 1⟩⟩],
      ⟨.endMark, "", none, ⟨1, 5⟩⟩⟩ = .ok [.expression (.literal (.number value))] := by
    intro value
    cbv
  have hnumbers : ∀ d : Double, (∃ negative rank, d = .finite negative rank) →
      ∀ t ∈ [⟨.number, "1.50", some (.number d), ⟨1, 1⟩⟩, ⟨.endMark, "", none, ⟨1, 5⟩⟩],
        ∀ value, Token.literal t = some (.number value) →
          ∃ negative rank, value = .finite negative rank := by
    intro d hd t ht value hliteral
    rcases List.mem_cons.1 ht with rfl | ht
    · cases hliteral
      exact hd
    · rw [List.mem_singleton.1 ht] at hliteral
      cases hliteral
  obtain ⟨others, r, moved, hothers, -, hr, hmoved, -, hrender, -⟩ :=
    readProgram_respell h rfl (hread _) (hnumbers _ hfinite) hother
  refine ⟨h, hother, others, r, moved, hothers, hr, hmoved, ?_⟩
  rw [hrender, List.map_singleton, Statement.render, Expr.render, Value.render, hvalue]
  rfl

end LoxSyntax
