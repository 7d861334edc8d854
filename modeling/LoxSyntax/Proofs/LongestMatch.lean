import LoxSyntax.Proofs.Items
import LoxSyntax.Proofs.Places

/-!
Segments as longest matches. A segment is the longest item that the rest of the text starts with.
Where no item starts, either a quote is never closed or the first character starts nothing. So
how a text is cut follows from which texts are items.
-/

namespace LoxSyntax

theorem length_le_takeWhile {α : Type} {p : α → Bool} {run text : List α} (h : run <+: text)
    (hrun : ∀ a ∈ run, p a = true) : run.length ≤ (text.takeWhile p).length := by
  obtain ⟨rest, rfl⟩ := h
  rw [List.takeWhile_append_of_pos hrun, List.length_append]
  exact Nat.le_add_right _ _

theorem of_mem_takeWhile {α : Type} {p : α → Bool} {text : List α} {a : α}
    (h : a ∈ text.takeWhile p) : p a = true :=
  List.all_eq_true.1 List.all_takeWhile a h

theorem decide_ne_of_not_mem {c : Char} {run : List Char} (h : c ∉ run) :
    ∀ d ∈ run, decide (d ≠ c) = true := by
  intro d hd
  exact decide_eq_true fun heq => h (heq ▸ hd)

theorem isDigit_of_mem_fraction {text : List Char} {d : Char} (h : d ∈ fraction text) :
    d.isDigit = true := by
  unfold fraction at h
  split at h
  · exact of_mem_takeWhile h
  · cases h

variable {c : Char} {rest u : List Char} {k : Content}

theorem Item.of_isPrefix (h : Item u k) (hu : u <+: c :: rest) :
    k.lead = Lead.ofChar c ∧ ∃ tail, u = c :: tail ∧ tail <+: rest := by
  obtain ⟨d, tail, rfl, hlead⟩ := h.lead_eq
  obtain ⟨rfl, htail⟩ := List.cons_prefix_cons.1 hu
  exact ⟨hlead.symm, tail, rfl, htail⟩

/-- A name, which may be reserved. -/
theorem Item.name (hc : isNameStart c = true) (hrest : ∀ d ∈ rest, isNamePart d = true) :
    Item (c :: rest) (.token (Segment.nameKind (String.ofList (c :: rest))) none) := by
  by_cases hfree : ∀ w : Word, w.spelling.toList ≠ c :: rest
  · rw [Segment.nameKind_of_free hfree]
    exact .identifier hc hrest hfree
  · obtain ⟨w, hw⟩ := Classical.not_forall.1 hfree
    rw [← Classical.not_not.1 hw, Segment.nameKind_spelling]
    exact .reserved w

/-- A segment that is an item, and no item that the text starts with is longer. -/
structure Longest (text : List Char) (s : Segment) : Prop where
  item : Item s.text s.content
  isPrefix : s.text <+: text
  longest : ∀ u k, Item u k → u <+: text → u.length ≤ s.text.length

namespace Segment

theorem isPrefix_first (c : Char) (rest : List Char) : (first c rest).text <+: c :: rest := by
  obtain ⟨tail, htext, htail⟩ := text_first c rest
  rw [htext]
  exact (List.prefix_cons_inj c).2 htail

theorem first_of_blank (h : Lead.ofChar c = .blank) : first c rest = ⟨[c], .blank⟩ :=
  if_pos (Lead.isBlank_of_ofChar h)

theorem first_of_digit (h : Lead.ofChar c = .digit) : first c rest = number c rest := by
  have hc := Lead.isDigit_of_ofChar h
  rw [first, if_neg (Lead.not_blank_of_isDigit hc), if_pos hc]

theorem first_of_letter (h : Lead.ofChar c = .letter) : first c rest = name c rest := by
  have hc := Lead.isNameStart_of_ofChar h
  rw [first, if_neg (Lead.not_blank_of_isNameStart hc),
    if_neg (Lead.not_isDigit_of_isNameStart hc), if_pos hc]

theorem first_quote : first '"' rest = quoted rest := rfl

theorem first_of_mark (h : Lead.ofChar c = .mark) :
    first c rest =
      if c = '/' ∧ rest.head? = some '/' then comment rest else symbol c rest := by
  unfold Lead.ofChar at h
  unfold first
  grind

theorem longest_blank (h : Lead.ofChar c = .blank) : Longest (c :: rest) (first c rest) := by
  refine ⟨?_, isPrefix_first c rest, ?_⟩
  · rw [first_of_blank h]
    exact .blank (Lead.isBlank_of_ofChar h)
  · intro u k hitem hu
    obtain ⟨-, d, -, rfl⟩ := hitem.of_blank ((hitem.of_isPrefix hu).1.trans h)
    rw [first_of_blank h]
    exact Nat.le_refl 1

theorem longest_letter (h : Lead.ofChar c = .letter) : Longest (c :: rest) (first c rest) := by
  refine ⟨?_, isPrefix_first c rest, ?_⟩
  · rw [first_of_letter h]
    exact .name (Lead.isNameStart_of_ofChar h) fun d hd => of_mem_takeWhile hd
  · intro u k hitem hu
    obtain ⟨hlead, tail, rfl, htail⟩ := hitem.of_isPrefix hu
    obtain ⟨-, d, parts, heq, -, hparts⟩ := hitem.of_letter (hlead.trans h)
    cases heq
    rw [first_of_letter h]
    exact Nat.succ_le_succ (length_le_takeWhile htail hparts)

/-- The digits of a number, with the point and the digits behind it if there are any. -/
theorem item_number (hc : c.isDigit = true) :
    Item (number c rest).text (number c rest).content := by
  have hwhole : ∀ d ∈ c :: rest.takeWhile Char.isDigit, d.isDigit = true := by
    intro d hd
    rcases List.mem_cons.1 hd with rfl | hd
    · exact hc
    · exact of_mem_takeWhile hd
  have hfraction : ∀ d ∈ fraction (rest.dropWhile Char.isDigit), d.isDigit = true :=
    fun d hd => isDigit_of_mem_fraction hd
  have hne : c :: rest.takeWhile Char.isDigit ≠ [] := List.cons_ne_nil _ _
  obtain ⟨hvalue, hvaluePoint⟩ := Double.ofText?_digits hne hwhole hfraction
  unfold number
  cases htail : fraction (rest.dropWhile Char.isDigit) with
  | nil =>
    simp only [List.isEmpty_nil, if_true, List.append_nil]
    exact .number (.whole hne hwhole) hvalue
  | cons d digits =>
    rw [htail] at hfraction hvaluePoint
    simp only [List.isEmpty_cons, Bool.false_eq_true, if_false, List.append_assoc,
      List.singleton_append]
    exact .number (.fractional hne hwhole (List.cons_ne_nil d digits) hfraction) hvaluePoint

/-- A numeral ends with its digits, or with those behind the point that follows them. -/
theorem length_le_number (hc : c.isDigit = true) (hu : Numeral u) (hstart : u <+: c :: rest) :
    u.length ≤ (number c rest).text.length := by
  have htake : c :: rest.takeWhile Char.isDigit = (c :: rest).takeWhile Char.isDigit := by
    rw [List.takeWhile_cons_of_pos hc]
  have hdrop : rest.dropWhile Char.isDigit = (c :: rest).dropWhile Char.isDigit := by
    rw [List.dropWhile_cons_of_pos hc]
  unfold number
  dsimp only
  rw [htake, hdrop]
  cases hu with
  | whole hne hdigits =>
    have hle := length_le_takeWhile hstart hdigits
    simp only [List.length_append]
    omega
  | @fractional whole digits hwhole hwholeDigits hfraction hfractionDigits =>
    obtain ⟨more, hmore⟩ := hstart
    rw [List.append_assoc, List.cons_append] at hmore
    obtain ⟨htake, hdrop⟩ := span_append hwholeDigits ('.' :: (digits ++ more)) (by simp)
    rw [hmore] at htake hdrop
    have hdigits : fraction ('.' :: (digits ++ more)) = digits ++ more.takeWhile Char.isDigit :=
      List.takeWhile_append_of_pos hfractionDigits
    have hempty : (digits ++ more.takeWhile Char.isDigit).isEmpty = false := by
      simp [hfraction]
    rw [htake, hdrop, hdigits, hempty]
    simp only [Bool.false_eq_true, if_false, List.length_append, List.length_cons,
      List.length_nil]
    omega

theorem longest_digit (h : Lead.ofChar c = .digit) : Longest (c :: rest) (first c rest) := by
  have hc := Lead.isDigit_of_ofChar h
  refine ⟨?_, isPrefix_first c rest, ?_⟩
  · rw [first_of_digit h]
    exact item_number hc
  · intro u k hitem hu
    obtain ⟨hnumeral, -⟩ := hitem.of_digit ((hitem.of_isPrefix hu).1.trans h)
    rw [first_of_digit h]
    exact length_le_number hc hnumeral hu

/-- A string that the text starts with ends at the next quote. -/
theorem eq_of_quoted_isPrefix {body : List Char} (hbody : '"' ∉ body)
    (h : '"' :: body ++ ['"'] <+: '"' :: rest) :
    '"' ∈ rest ∧ rest.takeWhile (· ≠ '"') = body := by
  obtain ⟨more, hmore⟩ := h
  obtain rfl : body ++ '"' :: more = rest := by simpa using hmore
  exact ⟨by simp, (span_append (decide_ne_of_not_mem hbody) ('"' :: more) (by simp)).1⟩

theorem longest_quote (hclosed : '"' ∈ rest) : Longest ('"' :: rest) (first '"' rest) := by
  refine ⟨?_, isPrefix_first '"' rest, ?_⟩
  · rw [first_quote, quoted, if_pos hclosed]
    refine .string fun hquote => ?_
    simpa using of_mem_takeWhile hquote
  · intro u k hitem hu
    obtain ⟨body, hbody, rfl, -⟩ := hitem.of_quote (hitem.of_isPrefix hu).1
    have htext : (first '"' rest).text = '"' :: body ++ ['"'] := by
      rw [first_quote, quoted, if_pos hclosed, (eq_of_quoted_isPrefix hbody hu).2]
    exact Nat.le_of_eq (congrArg List.length htext.symm)

theorem not_isPrefix_of_unclosed (hopen : '"' ∉ rest) (h : Item u k) : ¬ u <+: '"' :: rest := by
  intro hu
  obtain ⟨body, hbody, rfl, -⟩ := h.of_quote (h.of_isPrefix hu).1
  exact hopen (eq_of_quoted_isPrefix hbody hu).1

theorem longest_comment (h : rest.head? = some '/') :
    Longest ('/' :: rest) (first '/' rest) := by
  obtain ⟨body, rfl⟩ : ∃ body, rest = '/' :: body := ⟨rest.tail, by
    cases rest with
    | nil => cases h
    | cons d tail => cases h; rfl⟩
  have hfirst : first '/' ('/' :: body) =
      ⟨'/' :: '/' :: body.takeWhile (· ≠ '\n'), .comment⟩ := rfl
  refine ⟨?_, isPrefix_first '/' _, ?_⟩
  · rw [hfirst]
    refine .comment fun hnewline => ?_
    simpa using of_mem_takeWhile hnewline
  · intro u k hitem hu
    rw [hfirst]
    rcases hitem.of_mark (hitem.of_isPrefix hu).1 with ⟨s, rfl, -⟩ | ⟨other, hother, rfl, -⟩
    · obtain ⟨d, tail, hspelling, hlength, -⟩ := s.lead_spelling
      simp only [hspelling, List.length_cons]
      omega
    · obtain ⟨-, hrest⟩ := List.cons_prefix_cons.1 hu
      obtain ⟨-, hrest⟩ := List.cons_prefix_cons.1 hrest
      have hlength := length_le_takeWhile hrest (decide_ne_of_not_mem hother)
      exact Nat.succ_le_succ (Nat.succ_le_succ hlength)

/-- A symbol that the text starts with is its first character or its first two. -/
theorem eq_of_spelling_isPrefix {s : Symbol} (h : s.spelling.toList <+: c :: rest) :
    s.spelling.toList = [c] ∨ s.spelling.toList = c :: rest.take 1 := by
  obtain ⟨d, tail, hspelling, hlength, -⟩ := s.lead_spelling
  rw [hspelling] at h ⊢
  obtain ⟨rfl, htail⟩ := List.cons_prefix_cons.1 h
  rw [List.prefix_iff_eq_take] at htail
  rcases Nat.le_one_iff_eq_zero_or_eq_one.1 hlength with hzero | hone
  · exact .inl (by rw [List.length_eq_zero_iff.1 hzero])
  · exact .inr (by rw [hone] at htail; rw [← htail])

theorem ofSpelling?_ofList {s : Symbol} {text : List Char} (h : s.spelling.toList = text) :
    Symbol.ofSpelling? (String.ofList text) = some s := by
  rw [Symbol.ofSpelling?_eq_some_iff, ← h, String.ofList_toList]

theorem item_of_ofSpelling? {s : Symbol} {text : List Char}
    (h : Symbol.ofSpelling? (String.ofList text) = some s) :
    Item text (.token (.symbol s) none) := by
  have htext : s.spelling.toList = text := by
    rw [Symbol.ofSpelling?_eq_some_iff.1 h, String.toList_ofList]
  rw [← htext]
  exact .symbol s

/-- Where no comment starts, an item is a symbol of one character or two. -/
theorem eq_of_mark (h : Lead.ofChar c = .mark) (hcomment : ¬ (c = '/' ∧ rest.head? = some '/'))
    (hitem : Item u k) (hu : u <+: c :: rest) :
    (u = [c] ∨ u = c :: rest.take 1) ∧ ∃ s, Symbol.ofSpelling? (String.ofList u) = some s := by
  rcases hitem.of_mark ((hitem.of_isPrefix hu).1.trans h) with ⟨s, hs, -⟩ | ⟨body, -, rfl, -⟩
  · exact ⟨hs ▸ eq_of_spelling_isPrefix (hs ▸ hu), s, ofSpelling?_ofList hs.symm⟩
  · obtain ⟨rfl, more, hmore⟩ := List.cons_prefix_cons.1 hu
    exact absurd ⟨rfl, by rw [← hmore]; rfl⟩ hcomment

/-- Where a symbol can start, the longest one is taken, or else nothing starts there. -/
theorem longest_symbol (h : Lead.ofChar c = .mark)
    (hcomment : ¬ (c = '/' ∧ rest.head? = some '/')) :
    Longest (c :: rest) (first c rest) ∨
      first c rest = ⟨[c], .fault (.strayCharacter c)⟩ ∧
        ∀ u k, Item u k → ¬ u <+: c :: rest := by
  have hfirst : first c rest = symbol c rest := by rw [first_of_mark h, if_neg hcomment]
  have hprefix := isPrefix_first c rest
  unfold symbol at hfirst
  dsimp only at hfirst
  split at hfirst
  · rename_i s hpair
    left
    refine ⟨by rw [hfirst]; exact item_of_ofSpelling? hpair, hprefix, ?_⟩
    intro u k hitem hu
    rw [hfirst]
    rcases (eq_of_mark h hcomment hitem hu).1 with rfl | rfl
    · exact Nat.succ_le_succ (Nat.zero_le _)
    · exact Nat.le_refl _
  · rename_i s hpair hsingle
    left
    refine ⟨by rw [hfirst]; exact item_of_ofSpelling? hsingle, hprefix, ?_⟩
    intro u k hitem hu
    rw [hfirst]
    obtain ⟨rfl | rfl, s', hs'⟩ := eq_of_mark h hcomment hitem hu
    · exact Nat.le_refl 1
    · rw [hpair] at hs'
      cases hs'
  · rename_i hpair hsingle
    right
    refine ⟨hfirst, ?_⟩
    intro u k hitem hu
    obtain ⟨rfl | rfl, s', hs'⟩ := eq_of_mark h hcomment hitem hu
    · rw [hsingle] at hs'
      cases hs'
    · rw [hpair] at hs'
      cases hs'

/-- A segment is the longest item that starts where it does. Where none starts, it is all that is
left behind a quote, or else one character. -/
theorem longest_first (c : Char) (rest : List Char) :
    Longest (c :: rest) (first c rest) ∨
      (∀ u k, Item u k → ¬ u <+: c :: rest) ∧
        (c = '"' ∧ first c rest = ⟨c :: rest, .fault .unclosedString⟩ ∨
          c ≠ '"' ∧ first c rest = ⟨[c], .fault (.strayCharacter c)⟩) := by
  cases h : Lead.ofChar c with
  | blank => exact .inl (longest_blank h)
  | digit => exact .inl (longest_digit h)
  | letter => exact .inl (longest_letter h)
  | quote =>
    obtain rfl := Lead.eq_of_ofChar h
    by_cases hclosed : '"' ∈ rest
    · exact .inl (longest_quote hclosed)
    · refine .inr ⟨fun u k hitem => not_isPrefix_of_unclosed hclosed hitem, .inl ⟨rfl, ?_⟩⟩
      rw [first_quote, quoted, if_neg hclosed]
  | mark =>
    have hquote : c ≠ '"' := by
      rintro rfl
      cases h
    by_cases hcomment : c = '/' ∧ rest.head? = some '/'
    · obtain ⟨rfl, hhead⟩ := hcomment
      exact .inl (longest_comment hhead)
    · rcases longest_symbol h hcomment with hlongest | ⟨hfirst, hnone⟩
      · exact .inl hlongest
      · exact .inr ⟨hnone, .inr ⟨hquote, hfirst⟩⟩

/-- An item that no longer one extends is the first segment of the text. -/
theorem first_eq_of_longest {s : Segment} (h : Longest (c :: rest) s) : first c rest = s := by
  rcases longest_first c rest with hlongest | ⟨hnone, -⟩
  · have hlength : (first c rest).text.length = s.text.length :=
      Nat.le_antisymm (h.longest _ _ hlongest.item hlongest.isPrefix)
        (hlongest.longest _ _ h.item h.isPrefix)
    have htext : (first c rest).text = s.text := by
      rw [List.prefix_iff_eq_take.1 hlongest.isPrefix, List.prefix_iff_eq_take.1 h.isPrefix,
        hlength]
    have hcontent : (first c rest).content = s.content :=
      hlongest.item.unique (htext ▸ h.item)
    cases hs : s
    cases hf : first c rest
    simp_all
  · exact absurd h.isPrefix (hnone _ _ h.item)

end Segment

/-- An item that no longer one extends is cut off as it is. -/
theorem segments_of_longest {later : List Char} {s : Segment} (h : Longest (s.text ++ later) s) :
    segments (s.text ++ later) = s :: segments later := by
  obtain ⟨c, tail, htext, -⟩ := h.item.lead_eq
  rw [htext, List.cons_append] at h ⊢
  rw [segments_cons, Segment.first_eq_of_longest h, htext, List.length_cons, Nat.add_sub_cancel,
    List.drop_left]

/-- Induction along the segments of a text. -/
@[elab_as_elim]
theorem segments_induction {motive : List Char → Prop} (nil : motive [])
    (cons : ∀ c rest later, c :: rest = (Segment.first c rest).text ++ later →
      segments (c :: rest) = Segment.first c rest :: segments later → motive later →
      motive (c :: rest))
    (text : List Char) : motive text := by
  fun_induction segments text with
  | case1 => exact nil
  | case2 c rest segment ih =>
    obtain ⟨tail, htext, later, rfl⟩ := Segment.text_first c rest
    have hlater : (tail ++ later).drop (segment.text.length - 1) = later := by
      rw [show segment.text = c :: tail from htext, List.length_cons, Nat.add_sub_cancel,
        List.drop_left]
    rw [hlater] at ih
    refine cons c (tail ++ later) later (by rw [htext]; rfl) ?_ ih
    rw [segments_cons, show Segment.first c (tail ++ later) = segment from rfl, hlater]

/-- Each segment is the first one of what is left of the text in front of it. -/
theorem exists_first_of_segments {text : List Char} {before later : List Segment} {s : Segment}
    (h : segments text = before ++ s :: later) :
    ∃ c rest, s.text ++ later.flatMap Segment.text = c :: rest ∧ s = Segment.first c rest := by
  induction before generalizing text with
  | nil =>
    have htext := flatMap_text_segments text
    cases text with
    | nil => rw [segments_nil] at h; cases h
    | cons c rest =>
      rw [h, List.nil_append, List.flatMap_cons] at htext
      rw [segments_cons] at h
      exact ⟨c, rest, htext, ((List.cons.inj h).1).symm⟩
  | cons first before ih =>
    cases text with
    | nil => rw [segments_nil] at h; cases h
    | cons c rest =>
      rw [segments_cons] at h
      exact ih (List.cons.inj h).2

/-- A text is cut into longest matches. The items of the grammar are its symbols, strings, numerals,
words, blanks and comments, each with its kind and its literal. Wherever a segment starts, it is the
longest item that the rest of the text starts with, and a token or a fault is found there if that is
what it is. Where no item starts, one character is at fault, or all that is left behind a quote. -/
theorem segments_longest_match {source : String} {before later : List Segment} {s : Segment}
    (h : segments source.toList = before ++ s :: later) :
    let place := Position.behind (before.flatMap Segment.text)
    let remaining := s.text ++ later.flatMap Segment.text
    source.toList = before.flatMap Segment.text ++ remaining ∧
      (Longest remaining s ∧ (∀ k, Item s.text k → k = s.content) ∨
        (∀ u k, Item u k → ¬ u <+: remaining) ∧
          (remaining.head? = some '"' ∧ s = ⟨remaining, .fault .unclosedString⟩ ∨
            ∃ c, c ≠ '"' ∧ remaining.head? = some c ∧ s = ⟨[c], .fault (.strayCharacter c)⟩)) ∧
      (∀ kind literal, s.content = .token kind literal →
        ⟨kind, String.ofList s.text, literal, place⟩ ∈ (Lexed.ofText source).tokens) ∧
      ∀ cause, s.content = .fault cause → ⟨place, cause⟩ ∈ (Lexed.ofText source).faults := by
  intro place remaining
  have hplaced : (place, s) ∈ placed .start (segments source.toList) := by
    rw [h, placed_append, Position.after_start]
    exact List.mem_append_right _ List.mem_cons_self
  obtain ⟨c, rest, hremaining, hfirst⟩ := exists_first_of_segments h
  refine ⟨?_, ?_, ?_, ?_⟩
  · rw [← flatMap_text_segments source.toList, h, List.flatMap_append, List.flatMap_cons]
  · rw [show remaining = c :: rest from hremaining]
    rcases Segment.longest_first c rest with hlongest | ⟨hnone, hfault⟩
    · rw [← hfirst] at hlongest
      exact .inl ⟨hlongest, fun k hk => hk.unique hlongest.item⟩
    · rw [← hfirst] at hfault
      refine .inr ⟨hnone, ?_⟩
      rcases hfault with ⟨rfl, hs⟩ | ⟨hne, hs⟩
      · exact .inl ⟨rfl, hs⟩
      · exact .inr ⟨c, hne, rfl, hs⟩
  · intro kind literal hcontent
    exact List.mem_filterMap.2 ⟨_, hplaced, by simp [Segment.token?, hcontent]⟩
  · intro cause hcontent
    exact List.mem_filterMap.2 ⟨_, hplaced, by simp [Segment.fault?, hcontent]⟩

/-- A point without a digit behind it is no part of a number. -/
theorem segments_longest_match_point :
    segments "4.".toList = [Segment.number '4' ['.'], ⟨['.'], .token (.symbol .dot) none⟩] ∧
      (Segment.number '4' ['.']).text = ['4'] ∧
      ⟨.symbol .dot, ".", none, ⟨1, 2⟩⟩ ∈ (Lexed.ofText "4.").tokens := by
  have h : segments "4.".toList =
      [Segment.number '4' ['.']] ++ ⟨['.'], .token (.symbol .dot) none⟩ :: [] := by
    show segments ['4', '.'] = _
    rw [segments_cons]
    show Segment.number '4' ['.'] :: segments ['.'] = _
    rw [segments_cons]
    show _ :: ⟨['.'], .token (.symbol .dot) none⟩ :: segments [] = _
    rw [segments_nil]
    rfl
  exact ⟨h, rfl, (segments_longest_match h).2.2.1 _ _ rfl⟩

end LoxSyntax
