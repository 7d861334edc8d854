import Mathlib
import LoxSyntax.Proofs.Numerals

/-!
The items of a text, class by class: symbols, strings, numerals, words, blanks and comments. What
an item is follows from its text, and its class follows from its first character, but for the
slash, which starts a symbol and comments. How far an item goes when more follows is not said here.
-/

namespace LoxSyntax

/-- A text that is one item, and what it is. -/
inductive Item : List Char → Content → Prop
  | symbol (s : Symbol) : Item s.spelling.toList (.token (.symbol s) none)
  | string {body : List Char} (h : '"' ∉ body) :
      Item ('"' :: body ++ ['"']) (.token .string (some (.string (String.ofList body))))
  | number {text : List Char} {value : Double} (h : Numeral text)
      (hvalue : Double.ofText? text = some value) :
      Item text (.token .number (some (.number value)))
  | reserved (w : Word) : Item w.spelling.toList (.token (.word w) none)
  | identifier {c : Char} {rest : List Char} (hc : isNameStart c = true)
      (hrest : ∀ d ∈ rest, isNamePart d = true)
      (hfree : ∀ w : Word, w.spelling.toList ≠ c :: rest) :
      Item (c :: rest) (.token .identifier none)
  | blank {c : Char} (h : isBlank c = true) : Item [c] .blank
  | comment {body : List Char} (h : '\n' ∉ body) : Item ('/' :: '/' :: body) .comment

theorem isBlank_iff {c : Char} : isBlank c = true ↔ c = ' ' ∨ c = '\r' ∨ c = '\t' ∨ c = '\n' := by
  simp [isBlank, or_assoc]

/-- What the first character of an item says about its class. -/
inductive Lead
  | blank
  | digit
  | letter
  | quote
  | mark
  deriving DecidableEq

def Lead.ofChar (c : Char) : Lead :=
  if isBlank c then .blank
  else if c.isDigit then .digit
  else if isNameStart c then .letter
  else if c = '"' then .quote
  else .mark

def Content.lead : Content → Lead
  | .token (.symbol _) _ => .mark
  | .token .string _ => .quote
  | .token .number _ => .digit
  | .token _ _ => .letter
  | .blank => .blank
  | .comment => .mark
  | .fault _ => .mark

namespace Lead

variable {c : Char}

theorem ofChar_of_isBlank (h : isBlank c = true) : ofChar c = .blank := if_pos h

theorem not_blank_of_isDigit (h : c.isDigit = true) : ¬ isBlank c = true := by
  intro hblank
  revert h
  rcases isBlank_iff.1 hblank with rfl | rfl | rfl | rfl <;> decide

theorem not_blank_of_isNameStart (h : isNameStart c = true) : ¬ isBlank c = true := by
  intro hblank
  revert h
  rcases isBlank_iff.1 hblank with rfl | rfl | rfl | rfl <;> decide

theorem not_isDigit_of_isNameStart (h : isNameStart c = true) : ¬ c.isDigit = true := by
  simp only [isNameStart, Bool.or_eq_true, beq_iff_eq] at h
  rcases h with halpha | rfl
  · grind [Char.isAlpha, Char.isUpper, Char.isLower, Char.isDigit]
  · decide

theorem ofChar_of_isDigit (h : c.isDigit = true) : ofChar c = .digit := by
  rw [ofChar, if_neg (not_blank_of_isDigit h), if_pos h]

theorem ofChar_of_isNameStart (h : isNameStart c = true) : ofChar c = .letter := by
  rw [ofChar, if_neg (not_blank_of_isNameStart h), if_neg (not_isDigit_of_isNameStart h),
    if_pos h]

theorem isBlank_of_ofChar (h : ofChar c = .blank) : isBlank c = true := by
  unfold ofChar at h
  grind

theorem isDigit_of_ofChar (h : ofChar c = .digit) : c.isDigit = true := by
  unfold ofChar at h
  grind

theorem isNameStart_of_ofChar (h : ofChar c = .letter) : isNameStart c = true := by
  unfold ofChar at h
  grind

theorem eq_of_ofChar (h : ofChar c = .quote) : c = '"' := by
  unfold ofChar at h
  grind

end Lead

theorem Symbol.lead_spelling (s : Symbol) :
    ∃ c rest, s.spelling.toList = c :: rest ∧ rest.length ≤ 1 ∧ Lead.ofChar c = .mark := by
  cases s <;> exact ⟨_, _, rfl, by decide, by decide⟩

/-- No symbol starts as comments do. -/
theorem Symbol.spelling_ne_comment (s : Symbol) (body : List Char) :
    s.spelling.toList ≠ '/' :: '/' :: body := by
  intro h
  have htwo : s.spelling.toList.take 2 = ['/', '/'] := by rw [h]; rfl
  revert htwo
  cases s <;> decide

theorem Word.name_spelling (w : Word) :
    ∃ c rest, w.spelling.toList = c :: rest ∧ isNameStart c = true ∧
      ∀ d ∈ rest, isNamePart d = true := by
  cases w <;> exact ⟨_, _, rfl, by decide, List.all_eq_true.1 rfl⟩

namespace Segment

theorem nameKind_spelling (w : Word) : nameKind (String.ofList w.spelling.toList) = .word w := by
  rw [nameKind, String.ofList_toList, Word.ofSpelling?_eq_some_iff.2 rfl]

theorem nameKind_of_free {text : List Char} (h : ∀ w : Word, w.spelling.toList ≠ text) :
    nameKind (String.ofList text) = .identifier := by
  unfold nameKind
  split
  · rename_i w hw
    have hspelling := congrArg String.toList (Word.ofSpelling?_eq_some_iff.1 hw)
    rw [String.toList_ofList] at hspelling
    exact absurd hspelling (h w)
  · rfl

end Segment

namespace Item

variable {text : List Char} {k k' : Content}

/-- No item is empty, and its class is that of its first character. -/
theorem lead_eq (h : Item text k) : ∃ c rest, text = c :: rest ∧ Lead.ofChar c = k.lead := by
  cases h with
  | symbol s =>
    obtain ⟨c, rest, hspelling, -, hlead⟩ := s.lead_spelling
    exact ⟨c, rest, hspelling, hlead⟩
  | @string body _ => exact ⟨'"', body ++ ['"'], rfl, rfl⟩
  | number hnumeral _ =>
    obtain ⟨c, rest, rfl, hc⟩ := hnumeral.exists_isDigit
    exact ⟨c, rest, rfl, Lead.ofChar_of_isDigit hc⟩
  | reserved w =>
    obtain ⟨c, rest, hspelling, hc, -⟩ := w.name_spelling
    exact ⟨c, rest, hspelling, Lead.ofChar_of_isNameStart hc⟩
  | @identifier c rest hc _ _ => exact ⟨c, rest, rfl, Lead.ofChar_of_isNameStart hc⟩
  | @blank c hc => exact ⟨c, [], rfl, Lead.ofChar_of_isBlank hc⟩
  | @comment body _ => exact ⟨'/', '/' :: body, rfl, rfl⟩

theorem of_blank (h : Item text k) (hk : k.lead = .blank) :
    k = .blank ∧ ∃ c, isBlank c = true ∧ text = [c] := by
  cases h with
  | blank hc => exact ⟨rfl, _, hc, rfl⟩
  | symbol | string | number | reserved | identifier | comment => cases hk

theorem of_digit (h : Item text k) (hk : k.lead = .digit) :
    Numeral text ∧ ∃ value, Double.ofText? text = some value ∧
      k = .token .number (some (.number value)) := by
  cases h with
  | number hnumeral hvalue => exact ⟨hnumeral, _, hvalue, rfl⟩
  | symbol | string | reserved | identifier | blank | comment => cases hk

theorem of_letter (h : Item text k) (hk : k.lead = .letter) :
    k = .token (Segment.nameKind (String.ofList text)) none ∧ ∃ c rest, text = c :: rest ∧
      isNameStart c = true ∧ ∀ d ∈ rest, isNamePart d = true := by
  cases h with
  | reserved w => exact ⟨by rw [Segment.nameKind_spelling], w.name_spelling⟩
  | identifier hc hrest hfree =>
    exact ⟨by rw [Segment.nameKind_of_free hfree], _, _, rfl, hc, hrest⟩
  | symbol | string | number | blank | comment => cases hk

theorem of_quote (h : Item text k) (hk : k.lead = .quote) :
    ∃ body, '"' ∉ body ∧ text = '"' :: body ++ ['"'] ∧
      k = .token .string (some (.string (String.ofList body))) := by
  cases h with
  | string hbody => exact ⟨_, hbody, rfl, rfl⟩
  | symbol | number | reserved | identifier | blank | comment => cases hk

theorem of_mark (h : Item text k) (hk : k.lead = .mark) :
    (∃ s, text = s.spelling.toList ∧ k = .token (.symbol s) none) ∨
      ∃ body, '\n' ∉ body ∧ text = '/' :: '/' :: body ∧ k = .comment := by
  cases h with
  | symbol s => exact .inl ⟨s, rfl, rfl⟩
  | comment hbody => exact .inr ⟨_, hbody, rfl, rfl⟩
  | string | number | reserved | identifier | blank => cases hk

/-- What an item is follows from its text. -/
theorem unique (h : Item text k) (h' : Item text k') : k = k' := by
  obtain ⟨c, rest, htext, hlead⟩ := h.lead_eq
  obtain ⟨c', rest', htext', hlead'⟩ := h'.lead_eq
  rw [htext] at htext'
  cases htext'
  have hsame : k'.lead = k.lead := hlead'.symm.trans hlead
  cases hk : k.lead with
  | blank => rw [(h.of_blank hk).1, (h'.of_blank (hsame.trans hk)).1]
  | digit =>
    obtain ⟨-, value, hvalue, rfl⟩ := h.of_digit hk
    obtain ⟨-, value', hvalue', rfl⟩ := h'.of_digit (hsame.trans hk)
    rw [hvalue] at hvalue'
    cases hvalue'
    rfl
  | letter => rw [(h.of_letter hk).1, (h'.of_letter (hsame.trans hk)).1]
  | quote =>
    obtain ⟨body, -, hbody, rfl⟩ := h.of_quote hk
    obtain ⟨body', -, hbody', rfl⟩ := h'.of_quote (hsame.trans hk)
    rw [hbody] at hbody'
    rw [List.append_cancel_right (List.cons.inj hbody').2]
  | mark =>
    rcases h.of_mark hk with ⟨s, hs, rfl⟩ | ⟨body, -, hbody, rfl⟩
    · rcases h'.of_mark (hsame.trans hk) with ⟨s', hs', rfl⟩ | ⟨body', -, hbody', rfl⟩
      · rw [Symbol.spelling_injective (String.toList_injective (hs.symm.trans hs'))]
      · exact absurd (hs.symm.trans hbody') (s.spelling_ne_comment body')
    · rcases h'.of_mark (hsame.trans hk) with ⟨s', hs', rfl⟩ | ⟨body', -, hbody', rfl⟩
      · exact absurd (hs'.symm.trans hbody) (s'.spelling_ne_comment body)
      · rfl

end Item

end LoxSyntax
