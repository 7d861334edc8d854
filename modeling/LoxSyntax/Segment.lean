import LoxSyntax.Fault
import LoxSyntax.Token

/-!
The lexical grammar. A text is cut from left to right into segments, each the longest that can
start where the one before it ends: lexemes, blanks, comments, and the faults, which are a
character that starts nothing and a string that is never closed. Letters and digits are those of
ASCII alone. The segments of a text, put together again, are the text.
-/

namespace LoxSyntax

/-- What a segment is, and for a token all that does not depend on where it stands. -/
inductive Content
  | token (kind : Kind) (literal : Option Literal)
  | blank
  | comment
  | fault (cause : LexicalFault)
  deriving DecidableEq

structure Segment where
  text : List Char
  content : Content
  deriving DecidableEq

def isBlank (c : Char) : Bool := c == ' ' || c == '\r' || c == '\t' || c == '\n'

def isNameStart (c : Char) : Bool := c.isAlpha || c == '_'

def isNamePart (c : Char) : Bool := isNameStart c || c.isDigit

/-- The digits behind a point. A point without a digit behind it is no part of a number. -/
def fraction : List Char → List Char
  | '.' :: rest => rest.takeWhile Char.isDigit
  | _ => []

namespace Segment

def number (c : Char) (rest : List Char) : Segment :=
  let whole := c :: rest.takeWhile Char.isDigit
  let fraction := fraction (rest.dropWhile Char.isDigit)
  let point := if fraction.isEmpty then [] else ['.']
  ⟨whole ++ point ++ fraction,
    .token .number (some (.number (.ofDecimal (.ofDigits whole fraction))))⟩

/-- Reserved words are no identifiers. -/
def nameKind (name : String) : Kind :=
  match Word.ofSpelling? name with
  | some w => .word w
  | none => .identifier

def name (c : Char) (rest : List Char) : Segment :=
  let text := c :: rest.takeWhile isNamePart
  ⟨text, .token (nameKind (String.ofList text)) none⟩

/-- A string ends at the next quote, whatever stands before it; without one it takes all. -/
def quoted (rest : List Char) : Segment :=
  let body := rest.takeWhile (· ≠ '"')
  if '"' ∈ rest then
    ⟨'"' :: body ++ ['"'], .token .string (some (.string (String.ofList body)))⟩
  else ⟨'"' :: rest, .fault .unclosedString⟩

def comment (rest : List Char) : Segment := ⟨'/' :: rest.takeWhile (· ≠ '\n'), .comment⟩

/-- A symbol has at most two characters, and two are preferred to one. -/
def symbol (c : Char) (rest : List Char) : Segment :=
  let pair := c :: rest.take 1
  match Symbol.ofSpelling? (String.ofList pair), Symbol.ofSpelling? (String.ofList [c]) with
  | some s, _ => ⟨pair, .token (.symbol s) none⟩
  | none, some s => ⟨[c], .token (.symbol s) none⟩
  | none, none => ⟨[c], .fault (.strayCharacter c)⟩

/-- The first segment of the text `c :: rest`. -/
def first (c : Char) (rest : List Char) : Segment :=
  if isBlank c then ⟨[c], .blank⟩
  else if c.isDigit then number c rest
  else if isNameStart c then name c rest
  else if c = '"' then quoted rest
  else if c = '/' ∧ rest.head? = some '/' then comment rest
  else symbol c rest

end Segment

def segments : List Char → List Segment
  | [] => []
  | c :: rest =>
    let segment := Segment.first c rest
    segment :: segments (rest.drop (segment.text.length - 1))
termination_by text => text.length

@[simp] theorem segments_nil : segments [] = [] := by rw [segments]

theorem segments_cons (c : Char) (rest : List Char) :
    segments (c :: rest) =
      Segment.first c rest :: segments (rest.drop ((Segment.first c rest).text.length - 1)) := by
  rw [segments]

private theorem fraction_isPrefix (rest : List Char) :
    (if (fraction rest).isEmpty then [] else ['.']) ++ fraction rest <+: rest := by
  unfold fraction
  split
  · split
    · rename_i hempty
      rw [List.isEmpty_iff.1 hempty]
      exact List.nil_prefix
    · exact (List.prefix_cons_inj '.').2 (List.takeWhile_prefix _)
  · exact List.nil_prefix

private theorem closedBody_isPrefix (rest : List Char) (h : '"' ∈ rest) :
    rest.takeWhile (· ≠ '"') ++ ['"'] <+: rest := by
  induction rest with
  | nil => simp at h
  | cons c rest ih =>
    by_cases hc : c = '"'
    · subst c
      exact ⟨rest, by simp⟩
    · have hrest : '"' ∈ rest := (List.mem_cons.1 h).resolve_left (Ne.symm hc)
      rw [List.takeWhile_cons_of_pos (by simpa using hc), List.cons_append]
      exact (List.prefix_cons_inj c).2 (ih hrest)

/-- A segment starts with the first character of the text and goes on as the text does. -/
theorem Segment.text_first (c : Char) (rest : List Char) :
    ∃ tail, (first c rest).text = c :: tail ∧ tail <+: rest := by
  unfold first
  split
  · exact ⟨[], rfl, List.nil_prefix⟩
  split
  · refine ⟨rest.takeWhile Char.isDigit ++ (_ ++ fraction (rest.dropWhile Char.isDigit)),
      List.append_assoc _ _ _, ?_⟩
    have htail := fraction_isPrefix (rest.dropWhile Char.isDigit)
    have hrest := (List.prefix_append_right_inj (rest.takeWhile Char.isDigit)).2 htail
    rwa [List.takeWhile_append_dropWhile] at hrest
  split
  · exact ⟨_, rfl, List.takeWhile_prefix _⟩
  split
  · rename_i hquote
    subst hquote
    unfold quoted
    split
    · rename_i hclosed
      exact ⟨_, rfl, closedBody_isPrefix rest hclosed⟩
    · exact ⟨rest, rfl, List.prefix_rfl⟩
  split
  · rename_i hslash
    obtain ⟨rfl, -⟩ := hslash
    exact ⟨_, rfl, List.takeWhile_prefix _⟩
  unfold symbol
  dsimp only
  split
  · exact ⟨_, rfl, List.take_prefix 1 rest⟩
  · exact ⟨[], rfl, List.nil_prefix⟩
  · exact ⟨[], rfl, List.nil_prefix⟩

/-- No segment is an end mark. -/
theorem Segment.content_first_ne (c : Char) (rest : List Char) (literal : Option Literal) :
    (first c rest).content ≠ .token .endMark literal := by
  unfold first
  split
  · simp
  split
  · simp [number]
  split
  · simp only [name, nameKind]
    split
    · simp
    · simp
  split
  · unfold quoted
    split
    · simp
    · simp
  split
  · simp [comment]
  unfold symbol
  dsimp only
  split
  · simp
  · simp
  · simp

/-- The segments of a text, put together again, are the text. -/
theorem flatMap_text_segments (text : List Char) :
    (segments text).flatMap Segment.text = text := by
  fun_induction segments text with
  | case1 => rfl
  | case2 c rest segment ih =>
    obtain ⟨tail, htext, remainder, rfl⟩ := Segment.text_first c rest
    simp only [segment] at ih ⊢
    rw [htext, List.length_cons, Nat.add_sub_cancel, List.drop_left] at ih
    rw [htext, List.length_cons, Nat.add_sub_cancel, List.drop_left, List.flatMap_cons, ih, htext,
      List.cons_append]

theorem mem_segments {text : List Char} {s : Segment} (h : s ∈ segments text) :
    ∃ c rest, s = Segment.first c rest := by
  fun_induction segments text with
  | case1 => cases h
  | case2 c rest segment ih =>
    rcases List.mem_cons.1 h with rfl | hlater
    · exact ⟨c, rest, rfl⟩
    · exact ih hlater

end LoxSyntax
