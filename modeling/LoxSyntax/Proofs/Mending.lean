import LoxSyntax.Proofs.Regions

/-!
Texts with the stray characters taken out. The faults of a text are one for each character that is
outside strings and comments and starts nothing, and one for the quote that is never closed, which
stands last. With spaces in place of the stray characters every place and every region stays what it
was, so only the quote is still at fault.
-/

namespace LoxSyntax

variable {r : Region} {p : Position} {c : Char} {text : List Char} {report : Report LexicalFault}
  {d : Diagnostic LexicalFault}

namespace Region

theorem faultAt?_position {later : List Char} (h : r.faultAt? p c later = some d) :
    d.position = p := by
  rcases (faultAt?_eq_some_iff.1 h).2 with ⟨-, -, rfl⟩ | ⟨-, rfl⟩
  · rfl
  · rfl

/-- Faults are found in the order of their places. -/
theorem pairwise_faults (r : Region) (p : Position) (text : List Char) :
    (r.faults p text).Pairwise fun a b => a.position.Precedes b.position := by
  induction text generalizing r p with
  | nil => exact .nil
  | cons c rest ih =>
    refine List.pairwise_append.2 ⟨?_, ih (r.next c) (p.next c), ?_⟩
    · cases r.faultAt? p c rest with
      | none => exact .nil
      | some d => exact List.pairwise_singleton _ d
    · intro a ha b hb
      obtain ⟨before, e, later, -, hfault⟩ := mem_faults_iff.1 hb
      rw [faultAt?_position (Option.mem_toList.1 ha), faultAt?_position hfault,
        ← Position.after_cons]
      exact Position.precedes_after p (List.cons_ne_nil c before)

/-- All that follows a quote that is never closed is part of the string. -/
theorem exists_strays (r : Region) (p : Position) (text : List Char) :
    ∃ strays opened, r.faults p text = strays ++ opened ∧
      (∀ d ∈ strays, d.cause ≠ .unclosedString) ∧
      (opened = [] ∨ ∃ q, opened = [⟨q, .unclosedString⟩]) := by
  induction text generalizing r p with
  | nil => exact ⟨[], [], rfl, by simp, .inl rfl⟩
  | cons c rest ih =>
    obtain ⟨strays, opened, hlater, hstrays, hopened⟩ := ih (r.next c) (p.next c)
    rw [faults, hlater]
    cases hfault : r.faultAt? p c rest with
    | none => exact ⟨strays, opened, rfl, hstrays, hopened⟩
    | some d =>
      obtain ⟨houtside, ⟨rfl, hclosed, rfl⟩ | ⟨-, rfl⟩⟩ := faultAt?_eq_some_iff.1 hfault
      · have hnext : r.next '"' = string := by
          rcases houtside with rfl | rfl
          · rfl
          · rfl
        rw [hnext, faults_string_eq_nil hclosed] at hlater
        rw [← hlater]
        exact ⟨[], _, rfl, by simp, .inr ⟨p, rfl⟩⟩
      · refine ⟨⟨p, .strayCharacter c⟩ :: strays, opened, rfl, ?_, hopened⟩
        intro d hd
        rcases List.mem_cons.1 hd with rfl | hd
        · exact LexicalFault.noConfusion
        · exact hstrays d hd

end Region

/-- The text with a space in place of every character that is reported as stray. -/
def mended (report : Report LexicalFault) (p : Position) : List Char → List Char
  | [] => []
  | c :: rest =>
    (if ⟨p, .strayCharacter c⟩ ∈ report then ' ' else c) :: mended report (p.next c) rest

/-- A text as it is read when spaces stand in place of its stray characters. -/
def Lexed.ofMended (source : String) : Lexed :=
  ofText (String.ofList (mended (ofText source).faults .start source.toList))

theorem mem_quote_mended (h : ∀ q, ⟨q, .strayCharacter '"'⟩ ∉ report) :
    '"' ∈ mended report p text ↔ '"' ∈ text := by
  induction text generalizing p with
  | nil => rfl
  | cons c rest ih =>
    rw [mended, List.mem_cons, List.mem_cons, ih]
    by_cases hstray : ⟨p, .strayCharacter c⟩ ∈ report
    · have hquote : '"' ≠ c := by
        rintro rfl
        exact h p hstray
      simp [hstray, hquote]
    · rw [if_neg hstray]

namespace Region

theorem faultAt?_congr {a b : List Char} (h : '"' ∈ a ↔ '"' ∈ b) :
    r.faultAt? p c a = r.faultAt? p c b := by
  simp only [faultAt?, h]

/-- A space leaves the region and the next place what the stray character made them. -/
theorem next_of_not_begins (houtside : r.Outside) (hbegins : ¬ Begins c) :
    r.next ' ' = r.next c ∧ p.next ' ' = p.next c := by
  obtain ⟨hnewline, hslash, hquote⟩ := ne_of_not_begins hbegins
  constructor
  · rw [next_eq_code houtside hslash hquote, next_eq_code houtside (by decide) (by decide)]
  · rw [Position.next, Position.next, if_neg hnewline]
    rfl

/-- When the stray characters are mended, only the unclosed string is left of the faults. -/
theorem faults_mended (hquote : ∀ q, ⟨q, .strayCharacter '"'⟩ ∉ report)
    (h : ∀ before c later, text = before ++ c :: later →
      (⟨p.after before, .strayCharacter c⟩ ∈ report ↔
        (before.foldl next r).Outside ∧ ¬ Begins c)) :
    r.faults p (mended report p text) =
      (r.faults p text).filter (·.cause = .unclosedString) := by
  induction text generalizing r p with
  | nil => rfl
  | cons c rest ih =>
    have hhere : ⟨p, .strayCharacter c⟩ ∈ report ↔ r.Outside ∧ ¬ Begins c := h [] c rest rfl
    have hlater := @ih (r.next c) (p.next c) fun before e later hsplit =>
      h (c :: before) e later (congrArg (List.cons c) hsplit)
    rw [faults, List.filter_append, ← hlater, mended]
    by_cases hstray : r.Outside ∧ ¬ Begins c
    · obtain ⟨hregion, hplace⟩ := next_of_not_begins (p := p) hstray.1 hstray.2
      have hspace : Begins ' ' := ⟨[], _, .blank rfl⟩
      rw [if_pos (hhere.2 hstray), faults, faultAt?_of_begins hspace (by decide), hregion, hplace,
        faultAt?_eq_some_iff.2 ⟨hstray.1, .inr ⟨hstray.2, rfl⟩⟩]
      rfl
    · rw [if_neg (fun hmem => hstray (hhere.1 hmem)), faults,
        faultAt?_congr (mem_quote_mended hquote)]
      congr 1
      cases hfault : r.faultAt? p c rest with
      | none => rfl
      | some d =>
        obtain ⟨houtside, ⟨-, -, rfl⟩ | ⟨hbegins, -⟩⟩ := faultAt?_eq_some_iff.1 hfault
        · rfl
        · exact absurd ⟨houtside, hbegins⟩ hstray

end Region

namespace Lexed

theorem mem_faults_iff :
    d ∈ (ofChars text).faults ↔ ∃ before c later, text = before ++ c :: later ∧
      (Region.behind before).faultAt? (.behind before) c later = some d := by
  rw [faults_eq, Region.mem_faults_iff]
  simp only [Position.after_start, Region.behind]

theorem stray_mem_faults_iff :
    ⟨p, .strayCharacter c⟩ ∈ (ofChars text).faults ↔
      ∃ before later, text = before ++ c :: later ∧ p = .behind before ∧
        (Region.behind before).Outside ∧ ¬ Begins c := by
  rw [mem_faults_iff]
  constructor
  · rintro ⟨before, e, later, rfl, hfault⟩
    obtain ⟨houtside, ⟨-, -, hd⟩ | ⟨hbegins, hd⟩⟩ := Region.faultAt?_eq_some_iff.1 hfault
    · exact nomatch congrArg Diagnostic.cause hd
    · obtain ⟨hp, hc⟩ := Diagnostic.mk.inj hd
      rw [LexicalFault.strayCharacter.inj hc]
      exact ⟨before, later, rfl, hp, houtside, hbegins⟩
  · rintro ⟨before, later, rfl, rfl, houtside, hbegins⟩
    exact ⟨before, c, later, rfl,
      Region.faultAt?_eq_some_iff.2 ⟨houtside, .inr ⟨hbegins, rfl⟩⟩⟩

theorem unclosed_mem_faults_iff :
    ⟨p, .unclosedString⟩ ∈ (ofChars text).faults ↔
      ∃ before body, text = before ++ '"' :: body ∧ p = .behind before ∧
        (Region.behind before).Outside ∧ '"' ∉ body := by
  rw [mem_faults_iff]
  constructor
  · rintro ⟨before, e, body, rfl, hfault⟩
    obtain ⟨houtside, ⟨rfl, hclosed, hd⟩ | ⟨-, hd⟩⟩ := Region.faultAt?_eq_some_iff.1 hfault
    · exact ⟨before, body, rfl, congrArg Diagnostic.position hd, houtside, hclosed⟩
    · exact nomatch congrArg Diagnostic.cause hd
  · rintro ⟨before, body, rfl, rfl, houtside, hclosed⟩
    exact ⟨before, '"', body, rfl,
      Region.faultAt?_eq_some_iff.2 ⟨houtside, .inl ⟨rfl, hclosed, rfl⟩⟩⟩

theorem pairwise_faults (text : List Char) :
    (ofChars text).faults.Pairwise fun a b => a.position.Precedes b.position := by
  rw [faults_eq]
  exact Region.pairwise_faults .code .start text

/-- Of the characters of a text only one stands at a given place. -/
theorem stray_mem_faults_iff_of_split {before later : List Char} (h : text = before ++ c :: later) :
    ⟨.behind before, .strayCharacter c⟩ ∈ (ofChars text).faults ↔
      (Region.behind before).Outside ∧ ¬ Begins c := by
  rw [stray_mem_faults_iff]
  constructor
  · rintro ⟨other, rest, hother, hplace, hstray⟩
    rw [Position.eq_of_behind_eq ⟨_, h.symm⟩ ⟨_, hother.symm⟩ hplace]
    exact hstray
  · intro hstray
    exact ⟨before, later, h, rfl, hstray⟩

theorem faults_ofMended (source : String) :
    (ofMended source).faults = (ofText source).faults.filter (·.cause = .unclosedString) := by
  rw [ofMended, ofText, ofText, String.toList_ofList, faults_eq (mended _ _ _),
    Region.faults_mended, ← faults_eq]
  · intro q hmem
    obtain ⟨-, -, -, -, -, hbegins⟩ := stray_mem_faults_iff.1 hmem
    exact hbegins begins_quote
  · intro before c later hsplit
    rw [Position.after_start]
    exact stray_mem_faults_iff_of_split hsplit

/-- The stray characters of a text, and its unclosed string, which is left when it is mended. -/
theorem exists_strays (source : String) :
    ∃ strays opened, (ofText source).faults = strays ++ opened ∧
      (ofMended source).faults = opened ∧ (∀ d ∈ strays, d.cause ≠ .unclosedString) ∧
      (opened = [] ∨ ∃ q, opened = [⟨q, .unclosedString⟩]) := by
  obtain ⟨strays, opened, hfaults, hstrays, hopened⟩ :=
    Region.exists_strays .code .start source.toList
  rw [← faults_eq] at hfaults
  change (ofText source).faults = strays ++ opened at hfaults
  refine ⟨strays, opened, hfaults, ?_, hstrays, hopened⟩
  have hnone : strays.filter (·.cause = .unclosedString) = [] :=
    List.filter_eq_nil_iff.2 fun d hd => by simpa using hstrays d hd
  rw [faults_ofMended, hfaults, List.filter_append, hnone, List.nil_append]
  rcases hopened with rfl | ⟨q, rfl⟩
  · rfl
  · rfl

theorem result_of_faults_ne_nil {lexed : Lexed} (h : lexed.faults ≠ []) :
    lexed.result = .error lexed.faults :=
  if_neg fun hempty => h (List.isEmpty_iff.1 hempty)

end Lexed

/-- All faults of a text and no others, in the order of their places. There is one for each
character that is outside strings and comments and that no item starts with, and one for a quote
outside of them that no other follows, which stands last. -/
structure ExactFaults (text : List Char) (report : Report LexicalFault) : Prop where
  stray : ∀ p c, ⟨p, .strayCharacter c⟩ ∈ report ↔
    ∃ before later, text = before ++ c :: later ∧ p = .behind before ∧
      (Region.behind before).Outside ∧ ¬ Begins c
  unclosed : ∀ p, ⟨p, .unclosedString⟩ ∈ report ↔
    ∃ before body, text = before ++ '"' :: body ∧ p = .behind before ∧
      (Region.behind before).Outside ∧ '"' ∉ body
  ordered : report.Pairwise fun a b => a.position.Precedes b.position
  closing : ∀ d ∈ report, d.cause = .unclosedString → report.getLast? = some d

/-- The faults of a text are exact, and it has tokens if there are none. The mended text has tokens
too, but for an unclosed string, which is still reported where it was, and alone. -/
theorem lexical_faults_exact (source : String) :
    ExactFaults source.toList (Lexed.ofText source).faults ∧
      ((∃ tokens, (Lexed.ofText source).result = .ok tokens) ↔ (Lexed.ofText source).faults = []) ∧
      ((Lexed.ofText source).faults ≠ [] →
        (Lexed.ofText source).result = .error (Lexed.ofText source).faults) ∧
      ((∀ d ∈ (Lexed.ofText source).faults, d.cause ≠ .unclosedString) →
        ∃ tokens, (Lexed.ofMended source).result = .ok tokens) ∧
      ∀ d ∈ (Lexed.ofText source).faults, d.cause = .unclosedString →
        (Lexed.ofMended source).result = .error [d] := by
  obtain ⟨strays, opened, hreport, hother, hstrays, hopened⟩ := Lexed.exists_strays source
  have hlast : ∀ d ∈ (Lexed.ofText source).faults, d.cause = .unclosedString → opened = [d] := by
    intro d hd hcause
    rw [hreport] at hd
    have hd : d ∈ opened := (List.mem_append.1 hd).resolve_left fun hd => hstrays d hd hcause
    rcases hopened with rfl | ⟨q, rfl⟩
    · cases hd
    · rw [List.mem_singleton.1 hd]
  refine ⟨⟨fun p c => Lexed.stray_mem_faults_iff, fun p => Lexed.unclosed_mem_faults_iff,
    Lexed.pairwise_faults source.toList, ?_⟩, ?_, Lexed.result_of_faults_ne_nil, ?_, ?_⟩
  · intro d hd hcause
    rw [hreport, hlast d hd hcause, List.getLast?_concat]
  · constructor
    · rintro ⟨tokens, hok⟩
      exact (Lexed.result_eq_ok_iff.1 hok).1
    · intro hnil
      exact ⟨_, Lexed.result_eq_ok_iff.2 ⟨hnil, rfl⟩⟩
  · intro hclosed
    refine ⟨_, Lexed.result_eq_ok_iff.2 ⟨?_, rfl⟩⟩
    rcases hopened with rfl | ⟨q, rfl⟩
    · exact hother
    · exact absurd rfl (hclosed ⟨q, .unclosedString⟩ (by rw [hreport]; simp))
  · intro d hd hcause
    rw [hlast d hd hcause] at hother
    rw [Lexed.result_of_faults_ne_nil (by rw [hother]; exact List.cons_ne_nil d []), hother]

example : (Lexed.ofText "@ // #\n\"#\" # \"@").result =
    .error [⟨⟨1, 1⟩, .strayCharacter '@'⟩, ⟨⟨2, 5⟩, .strayCharacter '#'⟩,
      ⟨⟨2, 7⟩, .unclosedString⟩] := by cbv

end LoxSyntax
