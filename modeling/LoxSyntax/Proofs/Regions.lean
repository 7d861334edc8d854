import LoxSyntax.Proofs.Layout

/-!
Faults told from the characters of a text alone. What a character stands in, a string, a comment or
neither, is settled by the characters in front of it. Outside strings and comments a character that
no item starts with is at fault, and so is a quote that no other follows.
-/

namespace LoxSyntax

/-- What a place in a text lies in. Behind a slash it is still open whether a comment starts. -/
inductive Region
  | code
  | slash
  | comment
  | string
  deriving DecidableEq

namespace Region

def next : Region → Char → Region
  | code, c => if c = '/' then slash else if c = '"' then string else code
  | slash, c => if c = '/' then comment else if c = '"' then string else code
  | comment, c => if c = '\n' then code else comment
  | string, c => if c = '"' then code else string

/-- The region behind a text. -/
def behind (text : List Char) : Region := text.foldl next code

/-- Neither in a string nor in a comment. -/
def Outside (r : Region) : Prop := r = code ∨ r = slash

instance (r : Region) : Decidable r.Outside := inferInstanceAs (Decidable (_ ∨ _))

end Region

/-- Some item starts with the character, whatever else it takes. -/
def Begins (c : Char) : Prop := ∃ rest k, Item (c :: rest) k

theorem begins_quote : Begins '"' := ⟨['"'], _, .string List.not_mem_nil⟩

theorem Symbol.ofSpelling?_take_one (s : Symbol) :
    (Symbol.ofSpelling? (String.ofList (s.spelling.toList.take 1))).isSome := by
  cases s <;> decide

/-- Blanks, digits and letters are items by themselves. -/
theorem Item.singleton {c : Char}
    (h : Lead.ofChar c = .blank ∨ Lead.ofChar c = .digit ∨ Lead.ofChar c = .letter) :
    ∃ k, Item [c] k := by
  rcases h with hblank | hdigit | hletter
  · exact ⟨_, .blank (Lead.isBlank_of_ofChar hblank)⟩
  · exact ⟨_, @Segment.item_number c [] (Lead.isDigit_of_ofChar hdigit)⟩
  · exact ⟨_, .name (Lead.isNameStart_of_ofChar hletter) fun d hd => nomatch hd⟩

/-- But for a quote, a character that starts an item is an item by itself. -/
theorem begins_iff {c : Char} : Begins c ↔ c = '"' ∨ ∃ k, Item [c] k := by
  constructor
  · rintro ⟨rest, k, hitem⟩
    cases hlead : Lead.ofChar c with
    | blank => exact .inr (Item.singleton (.inl hlead))
    | digit => exact .inr (Item.singleton (.inr (.inl hlead)))
    | letter => exact .inr (Item.singleton (.inr (.inr hlead)))
    | quote => exact .inl (Lead.eq_of_ofChar hlead)
    | mark =>
      have hk : k.lead = .mark := (hitem.of_isPrefix List.prefix_rfl).1.trans hlead
      rcases hitem.of_mark hk with ⟨s, hs, -⟩ | ⟨body, -, hcomment, -⟩
      · obtain ⟨short, hshort⟩ := Option.isSome_iff_exists.1 s.ofSpelling?_take_one
        rw [← hs] at hshort
        exact .inr ⟨_, Segment.item_of_ofSpelling? hshort⟩
      · cases hcomment
        exact .inr ⟨_, .symbol .slash⟩
  · rintro (rfl | ⟨k, hitem⟩)
    · exact begins_quote
    · exact ⟨[], k, hitem⟩

/-- What starts nothing closes no line and opens neither a comment nor a string. -/
theorem ne_of_not_begins {c : Char} (h : ¬ Begins c) : c ≠ '\n' ∧ c ≠ '/' ∧ c ≠ '"' := by
  refine ⟨?_, ?_, ?_⟩
  · rintro rfl
    exact h ⟨[], _, .blank rfl⟩
  · rintro rfl
    exact h ⟨[], _, .symbol .slash⟩
  · rintro rfl
    exact h begins_quote

theorem Item.ne_fault {text : List Char} {k : Content} {cause : LexicalFault} (h : Item text k) :
    k ≠ .fault cause := by
  cases h <;> exact Content.noConfusion

theorem begins_iff_first {c : Char} :
    Begins c ↔ Segment.first c [] ≠ ⟨[c], .fault (.strayCharacter c)⟩ := by
  rcases Segment.longest_first c [] with hlongest | ⟨hnone, ⟨rfl, hfirst⟩ | ⟨hquote, hfirst⟩⟩
  · refine iff_of_true ?_ fun hfirst => ?_
    · obtain ⟨tail, htext, -⟩ := Segment.text_first c []
      exact ⟨tail, _, htext ▸ hlongest.item⟩
    · exact hlongest.item.ne_fault (by rw [hfirst])
  · refine iff_of_true begins_quote ?_
    rw [hfirst]
    simp
  · refine iff_of_false (fun hbegins => ?_) fun hne => hne hfirst
    obtain ⟨k, hitem⟩ := (begins_iff.1 hbegins).resolve_left hquote
    exact hnone _ _ hitem List.prefix_rfl

instance (c : Char) : Decidable (Begins c) := decidable_of_iff _ begins_iff_first.symm

/-- A character that starts an item and opens neither a string nor a comment. -/
structure Plain (c : Char) : Prop where
  begins : Begins c
  ne_slash : c ≠ '/'
  ne_quote : c ≠ '"'

theorem Plain.of_lead {c : Char}
    (h : Lead.ofChar c = .blank ∨ Lead.ofChar c = .digit ∨ Lead.ofChar c = .letter) :
    Plain c := by
  obtain ⟨k, hitem⟩ := Item.singleton h
  refine ⟨⟨[], k, hitem⟩, ?_, ?_⟩
  · rintro rfl
    revert h
    decide
  · rintro rfl
    revert h
    decide

theorem Plain.of_isDigit {c : Char} (h : c.isDigit = true) : Plain c :=
  .of_lead (.inr (.inl (Lead.ofChar_of_isDigit h)))

theorem Plain.of_isNameStart {c : Char} (h : isNameStart c = true) : Plain c :=
  .of_lead (.inr (.inr (Lead.ofChar_of_isNameStart h)))

theorem Plain.of_name {c : Char} {rest : List Char} (hc : isNameStart c = true)
    (hrest : ∀ d ∈ rest, isNamePart d = true) : ∀ d ∈ c :: rest, Plain d := by
  intro d hd
  rcases List.mem_cons.1 hd with rfl | hd
  · exact .of_isNameStart hc
  · rcases Bool.or_eq_true_iff.1 (hrest d hd) with hstart | hdigit
    · exact .of_isNameStart hstart
    · exact .of_isDigit hdigit

theorem Symbol.plain_spelling {s : Symbol} (h : s ≠ .slash) :
    ∀ c ∈ s.spelling.toList, Plain c := by
  have hall : (s.spelling.toList.all fun c => decide (Begins c ∧ c ≠ '/' ∧ c ≠ '"')) = true := by
    cases s with
    | slash => exact absurd rfl h
    | _ => decide
  intro c hc
  obtain ⟨hbegins, hslash, hquote⟩ := of_decide_eq_true (List.all_eq_true.1 hall c hc)
  exact ⟨hbegins, hslash, hquote⟩

namespace Region

/-- What is at fault at the character `c` in front of `later`. -/
def faultAt? (r : Region) (p : Position) (c : Char) (later : List Char) :
    Option (Diagnostic LexicalFault) :=
  if ¬ r.Outside then none
  else if c = '"' then if '"' ∈ later then none else some ⟨p, .unclosedString⟩
  else if Begins c then none
  else some ⟨p, .strayCharacter c⟩

/-- The faults of a text that starts at `p` in the region `r`. -/
def faults (r : Region) (p : Position) : List Char → Report LexicalFault
  | [] => []
  | c :: later => (r.faultAt? p c later).toList ++ (r.next c).faults (p.next c) later

variable {r : Region} {p : Position} {c : Char} {run later text : List Char}
  {d : Diagnostic LexicalFault}

theorem faultAt?_eq_some_iff :
    r.faultAt? p c later = some d ↔ r.Outside ∧
      (c = '"' ∧ '"' ∉ later ∧ d = ⟨p, .unclosedString⟩ ∨
        ¬ Begins c ∧ d = ⟨p, .strayCharacter c⟩) := by
  unfold faultAt?
  by_cases houtside : r.Outside
  · by_cases hquote : c = '"'
    · subst hquote
      by_cases hclosed : '"' ∈ later
      · simp [hclosed, begins_quote]
      · simp [houtside, hclosed, begins_quote, eq_comm]
    · by_cases hbegins : Begins c
      · simp [hquote, hbegins]
      · simp [houtside, hquote, hbegins, eq_comm]
  · simp [houtside]

theorem faultAt?_of_begins (hc : Begins c) (hquote : c ≠ '"') : r.faultAt? p c later = none := by
  refine Option.eq_none_iff_forall_ne_some.2 fun d hd => ?_
  rcases (faultAt?_eq_some_iff.1 hd).2 with ⟨hc, -⟩ | ⟨hnot, -⟩
  · exact hquote hc
  · exact hnot hc

theorem faultAt?_of_not_outside (h : ¬ r.Outside) : r.faultAt? p c later = none := if_pos h

/-- A fault is found at one of the characters, in the region behind those in front of it. -/
theorem mem_faults_iff :
    d ∈ r.faults p text ↔ ∃ before c later, text = before ++ c :: later ∧
      (before.foldl next r).faultAt? (p.after before) c later = some d := by
  induction text generalizing r p with
  | nil => simp [faults]
  | cons c rest ih =>
    rw [faults, List.mem_append, Option.mem_toList, ih]
    constructor
    · rintro (hhere | ⟨before, e, later, rfl, hthere⟩)
      · exact ⟨[], c, rest, rfl, hhere⟩
      · exact ⟨c :: before, e, later, rfl, hthere⟩
    · rintro ⟨before, e, later, hsplit, hfault⟩
      cases before with
      | nil =>
        cases hsplit
        exact .inl hfault
      | cons first before =>
        cases hsplit
        exact .inr ⟨before, e, later, rfl, hfault⟩

/-- A run that stays in its region and has no faults is passed over. -/
theorem faults_append (hrun : ∀ c ∈ run, r.next c = r ∧ ∀ p later, r.faultAt? p c later = none) :
    r.faults p (run ++ later) = r.faults (p.after run) later := by
  induction run generalizing p with
  | nil => rfl
  | cons c run ih =>
    obtain ⟨hnext, hnone⟩ := hrun c List.mem_cons_self
    rw [List.cons_append, faults, hnone, hnext,
      ih fun d hd => hrun d (List.mem_cons_of_mem c hd)]
    rfl

theorem next_eq_code (houtside : r.Outside) (hslash : c ≠ '/') (hquote : c ≠ '"') :
    r.next c = code := by
  rcases houtside with rfl | rfl
  · rw [next, if_neg hslash, if_neg hquote]
  · rw [next, if_neg hslash, if_neg hquote]

theorem faults_code_append (hrun : ∀ c ∈ run, Plain c) :
    code.faults p (run ++ later) = code.faults (p.after run) later := by
  refine faults_append fun c hc => ?_
  have hplain := hrun c hc
  exact ⟨next_eq_code (.inl rfl) hplain.ne_slash hplain.ne_quote,
    fun p later => faultAt?_of_begins hplain.begins hplain.ne_quote⟩

theorem faults_comment_append (hrun : '\n' ∉ run) :
    comment.faults p (run ++ later) = comment.faults (p.after run) later := by
  refine faults_append fun c hc => ⟨if_neg ?_, fun p later => faultAt?_of_not_outside (by decide)⟩
  rintro rfl
  exact hrun hc

theorem faults_string_append (hrun : '"' ∉ run) :
    string.faults p (run ++ later) = string.faults (p.after run) later := by
  refine faults_append fun c hc => ⟨if_neg ?_, fun p later => faultAt?_of_not_outside (by decide)⟩
  rintro rfl
  exact hrun hc

theorem faults_string_eq_nil (h : '"' ∉ text) : string.faults p text = [] := by
  rw [← List.append_nil text, faults_string_append h]
  rfl

/-- A slash opens a comment only in front of another. -/
theorem faults_slash (h : later.head? ≠ some '/') : slash.faults p later = code.faults p later := by
  cases later with
  | nil => rfl
  | cons c rest =>
    have hc : c ≠ '/' := fun heq => h (congrArg some heq)
    have hnext : slash.next c = code.next c := by simp only [next, hc, if_false]
    rw [faults, faults, hnext]
    rfl

/-- A newline closes a comment. -/
theorem faults_comment (h : ∀ c ∈ later.head?, c = '\n') :
    comment.faults p later = code.faults p later := by
  cases later with
  | nil => rfl
  | cons c rest =>
    obtain rfl : c = '\n' := h c rfl
    rfl

/-- An item that is not cut off before its end has no faults, and code goes on behind it. -/
theorem faults_item {s : Segment} (h : Longest (s.text ++ later) s) :
    code.faults p (s.text ++ later) = code.faults (p.after s.text) later := by
  obtain ⟨text, content⟩ := s
  have hitem : Item text content := h.item
  cases hitem with
  | symbol s =>
    by_cases hs : s = .slash
    · subst hs
      refine faults_slash fun hlater => ?_
      obtain ⟨more, rfl⟩ := List.head?_eq_some_iff.1 hlater
      exact absurd (h.longest ['/', '/'] _ (.comment List.not_mem_nil) ⟨more, rfl⟩) (by decide)
    · exact faults_code_append (Symbol.plain_spelling hs)
  | @string body hbody =>
    have hopening : code.faultAt? p '"' (body ++ ['"'] ++ later) = none := by simp [faultAt?]
    rw [List.cons_append, List.cons_append, faults, hopening, List.append_assoc]
    change string.faults _ _ = _
    rw [faults_string_append hbody, Position.after_cons, Position.after_append]
    rfl
  | number hnumeral _ =>
    refine faults_code_append fun c hc => ?_
    rcases hnumeral.isDigit_or_eq_point c hc with hdigit | rfl
    · exact .of_isDigit hdigit
    · exact Symbol.plain_spelling (s := .dot) (by decide) _ List.mem_cons_self
  | reserved w =>
    obtain ⟨c, rest, hspelling, hc, hrest⟩ := w.name_spelling
    exact faults_code_append (hspelling ▸ Plain.of_name hc hrest)
  | identifier hc hrest _ => exact faults_code_append (Plain.of_name hc hrest)
  | blank hc =>
    refine faults_code_append fun d hd => ?_
    rw [List.mem_singleton.1 hd]
    exact .of_lead (.inl (Lead.ofChar_of_isBlank hc))
  | @comment body hbody =>
    obtain ⟨-, hend⟩ := h.of_comment rfl rfl
    change comment.faults _ (body ++ later) = _
    rw [faults_comment_append hbody]
    exact faults_comment hend

theorem faults_unclosed (h : '"' ∉ text) :
    code.faults p ('"' :: text) = [⟨p, .unclosedString⟩] := by
  have hopening : code.faultAt? p '"' text = some ⟨p, .unclosedString⟩ :=
    faultAt?_eq_some_iff.2 ⟨.inl rfl, .inl ⟨rfl, h, rfl⟩⟩
  rw [faults, hopening]
  change _ ++ string.faults _ text = _
  rw [faults_string_eq_nil h]
  rfl

theorem faults_stray (h : ¬ Begins c) :
    code.faults p (c :: later) = ⟨p, .strayCharacter c⟩ :: code.faults (p.next c) later := by
  obtain ⟨-, hslash, hquote⟩ := ne_of_not_begins h
  have hstray : code.faultAt? p c later = some ⟨p, .strayCharacter c⟩ :=
    faultAt?_eq_some_iff.2 ⟨.inl rfl, .inr ⟨h, rfl⟩⟩
  rw [faults, hstray, next_eq_code (.inl rfl) hslash hquote]
  rfl

/-- The faults of a text are those of its first segment and those of the text behind it. -/
theorem faults_first {rest : List Char} (htext : c :: rest = (Segment.first c rest).text ++ later) :
    code.faults p (c :: rest) =
      ((Segment.first c rest).fault? p).toList ++
        code.faults (p.after (Segment.first c rest).text) later := by
  rcases Segment.longest_first c rest with hlongest | ⟨hnone, ⟨rfl, hfirst⟩ | ⟨hquote, hfirst⟩⟩
  · have hfault : (Segment.first c rest).fault? p = none := by
      unfold Segment.fault?
      split
      · rename_i hcontent
        exact absurd hcontent hlongest.item.ne_fault
      · rfl
    rw [hfault, Option.toList_none, List.nil_append]
    generalize Segment.first c rest = s at *
    rw [htext] at hlongest ⊢
    exact faults_item hlongest
  · rw [hfirst] at htext ⊢
    obtain rfl : later = [] := List.self_eq_append_right.1 htext
    refine faults_unclosed fun hclosed => ?_
    have hstring := Segment.longest_quote hclosed
    exact hnone _ _ hstring.item hstring.isPrefix
  · rw [hfirst] at htext ⊢
    obtain rfl : rest = later := (List.cons.inj htext).2
    refine faults_stray fun hbegins => ?_
    obtain ⟨k, hitem⟩ := (begins_iff.1 hbegins).resolve_left hquote
    exact hnone _ _ hitem ⟨rest, rfl⟩

/-- Cutting a text into segments finds the same faults. -/
theorem faults_segments (p : Position) (text : List Char) :
    ((placed p (segments text)).filterMap fun (p, s) => s.fault? p) = code.faults p text := by
  induction text using segments_induction generalizing p with
  | nil =>
    rw [segments_nil]
    rfl
  | cons c rest later htext hsegments ih =>
    rw [hsegments, placed, List.filterMap_cons, ih, faults_first htext]
    cases hfault : (Segment.first c rest).fault? p with
    | none => simp only [hfault, Option.toList_none, List.nil_append]
    | some d => simp only [hfault, Option.toList_some, List.singleton_append]

end Region

/-- The faults of a text are told from its characters, without cutting it into segments. -/
theorem Lexed.faults_eq (text : List Char) :
    (ofChars text).faults = Region.code.faults .start text := Region.faults_segments .start text

end LoxSyntax
