import Mathlib
import LoxSyntax.Proofs.Places
import LoxSyntax.TextSession

/-!
Cursors by the characters that they have passed. These settle everything that a cursor shows: its
byte offset, its place and what lies ahead of it, whatever it has been asked and however often it
has been set back. So the offsets of cursors lie between characters, and a piece of the text can be
cut out between two cursors exactly if they stand in order.
-/

namespace LoxSyntax

section Slices

/-- Behind the bytes of one text and within those of a longer one lie the bytes of what it adds. -/
theorem extract_toByteArray (before piece later : String) :
    (before ++ piece ++ later).toByteArray.extract before.utf8ByteSize
      (before ++ piece).utf8ByteSize = piece.toByteArray := by
  have hbytes : (before ++ piece ++ later).toByteArray =
      before.toByteArray ++ (piece.toByteArray ++ later.toByteArray) := by
    rw [String.toByteArray_append, String.toByteArray_append, ByteArray.append_assoc]
  have hstop : (before ++ piece).utf8ByteSize =
      before.toByteArray.size + piece.toByteArray.size := by
    rw [String.utf8ByteSize_append, String.size_toByteArray, String.size_toByteArray]
  have hbehind := ByteArray.extract_append_size_add (a := before.toByteArray)
    (b := piece.toByteArray ++ later.toByteArray) (i := 0) (j := piece.toByteArray.size)
  rw [Nat.add_zero, ByteArray.extract_append_eq_left rfl] at hbehind
  rw [hbytes, hstop, ← String.size_toByteArray, hbehind]

theorem slice?_append (before piece later : String) :
    slice? (before ++ piece ++ later) before.utf8ByteSize (before ++ piece).utf8ByteSize =
      some piece := by
  have hstart : String.Pos.Raw.IsValid (before ++ piece ++ later) before.rawEndPos :=
    String.Pos.Raw.isValid_iff_exists_append.2 ⟨before, piece ++ later, String.append_assoc, rfl⟩
  have hstop : String.Pos.Raw.IsValid (before ++ piece ++ later) (before ++ piece).rawEndPos :=
    String.Pos.Raw.isValid_iff_exists_append.2 ⟨before ++ piece, later, rfl, rfl⟩
  have hle : before.utf8ByteSize ≤ (before ++ piece).utf8ByteSize := by
    rw [String.utf8ByteSize_append]
    exact Nat.le_add_right _ _
  unfold slice?
  rw [dif_pos ⟨hstart, hstop, hle⟩]
  refine congrArg some (String.toByteArray_inj.1 ?_)
  rw [String.toByteArray_extract]
  exact extract_toByteArray before piece later

theorem slice?_eq_none {text : String} {start stop : Nat} (h : stop < start) :
    slice? text start stop = none := by
  unfold slice?
  rw [dif_neg]
  rintro ⟨-, -, hle⟩
  omega

/-- Of two beginnings of a text the one with fewer bytes begins the other. -/
theorem isPrefix_of_utf8ByteSize_le {u v text : List Char} (hu : u <+: text) (hv : v <+: text)
    (h : (String.ofList u).utf8ByteSize ≤ (String.ofList v).utf8ByteSize) : u <+: v := by
  rcases List.prefix_or_prefix_of_prefix hu hv with huv | ⟨w, rfl⟩
  · exact huv
  · rw [String.ofList_append, String.utf8ByteSize_append] at h
    have hsize : (String.ofList w).utf8ByteSize = 0 := by omega
    have hempty : String.ofList w = "" := String.utf8ByteSize_eq_zero_iff.1 hsize
    obtain rfl : w = [] := by simpa using congrArg String.toList hempty
    exact ⟨[], (List.append_nil _).trans (List.append_nil v)⟩

end Slices

/-- The characters that a question accepts, of those to come. -/
def TextQuestion.accepted (ahead : List Char) : TextQuestion → List Char
  | peek => []
  | peekNext => []
  | advance => ahead.take 1
  | eat c => if ahead.head? = some c then [c] else []
  | skipWhile p => ahead.takeWhile p
  | count => ahead

/-- What a question is answered in front of the characters to come. -/
def TextQuestion.response (ahead : List Char) : TextQuestion → TextResponse
  | peek => .character ahead[0]?
  | peekNext => .character ahead[1]?
  | advance => .character ahead[0]?
  | eat c => .flag (ahead.head? = some c)
  | skipWhile _ => .done
  | count => .number ahead.length

theorem TextQuestion.accepted_append_drop (question : TextQuestion) (ahead : List Char) :
    question.accepted ahead ++ ahead.drop (question.accepted ahead).length = ahead := by
  have hprefix : question.accepted ahead <+: ahead := by
    cases question with
    | peek => exact List.nil_prefix
    | peekNext => exact List.nil_prefix
    | advance => exact List.take_prefix 1 ahead
    | eat c =>
      unfold accepted
      dsimp only
      split
      · rename_i hhead
        obtain ⟨rest, rfl⟩ := List.head?_eq_some_iff.1 hhead
        exact ⟨rest, rfl⟩
      · exact List.nil_prefix
    | skipWhile p => exact List.takeWhile_prefix p
    | count => exact List.prefix_rfl
  exact List.prefix_iff_eq_append.1 hprefix

namespace TextCursor

/-- The cursor that has passed `pre` and has `post` ahead of it. -/
def between (pre post : List Char) : TextCursor :=
  ⟨String.ofList (pre ++ post), post, .behind pre⟩

variable {pre post : List Char}

theorem ofText_eq_between (text : String) : ofText text = between [] text.toList := by
  rw [ofText, between, List.nil_append, String.ofList_toList]
  rfl

theorem offset_between (pre post : List Char) :
    (between pre post).offset = (String.ofList pre).utf8ByteSize := by
  rw [offset, between, String.ofList_append, String.utf8ByteSize_append]
  exact Nat.add_sub_cancel _ _

theorem advance_between_cons (pre : List Char) (c : Char) (post : List Char) :
    (between pre (c :: post)).advance = between (pre ++ [c]) post := by
  change (⟨String.ofList (pre ++ c :: post), post, (Position.behind pre).next c⟩ : TextCursor) = _
  rw [Position.next_behind, between, List.append_assoc, List.singleton_append]

theorem advance_between (pre post : List Char) :
    (between pre post).advance = between (pre ++ post.take 1) (post.drop 1) := by
  cases post with
  | nil => rw [List.take_nil, List.drop_nil, List.append_nil]; rfl
  | cons c post => exact advance_between_cons pre c post

theorem skipWhile_between (p : Char → Bool) (pre post : List Char) :
    (between pre post).skipWhile p = between (pre ++ post.takeWhile p) (post.dropWhile p) := by
  induction post generalizing pre with
  | nil =>
    have hend : ¬ (between pre []).peek.any p = true := Bool.false_ne_true
    rw [skipWhile, dif_neg hend, List.takeWhile_nil, List.dropWhile_nil, List.append_nil]
  | cons c post ih =>
    have hnext : (between pre (c :: post)).peek.any p = p c := rfl
    rw [skipWhile]
    by_cases hc : p c = true
    · rw [dif_pos (hnext.trans hc), advance_between_cons, ih, List.takeWhile_cons_of_pos hc,
        List.dropWhile_cons_of_pos hc, List.append_assoc, List.singleton_append]
    · rw [dif_neg (hnext ▸ hc), List.takeWhile_cons_of_neg hc, List.dropWhile_cons_of_neg hc,
        List.append_nil]

theorem count_between (pre post : List Char) :
    (between pre post).count = (post.length, between (pre ++ post) []) := by
  induction post generalizing pre with
  | nil =>
    have hend : ¬ (between pre []).peek.isSome = true := Bool.false_ne_true
    rw [count, dif_neg hend, List.append_nil, List.length_nil]
  | cons c post ih =>
    have hnext : (between pre (c :: post)).peek.isSome = true := rfl
    rw [count, dif_pos hnext, advance_between_cons, ih, List.append_assoc, List.singleton_append,
      List.length_cons]

theorem eat?_between (c : Char) (pre post : List Char) :
    (between pre post).eat? c =
      if post.head? = some c then some (between (pre ++ [c]) (post.drop 1)) else none := by
  have hpeek : (between pre post).peek = post.head? := List.head?_eq_getElem?.symm
  unfold eat?
  rw [hpeek]
  by_cases hhead : post.head? = some c
  · obtain ⟨rest, rfl⟩ := List.head?_eq_some_iff.1 hhead
    rw [if_pos hhead, if_pos hhead, advance_between_cons, List.drop_one, List.tail_cons]
  · rw [if_neg hhead, if_neg hhead]

/-- A question moves a cursor over what it accepts, and over nothing else. -/
theorem answer_between (question : TextQuestion) (pre post : List Char) :
    (between pre post).answer question =
      (question.response post, between (pre ++ question.accepted post)
        (post.drop (question.accepted post).length)) := by
  have hstays : between (pre ++ []) (post.drop 0) = between pre post := by
    rw [List.append_nil, List.drop_zero]
  cases question with
  | peek => exact congrArg (Prod.mk _) hstays.symm
  | peekNext => exact congrArg (Prod.mk _) hstays.symm
  | advance =>
    change (_, (between pre post).advance) = (_, between (pre ++ post.take 1) (post.drop _))
    rw [advance_between]
    cases post with
    | nil => rfl
    | cons c rest => rfl
  | eat c =>
    simp only [answer, eat?_between, TextQuestion.response, TextQuestion.accepted]
    by_cases hhead : post.head? = some c
    · rw [if_pos hhead, if_pos hhead, decide_eq_true hhead]
      rfl
    · rw [if_neg hhead, if_neg hhead, decide_eq_false hhead]
      exact congrArg (Prod.mk _) hstays.symm
  | skipWhile p =>
    change (TextResponse.done, (between pre post).skipWhile p) = (TextResponse.done, _)
    have hrest : post.drop (post.takeWhile p).length = post.dropWhile p :=
      calc post.drop (post.takeWhile p).length
          = (post.takeWhile p ++ post.dropWhile p).drop (post.takeWhile p).length := by
            rw [List.takeWhile_append_dropWhile]
        _ = post.dropWhile p := List.drop_left
    rw [skipWhile_between, ← hrest]
    rfl
  | count =>
    change (TextResponse.number (between pre post).count.1, (between pre post).count.2) =
      (TextResponse.number post.length, between (pre ++ post) (post.drop post.length))
    rw [count_between, List.drop_length]

/-- What a cursor in `source` shows that has passed `pre` and has `post` ahead of it. -/
structure Stands (source : String) (pre post : List Char) (cursor : TextCursor) : Prop where
  source_eq : cursor.source = source
  split : source.toList = pre ++ post
  ahead_eq : cursor.ahead = post
  offset_eq : cursor.offset = (String.ofList pre).utf8ByteSize
  line_eq : cursor.position.line = 1 + pre.count '\n'
  col_eq : cursor.position.col = 1 + (pre.reverse.takeWhile (· ≠ '\n')).length
  peek_eq : cursor.peek = post[0]?
  peekNext_eq : cursor.peekNext = post[1]?

theorem stands_between {source : String} (h : source.toList = pre ++ post) :
    Stands source pre post (between pre post) where
  source_eq := by rw [between, ← h, String.ofList_toList]
  split := h
  ahead_eq := rfl
  offset_eq := offset_between pre post
  line_eq := rfl
  col_eq := rfl
  peek_eq := rfl
  peekNext_eq := rfl

/-- What a question does to a cursor is told by what the cursor has passed and what lies ahead. -/
theorem stands_answer {source : String} {cursor : TextCursor} (hsplit : source.toList = pre ++ post)
    (hcursor : cursor = between pre post) (question : TextQuestion) :
    (cursor.answer question).1 = question.response post ∧
      ∃ rest, post = question.accepted post ++ rest ∧
        Stands source (pre ++ question.accepted post) rest (cursor.answer question).2 := by
  have hrest := question.accepted_append_drop post
  rw [hcursor, answer_between]
  refine ⟨rfl, _, hrest.symm, stands_between ?_⟩
  rw [List.append_assoc, hrest, hsplit]

/-- A cursor that can stand in `source`. -/
def Within (source : String) (cursor : TextCursor) : Prop :=
  ∃ pre post, source.toList = pre ++ post ∧ cursor = between pre post

theorem Within.answer {source : String} {cursor : TextCursor} (h : cursor.Within source)
    (question : TextQuestion) : (cursor.answer question).2.Within source := by
  obtain ⟨pre, post, hsplit, rfl⟩ := h
  refine ⟨_, _, ?_, congrArg Prod.snd (answer_between question pre post)⟩
  rw [hsplit, List.append_assoc, question.accepted_append_drop]

end TextCursor

namespace TextSession

theorem after_cons (action : TextAction) (later : List TextAction) (session : TextSession) :
    session.after (action :: later) = (session.act action).2.after later := rfl

theorem after_append (earlier later : List TextAction) (session : TextSession) :
    session.after (earlier ++ later) = (session.after earlier).after later := by
  induction earlier generalizing session with
  | nil => rfl
  | cons action earlier ih => exact ih (session.act action).2

/-- A session whose cursor and marks stand in `source`. -/
structure Within (source : String) (session : TextSession) : Prop where
  current : session.current.Within source
  marks : ∀ cursor ∈ session.marks, cursor.Within source

variable {source : String} {session : TextSession}

theorem within_start (source : String) : (start source).Within source where
  current := ⟨[], source.toList, rfl, TextCursor.ofText_eq_between source⟩
  marks := fun _ hmem => nomatch hmem

theorem Within.act (h : session.Within source) (action : TextAction) :
    (session.act action).2.Within source := by
  cases action with
  | ask question => exact ⟨h.current.answer question, h.marks⟩
  | mark =>
    refine ⟨h.current, fun cursor hmem => ?_⟩
    rcases List.mem_append.1 hmem with hold | hnew
    · exact h.marks cursor hold
    · rw [List.mem_singleton.1 hnew]
      exact h.current
  | reset number =>
    refine ⟨?_, h.marks⟩
    change (session.marks[number]?.getD session.current).Within source
    cases hmark : session.marks[number]? with
    | none => exact h.current
    | some cursor => exact h.marks cursor (List.mem_of_getElem? hmark)

theorem Within.after (h : session.Within source) (actions : List TextAction) :
    (session.after actions).Within source := by
  induction actions generalizing session with
  | nil => exact h
  | cons action later ih => exact ih (h.act action)

/-- Marks are only added, and only by marking. -/
theorem marks_act (action : TextAction) (session : TextSession) :
    (session.act action).2.marks =
      session.marks ++ if action.isMark then [session.current] else [] := by
  cases action with
  | ask question => exact (List.append_nil session.marks).symm
  | mark => rfl
  | reset number => exact (List.append_nil session.marks).symm

theorem exists_marks_after (actions : List TextAction) (session : TextSession) :
    ∃ more, (session.after actions).marks = session.marks ++ more ∧
      more.length = actions.countP TextAction.isMark := by
  induction actions generalizing session with
  | nil => exact ⟨[], (List.append_nil session.marks).symm, rfl⟩
  | cons action later ih =>
    obtain ⟨more, hmarks, hlength⟩ := ih (session.act action).2
    rw [marks_act, List.append_assoc] at hmarks
    refine ⟨_, hmarks, ?_⟩
    rw [List.length_append, hlength, List.countP_cons]
    cases action.isMark with
    | true => exact Nat.add_comm _ _
    | false => exact Nat.zero_add _

/-- The marks of a session are the cursors that it had when they were made. -/
theorem getElem?_marks_after (earlier later : List TextAction) (source : String) :
    ((start source).after (earlier ++ .mark :: later)).marks[earlier.countP TextAction.isMark]? =
      some ((start source).after earlier).current := by
  obtain ⟨more, hmarks, hlength⟩ := exists_marks_after earlier (start source)
  obtain ⟨rest, hlater, -⟩ :=
    exists_marks_after later (((start source).after earlier).act .mark).2
  replace hmarks : ((start source).after earlier).marks = more := hmarks
  rw [marks_act, hmarks] at hlater
  rw [after_append, after_cons, hlater, ← hlength, TextAction.isMark, if_pos rfl,
    List.append_assoc, List.getElem?_append_right (Nat.le_refl _), Nat.sub_self]
  rfl

/-- Set back to a mark, the cursor is as it was when the mark was made. -/
theorem current_reset (earlier later : List TextAction) (source : String) :
    (((start source).after (earlier ++ .mark :: later)).act
        (.reset (earlier.countP TextAction.isMark))).2.current =
      ((start source).after earlier).current := by
  change (TextSession.marks _)[_]?.getD _ = _
  rw [getElem?_marks_after]
  rfl

end TextSession

namespace TextCursor

/-- A cursor that a session in `source` can come to. -/
def Reached (source : String) (cursor : TextCursor) : Prop :=
  ∃ actions, ((TextSession.start source).after actions).current = cursor

theorem Reached.within {source : String} {cursor : TextCursor} (h : cursor.Reached source) :
    cursor.Within source := by
  obtain ⟨actions, rfl⟩ := h
  exact ((TextSession.within_start source).after actions).current

theorem Within.isValid_offset {source : String} {cursor : TextCursor} (h : cursor.Within source) :
    String.Pos.Raw.IsValid source ⟨cursor.offset⟩ := by
  obtain ⟨pre, post, hsplit, rfl⟩ := h
  refine String.Pos.Raw.isValid_iff_exists_append.2 ⟨String.ofList pre, String.ofList post, ?_, ?_⟩
  · rw [← String.ofList_append, ← hsplit, String.ofList_toList]
  · rw [offset_between]
    rfl

/-- What lies between two cursors is what the further one has passed in addition. -/
theorem textTo?_between (pre piece post : List Char) :
    (between pre (piece ++ post)).textTo? (between (pre ++ piece) post) =
      some (String.ofList piece) := by
  have hsource : (between pre (piece ++ post)).source = (between (pre ++ piece) post).source := by
    rw [between, between, List.append_assoc]
  rw [textTo?, if_pos hsource, offset_between, offset_between, hsource, between,
    String.ofList_append, String.ofList_append]
  exact slice?_append _ _ _

variable {source : String} {a b c : TextCursor}

theorem textTo?_eq_none (h : b.offset < a.offset) : a.textTo? b = none := by
  unfold textTo?
  rw [slice?_eq_none h, ite_self]

/-- A cursor that stands no earlier has passed all that the other one has, and maybe more. -/
theorem Within.exists_piece {cursor : TextCursor} (h : cursor.Within source)
    (hsplit : source.toList = pre ++ post) (hle : (between pre post).offset ≤ cursor.offset) :
    ∃ piece rest, post = piece ++ rest ∧ cursor = between (pre ++ piece) rest := by
  obtain ⟨passed, rest, hpassed, rfl⟩ := h
  rw [offset_between, offset_between] at hle
  obtain ⟨piece, rfl⟩ : pre <+: passed :=
    isPrefix_of_utf8ByteSize_le ⟨post, hsplit.symm⟩ ⟨rest, hpassed.symm⟩ hle
  refine ⟨piece, rest, ?_, rfl⟩
  rw [hsplit, List.append_assoc] at hpassed
  exact List.append_cancel_left hpassed

theorem Within.exists_textTo?_iff (ha : a.Within source) (hb : b.Within source) :
    (∃ text, a.textTo? b = some text) ↔ a.offset ≤ b.offset := by
  constructor
  · rintro ⟨text, htext⟩
    refine Nat.le_of_not_lt fun hlt => ?_
    rw [textTo?_eq_none hlt] at htext
    cases htext
  · intro hle
    obtain ⟨pre, post, hsplit, rfl⟩ := ha
    obtain ⟨piece, rest, rfl, rfl⟩ := hb.exists_piece hsplit hle
    exact ⟨_, textTo?_between pre piece rest⟩

theorem Within.stands_of_textTo? (ha : a.Within source) (hb : b.Within source) {text : String}
    (h : a.textTo? b = some text) :
    ∃ pre post, Stands source pre (text.toList ++ post) a ∧
      Stands source (pre ++ text.toList) post b := by
  have hle : a.offset ≤ b.offset := (ha.exists_textTo?_iff hb).1 ⟨text, h⟩
  obtain ⟨pre, post, hsplit, rfl⟩ := ha
  obtain ⟨piece, rest, rfl, rfl⟩ := hb.exists_piece hsplit hle
  rw [textTo?_between] at h
  cases h
  rw [String.toList_ofList]
  refine ⟨pre, rest, stands_between hsplit, stands_between ?_⟩
  rw [hsplit, List.append_assoc]

theorem Within.textTo?_append (ha : a.Within source) (hb : b.Within source)
    (hc : c.Within source) (hab : a.offset ≤ b.offset) (hbc : b.offset ≤ c.offset) :
    ∃ x y, a.textTo? b = some x ∧ b.textTo? c = some y ∧ a.textTo? c = some (x ++ y) := by
  obtain ⟨pre, post, hsplit, rfl⟩ := ha
  obtain ⟨first, rest, rfl, rfl⟩ := hb.exists_piece hsplit hab
  have hsplit' : source.toList = pre ++ first ++ rest := by rw [hsplit, List.append_assoc]
  obtain ⟨second, last, rfl, rfl⟩ := hc.exists_piece hsplit' hbc
  refine ⟨_, _, textTo?_between pre first _, textTo?_between (pre ++ first) second last, ?_⟩
  rw [List.append_assoc, ← List.append_assoc first, textTo?_between, String.ofList_append]

/-- Whatever a session in a text has been asked, its cursor is settled by the characters that it has
passed. A question moves it over exactly the characters that the question accepts, a mark leaves it
where it is, and set back to a mark it is as it was there. The offsets of cursors lie between
characters; from one cursor to another the text can be cut out exactly if the other one does not
stand in front of it, it is then the text between them, and neighbouring pieces add up. -/
theorem settled_by_passed (source : String) :
    (∀ actions, let session := (TextSession.start source).after actions
      ∃ pre post, Stands source pre post session.current ∧
        (∀ question, (session.act (.ask question)).1 = question.response post ∧
          ∃ rest, post = question.accepted post ++ rest ∧
            Stands source (pre ++ question.accepted post) rest
              (session.act (.ask question)).2.current) ∧
        (session.act .mark).2.current = session.current) ∧
    (∀ earlier later,
      (((TextSession.start source).after (earlier ++ .mark :: later)).act
          (.reset (earlier.countP TextAction.isMark))).2.current =
        ((TextSession.start source).after earlier).current) ∧
    ∀ a b, Reached source a → Reached source b →
      String.Pos.Raw.IsValid source ⟨a.offset⟩ ∧
      ((∃ text, a.textTo? b = some text) ↔ a.offset ≤ b.offset) ∧
      (∀ text, a.textTo? b = some text → ∃ pre post,
        Stands source pre (text.toList ++ post) a ∧ Stands source (pre ++ text.toList) post b) ∧
      ∀ c, Reached source c → a.offset ≤ b.offset → b.offset ≤ c.offset →
        ∃ x y, a.textTo? b = some x ∧ b.textTo? c = some y ∧ a.textTo? c = some (x ++ y) := by
  refine ⟨fun actions => ?_, fun earlier later => TextSession.current_reset earlier later source,
    fun a b ha hb => ⟨ha.within.isValid_offset, ha.within.exists_textTo?_iff hb.within,
      fun text => ha.within.stands_of_textTo? hb.within,
      fun c hc => ha.within.textTo?_append hb.within hc.within⟩⟩
  obtain ⟨pre, post, hsplit, hcurrent⟩ :=
    ((TextSession.within_start source).after actions).current
  dsimp only
  refine ⟨pre, post, hcurrent ▸ stands_between hsplit, fun question => ?_, rfl⟩
  exact stands_answer hsplit hcurrent question

/-- The first character has two bytes. The second cursor was at the end of the text before it was
set back to its mark. -/
theorem settled_by_passed_umlaut :
    ∃ a b c, Reached "ä\nb" a ∧ Reached "ä\nb" b ∧ Reached "ä\nb" c ∧
      a.offset = 0 ∧ b.offset = 3 ∧ c.offset = 4 ∧ a.textTo? b = some "ä\n" ∧
      ∃ y, b.textTo? c = some y ∧ a.textTo? c = some ("ä\n" ++ y) := by
  have ha : Reached "ä\nb" ⟨"ä\nb", ['ä', '\n', 'b'], ⟨1, 1⟩⟩ := ⟨[], by cbv⟩
  have hb : Reached "ä\nb" ⟨"ä\nb", ['b'], ⟨2, 1⟩⟩ :=
    ⟨[.ask .advance, .mark, .ask .count, .reset 0, .ask (.eat '\n')], by cbv⟩
  have hc : Reached "ä\nb" ⟨"ä\nb", [], ⟨2, 2⟩⟩ := ⟨[.ask .count], by cbv⟩
  obtain ⟨-, -, hstands, hsum⟩ := (settled_by_passed "ä\nb").2.2 _ _ ha hb
  obtain ⟨x, y, hx, hy, hxy⟩ := hsum _ hc (by cbv) (by cbv)
  obtain ⟨pre, post, hbefore, hbehind⟩ := hstands x hx
  have hpost : ['b'] = post := hbehind.ahead_eq
  have hahead : ['ä', '\n'] ++ ['b'] = x.toList ++ post := hbefore.ahead_eq
  rw [← hpost] at hahead
  have hpiece : x = "ä\n" := String.toList_inj.1 (List.append_cancel_right hahead).symm
  subst hpiece
  exact ⟨_, _, _, ha, hb, hc, by cbv, by cbv, by cbv, hx, y, hy, hxy⟩

end TextCursor

end LoxSyntax
