import LoxSyntax.Proofs.Streams
import LoxSyntax.TokenTape

/-!
Tapes and the streams they show. A tape shows a stream when its list is the stream put together
again, with anything behind the end mark, and its index is how far the stream has been read. Every
question to such a tape has an answer, which is the stream's, and it leaves the tape at what
becomes of the stream, with what has been read on the way written down.
-/

namespace LoxSyntax

/-- What has been read on two ways, one behind the other, is read on the way as a whole. -/
theorem TokenStream.After.consumedUntil_trans {s r q : TokenStream} {a b : List Token}
    (h : s.After a r) (g : r.After b q) :
    s.consumedUntil r ++ r.consumedUntil q = s.consumedUntil q := by
  unfold consumedUntil
  rw [h.readUntil_eq, g.readUntil_eq, (h.trans g).readUntil_eq, List.map_append]

theorem TokenStream.consumedUntil_self (s : TokenStream) : s.consumedUntil s = [] := by
  unfold consumedUntil
  rw [(After.refl s).readUntil_eq, List.map_nil]

/-- The first end mark settles the stream of a list. -/
theorem TokenStream.eq_of_ofTokens {before later : List Token} {mark : Token} {s : TokenStream}
    (h : ofTokens (before ++ mark :: later) = .ok s) (hbefore : ∀ t ∈ before, t.kind ≠ .endMark)
    (hmark : mark.kind = .endMark) : s = ⟨[], before, mark⟩ := by
  obtain ⟨hpast, -, rest, hrest, -⟩ := ofTokens_eq_ok h
  have hpending : s.pending = before := by
    rw [pending_eq_takeWhile h, List.takeWhile_append_of_pos (by simpa using hbefore),
      List.takeWhile_cons_of_neg (by simpa using hmark), List.append_nil]
  rw [hpending] at hrest
  obtain ⟨past, pending, endMark⟩ := s
  cases List.append_cancel_left hrest
  cases hpast
  cases hpending
  rfl

namespace TokenTape

/-- The tape when the stream that it shows, `s`, has become `r`. -/
def moved (tape : TokenTape) (s r : TokenStream) : TokenTape :=
  { tape with head := r.index, log := tape.log ++ s.consumedUntil r }

structure Shows (tape : TokenTape) (s : TokenStream) : Prop where
  proper : s.Proper
  head_eq : tape.head = s.index
  tokens_eq : ∃ later, tape.tokens = s.past.reverse ++ (s.pending ++ s.endMark :: later)

/-- The same lists make tapes as make streams. -/
theorem ofTokens_eq (tokens : List Token) :
    ofTokens tokens = (TokenStream.ofTokens tokens).map fun _ => ⟨tokens, 0, []⟩ := by
  unfold ofTokens TokenStream.ofTokens
  cases tokens.getLast? with
  | none => rfl
  | some last =>
    dsimp only
    split
    · rfl
    · rfl

theorem ofTokens_eq_ok_iff {tokens : List Token} {tape : TokenTape} :
    ofTokens tokens = .ok tape ↔
      tape = ⟨tokens, 0, []⟩ ∧ ∃ last, tokens.getLast? = some last ∧ last.kind = .endMark := by
  unfold ofTokens
  cases tokens.getLast? with
  | none => simp
  | some last =>
    by_cases hmark : last.kind = .endMark
    · simp [hmark, eq_comm]
    · simp [hmark]

/-- A tape on which nothing has happened shows the stream of its tokens. -/
theorem shows_of_ofTokens {tokens : List Token} {s : TokenStream}
    (h : TokenStream.ofTokens tokens = .ok s) : Shows ⟨tokens, 0, []⟩ s := by
  obtain ⟨hpast, hs, later, rfl, -⟩ := TokenStream.ofTokens_eq_ok h
  refine ⟨hs, ?_, later, ?_⟩
  · rw [TokenStream.index, hpast, List.length_nil]
  · rw [hpast, List.reverse_nil, List.nil_append]

theorem exists_shows_of_ofTokens {tokens : List Token} {tape : TokenTape}
    (h : ofTokens tokens = .ok tape) : ∃ s, TokenStream.ofTokens tokens = .ok s ∧ tape.Shows s := by
  obtain ⟨rfl, -⟩ := ofTokens_eq_ok_iff.1 h
  rw [ofTokens_eq] at h
  cases hs : TokenStream.ofTokens tokens with
  | error fault =>
    rw [hs] at h
    cases h
  | ok s => exact ⟨s, rfl, shows_of_ofTokens hs⟩

variable {tape : TokenTape} {s r q : TokenStream} {a b : List Token}

theorem Shows.moved (h : tape.Shows s) (hafter : s.After a r) : (tape.moved s r).Shows r where
  proper := hafter.proper h.proper
  head_eq := rfl
  tokens_eq := by
    obtain ⟨later, htokens⟩ := h.tokens_eq
    obtain ⟨hpending, hpast, hmark⟩ := hafter
    refine ⟨later, ?_⟩
    rw [TokenTape.moved, htokens, hpending, hpast, hmark, List.reverse_append, List.reverse_reverse]
    simp only [List.append_assoc]

theorem Shows.moved_self (h : tape.Shows s) : tape.moved s s = tape := by
  rw [TokenTape.moved, TokenStream.consumedUntil_self, List.append_nil, ← h.head_eq]

/-- What is written down has nothing to do with what is shown. -/
theorem Shows.note (h : tape.Shows s) (event : Event) : (tape.note event).Shows s :=
  ⟨h.proper, h.head_eq, h.tokens_eq⟩

theorem moved_moved (h : s.After a r) (g : r.After b q) :
    (tape.moved s r).moved r q = tape.moved s q := by
  unfold TokenTape.moved
  rw [List.append_assoc, h.consumedUntil_trans g]

/-- The list has a token for each that is still to come, and the end mark. -/
theorem Shows.length_pending_lt (h : tape.Shows s) : s.pending.length < tape.tokens.length := by
  obtain ⟨later, htokens⟩ := h.tokens_eq
  rw [htokens]
  simp only [List.length_append, List.length_cons]
  omega

/-- The index of a tape that shows a stream lies within its list. -/
theorem Shows.peek?_eq (h : tape.Shows s) : tape.peek? = some s.peek := by
  obtain ⟨later, htokens⟩ := h.tokens_eq
  have hlength : s.past.reverse.length = s.index := List.length_reverse
  rw [peek?, htokens, h.head_eq, List.getElem?_append_right (Nat.le_of_eq hlength), hlength,
    Nat.sub_self, TokenStream.peek]
  cases s.pending with
  | nil => rfl
  | cons t rest => rfl

theorem Shows.previous?_eq (h : tape.Shows s) : tape.previous? = some s.previous? := by
  obtain ⟨later, htokens⟩ := h.tokens_eq
  have hhead := h.head_eq
  unfold previous? TokenStream.previous?
  cases hpast : s.past with
  | nil =>
    rw [TokenStream.index, hpast, List.length_nil] at hhead
    rw [hhead]
    rfl
  | cons t earlier =>
    rw [TokenStream.index, hpast, List.length_cons] at hhead
    rw [hpast, List.reverse_cons, List.append_assoc] at htokens
    have hlength : earlier.reverse.length = earlier.length := List.length_reverse
    rw [hhead]
    dsimp only
    rw [htokens, List.getElem?_append_right (Nat.le_of_eq hlength), hlength, Nat.sub_self]
    rfl

theorem Shows.atEnd?_eq (h : tape.Shows s) : tape.atEnd? = some s.atEnd := by
  have hend : (s.peek.kind == Kind.endMark) = s.atEnd := by
    rw [Bool.eq_iff_iff, beq_iff_eq, h.proper.peek_eq_endMark_iff, TokenStream.atEnd,
      List.isEmpty_iff]
  rw [atEnd?, h.peek?_eq]
  exact congrArg some hend

theorem Shows.advance?_eq (h : tape.Shows s) :
    tape.advance? = some (s.peek, tape.moved s s.advance) := by
  unfold advance?
  rw [h.peek?_eq, h.atEnd?_eq]
  unfold TokenStream.atEnd
  cases hpending : s.pending with
  | nil =>
    have hstays : s.advance = s := by rw [TokenStream.advance, hpending]
    rw [hstays, h.moved_self]
    rfl
  | cons t rest =>
    have hafter : s.After [t] s.advance := TokenStream.after_advance hpending
    have hpeek : s.peek = t := hafter.peek_cons
    have hread : s.consumedUntil s.advance = [.consumed t] := by
      rw [TokenStream.consumedUntil, hafter.readUntil_eq, List.map_singleton]
    have hindex : s.advance.index = tape.head + 1 := by
      rw [hafter.index_eq, h.head_eq, List.length_singleton]
    rw [TokenTape.moved, hread, hindex, hpeek]
    rfl

theorem Shows.sees?_eq (h : tape.Shows s) (kind : Kind) :
    tape.sees? kind = some (s.sees [kind]) := by
  unfold sees?
  rw [h.peek?_eq, h.atEnd?_eq]
  unfold TokenStream.atEnd TokenStream.sees TokenStream.peek
  cases s.pending with
  | nil => rfl
  | cons t rest =>
    change some (t.kind == kind) = some ([kind].contains t.kind)
    rw [List.contains_cons, List.contains_nil, Bool.or_false]

theorem Shows.anyM_sees?_eq (h : tape.Shows s) (kinds : List Kind) :
    kinds.anyM tape.sees? = some (s.sees kinds) := by
  induction kinds with
  | nil =>
    unfold TokenStream.sees
    cases s.pending with
    | nil => rfl
    | cons t rest => rfl
  | cons kind kinds ih =>
    have hsees : s.sees (kind :: kinds) = (s.sees [kind] || s.sees kinds) := by
      unfold TokenStream.sees
      cases s.pending with
      | nil => rfl
      | cons t rest => simp
    rw [List.anyM, h.sees?_eq, hsees]
    cases s.sees [kind] with
    | true => rfl
    | false => exact ih

/-- A test for a token moves the tape only if it succeeds. -/
theorem Shows.take?_eq (h : tape.Shows s) (kinds : List Kind) :
    tape.take? kinds =
      match s.take? kinds with
      | some (t, behind) => some (some t, tape.moved s behind)
      | none => some (none, tape) := by
  unfold take? TokenStream.take?
  rw [h.anyM_sees?_eq, h.advance?_eq]
  cases s.sees kinds with
  | true => rfl
  | false => rfl

theorem Shows.expect?_eq (h : tape.Shows s) (kind : Kind) (cause : SyntaxFault) :
    tape.expect? kind cause =
      some ((s.expect kind cause).result, tape.moved s (s.expect kind cause).rest) := by
  unfold expect? TokenStream.expect TokenStream.take?
  rw [h.sees?_eq, h.advance?_eq, h.peek?_eq]
  cases s.sees [kind] with
  | true => rfl
  | false =>
    change some (Except.error _, tape) = some (Except.error _, tape.moved s s)
    rw [h.moved_self]

/-- The index of the first end mark, which is where the stream of the tape ends. -/
def firstMark (tape : TokenTape) : Nat := (tape.tokens.takeWhile (·.kind ≠ .endMark)).length

/-- Up to the end mark, a tape shows a stream wherever it stands. -/
theorem exists_shows_of_le {start : TokenTape} (h : ofTokens tape.tokens = .ok start)
    (hhead : tape.head ≤ tape.firstMark) :
    ∃ s, tape.Shows s ∧ s.index + s.pending.length = tape.firstMark := by
  obtain ⟨first, hfirst, hshows⟩ := exists_shows_of_ofTokens h
  obtain ⟨rfl, -⟩ := ofTokens_eq_ok_iff.1 h
  have hlength : first.pending.length = tape.firstMark := by
    rw [firstMark, TokenStream.pending_eq_takeWhile hfirst]
  have hstart : first.index = 0 := by
    rw [TokenStream.index, (TokenStream.ofTokens_eq_ok hfirst).1, List.length_nil]
  obtain ⟨s, hafter⟩ : ∃ s, first.After (first.pending.take tape.head) s :=
    ⟨_, TokenStream.after_of_pending_eq (List.take_append_drop tape.head first.pending).symm⟩
  have hmoved := hshows.moved hafter
  have hindex := hafter.index_eq
  have htotal := hafter.length_pending
  rw [List.length_take] at hindex htotal
  refine ⟨s, ⟨hmoved.proper, ?_, hmoved.tokens_eq⟩, ?_⟩
  · omega
  · omega

/-- The tokens that a stream passes stand in the list of its tape, from its index on. -/
theorem Shows.getElem?_passed (h : tape.Shows s) (hafter : s.After a r) {i : Nat}
    (hle : s.index ≤ i) (hlt : i < r.index) : tape.tokens[i]? = a[i - s.index]? := by
  obtain ⟨later, htokens⟩ := h.tokens_eq
  have hindex := hafter.index_eq
  have hpast : s.past.reverse.length = s.index := List.length_reverse
  have hwithin : i - s.index < a.length := by omega
  rw [htokens, hafter.1, List.getElem?_append_right (by omega), hpast, List.append_assoc,
    List.getElem?_append_left hwithin]

end TokenTape

end LoxSyntax
