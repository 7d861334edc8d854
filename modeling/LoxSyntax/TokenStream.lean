import LoxSyntax.Fault
import LoxSyntax.Token

/-!
Streams of tokens up to an end mark. A stream is read from left to right and never goes past its
mark; of the list that it is made from, whatever follows the first end mark is left out. A mark
is never matched, so a test for it fails even where the stream ends.
-/

namespace LoxSyntax

structure TokenStream where
  /-- The tokens read, the latest first. -/
  past : List Token
  pending : List Token
  endMark : Token

namespace TokenStream

/-- Only a list that ends in an end mark is a stream. -/
def ofTokens (tokens : List Token) : Except StreamFault TokenStream :=
  match tokens.getLast? with
  | none => .error .empty
  | some last =>
    if last.kind = .endMark then
      .ok ⟨[], tokens.takeWhile (·.kind ≠ .endMark),
        (tokens.find? (·.kind = .endMark)).getD last⟩
    else .error .noEndMark

/-- Up to the first end mark a list is its stream, whatever follows the mark. -/
theorem ofTokens_append_cons {tokens later : List Token} {mark : Token}
    (htokens : ∀ t ∈ tokens, t.kind ≠ .endMark) (hmark : mark.kind = .endMark)
    (hlast : ∀ t ∈ later.getLast?, t.kind = .endMark) :
    ofTokens (tokens ++ mark :: later) = .ok ⟨[], tokens, mark⟩ := by
  have htake : (tokens ++ mark :: later).takeWhile (·.kind ≠ .endMark) = tokens := by
    rw [List.takeWhile_append_of_pos (by simpa using htokens), List.takeWhile_cons_of_neg]
    · exact List.append_nil tokens
    · simpa using hmark
  have hfind : (tokens ++ mark :: later).find? (·.kind = .endMark) = some mark := by
    rw [List.find?_append, List.find?_eq_none.2 (by simpa using htokens)]
    simp [hmark]
  have hend : (tokens ++ mark :: later).getLast? = some (later.getLast?.getD mark) := by
    rw [List.getLast?_append, List.getLast?_cons]
    rfl
  have hkind : (later.getLast?.getD mark).kind = .endMark := by
    cases h : later.getLast? with
    | none => exact hmark
    | some last => exact hlast last h
  unfold ofTokens
  rw [hend]
  dsimp only
  rw [htake, hfind, if_pos hkind]
  rfl

/-- How many tokens have been read. -/
def index (s : TokenStream) : Nat := s.past.length

def atEnd (s : TokenStream) : Bool := s.pending.isEmpty

/-- The token to be read next, or the end mark. -/
def peek (s : TokenStream) : Token := s.pending.headD s.endMark

def previous? (s : TokenStream) : Option Token := s.past.head?

/-- At its end a stream stays where it is. -/
def advance (s : TokenStream) : TokenStream :=
  match s.pending with
  | [] => s
  | t :: rest => { s with past := t :: s.past, pending := rest }

/-- Whether the next token has one of `kinds`. -/
def sees (s : TokenStream) (kinds : List Kind) : Bool :=
  s.pending.head?.any fun t => kinds.contains t.kind

/-- The next token and the stream behind it, if the token has one of `kinds`. -/
def take? (s : TokenStream) (kinds : List Kind) : Option (Token × TokenStream) :=
  if s.sees kinds then some (s.peek, s.advance) else none

/-- `r` is what `s` becomes when the tokens `taken` are read. -/
def After (s : TokenStream) (taken : List Token) (r : TokenStream) : Prop :=
  s.pending = taken ++ r.pending ∧ r.past = taken.reverse ++ s.past ∧ r.endMark = s.endMark

theorem After.refl (s : TokenStream) : s.After [] s := ⟨rfl, rfl, rfl⟩

theorem After.trans {s r q : TokenStream} {a b : List Token} (h : s.After a r) (g : r.After b q) :
    s.After (a ++ b) q := by
  obtain ⟨hpending, hpast, hmark⟩ := h
  obtain ⟨gpending, gpast, gmark⟩ := g
  refine ⟨?_, ?_, gmark.trans hmark⟩
  · rw [hpending, gpending, List.append_assoc]
  · rw [gpast, hpast, List.reverse_append, List.append_assoc]

theorem After.length_pending {s r : TokenStream} {taken : List Token} (h : s.After taken r) :
    taken.length + r.pending.length = s.pending.length := by
  rw [h.1, List.length_append]

theorem After.index_eq {s r : TokenStream} {taken : List Token} (h : s.After taken r) :
    r.index = s.index + taken.length := by
  rw [index, h.2.1, List.length_append, List.length_reverse, Nat.add_comm, index]

/-- The tokens read on the way from `s` to `r`. -/
def readUntil (s r : TokenStream) : List Token :=
  (r.past.take (r.index - s.index)).reverse

theorem After.readUntil_eq {s r : TokenStream} {taken : List Token} (h : s.After taken r) :
    s.readUntil r = taken := by
  rw [readUntil, h.index_eq, Nat.add_sub_cancel_left, h.2.1,
    List.take_left' (List.length_reverse), List.reverse_reverse]

theorem after_advance {s : TokenStream} {t : Token} {rest : List Token}
    (h : s.pending = t :: rest) : s.After [t] s.advance := by
  unfold advance
  rw [h]
  exact ⟨h, rfl, rfl⟩

theorem after_of_take? {s r : TokenStream} {kinds : List Kind} {t : Token}
    (h : s.take? kinds = some (t, r)) : s.After [t] r := by
  unfold take? sees at h
  cases hpending : s.pending with
  | nil => simp [hpending] at h
  | cons u rest =>
    split at h
    · cases h
      simpa [peek, hpending] using after_advance hpending
    · cases h

end TokenStream

end LoxSyntax
