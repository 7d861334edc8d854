import LoxSyntax.Lexed
import LoxSyntax.Rule

/-!
Streams by the tokens they show. A stream made from a list ends in its only end mark, and the
tokens that are read determine what it becomes. Whether a token is taken depends on the token in
view alone, which at the end is the mark.
-/

namespace LoxSyntax

namespace TokenStream

/-- The mark that closes a stream is the only one in it. -/
structure Proper (s : TokenStream) : Prop where
  pending_ne : ∀ t ∈ s.pending, t.kind ≠ .endMark
  endMark_eq : s.endMark.kind = .endMark

theorem ofTokens_eq_ok {tokens : List Token} {s : TokenStream} (h : ofTokens tokens = .ok s) :
    s.past = [] ∧ s.Proper ∧ ∃ later, tokens = s.pending ++ s.endMark :: later ∧
      ∀ t ∈ later.getLast?, t.kind = .endMark := by
  unfold ofTokens at h
  split at h
  · cases h
  rename_i last hlast
  split at h
  · rename_i hmark
    cases h
    have hmem : last ∈ tokens := List.mem_of_getLast? hlast
    obtain ⟨mark, hfind⟩ : ∃ mark, tokens.find? (·.kind = .endMark) = some mark := by
      cases hfind : tokens.find? (·.kind = .endMark) with
      | none => exact absurd hmark (by simpa using List.find?_eq_none.1 hfind last hmem)
      | some mark => exact ⟨mark, rfl⟩
    obtain ⟨hkind, before, later, rfl, hbefore⟩ := List.find?_eq_some_iff_append.1 hfind
    have htake : (before ++ mark :: later).takeWhile (·.kind ≠ .endMark) = before := by
      rw [List.takeWhile_append_of_pos (by simpa using hbefore), List.takeWhile_cons_of_neg]
      · exact List.append_nil before
      · simpa using hkind
    dsimp only
    rw [hfind, htake]
    refine ⟨rfl, ⟨by simpa using hbefore, by simpa using hkind⟩, later, rfl, ?_⟩
    intro t ht
    have hend : (before ++ mark :: later).getLast? = some t := by
      rw [List.getLast?_append, List.getLast?_cons, ht]
      rfl
    rw [hlast] at hend
    cases hend
    exact hmark
  · cases h

theorem ofTokens_concat {tokens : List Token} {mark : Token}
    (htokens : ∀ t ∈ tokens, t.kind ≠ .endMark) (hmark : mark.kind = .endMark) :
    ofTokens (tokens ++ [mark]) = .ok ⟨[], tokens, mark⟩ :=
  ofTokens_append_cons htokens hmark (fun _ h => nomatch h)

/-- Up to its first end mark a list is its stream. -/
theorem pending_eq_takeWhile {tokens : List Token} {s : TokenStream}
    (h : ofTokens tokens = .ok s) : s.pending = tokens.takeWhile (·.kind ≠ .endMark) := by
  obtain ⟨-, hs, later, rfl, -⟩ := ofTokens_eq_ok h
  rw [List.takeWhile_append_of_pos (by simpa using hs.pending_ne), List.takeWhile_cons_of_neg]
  · exact (List.append_nil s.pending).symm
  · simpa using hs.endMark_eq

theorem Proper.peek_eq_endMark_iff {s : TokenStream} (hs : s.Proper) :
    s.peek.kind = .endMark ↔ s.pending = [] := by
  unfold peek
  cases hpending : s.pending with
  | nil => simp [hs.endMark_eq]
  | cons t rest =>
    have ht : t.kind ≠ .endMark := hs.pending_ne t (hpending ▸ List.mem_cons_self)
    simp [ht]

theorem after_of_pending_eq {s : TokenStream} {taken rest : List Token}
    (h : s.pending = taken ++ rest) :
    s.After taken ⟨taken.reverse ++ s.past, rest, s.endMark⟩ := ⟨h, rfl, rfl⟩

theorem after_pending (s : TokenStream) :
    s.After s.pending ⟨s.pending.reverse ++ s.past, [], s.endMark⟩ :=
  after_of_pending_eq (List.append_nil s.pending).symm

namespace After

variable {s r q : TokenStream} {a b : List Token}

theorem index_le (h : s.After a r) : r.index ≤ s.index + s.pending.length := by
  rw [h.index_eq, ← h.length_pending]
  omega

theorem proper (h : s.After a r) (hs : s.Proper) : r.Proper where
  pending_ne t ht := hs.pending_ne t (h.1 ▸ List.mem_append_right a ht)
  endMark_eq := h.2.2 ▸ hs.endMark_eq

theorem kind_ne (h : s.After a r) (hs : s.Proper) : ∀ t ∈ a, t.kind ≠ .endMark :=
  fun t ht => hs.pending_ne t (h.1 ▸ List.mem_append_left r.pending ht)

theorem rest_eq (h : s.After a r) (g : s.After a q) : r = q := by
  obtain ⟨hpending, hpast, hmark⟩ := h
  obtain ⟨gpending, gpast, gmark⟩ := g
  rw [hpending] at gpending
  have hrest : r.pending = q.pending := List.append_cancel_left gpending
  cases r
  cases q
  simp_all

/-- Two streams that follow one stream lie one behind the other. -/
theorem of_append (h : s.After a r) (g : s.After (a ++ b) q) : r.After b q := by
  obtain ⟨hpending, hpast, hmark⟩ := h
  obtain ⟨gpending, gpast, gmark⟩ := g
  refine ⟨?_, ?_, gmark.trans hmark.symm⟩
  · rw [hpending, List.append_assoc] at gpending
    exact List.append_cancel_left gpending
  · rw [gpast, hpast, List.reverse_append, List.append_assoc]

theorem split (h : s.After (a ++ b) q) : ∃ r, s.After a r ∧ r.After b q := by
  have hpending : s.pending = a ++ (b ++ q.pending) := by rw [h.1, List.append_assoc]
  exact ⟨_, after_of_pending_eq hpending, (after_of_pending_eq hpending).of_append h⟩

theorem nil_eq (h : s.After [] r) : r = s := h.rest_eq (.refl s)

theorem peek_cons {t : Token} (h : s.After (t :: a) r) : s.peek = t := by
  rw [peek, h.1]
  rfl

/-- The token in view depends only on what is read next, and on the view behind it. -/
theorem peek_eq (h : s.After a r) : s.peek = a.headD r.peek := by
  cases a with
  | nil => rw [h.nil_eq]; rfl
  | cons t rest => exact h.peek_cons

theorem previous?_eq (h : s.After a r) : r.previous? = a.getLast?.or s.previous? := by
  rw [previous?, h.2.1, List.head?_append, List.head?_reverse, previous?]

theorem previous?_of_ne_nil (h : s.After a r) (ha : a ≠ []) :
    r.previous? = some (a.getLast ha) := by
  rw [h.previous?_eq, List.getLast?_eq_some_getLast ha]
  rfl

/-- Of two ways to read on, one goes on where the other stops. -/
theorem total (h : s.After a r) (g : s.After b q) : a <+: b ∨ b <+: a :=
  List.prefix_or_prefix_of_prefix ⟨_, h.1.symm⟩ ⟨_, g.1.symm⟩

end After

/-- How far a stream has been read is a place in the list that it was made from. -/
theorem After.place {tokens w : List Token} {s r : TokenStream} (hw : s.After w r)
    (h : ofTokens tokens = .ok s) :
    r.index = w.length ∧ w <+: tokens ∧ tokens[w.length]? = some r.peek := by
  obtain ⟨hpast, -, later, rfl, -⟩ := ofTokens_eq_ok h
  refine ⟨?_, ?_, ?_⟩
  · rw [hw.index_eq, index, hpast, List.length_nil, Nat.zero_add]
  · rw [hw.1, List.append_assoc]
    exact List.prefix_append _ _
  · rw [hw.1, List.append_assoc, List.getElem?_append_right (Nat.le_refl _), Nat.sub_self, peek,
      hw.2.2]
    cases r.pending with
    | nil => rfl
    | cons t rest => rfl

/-- A list without an end mark that begins another one is read first. -/
theorem exists_after {tokens w : List Token} {s : TokenStream} (h : ofTokens tokens = .ok s)
    (hw : ∀ t ∈ w, t.kind ≠ .endMark) (hbegins : w <+: tokens) : ∃ r, s.After w r := by
  obtain ⟨-, hs, later, rfl, -⟩ := ofTokens_eq_ok h
  have hpending := List.prefix_append s.pending (s.endMark :: later)
  rcases List.prefix_or_prefix_of_prefix hbegins hpending with hwithin | hpast
  · obtain ⟨rest, hrest⟩ := hwithin
    exact ⟨_, after_of_pending_eq hrest.symm⟩
  · obtain ⟨u, rfl⟩ := hpast
    have hu : u = [] := by
      by_cases hnil : u = []
      · exact hnil
      · obtain ⟨t, more, rfl⟩ := List.exists_cons_of_ne_nil hnil
        obtain ⟨rest, hrest⟩ := (List.prefix_append_right_inj s.pending).1 hbegins
        cases hrest
        exact absurd hs.endMark_eq (hw _ (by simp))
    subst hu
    exact ⟨_, after_of_pending_eq (by rw [List.append_nil, List.append_nil])⟩

theorem take?_eq_some {s r : TokenStream} {kinds : List Kind} {t : Token}
    (h : s.take? kinds = some (t, r)) : s.After [t] r ∧ t.kind ∈ kinds := by
  refine ⟨after_of_take? h, ?_⟩
  have hpeek : s.peek = t := (after_of_take? h).peek_cons
  unfold take? at h
  split at h
  · rename_i hsees
    unfold sees at hsees
    cases hpending : s.pending with
    | nil => simp [hpending] at hsees
    | cons u rest =>
      rw [peek, hpending] at hpeek
      rw [hpending] at hsees
      simpa [← hpeek] using hsees
  · cases h

theorem take?_of_after {s r : TokenStream} {kinds : List Kind} {t : Token} {a : List Token}
    (h : s.After (t :: a) r) (hkind : t.kind ∈ kinds) :
    ∃ q, s.take? kinds = some (t, q) ∧ s.After [t] q ∧ q.After a r := by
  have hsees : s.sees kinds = true := by simpa [sees, h.1] using hkind
  have hone : s.After [t] s.advance := after_advance h.1
  refine ⟨s.advance, ?_, hone, hone.of_append h⟩
  rw [take?, if_pos hsees, h.peek_cons]

theorem take?_eq_none {s : TokenStream} {kinds : List Kind} (hkind : s.peek.kind ∉ kinds) :
    s.take? kinds = none := by
  unfold take? sees
  cases hpending : s.pending with
  | nil => rfl
  | cons t rest =>
    rw [peek, hpending] at hkind
    exact if_neg (by simpa using hkind)

/-- A token that is not taken is of no wanted kind, and an end mark is never wanted. -/
theorem peek_of_take?_eq_none {s : TokenStream} (hs : s.Proper) {kinds : List Kind}
    (hkinds : .endMark ∉ kinds) (h : s.take? kinds = none) : s.peek.kind ∉ kinds := by
  intro hmem
  cases hpending : s.pending with
  | nil => exact hkinds ((hs.peek_eq_endMark_iff.2 hpending) ▸ hmem)
  | cons t rest =>
    rw [peek, hpending] at hmem
    obtain ⟨q, htake, -⟩ := take?_of_after (after_advance hpending) hmem
    rw [h] at htake
    cases htake

theorem expect_of_after {s r : TokenStream} {kind : Kind} {cause : SyntaxFault} {t : Token}
    (h : s.After [t] r) (hkind : t.kind = kind) : s.expect kind cause = .done t r := by
  obtain ⟨q, htake, hafter, -⟩ := take?_of_after h (List.mem_singleton.2 hkind)
  rw [expect, htake, hafter.rest_eq h]

theorem expect_of_ne {s : TokenStream} {kind : Kind} {cause : SyntaxFault}
    (hkind : s.peek.kind ≠ kind) : s.expect kind cause = .stuck cause s := by
  rw [expect, take?_eq_none (by simpa using hkind)]

theorem expect_eq_done {s r : TokenStream} {kind : Kind} {cause : SyntaxFault} {t : Token}
    (h : s.expect kind cause = .done t r) : s.After [t] r ∧ t.kind = kind := by
  unfold expect at h
  split at h
  · rename_i u q htake
    cases h
    obtain ⟨hafter, hmem⟩ := take?_eq_some htake
    exact ⟨hafter, List.mem_singleton.1 hmem⟩
  · cases h

theorem expect_eq_stuck {s r : TokenStream} (hs : s.Proper) {kind : Kind}
    (hmark : kind ≠ .endMark) {cause found : SyntaxFault}
    (h : s.expect kind cause = .stuck found r) :
    found = cause ∧ r = s ∧ s.peek.kind ≠ kind := by
  unfold expect at h
  split at h
  · cases h
  · rename_i htake
    cases h
    have hpeek := peek_of_take?_eq_none hs (by simpa using Ne.symm hmark) htake
    exact ⟨rfl, rfl, by simpa using hpeek⟩

end TokenStream

theorem Lexed.proper_stream (text : String) : (ofText text).stream.Proper :=
  ⟨fun _ => kind_ne_endMark, rfl⟩

end LoxSyntax
