import LoxSyntax.Lexed

/-!
Places counted off a text. The place behind a text is settled by its newlines and by what follows
the last of them, and places increase along a text. So the segments of a text stand one behind
the other, each where the text in front of it ends.
-/

namespace LoxSyntax

namespace Position

/-- The place behind a text: the line counts its newlines, and the column the characters behind
the last of them. -/
def behind (text : List Char) : Position :=
  ⟨1 + text.count '\n', 1 + (text.reverse.takeWhile (· ≠ '\n')).length⟩

/-- An earlier line, or an earlier column of the same line. -/
def Precedes (p q : Position) : Prop := p.line < q.line ∨ p.line = q.line ∧ p.col < q.col

theorem next_behind (text : List Char) (c : Char) :
    (behind text).next c = behind (text ++ [c]) := by
  have hreverse : (text ++ [c]).reverse = c :: text.reverse := by simp
  unfold behind
  rw [hreverse, List.count_append]
  by_cases hc : c = '\n'
  · subst c
    rfl
  · have hcount : List.count '\n' [c] = 0 := by simp [hc]
    rw [hcount, List.takeWhile_cons_of_pos (by simpa using hc)]
    simp only [next, hc, if_false, Nat.add_zero, List.length_cons]
    rfl

theorem after_behind (before text : List Char) :
    (behind before).after text = behind (before ++ text) := by
  induction text generalizing before with
  | nil => rw [after_nil, List.append_nil]
  | cons c rest ih => rw [after_cons, next_behind, ih, List.append_assoc, List.singleton_append]

/-- The place kept while reading a text is the one counted off it. -/
theorem after_start (text : List Char) : start.after text = behind text :=
  after_behind [] text

theorem Precedes.trans {p q r : Position} (h : p.Precedes q) (g : q.Precedes r) :
    p.Precedes r := by
  unfold Precedes at h g ⊢
  omega

theorem Precedes.irrefl (p : Position) : ¬ p.Precedes p := by
  unfold Precedes
  omega

theorem precedes_next (p : Position) (c : Char) : p.Precedes (p.next c) := by
  unfold next
  split
  · exact .inl (Nat.lt_succ_self p.line)
  · exact .inr ⟨rfl, Nat.lt_succ_self p.col⟩

theorem precedes_after (p : Position) {text : List Char} (h : text ≠ []) :
    p.Precedes (p.after text) := by
  induction text generalizing p with
  | nil => exact absurd rfl h
  | cons c rest ih =>
    rw [after_cons]
    by_cases hrest : rest = []
    · rw [hrest, after_nil]
      exact precedes_next p c
    · exact (precedes_next p c).trans (ih (p.next c) hrest)

/-- A longer text ends at a later place. -/
theorem eq_of_isPrefix {u v : List Char} (huv : u <+: v) (h : behind u = behind v) : u = v := by
  obtain ⟨more, rfl⟩ := huv
  cases more with
  | nil => exact (List.append_nil u).symm
  | cons c more =>
    have hprecedes := precedes_after (behind u) (List.cons_ne_nil c more)
    rw [after_behind, ← h] at hprecedes
    exact absurd hprecedes (Precedes.irrefl _)

/-- Two places in one text are the same only if the same text stands in front of them. -/
theorem eq_of_behind_eq {u v text : List Char} (hu : u <+: text) (hv : v <+: text)
    (h : behind u = behind v) : u = v := by
  rcases List.prefix_or_prefix_of_prefix hu hv with huv | hvu
  · exact eq_of_isPrefix huv h
  · exact (eq_of_isPrefix hvu h.symm).symm

end Position

variable {pieces : List Segment} {p q : Position} {s : Segment}

theorem exists_of_mem_placed (h : (q, s) ∈ placed p pieces) :
    ∃ before later, pieces = before ++ s :: later ∧
      q = p.after (before.flatMap Segment.text) := by
  induction pieces generalizing p with
  | nil => cases h
  | cons first rest ih =>
    rcases List.mem_cons.1 h with heq | hrest
    · cases heq
      exact ⟨[], rest, rfl, rfl⟩
    · obtain ⟨before, later, rfl, rfl⟩ := ih hrest
      refine ⟨first :: before, later, rfl, ?_⟩
      rw [List.flatMap_cons, Position.after_append]

theorem exists_mem_placed (p : Position) (h : s ∈ pieces) : ∃ q, (q, s) ∈ placed p pieces := by
  induction pieces generalizing p with
  | nil => cases h
  | cons first rest ih =>
    rcases List.mem_cons.1 h with rfl | hrest
    · exact ⟨p, List.mem_cons_self⟩
    · obtain ⟨q, hq⟩ := ih (p.after first.text) hrest
      exact ⟨q, List.mem_cons_of_mem _ hq⟩

theorem Segment.text_ne_nil {text : List Char} (h : s ∈ segments text) :
    s.text ≠ [] := by
  obtain ⟨c, rest, rfl⟩ := mem_segments h
  obtain ⟨tail, htext, -⟩ := Segment.text_first c rest
  rw [htext]
  exact List.cons_ne_nil c tail

/-- A segment that is not empty stands in front of all later ones. -/
theorem pairwise_placed (h : ∀ s ∈ pieces, s.text ≠ []) (p : Position) :
    (placed p pieces).Pairwise fun a b => a.1.Precedes b.1 := by
  induction pieces generalizing p with
  | nil => exact .nil
  | cons first rest ih =>
    have hfirst : first.text ≠ [] := h first List.mem_cons_self
    refine .cons ?_ (ih (fun s hs => h s (List.mem_cons_of_mem first hs)) _)
    rintro ⟨q, s⟩ hmem
    obtain ⟨before, later, -, rfl⟩ := exists_of_mem_placed hmem
    rw [← Position.after_append]
    exact Position.precedes_after p (List.append_ne_nil_of_left_ne_nil hfirst _)

/-- The end of a text lies behind all of its segments. -/
theorem precedes_of_mem_placed {text : List Char}
    (h : (q, s) ∈ placed p (segments text)) : q.Precedes (p.after text) := by
  obtain ⟨before, later, hpieces, rfl⟩ := exists_of_mem_placed h
  have hs : s.text ≠ [] := Segment.text_ne_nil (by rw [hpieces]; simp)
  have htext := flatMap_text_segments text
  rw [hpieces, List.flatMap_append, List.flatMap_cons] at htext
  rw [← htext, Position.after_append]
  exact Position.precedes_after _ (List.append_ne_nil_of_left_ne_nil hs _)

end LoxSyntax
