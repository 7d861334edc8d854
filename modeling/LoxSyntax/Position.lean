/-!
Places in a text. Lines and columns are counted from one, and a column is one character wide
whatever the character. The place behind a text depends only on how many newlines the text has
and on how many characters follow the last of them.
-/

namespace LoxSyntax

structure Position where
  line : Nat
  col : Nat
  deriving DecidableEq

namespace Position

/-- The place of the first character of a text. -/
def start : Position := ⟨1, 1⟩

/-- A newline opens the next line, and any other character takes one column. -/
def next (p : Position) (c : Char) : Position :=
  if c = '\n' then ⟨p.line + 1, 1⟩ else ⟨p.line, p.col + 1⟩

/-- The place reached from `p` by passing over `text`. -/
def after (p : Position) (text : List Char) : Position :=
  text.foldl next p

instance : ToString Position where
  toString p := s!"{p.line}:{p.col}"

@[simp] theorem after_nil (p : Position) : p.after [] = p := rfl

@[simp] theorem after_cons (p : Position) (c : Char) (text : List Char) :
    p.after (c :: text) = (p.next c).after text := rfl

@[simp] theorem after_append (p : Position) (a b : List Char) :
    p.after (a ++ b) = (p.after a).after b := List.foldl_append

theorem line_after (p : Position) (text : List Char) :
    (p.after text).line = p.line + text.count '\n' := by
  induction text generalizing p with
  | nil => rfl
  | cons c rest ih =>
    rw [after_cons, ih]
    by_cases hc : c = '\n'
    · subst c
      simp only [next, ite_true, List.count_cons_self]
      omega
    · simp only [next, hc, ite_false]
      rw [List.count_cons_of_ne hc]

/-- On a single line only the column moves. -/
theorem after_of_not_mem (p : Position) (text : List Char) (h : '\n' ∉ text) :
    p.after text = ⟨p.line, p.col + text.length⟩ := by
  induction text generalizing p with
  | nil => rfl
  | cons c rest ih =>
    have hc : c ≠ '\n' := fun e => h (e ▸ List.mem_cons_self)
    rw [after_cons, ih _ fun m => h (List.mem_cons_of_mem c m)]
    simp only [next, hc, ite_false, List.length_cons]
    congr 1
    omega

/-- Behind a newline the column counts from one again. -/
theorem after_newline (p : Position) (a b : List Char) (h : '\n' ∉ b) :
    p.after (a ++ '\n' :: b) = ⟨(p.after a).line + 1, 1 + b.length⟩ := by
  rw [after_append, after_cons, after_of_not_mem _ b h]
  rfl

end Position

end LoxSyntax
