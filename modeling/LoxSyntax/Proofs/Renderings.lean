import LoxSyntax.CommandLine
import LoxSyntax.Proofs.Respacing
import LoxSyntax.Proofs.ShortestNumerals

/-!
The canonical text determines the tree. A text is read from the left: its first word says which of
the four forms a tree has, and where a part of the tree ends a blank or a parenthesis follows. So
two trees of which one text starts with both are the same but for the places of their operators,
and what follows their texts is the same too. Strings are left out, since a string can be written
like any other tree.
-/

namespace LoxSyntax

def Expr.unplaced (e : Expr) : Expr := e.move fun _ => .start

/-- One of the given symbols as a text gives it. -/
def Token.Spells (symbols : List Symbol) (t : Token) : Prop :=
  ∃ s ∈ symbols, t.kind = .symbol s ∧ t.lexeme = s.spelling ∧ t.literal = none

/-- Literals that are not strings, and operators as a text gives them. -/
def Expr.Plain : Expr → Prop
  | literal value => ∀ text, value ≠ .string text
  | grouping inner => inner.Plain
  | unary operator operand => operator.Spells unaryOperators ∧ operand.Plain
  | binary left operator right =>
    left.Plain ∧ operator.Spells binaryTiers.flatten ∧ right.Plain

def Statement.Plain : Statement → Prop
  | print value => value.Plain
  | expression value => value.Plain

theorem Token.Spells.unplaced_eq {symbols others : List Symbol} {t u : Token}
    (ht : t.Spells symbols) (hu : u.Spells others) (h : t.lexeme = u.lexeme) :
    t.unplaced = u.unplaced := by
  obtain ⟨s, -, hkind, hlexeme, hliteral⟩ := ht
  obtain ⟨r, -, hotherKind, hotherLexeme, hotherLiteral⟩ := hu
  have hsame : s = r := Symbol.spelling_injective (hlexeme.symm.trans (h.trans hotherLexeme))
  unfold unplaced move
  rw [hkind, hotherKind, hsame, h, hliteral, hotherLiteral]

/-- The characters that no word of a canonical text holds. -/
def isCut (c : Char) : Bool := c == ' ' || c == '(' || c == ')' || c == '\n'

theorem isCut_iff {c : Char} : isCut c = true ↔ c = ' ' ∨ c = '(' ∨ c = ')' ∨ c = '\n' := by
  simp [isCut, or_assoc]

theorem not_isCut_of_isDigit {c : Char} (h : c.isDigit = true) : isCut c = false := by
  rw [← Bool.not_eq_true]
  intro hcut
  revert h
  rcases isCut_iff.1 hcut with rfl | rfl | rfl | rfl <;> decide

/-- A text that is one word. -/
def IsWord (text : List Char) : Prop := text ≠ [] ∧ ∀ c ∈ text, isCut c = false

theorem IsWord.of_test {text : List Char}
    (h : (! text.isEmpty && text.all (! isCut ·)) = true) : IsWord text := by
  simpa [IsWord] using h

/-- Nothing, or a text that no word goes on with. -/
def Cut (text : List Char) : Prop := ∀ c ∈ text.head?, isCut c = true

theorem Cut.nil : Cut [] := fun _ h => nomatch h

theorem Cut.cons {c : Char} (h : isCut c = true) (rest : List Char) : Cut (c :: rest) := by
  intro d hd
  cases hd
  exact h

/-- A word in front of a cut is found again. -/
theorem takeWhile_word {word later : List Char} (hword : ∀ c ∈ word, isCut c = false)
    (hlater : Cut later) :
    (word ++ later).takeWhile (! isCut ·) = word ∧ (word ++ later).dropWhile (! isCut ·) = later :=
  span_append (fun c hc => by rw [hword c hc]; rfl) later fun c hc => by rw [hlater c hc]; rfl

theorem word_eq {word other u v : List Char} (hword : ∀ c ∈ word, isCut c = false)
    (hother : ∀ c ∈ other, isCut c = false) (hu : Cut u) (hv : Cut v)
    (h : word ++ u = other ++ v) : word = other ∧ u = v := by
  obtain ⟨htake, hdrop⟩ := takeWhile_word hword hu
  obtain ⟨htakeOther, hdropOther⟩ := takeWhile_word hother hv
  rw [h] at htake hdrop
  exact ⟨htake.symm.trans htakeOther, hdrop.symm.trans hdropOther⟩

theorem Symbol.isWord_spelling (s : Symbol) (h : s ≠ .leftParen ∧ s ≠ .rightParen) :
    IsWord s.spelling.toList := by
  cases s with
  | leftParen => exact absurd rfl h.1
  | rightParen => exact absurd rfl h.2
  | _ => exact .of_test rfl

theorem Token.Spells.isWord {symbols : List Symbol} {t : Token} (h : t.Spells symbols)
    (hsymbols : .leftParen ∉ symbols ∧ .rightParen ∉ symbols) : IsWord t.lexeme.toList := by
  obtain ⟨s, hs, -, hlexeme, -⟩ := h
  rw [hlexeme]
  exact s.isWord_spelling ⟨fun heq => hsymbols.1 (heq ▸ hs), fun heq => hsymbols.2 (heq ▸ hs)⟩

theorem Double.isWord_toString (d : Double) : IsWord (toString d).toList := by
  cases d with
  | finite negative rank =>
    have hnumeral := Decimal.numeral_chars (shortest rank)
    obtain ⟨c, rest, hchars, -⟩ := hnumeral.exists_isDigit
    rw [toList_toString_finite]
    constructor
    · rw [hchars]
      exact List.append_ne_nil_of_right_ne_nil _ (List.cons_ne_nil c rest)
    · intro c hc
      rcases List.mem_append.1 hc with hsign | hdigits
      · have hminus : c = '-' := by
          cases negative with
          | false => cases hsign
          | true => exact List.mem_singleton.1 hsign
        rw [hminus]
        rfl
      · rcases hnumeral.isDigit_or_eq_point c hdigits with hdigit | rfl
        · exact not_isCut_of_isDigit hdigit
        · rfl
  | infinite negative => cases negative <;> exact .of_test rfl
  | nan => exact .of_test rfl

namespace Value

/-- The value that a text stands for, if that is no string. -/
def ofText? (text : List Char) : Option Value :=
  if text = "true".toList then some (.boolean true)
  else if text = "false".toList then some (.boolean false)
  else if text = "nil".toList then some .nil
  else (Double.ofText? text).map .number

theorem ofText?_render {v : Value} (h : ∀ text, v ≠ .string text) :
    ofText? v.render.toList = some v := by
  cases v with
  | number d =>
    have hread := d.ofText?_toString
    have hword : ∀ text, Double.ofText? text = none → (toString d).toList ≠ text := by
      rintro text hnone rfl
      exact nomatch hnone.symm.trans hread
    unfold ofText? render
    rw [if_neg (hword _ rfl), if_neg (hword _ rfl), if_neg (hword _ rfl),
      hread]
    rfl
  | string text => exact absurd rfl (h text)
  | boolean value => cases value <;> rfl
  | nil => rfl

theorem isWord_render {v : Value} (h : ∀ text, v ≠ .string text) : IsWord v.render.toList := by
  cases v with
  | number d => exact d.isWord_toString
  | string text => exact absurd rfl (h text)
  | boolean value => cases value <;> exact .of_test rfl
  | nil => exact .of_test rfl

end Value

namespace Expr

theorem toList_render_grouping (inner : Expr) (later : List Char) :
    (grouping inner).render.toList ++ later =
      '(' :: ("group".toList ++ ' ' :: (inner.render.toList ++ ')' :: later)) := by
  rw [render]
  simp only [String.toList_append, List.append_assoc]
  rfl

theorem toList_render_unary (operator : Token) (operand : Expr) (later : List Char) :
    (unary operator operand).render.toList ++ later =
      '(' :: (operator.lexeme.toList ++ ' ' :: (operand.render.toList ++ ')' :: later)) := by
  rw [render]
  simp only [String.toList_append, List.append_assoc]
  rfl

theorem toList_render_binary (left : Expr) (operator : Token) (right : Expr) (later : List Char) :
    (binary left operator right).render.toList ++ later =
      '(' :: (left.render.toList ++ ' ' ::
        (right.render.toList ++ ' ' :: (operator.lexeme.toList ++ ')' :: later))) := by
  rw [render]
  simp only [String.toList_append, List.append_assoc]
  rfl

end Expr

/-- The four forms of trees. -/
inductive Form
  | literal
  | grouping
  | unary
  | binary

def Expr.form : Expr → Form
  | literal _ => .literal
  | grouping _ => .grouping
  | unary _ _ => .unary
  | binary _ _ _ => .binary

/-- The form of what stands in parentheses, told from its first word. -/
def Form.ofWord (word : List Char) : Form :=
  if word = "group".toList then .grouping
  else if word ∈ unaryOperators.map (·.spelling.toList) then .unary
  else .binary

/-- Neither the word of groupings nor a unary operator is a value. -/
theorem Form.ofWord_of_value {word : List Char} {v : Value} (h : Value.ofText? word = some v) :
    ofWord word = .binary := by
  have hne : ∀ text, Value.ofText? text = none → word ≠ text := by
    rintro text hnone rfl
    exact nomatch hnone.symm.trans h
  have hoperators : word ∉ unaryOperators.map (·.spelling.toList) := by
    simp only [unaryOperators, List.map_cons, List.map_nil, List.mem_cons, List.not_mem_nil,
      or_false, not_or]
    exact ⟨hne _ rfl, hne _ rfl⟩
  rw [ofWord, if_neg (hne _ rfl), if_neg hoperators]

/-- The form that a canonical text starts with. -/
def Form.ofText : List Char → Form
  | '(' :: rest => .ofWord (rest.takeWhile (! isCut ·))
  | _ => .literal

namespace Expr

/-- Where a tree starts there stands a parenthesis or a value. -/
theorem takeWhile_render {e : Expr} (h : e.Plain) {later : List Char} (hlater : Cut later) :
    (e.render.toList ++ later).takeWhile (! isCut ·) = [] ∨
      ∃ v, Value.ofText? ((e.render.toList ++ later).takeWhile (! isCut ·)) = some v := by
  cases e with
  | literal v =>
    right
    have hword := (Value.isWord_render h).2
    refine ⟨v, ?_⟩
    rw [render, (takeWhile_word hword hlater).1, Value.ofText?_render h]
  | grouping inner => exact .inl (by rw [toList_render_grouping]; rfl)
  | unary operator operand => exact .inl (by rw [toList_render_unary]; rfl)
  | binary left operator right => exact .inl (by rw [toList_render_binary]; rfl)

theorem ofText_render {e : Expr} (h : e.Plain) (later : List Char) :
    Form.ofText (e.render.toList ++ later) = e.form := by
  cases e with
  | literal v =>
    obtain ⟨hne, hword⟩ := Value.isWord_render h
    obtain ⟨c, rest, htext⟩ := List.exists_cons_of_ne_nil hne
    have hc := hword c (by rw [htext]; exact List.mem_cons_self)
    rw [render, htext, List.cons_append]
    unfold Form.ofText
    split
    · rename_i heq
      cases heq
      cases hc
    · rfl
  | grouping inner =>
    have hword := (takeWhile_word (IsWord.of_test rfl : IsWord "group".toList).2
      (.cons rfl (inner.render.toList ++ ')' :: later) : Cut (' ' :: _))).1
    rw [toList_render_grouping]
    exact congrArg Form.ofWord hword
  | unary operator operand =>
    have hword := (takeWhile_word (h.1.isWord ⟨by decide, by decide⟩).2
      (.cons rfl (operand.render.toList ++ ')' :: later) : Cut (' ' :: _))).1
    obtain ⟨s, hs, -, hlexeme, -⟩ := h.1
    have hform : Form.ofWord s.spelling.toList = .unary := by
      simp only [unaryOperators, List.mem_cons, List.not_mem_nil, or_false] at hs
      rcases hs with rfl | rfl <;> rfl
    rw [toList_render_unary]
    rw [hlexeme] at hword ⊢
    exact (congrArg Form.ofWord hword).trans hform
  | binary left operator right =>
    have hcut : Cut (' ' :: (right.render.toList ++ ' ' ::
        (operator.lexeme.toList ++ ')' :: later))) := .cons rfl _
    rw [toList_render_binary]
    rcases takeWhile_render h.1 hcut with hnone | ⟨v, hv⟩
    · exact congrArg Form.ofWord hnone
    · exact Form.ofWord_of_value hv

theorem form_eq_of_render_append {a b : Expr} (ha : a.Plain) (hb : b.Plain) {u v : List Char}
    (h : a.render.toList ++ u = b.render.toList ++ v) : a.form = b.form := by
  rw [← ofText_render ha u, h, ofText_render hb v]

/-- Of two trees of which one text starts with both the same is left behind them, and but for the
places of operators they are the same. -/
theorem unplaced_eq_of_render_append {a b : Expr} (ha : a.Plain) (hb : b.Plain)
    {u v : List Char} (hu : Cut u) (hv : Cut v)
    (h : a.render.toList ++ u = b.render.toList ++ v) : a.unplaced = b.unplaced ∧ u = v := by
  have hspace : ∀ text, Cut (' ' :: text) := .cons rfl
  have hclosing : ∀ text, Cut (')' :: text) := .cons rfl
  induction a generalizing b u v with
  | literal value =>
    have hform := form_eq_of_render_append ha hb h
    cases b with
    | literal other =>
      obtain ⟨htext, hrest⟩ :=
        word_eq (Value.isWord_render ha).2 (Value.isWord_render hb).2 hu hv h
      have hvalue : some value = some other := by
        rw [← Value.ofText?_render ha, ← Value.ofText?_render hb, htext]
      cases hvalue
      exact ⟨rfl, hrest⟩
    | _ => cases hform
  | grouping inner ih =>
    have hform := form_eq_of_render_append ha hb h
    cases b with
    | grouping other =>
      rw [toList_render_grouping, toList_render_grouping] at h
      have hinner := (List.cons.inj (List.append_cancel_left (List.cons.inj h).2)).2
      have hother : other.Plain := hb
      obtain ⟨hsame, hrest⟩ := ih ha hother (hclosing u) (hclosing v) hinner
      exact ⟨congrArg grouping hsame, (List.cons.inj hrest).2⟩
    | _ => cases hform
  | unary operator operand ih =>
    have hform := form_eq_of_render_append ha hb h
    cases b with
    | unary other operandOther =>
      rw [toList_render_unary, toList_render_unary] at h
      obtain ⟨hlexeme, hbehind⟩ := word_eq (ha.1.isWord ⟨by decide, by decide⟩).2
        (hb.1.isWord ⟨by decide, by decide⟩).2 (hspace _) (hspace _) (List.cons.inj h).2
      obtain ⟨hsame, hrest⟩ := ih ha.2 hb.2 (hclosing u) (hclosing v) (List.cons.inj hbehind).2
      have hoperator := ha.1.unplaced_eq hb.1 (String.toList_inj.1 hlexeme)
      exact ⟨congrArg₂ unary hoperator hsame, (List.cons.inj hrest).2⟩
    | _ => cases hform
  | binary left operator right ihleft ihright =>
    have hform := form_eq_of_render_append ha hb h
    cases b with
    | binary leftOther other rightOther =>
      rw [toList_render_binary, toList_render_binary] at h
      obtain ⟨hleft, hbehindLeft⟩ :=
        ihleft ha.1 hb.1 (hspace _) (hspace _) (List.cons.inj h).2
      obtain ⟨hright, hbehindRight⟩ :=
        ihright ha.2.2 hb.2.2 (hspace _) (hspace _) (List.cons.inj hbehindLeft).2
      obtain ⟨hlexeme, hrest⟩ := word_eq (ha.2.1.isWord ⟨by decide, by decide⟩).2
        (hb.2.1.isWord ⟨by decide, by decide⟩).2 (hclosing u) (hclosing v)
        (List.cons.inj hbehindRight).2
      have hoperator := ha.2.1.unplaced_eq hb.2.1 (String.toList_inj.1 hlexeme)
      refine ⟨?_, (List.cons.inj hrest).2⟩
      change binary left.unplaced operator.unplaced right.unplaced =
        binary leftOther.unplaced other.unplaced rightOther.unplaced
      rw [hleft, hoperator, hright]
    | _ => cases hform

theorem render_eq_of_unplaced_eq {a b : Expr} (h : a.unplaced = b.unplaced) :
    a.render = b.render := by
  rw [← a.render_move, ← b.render_move]
  exact congrArg render h

end Expr

namespace Statement

theorem toList_render_print (value : Expr) (later : List Char) :
    (print value).render.toList ++ later =
      "(print ".toList ++ (value.render.toList ++ ')' :: later) := by
  rw [render]
  simp only [String.toList_append, List.append_assoc]
  rfl

theorem toList_render_expression (value : Expr) (later : List Char) :
    (expression value).render.toList ++ later =
      "(expr ".toList ++ (value.render.toList ++ ')' :: later) := by
  rw [render]
  simp only [String.toList_append, List.append_assoc]
  rfl

theorem render_print_append_ne (a b : Expr) (u v : List Char) :
    (print a).render.toList ++ u ≠ (expression b).render.toList ++ v := by
  rw [toList_render_print, toList_render_expression]
  intro h
  have hletter := (List.cons.inj (List.cons.inj h).2).1
  revert hletter
  decide

theorem unplaced_eq_of_render_append {a b : Statement} (ha : a.Plain) (hb : b.Plain)
    {u v : List Char} (h : a.render.toList ++ u = b.render.toList ++ v) :
    a.unplaced = b.unplaced ∧ u = v := by
  have hclosing : ∀ text, Cut (')' :: text) := .cons rfl
  cases a with
  | print value =>
    cases b with
    | print other =>
      rw [toList_render_print, toList_render_print] at h
      obtain ⟨hsame, hrest⟩ := Expr.unplaced_eq_of_render_append ha hb (hclosing u) (hclosing v)
        (List.append_cancel_left h)
      exact ⟨congrArg print hsame, (List.cons.inj hrest).2⟩
    | expression other => exact absurd h (render_print_append_ne value other u v)
  | expression value =>
    cases b with
    | print other => exact absurd h.symm (render_print_append_ne other value v u)
    | expression other =>
      rw [toList_render_expression, toList_render_expression] at h
      obtain ⟨hsame, hrest⟩ := Expr.unplaced_eq_of_render_append ha hb (hclosing u) (hclosing v)
        (List.append_cancel_left h)
      exact ⟨congrArg expression hsame, (List.cons.inj hrest).2⟩

theorem render_eq_of_unplaced_eq {a b : Statement} (h : a.unplaced = b.unplaced) :
    a.render = b.render := by
  rw [← a.render_move, ← b.render_move]
  exact congrArg render h

end Statement

theorem toList_asLines_cons (line : String) (lines : List String) :
    (asLines (line :: lines)).toList = line.toList ++ '\n' :: (asLines lines).toList := by
  rw [asLines, List.map_cons, String.join_cons, String.toList_append, String.toList_append,
    List.append_assoc]
  rfl

/-- Statements on lines of their own are told apart from each other one by one. -/
theorem unplaced_eq_of_asLines {as bs : List Statement} (ha : ∀ a ∈ as, a.Plain)
    (hb : ∀ b ∈ bs, b.Plain)
    (h : asLines (as.map Statement.render) = asLines (bs.map Statement.render)) :
    as.map Statement.unplaced = bs.map Statement.unplaced := by
  have htexts := congrArg String.toList h
  clear h
  have hempty : (asLines []).toList = [] := rfl
  induction as generalizing bs with
  | nil =>
    cases bs with
    | nil => rfl
    | cons b bs =>
      rw [List.map_cons, toList_asLines_cons, List.map_nil, hempty] at htexts
      exact absurd htexts.symm (List.append_ne_nil_of_right_ne_nil _ (List.cons_ne_nil _ _))
  | cons a as ih =>
    cases bs with
    | nil =>
      rw [List.map_cons, toList_asLines_cons, List.map_nil, hempty] at htexts
      exact absurd htexts (List.append_ne_nil_of_right_ne_nil _ (List.cons_ne_nil _ _))
    | cons b bs =>
      rw [List.map_cons, List.map_cons, toList_asLines_cons, toList_asLines_cons] at htexts
      obtain ⟨hfirst, hbehind⟩ := Statement.unplaced_eq_of_render_append
        (ha a List.mem_cons_self) (hb b List.mem_cons_self) htexts
      have hlater := ih (fun a h => ha a (List.mem_cons_of_mem _ h))
        (fun b h => hb b (List.mem_cons_of_mem _ h)) (List.cons.inj hbehind).2
      rw [List.map_cons, List.map_cons, hfirst, hlater]

/-- The canonical text is readable in one way only. Trees without strings are written alike if and
only if they are the same but for the places of their operators; the same holds of statements, where
one that prints is never written like one that does not, and of statements on lines of their own. -/
theorem render_eq_iff_unplaced_eq :
    (∀ a b : Expr, a.Plain → b.Plain → (a.render = b.render ↔ a.unplaced = b.unplaced)) ∧
      (∀ a b : Statement, a.Plain → b.Plain → (a.render = b.render ↔ a.unplaced = b.unplaced)) ∧
      (∀ a b : Expr, (Statement.print a).render ≠ (Statement.expression b).render) ∧
      ∀ as bs : List Statement, (∀ a ∈ as, a.Plain) → (∀ b ∈ bs, b.Plain) →
        (asLines (as.map Statement.render) = asLines (bs.map Statement.render) ↔
          as.map Statement.unplaced = bs.map Statement.unplaced) := by
  refine ⟨?_, ?_, ?_, ?_⟩
  · intro a b ha hb
    refine ⟨fun h => ?_, Expr.render_eq_of_unplaced_eq⟩
    exact (Expr.unplaced_eq_of_render_append ha hb .nil .nil (by rw [h])).1
  · intro a b ha hb
    refine ⟨fun h => ?_, Statement.render_eq_of_unplaced_eq⟩
    have htexts : a.render.toList ++ [] = b.render.toList ++ [] := by rw [h]
    exact (Statement.unplaced_eq_of_render_append ha hb htexts).1
  · intro a b h
    exact Statement.render_print_append_ne a b [] [] (by rw [h])
  · intro as bs ha hb
    refine ⟨unplaced_eq_of_asLines ha hb, fun h => ?_⟩
    rw [map_render_of_move_eq h]

/-- The minus of a negative number is not the operator, whose place does not matter. -/
theorem render_eq_iff_unplaced_eq_minus :
    (Expr.unary ⟨.symbol .minus, "-", none, ⟨1, 1⟩⟩ (.literal (.number (.ofRank false 1)))).render ≠
        (Expr.literal (.number (.ofRank true 1))).render ∧
      asLines ([Statement.print (.unary ⟨.symbol .minus, "-", none, ⟨1, 7⟩⟩ (.literal .nil))].map
          Statement.render) =
        asLines ([Statement.print (.unary ⟨.symbol .minus, "-", none, ⟨2, 1⟩⟩ (.literal .nil))].map
          Statement.render) := by
  obtain ⟨hexprs, -, -, hlists⟩ := render_eq_iff_unplaced_eq
  have hminus : ∀ p (e : Expr), e.Plain → (Expr.unary ⟨.symbol .minus, "-", none, p⟩ e).Plain :=
    fun p e h => ⟨⟨.minus, by decide, rfl, rfl, rfl⟩, h⟩
  have hnumber : ∀ negative, (Expr.literal (.number (.ofRank negative 1))).Plain := fun _ _ =>
    Value.noConfusion
  have hnil : (Expr.literal .nil).Plain := fun _ => Value.noConfusion
  constructor
  · rw [ne_eq, hexprs _ _ (hminus _ _ (hnumber false)) (hnumber true)]
    exact Expr.noConfusion
  · refine (hlists _ _ ?_ ?_).2 rfl
    · exact List.forall_mem_singleton.2 (hminus _ _ hnil)
    · exact List.forall_mem_singleton.2 (hminus _ _ hnil)

end LoxSyntax
