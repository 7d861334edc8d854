import LoxSyntax.Proofs.ExpressionTokens
import LoxSyntax.Program

/-!
The rules for statements and their grammar. The tokens of a statement form a block, which is an
expression with or without a semicolon behind it and maybe a word in front. A block without a
semicolon ends only where nothing can go on with it, so it needs a look at the token behind it;
one with a semicolon needs none.
-/

namespace LoxSyntax

open Grammar

/-- The tokens of a statement, with what their expression is. -/
inductive Block
  | print (word : Token) (body : List Token) (value : Expr) (closing : Token)
  | closed (body : List Token) (value : Expr) (closing : Token)
  | bare (body : List Token) (value : Expr)

namespace Block

def tokens : Block → List Token
  | print word body _ closing => word :: body ++ [closing]
  | closed body _ closing => body ++ [closing]
  | bare body _ => body

def statement : Block → Statement
  | print _ _ value _ => .print value
  | closed _ value _ => .expression value
  | bare _ value => .expression value

/-- Whether a block is a statement under the given settings. -/
def Fits (settings : Settings) : Block → Prop
  | print word body value closing =>
    word.kind = .word .printWord ∧ value.Fits 4 settings.nestingLimit body ∧
      closing.kind = .symbol .semicolon
  | closed body value closing =>
    value.Fits 4 settings.nestingLimit body ∧ closing.kind = .symbol .semicolon
  | bare body value =>
    settings.terminator = .optional ∧ value.Fits 4 settings.nestingLimit body

/-- Whether a block ends in front of the token. -/
def StopsAt (t : Token) : Block → Prop
  | print _ _ _ _ => True
  | closed _ _ _ => True
  | bare _ _ => t.Ends 4 ∧ t.kind ≠ .symbol .semicolon

end Block

/-- The tokens `w` begin a statement, but it cannot go on with `t`. -/
inductive StatementBreaks (settings : Settings) : List Token → Token → SyntaxFault → Prop
  | value {w : List Token} {t : Token} {cause : SyntaxFault}
      (hword : w = [] → t.kind ≠ .word .printWord)
      (h : Breaks settings.nestingLimit 4 settings.nestingLimit w t cause) :
      StatementBreaks settings w t cause
  | printed {word : Token} {w : List Token} {t : Token} {cause : SyntaxFault}
      (hword : word.kind = .word .printWord)
      (h : Breaks settings.nestingLimit 4 settings.nestingLimit w t cause) :
      StatementBreaks settings (word :: w) t cause
  | unterminatedPrint {word : Token} {w : List Token} {t : Token} {e : Expr}
      (hword : word.kind = .word .printWord) (h : e.Fits 4 settings.nestingLimit w)
      (hends : t.Ends 4) (hclosing : t.kind ≠ .symbol .semicolon) :
      StatementBreaks settings (word :: w) t .unterminatedPrint
  | unterminated {w : List Token} {t : Token} {e : Expr}
      (hrequired : settings.terminator = .required) (h : e.Fits 4 settings.nestingLimit w)
      (hends : t.Ends 4) (hclosing : t.kind ≠ .symbol .semicolon) :
      StatementBreaks settings w t .unterminatedExpression

namespace Grammar

open TokenStream

variable {settings : Settings} {s rest : TokenStream}

/-- What a reading of `s` as a statement comes to. -/
def StatementExplained (settings : Settings) (s : TokenStream) : Reading Statement → Prop
  | .done statement rest =>
    ∃ b : Block, b.Fits settings ∧ b.statement = statement ∧ s.After b.tokens rest ∧
      b.StopsAt rest.peek
  | .stuck cause rest => ∃ w, s.After w rest ∧ StatementBreaks settings w rest.peek cause

theorem explained_printStatement {behind : TokenStream} (hs : s.Proper) {word : Token}
    (hbehind : s.After [word] behind) (hword : word.kind = .word .printWord) :
    StatementExplained settings s ((printStatement settings.expression).read behind) := by
  have hproper := hbehind.proper hs
  unfold printStatement
  dsimp only
  cases hread : settings.expression.read behind with
  | stuck cause rest =>
    obtain ⟨w, hw, hbreaks⟩ := (expression_eq_stuck_iff hproper).1 hread
    exact ⟨_, hbehind.trans hw, .printed hword hbreaks⟩
  | done e rest =>
    obtain ⟨w, hw, he, hends⟩ := (expression_eq_done_iff hproper).1 hread
    unfold Reading.bind
    dsimp only
    cases hclose : rest.expect (.symbol .semicolon) .unterminatedPrint with
    | done closing final =>
      obtain ⟨hfinal, hclosing⟩ := expect_eq_done hclose
      refine ⟨.print word w e closing, ⟨hword, he, hclosing⟩, rfl, ?_, trivial⟩
      simpa [Block.tokens] using (hbehind.trans hw).trans hfinal
    | stuck cause final =>
      obtain ⟨rfl, rfl, hne⟩ := expect_eq_stuck (hw.proper hproper) (by simp) hclose
      exact ⟨_, hbehind.trans hw, .unterminatedPrint hword he hends hne⟩

theorem explained_bareStatement (hs : s.Proper) (hword : s.peek.kind ≠ .word .printWord) :
    StatementExplained settings s
      ((bareStatement settings.terminator settings.expression).read s) := by
  unfold bareStatement
  dsimp only
  cases hread : settings.expression.read s with
  | stuck cause rest =>
    obtain ⟨w, hw, hbreaks⟩ := (expression_eq_stuck_iff hs).1 hread
    refine ⟨w, hw, .value ?_ hbreaks⟩
    rintro rfl
    rwa [hw.nil_eq]
  | done e rest =>
    obtain ⟨w, hw, he, hends⟩ := (expression_eq_done_iff hs).1 hread
    have hproper := hw.proper hs
    unfold Reading.bind terminated
    dsimp only
    split
    · rename_i hrequired
      cases hclose : rest.expect (.symbol .semicolon) .unterminatedExpression with
      | done closing final =>
        obtain ⟨hfinal, hclosing⟩ := expect_eq_done hclose
        exact ⟨.closed w e closing, ⟨he, hclosing⟩, rfl, hw.trans hfinal, trivial⟩
      | stuck cause final =>
        obtain ⟨rfl, rfl, hne⟩ := expect_eq_stuck hproper (by simp) hclose
        exact ⟨w, hw, .unterminated hrequired he hends hne⟩
    · rename_i hoptional
      split
      · rename_i closing final htake
        obtain ⟨hfinal, hclosing⟩ := take?_eq_some htake
        exact ⟨.closed w e closing, ⟨he, List.mem_singleton.1 hclosing⟩, rfl,
          hw.trans hfinal, trivial⟩
      · rename_i htake
        have hne := peek_of_take?_eq_none hproper (by simp) htake
        exact ⟨.bare w e, ⟨hoptional, he⟩, rfl, hw, hends, by simpa using hne⟩

theorem explained_statement (settings : Settings) (hs : s.Proper) :
    StatementExplained settings s (settings.statement.read s) := by
  unfold Settings.statement Grammar.statement
  dsimp only
  split
  · rename_i word behind htake
    obtain ⟨hbehind, hkind⟩ := take?_eq_some htake
    exact explained_printStatement hs hbehind (List.mem_singleton.1 hkind)
  · rename_i htake
    have hne := peek_of_take?_eq_none hs (by simp) htake
    exact explained_bareStatement hs (by simpa using hne)

theorem expression_of_fits {w : List Token} {e : Expr}
    (he : e.Fits 4 settings.nestingLimit w) (hw : s.After w rest) (hends : rest.peek.Ends 4) :
    settings.expression.read s = .done e rest :=
  (stands_of_fits settings.nestingLimit he hw).alone 4 he.tier_le hends

/-- Only a block with the word in front is read as one that prints. -/
theorem statement_of_word {behind : TokenStream} {word : Token} (hbehind : s.After [word] behind)
    (hword : word.kind = .word .printWord) :
    settings.statement.read s = (printStatement settings.expression).read behind := by
  obtain ⟨q, htake, hq, -⟩ := take?_of_after hbehind (List.mem_singleton.2 hword)
  have hq : q = behind := hq.rest_eq hbehind
  subst hq
  simp only [Settings.statement, Grammar.statement, htake]

theorem statement_of_ne (hword : s.peek.kind ≠ .word .printWord) :
    settings.statement.read s =
      (bareStatement settings.terminator settings.expression).read s := by
  have htake : s.take? [.word .printWord] = none := take?_eq_none (by simpa using hword)
  simp only [Settings.statement, Grammar.statement, htake]

theorem peek_ne_of_starter {t : Token} {w : List Token} (ht : t.kind ∈ starters)
    (hw : s.After (t :: w) rest) : s.peek.kind ≠ .word .printWord := by
  rw [hw.peek_cons]
  intro hword
  rw [hword] at ht
  revert ht
  decide

theorem peek_ne_of_fits {w : List Token} {e : Expr} {n room : Nat} (he : e.Fits n room w)
    (hw : s.After w rest) : s.peek.kind ≠ .word .printWord := by
  obtain ⟨t, later, rfl, ht⟩ := he.written.head he.canonical
  exact peek_ne_of_starter ht hw

/-- A block is read where it stands. -/
theorem statement_of_fits {b : Block} (hb : b.Fits settings) (hw : s.After b.tokens rest)
    (hstop : b.StopsAt rest.peek) : settings.statement.read s = .done b.statement rest := by
  cases b with
  | print word body value closing =>
    obtain ⟨hword, hvalue, hclosing⟩ := hb
    obtain ⟨q, hbody, hclose⟩ := hw.split
    obtain ⟨behind, hbehind, hbody⟩ := hbody.split (a := [word])
    have hends : q.peek.Ends 4 := by
      rw [hclose.peek_cons]
      exact Token.ends_of_semicolon hclosing
    rw [statement_of_word hbehind hword]
    simp only [printStatement, expression_of_fits hvalue hbody hends, Reading.bind,
      expect_of_after hclose hclosing, Reading.map, Block.statement]
  | closed body value closing =>
    obtain ⟨hvalue, hclosing⟩ := hb
    obtain ⟨q, hbody, hclose⟩ := hw.split
    have hends : q.peek.Ends 4 := by
      rw [hclose.peek_cons]
      exact Token.ends_of_semicolon hclosing
    obtain ⟨final, htake, hfinal, -⟩ := take?_of_after hclose (List.mem_singleton.2 hclosing)
    have hfinal : final = rest := hfinal.rest_eq hclose
    subst hfinal
    rw [statement_of_ne (peek_ne_of_fits hvalue hbody)]
    cases hterminator : settings.terminator with
    | optional =>
      simp only [bareStatement, expression_of_fits hvalue hbody hends, Reading.bind, terminated,
        htake, Block.statement]
    | required =>
      simp only [bareStatement, expression_of_fits hvalue hbody hends, Reading.bind, terminated,
        expect_of_after hclose hclosing, Reading.map, Block.statement]
  | bare body value =>
    obtain ⟨hoptional, hvalue⟩ := hb
    obtain ⟨hends, hclosing⟩ := hstop
    have htake : rest.take? [.symbol .semicolon] = none :=
      take?_eq_none (by simpa using hclosing)
    rw [statement_of_ne (peek_ne_of_fits hvalue hw)]
    simp only [bareStatement, expression_of_fits hvalue hw hends, Reading.bind, hoptional,
      terminated, htake, Block.statement]

/-- A statement is stuck where its tokens break off. -/
theorem statement_of_breaks {w : List Token} {cause : SyntaxFault}
    (h : StatementBreaks settings w rest.peek cause) (hw : s.After w rest) :
    settings.statement.read s = .stuck cause rest := by
  cases h with
  | value hword h =>
    have hne : s.peek.kind ≠ .word .printWord := by
      cases w with
      | nil =>
        rw [← hw.nil_eq]
        exact hword rfl
      | cons t later => exact peek_ne_of_starter h.head hw
    have hread : settings.expression.read s = .stuck cause rest := stuck_of_breaks h hw rfl
    rw [statement_of_ne hne]
    simp only [bareStatement, hread, Reading.bind]
  | @printed word w t cause hword h =>
    obtain ⟨behind, hbehind, hbody⟩ := hw.split (a := [word])
    have hread : settings.expression.read behind = .stuck cause rest :=
      stuck_of_breaks h hbody rfl
    rw [statement_of_word hbehind hword]
    simp only [printStatement, hread, Reading.bind]
  | @unterminatedPrint word w t e hword he hends hclosing =>
    obtain ⟨behind, hbehind, hbody⟩ := hw.split (a := [word])
    rw [statement_of_word hbehind hword]
    simp only [printStatement, expression_of_fits he hbody hends, Reading.bind,
      expect_of_ne hclosing, Reading.map]
  | @unterminated w t e hrequired he hends hclosing =>
    rw [statement_of_ne (peek_ne_of_fits he hw)]
    simp only [bareStatement, expression_of_fits he hw hends, Reading.bind, hrequired,
      terminated, expect_of_ne hclosing, Reading.map]

end Grammar

end LoxSyntax
