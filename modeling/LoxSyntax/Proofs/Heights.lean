import LoxSyntax.Proofs.Programs
import LoxSyntax.Proofs.WholeExpressions

/-!
How high the trees are that are read. The limit on nesting bounds the groupings and unary operators
on a way from the root to a leaf, and with them every step that does not go to a left operand,
since to the right of an operator stands only what binds tighter. It does not bound the height: a
chain of operators is folded to the left, one level for each of them, as long as there are more.
So a bound on the height takes a bound on the chains besides.
-/

namespace LoxSyntax

open Grammar

namespace Expr

/-- The number of levels of a tree, a literal having one. -/
def height : Expr → Nat
  | literal _ => 1
  | grouping inner => inner.height + 1
  | unary _ operand => operand.height + 1
  | binary left _ right => max left.height right.height + 1

/-- The most steps on a way from the root to a leaf that do not go to a left operand. -/
def detours : Expr → Nat
  | literal _ => 0
  | grouping inner => inner.detours + 1
  | unary _ operand => operand.detours + 1
  | binary left _ right => max left.detours (right.detours + 1)

/-- How many operators of one tier have been folded into the tree from the left. -/
def chainLength : Expr → Nat
  | binary left operator _ =>
    (if left.tier = operator.kind.tier?.getD 0 then left.chainLength else 0) + 1
  | _ => 0

/-- The length of the longest chain in a tree. -/
def longestChain : Expr → Nat
  | literal _ => 0
  | grouping inner => inner.longestChain
  | unary _ operand => operand.longestChain
  | binary left operator right =>
    max (binary left operator right).chainLength (max left.longestChain right.longestChain)

theorem chainLength_le (e : Expr) : e.chainLength ≤ e.longestChain := by
  cases e with
  | literal value => exact Nat.le_refl 0
  | grouping inner => exact Nat.zero_le _
  | unary operator operand => exact Nat.zero_le _
  | binary left operator right => exact Nat.le_max_left _ _

/-- Between two levels of nesting there is one step to the right for each tier at most. -/
theorem Canonical.detours_le {e : Expr} (h : e.Canonical) : e.detours ≤ 5 * e.nesting + e.tier := by
  induction e with
  | literal value => exact Nat.zero_le _
  | grouping inner ih =>
    have hinner := ih h
    have htier := Canonical.tier_le (e := inner) h
    simp only [detours, nesting, tier]
    omega
  | unary operator operand ih =>
    obtain ⟨-, htier, hoperand⟩ := h
    have hdetours := ih hoperand
    simp only [detours, nesting, tier]
    omega
  | binary left operator right ihleft ihright =>
    obtain ⟨n, hn, hleft, hright, hleftCanonical, hrightCanonical⟩ := h
    have hdetoursLeft := ihleft hleftCanonical
    have hdetoursRight := ihright hrightCanonical
    simp only [detours, nesting, tier, hn, Option.getD_some]
    omega

theorem Canonical.tier_pos {left right : Expr} {operator : Token}
    (h : (binary left operator right).Canonical) : 0 < (binary left operator right).tier := by
  obtain ⟨n, hn, -⟩ := h
  rw [tier, hn]
  exact (Kind.tier?_bounds hn).1

/-- A chain of `k` operators at most takes up `k` levels of its tier, and so do those of the tiers
below. A chain that is not full leaves some of its levels free, and what is no chain has none. -/
structure LevelsWithin (k : Nat) (e : Expr) : Prop where
  flat : e.tier = 0 → e.height ≤ e.nesting * (4 * k + 1) + 1
  chain : 0 < e.tier →
    e.height + k ≤ e.nesting * (4 * k + 1) + e.tier * k + e.chainLength + 1

namespace LevelsWithin

variable {k n : Nat} {e : Expr}

theorem height_le (h : e.LevelsWithin k) (hk : e.longestChain ≤ k) :
    e.height ≤ e.nesting * (4 * k + 1) + e.tier * k + 1 := by
  have hlength := e.chainLength_le
  rcases Nat.eq_zero_or_pos e.tier with hzero | hpos
  · have hheight := h.flat hzero
    omega
  · have hheight := h.chain hpos
    omega

/-- Below tier `n` all levels of that tier are free. -/
theorem height_add_le (h : e.LevelsWithin k) (hk : e.longestChain ≤ k) (hlt : e.tier < n) :
    e.height + k ≤ e.nesting * (4 * k + 1) + n * k + 1 := by
  have hheight := h.height_le hk
  have hlevels := Nat.mul_le_mul_right k hlt
  rw [Nat.succ_mul] at hlevels
  omega

end LevelsWithin

theorem Canonical.levelsWithin {e : Expr} (h : e.Canonical) {k : Nat} (hk : e.longestChain ≤ k) :
    e.LevelsWithin k := by
  induction e with
  | literal value => exact ⟨fun _ => Nat.le_add_left 1 _, fun hpos => absurd hpos (Nat.lt_irrefl 0)⟩
  | grouping inner ih =>
    have hinner := (ih h hk).height_le hk
    have htier := Nat.mul_le_mul_right k (Canonical.tier_le (e := inner) h)
    have hlevels := Nat.add_one_mul inner.nesting (4 * k + 1)
    refine ⟨fun _ => ?_, fun hpos => absurd hpos (Nat.lt_irrefl 0)⟩
    simp only [height, nesting]
    omega
  | unary operator operand ih =>
    obtain ⟨-, hzero, hoperand⟩ := h
    have hflat := (ih hoperand hk).flat hzero
    have hlevels := Nat.add_one_mul operand.nesting (4 * k + 1)
    refine ⟨fun _ => ?_, fun hpos => absurd hpos (Nat.lt_irrefl 0)⟩
    simp only [height, nesting]
    omega
  | binary left operator right ihleft ihright =>
    have hpos := h.tier_pos
    obtain ⟨n, hn, hleft, hright, hleftCanonical, hrightCanonical⟩ := h
    have htier : (binary left operator right).tier = n := by rw [tier, hn, Option.getD_some]
    obtain ⟨-, hkeeps⟩ := Nat.max_le.1 hk
    obtain ⟨hkleft, hkright⟩ := Nat.max_le.1 hkeeps
    have hrightHeight := (ihright hrightCanonical hkright).height_add_le hkright hright
    have hlength : 1 ≤ (binary left operator right).chainLength := Nat.le_add_left 1 _
    -- the left operand shares the levels of the chain if it goes on in it
    have hleftHeight : left.height + 1 + k ≤ left.nesting * (4 * k + 1) + n * k +
        (binary left operator right).chainLength + 1 := by
      by_cases hsame : left.tier = n
      · have hheight := (ihleft hleftCanonical hkleft).chain (by omega)
        have hgrown : (binary left operator right).chainLength = left.chainLength + 1 := by
          rw [chainLength, hn, Option.getD_some, if_pos hsame]
        rw [hsame] at hheight
        omega
      · have hheight := (ihleft hleftCanonical hkleft).height_add_le hkleft
          (Nat.lt_of_le_of_ne hleft hsame)
        omega
    have hnestLeft := Nat.mul_le_mul_right (4 * k + 1) (Nat.le_max_left left.nesting right.nesting)
    have hnestRight := Nat.mul_le_mul_right (4 * k + 1)
      (Nat.le_max_right left.nesting right.nesting)
    rw [htier] at hpos
    refine ⟨fun hzero => absurd hzero (by omega), fun _ => ?_⟩
    rw [htier]
    simp only [height, nesting]
    omega

/-- The height of a tree by its nesting and its longest chain. -/
theorem Canonical.height_le {e : Expr} (h : e.Canonical) :
    e.height ≤ (e.nesting + 1) * (4 * e.longestChain + 1) := by
  have hlongest := Nat.le_refl e.longestChain
  have hheight := (h.levelsWithin hlongest).height_le hlongest
  have htier := Nat.mul_le_mul_right e.longestChain h.tier_le
  rw [Nat.succ_mul]
  omega

end Expr

/-- The sum of `n + 1` times nil. -/
def Expr.sum : Nat → Expr
  | 0 => .literal .nil
  | n + 1 => .binary (sum n) Symbol.plus.token (.literal .nil)

/-- How the sum is written. -/
def Expr.sumTokens : Nat → List Token
  | 0 => [Word.nilWord.token]
  | n + 1 => sumTokens n ++ [Symbol.plus.token, Word.nilWord.token]

theorem Expr.fits_sum (room n : Nat) : (sum n).Fits 2 room (sumTokens n) := by
  induction n with
  | zero => exact .literal (.nil rfl)
  | succ n ih => exact .binary ih rfl (.literal (.nil rfl))

theorem Expr.height_sum (n : Nat) : (sum n).height = n + 1 := by
  induction n with
  | zero => rfl
  | succ n ih =>
    rw [sum, height, ih, height]
    omega

/-- Whether a tree is returned for a stream that is read as one expression or as a program. -/
def Yields (settings : Settings) (s : TokenStream) (e : Expr) : Prop :=
  readExpression settings s = .ok e ∨
    ∃ statements, readProgram settings s = .ok statements ∧
      (.print e ∈ statements ∨ .expression e ∈ statements)

variable {settings : Settings} {s : TokenStream} {e : Expr}

theorem Block.Fits.exists_fits {b : Block} (hb : b.Fits settings)
    (he : b.statement = .print e ∨ b.statement = .expression e) :
    ∃ w, e.Fits 4 settings.nestingLimit w := by
  cases b with
  | print word body value closing =>
    rcases he with he | he
    · cases he
      exact ⟨body, hb.2.1⟩
    · cases he
  | closed body value closing =>
    rcases he with he | he
    · cases he
    · cases he
      exact ⟨body, hb.1⟩
  | bare body value =>
    rcases he with he | he
    · cases he
    · cases he
      exact ⟨body, hb.2⟩

theorem Yields.exists_fits (hs : s.Proper) (h : Yields settings s e) :
    ∃ w, e.Fits 4 settings.nestingLimit w := by
  rcases h with hread | ⟨statements, hread, hmem⟩
  · exact ⟨_, (readExpression_eq_ok_iff_fits hs).1 hread⟩
  · obtain ⟨blocks, hchain, -, rfl⟩ := (readProgram_eq_ok_iff_chain hs).1 hread
    rw [List.mem_map, List.mem_map] at hmem
    rcases hmem with ⟨b, hb, he⟩ | ⟨b, hb, he⟩
    · exact (hchain.fits b hb).exists_fits (.inl he)
    · exact (hchain.fits b hb).exists_fits (.inr he)

/-- No number bounds the height of the trees that are read, whether a stream is read as one
expression or as a program: a sum of enough operands is higher. -/
theorem height_unbounded :
    (¬ ∃ bound, ∀ tokens s e, TokenStream.ofTokens tokens = .ok s →
      readExpression {} s = .ok e → e.height ≤ bound) ∧
      ¬ ∃ bound, ∀ tokens s statements, TokenStream.ofTokens tokens = .ok s →
        readProgram {} s = .ok statements → ∀ e, .expression e ∈ statements → e.height ≤ bound := by
  have hsum : ∀ n, (Expr.sum n).Fits 4 128 (Expr.sumTokens n) := fun n => (Expr.fits_sum 128 n).four
  have hstream : ∀ n, TokenStream.ofTokens (Expr.sumTokens n ++ [Token.mark]) =
      .ok ⟨[], Expr.sumTokens n, Token.mark⟩ :=
    fun n => TokenStream.ofTokens_concat (hsum n).ne_endMark rfl
  have hproper : ∀ n, TokenStream.Proper ⟨[], Expr.sumTokens n, Token.mark⟩ :=
    fun n => (TokenStream.ofTokens_eq_ok (hstream n)).2.1
  constructor
  · rintro ⟨bound, hbound⟩
    have hread : readExpression {} ⟨[], Expr.sumTokens bound, Token.mark⟩ = .ok (.sum bound) :=
      (readExpression_eq_ok_iff_fits (hproper bound)).2 (hsum bound)
    have hle := hbound _ _ _ (hstream bound) hread
    rw [Expr.height_sum] at hle
    omega
  · rintro ⟨bound, hbound⟩
    have hchain : Block.Chain {} [.bare (Expr.sumTokens bound) (.sum bound)] Token.mark :=
      ⟨⟨rfl, hsum bound⟩, ⟨Token.ends_four_iff.2 rfl, by decide⟩, trivial⟩
    have hread : readProgram {} ⟨[], Expr.sumTokens bound, Token.mark⟩ =
        .ok [.expression (.sum bound)] :=
      (readProgram_eq_ok_iff_chain (hproper bound)).2
        ⟨_, hchain, (List.append_nil _).symm, rfl⟩
    have hle := hbound _ _ _ (hstream bound) hread _ (List.mem_singleton.2 rfl)
    rw [Expr.height_sum] at hle
    omega

/-- Of every tree that is read, whether as an expression or in a statement of a program, the limit
on nesting alone bounds the groupings and unary operators on a way from the root to a leaf, and the
steps on it that do not go to a left operand. Its height is bounded by the limit and by the length
of its longest chain. -/
theorem height_le_of_yields {tokens : List Token} {s : TokenStream} {settings : Settings} {e : Expr}
    (h : TokenStream.ofTokens tokens = .ok s) (he : Yields settings s e) :
    e.nesting ≤ settings.nestingLimit ∧ e.detours ≤ 5 * settings.nestingLimit + 4 ∧
      e.height ≤ (settings.nestingLimit + 1) * (4 * e.longestChain + 1) := by
  obtain ⟨w, hfits⟩ := he.exists_fits (TokenStream.ofTokens_eq_ok h).2.1
  have hnesting := hfits.nesting_le
  have hdetours := hfits.canonical.detours_le
  have htier := hfits.tier_le
  refine ⟨hnesting, by omega, ?_⟩
  calc e.height ≤ (e.nesting + 1) * (4 * e.longestChain + 1) := hfits.canonical.height_le
    _ ≤ (settings.nestingLimit + 1) * (4 * e.longestChain + 1) :=
      Nat.mul_le_mul_right _ (Nat.succ_le_succ hnesting)

/-- A product in parentheses stands to the right of a minus. -/
theorem height_le_of_yields_minus_grouping :
    ∃ s e, TokenStream.ofTokens [Word.nilWord.token, Symbol.minus.token, Symbol.leftParen.token,
        Word.nilWord.token, Symbol.star.token, Symbol.bang.token, Word.trueWord.token,
        Symbol.rightParen.token, Token.mark] = .ok s ∧
      readExpression {} s = .ok e ∧ e.nesting = 2 ∧ e.detours = 4 ∧ e.longestChain = 1 ∧
      e.height = 5 ∧ e.nesting ≤ 128 ∧ e.detours ≤ 644 ∧ e.height ≤ 129 * 5 := by
  have h : TokenStream.ofTokens [Word.nilWord.token, Symbol.minus.token, Symbol.leftParen.token,
      Word.nilWord.token, Symbol.star.token, Symbol.bang.token, Word.trueWord.token,
      Symbol.rightParen.token, Token.mark] = .ok ⟨[], [Word.nilWord.token, Symbol.minus.token,
        Symbol.leftParen.token, Word.nilWord.token, Symbol.star.token, Symbol.bang.token,
        Word.trueWord.token, Symbol.rightParen.token], Token.mark⟩ := rfl
  have hproduct : (Expr.binary (.literal .nil) Symbol.star.token (.unary Symbol.bang.token
      (.literal (.boolean true)))).Fits 1 127 [Word.nilWord.token, Symbol.star.token,
        Symbol.bang.token, Word.trueWord.token] :=
    .binary (.literal (.nil rfl)) rfl (.unary (.inl rfl) (.literal (.truth rfl)))
  have hdifference : (Expr.binary (.literal .nil) Symbol.minus.token (.grouping
      (.binary (.literal .nil) Symbol.star.token (.unary Symbol.bang.token
        (.literal (.boolean true)))))).Fits 2 128 [Word.nilWord.token, Symbol.minus.token,
        Symbol.leftParen.token, Word.nilWord.token, Symbol.star.token, Symbol.bang.token,
        Word.trueWord.token, Symbol.rightParen.token] :=
    .binary (.literal (.nil rfl)) rfl (.grouping rfl hproduct rfl)
  have hread : readExpression {} _ = .ok _ :=
    (readExpression_eq_ok_iff_fits (TokenStream.ofTokens_eq_ok h).2.1).2 hdifference.four
  obtain ⟨hnesting, hdetours, hheight⟩ := height_le_of_yields h (.inl hread)
  exact ⟨_, _, h, hread, rfl, rfl, rfl, rfl, hnesting, hdetours, hheight⟩

end LoxSyntax
