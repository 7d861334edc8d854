import LoxSyntax.Expr
import LoxSyntax.Rule

/-!
The grammar. Each tier of binary operators is a chain of operands of the tier below, folded to
the left; the lowest tier has operands with unary operators, which nest to the right and hold
groupings. Room for nesting is counted down by every unary operator and every grouping, so the
rules are defined by recursion on it; where none is left the limit itself is reported. A
statement is an expression, printed or not.
-/

namespace LoxSyntax

/-- The binary operators, tier by tier; the first tier binds tightest. -/
def binaryTiers : List (List Symbol) :=
  [[.slash, .star], [.minus, .plus], [.greater, .greaterEqual, .less, .lessEqual],
    [.bangEqual, .equalEqual]]

def unaryOperators : List Symbol := [.bang, .minus]

def literalKinds : List Kind :=
  [.word .falseWord, .word .trueWord, .word .nilWord, .number, .string]

/-- The value of a token of a literal kind. Without its literal a number or string is nil. -/
def Token.value (t : Token) : Value :=
  match t.kind with
  | .word .falseWord => .boolean false
  | .word .trueWord => .boolean true
  | .word .nilWord => .nil
  | _ => (t.literal.map Value.ofLiteral).getD .nil

namespace Grammar

/-- Extends `left` by operators and operands as long as there are operators. -/
def extend (operators : List Symbol) (operand : Rule Expr) (left : Expr) (s : TokenStream) :
    Reading Expr :=
  match _htake : s.take? (operators.map .symbol) with
  | none => .done left s
  | some (operator, behind) =>
    match _hread : operand.read behind with
    | .stuck cause rest => .stuck cause rest
    | .done right rest => extend operators operand (.binary left operator right) rest
termination_by s.pending.length
decreasing_by
  have hforward := operand.forward behind
  rw [_hread] at hforward
  obtain ⟨t, taken, hafter⟩ := hforward
  have htotal := ((TokenStream.after_of_take? _htake).trans hafter).length_pending
  simp only [List.length_append, List.length_cons] at htotal
  omega

theorem onward_extend (operators : List Symbol) (operand : Rule Expr) (left : Expr)
    (s : TokenStream) : (extend operators operand left s).Onward s := by
  fun_induction extend operators operand left s with
  | case1 left s htake => exact ⟨[], .refl s⟩
  | case2 left s operator behind htake cause rest hread =>
    have hforward := operand.forward behind
    rw [hread] at hforward
    obtain ⟨taken, hafter⟩ := hforward
    exact ⟨_, (TokenStream.after_of_take? htake).trans hafter⟩
  | case3 left s operator behind htake right rest hread ih =>
    have hforward := operand.forward behind
    rw [hread] at hforward
    obtain ⟨t, taken, hafter⟩ := hforward
    obtain ⟨more, hmore⟩ := ih
    exact ⟨_, ((TokenStream.after_of_take? htake).trans hafter).trans hmore⟩

/-- One operand, or several with operators between them. -/
def chain (operand : Rule Expr) (operators : List Symbol) : Rule Expr where
  read s := (operand.read s).bind (extend operators operand)
  forward s := (operand.forward s).bind fun left rest => onward_extend operators operand left rest

/-- Operands joined by binary operators of all tiers. -/
def binary (operand : Rule Expr) : Rule Expr := binaryTiers.foldl chain operand

/-- A literal, or `inner` in parentheses. -/
def primary (inner : Rule Expr) : Rule Expr where
  read s :=
    match s.take? literalKinds with
    | some (t, behind) => .done (.literal t.value) behind
    | none =>
      match s.take? [.symbol .leftParen] with
      | some (_, behind) =>
        (inner.read behind).bind fun e rest =>
          (rest.expect (.symbol .rightParen) .unclosedGrouping).map fun _ => .grouping e
      | none => .stuck (.unexpectedToken s.peek.lexeme) s
  forward s := by
    split
    · rename_i t behind htake
      exact ⟨t, [], TokenStream.after_of_take? htake⟩
    split
    · rename_i t behind htake
      apply Reading.Onward.forward_of_after (TokenStream.after_of_take? htake)
      apply Reading.Forward.onward
      exact (inner.forward behind).bind fun e rest =>
        ((rest.forward_expect _ _).map _).onward
    · exact ⟨[], .refl s⟩

/-- A unary operator and its operand `deeper`, or a primary expression that may hold `inner`. -/
def operand (deeper inner : Rule Expr) : Rule Expr where
  read s :=
    match s.take? (unaryOperators.map .symbol) with
    | some (operator, behind) => (deeper.read behind).map (.unary operator)
    | none => (primary inner).read s
  forward s := by
    split
    · rename_i operator behind htake
      exact Reading.Onward.forward_of_after (TokenStream.after_of_take? htake)
        ((deeper.forward behind).map _).onward
    · exact (primary inner).forward s

/-- An operand of binary operators in which unary operators and groupings may nest `room` deep. -/
def unary (limit : Nat) : (room : Nat) → Rule Expr
  | 0 => operand (.never (.nestedDeeperThan limit)) (.never (.nestedDeeperThan limit))
  | room + 1 =>
    let deeper := unary limit room
    operand deeper (binary deeper)

def expression (limit : Nat) : Rule Expr := binary (unary limit limit)

end Grammar

/-- Whether a statement that is a bare expression has to end in a semicolon, or only may. -/
inductive Terminator
  | optional
  | required
  deriving DecidableEq

namespace Grammar

/-- What a bare expression ends in. -/
def terminated (terminator : Terminator) (e : Expr) (s : TokenStream) : Reading Statement :=
  match terminator with
  | .required =>
    (s.expect (.symbol .semicolon) .unterminatedExpression).map fun _ => .expression e
  | .optional =>
    match s.take? [.symbol .semicolon] with
    | some (_, rest) => .done (.expression e) rest
    | none => .done (.expression e) s

theorem onward_terminated (terminator : Terminator) (e : Expr) (s : TokenStream) :
    (terminated terminator e s).Onward s := by
  unfold terminated
  split
  · exact ((s.forward_expect _ _).map _).onward
  · split
    · rename_i t rest htake
      exact ⟨[t], TokenStream.after_of_take? htake⟩
    · exact ⟨[], .refl s⟩

/-- An expression as a statement. -/
def bareStatement (terminator : Terminator) (value : Rule Expr) : Rule Statement where
  read s := (value.read s).bind (terminated terminator)
  forward s := (value.forward s).bind fun e rest => onward_terminated terminator e rest

/-- The rest of a statement that prints, behind its word. It always ends in a semicolon. -/
def printStatement (value : Rule Expr) : Rule Statement where
  read s :=
    (value.read s).bind fun e rest =>
      (rest.expect (.symbol .semicolon) .unterminatedPrint).map fun _ => .print e
  forward s := (value.forward s).bind fun _ rest => ((rest.forward_expect _ _).map _).onward

def statement (terminator : Terminator) (value : Rule Expr) : Rule Statement where
  read s :=
    match s.take? [.word .printWord] with
    | some (_, behind) => (printStatement value).read behind
    | none => (bareStatement terminator value).read s
  forward s := by
    split
    · rename_i t behind htake
      exact ((printStatement value).forward behind).onward.forward_of_after
        (TokenStream.after_of_take? htake)
    · exact (bareStatement terminator value).forward s

/-- An expression that takes up the whole stream. -/
def wholeExpression (limit : Nat) (s : TokenStream) : Reading Expr :=
  ((expression limit).read s).bind fun e rest =>
    if rest.atEnd then .done e rest else .stuck .trailingToken rest

end Grammar

end LoxSyntax
