import LoxSyntax.TokenTape

/-!
A machine that reads a tape. It holds the tape and how deep the expression being read is nested;
every rule of the grammar is a program for it that moves the tape and counts the depth up and
down. A step has no result where a token is looked up past the list, where a loop takes more turns
than the list has tokens, or where rules are open within one another deeper than the limit lets
them be; that it has a result says that none of this happens.
-/

namespace LoxSyntax

structure Machine where
  tape : TokenTape
  /-- How many groupings and unary operators are open. -/
  depth : Nat

namespace Machine

abbrev Steps (α : Type) := StateT Machine Option α

/-- Steps that may fail with a diagnostic. -/
abbrev Run (α : Type) := ExceptT (Diagnostic SyntaxFault) Steps α

variable {α : Type}

/-- The answer to a question about the tape. -/
def look (question : TokenTape → Option α) : Steps α :=
  fun m => (question m.tape).map fun answer => (answer, m)

/-- The answer to a question that may move the tape. -/
def move (question : TokenTape → Option (α × TokenTape)) : Steps α :=
  fun m => (question m.tape).map fun (answer, tape) => (answer, { m with tape })

def note (event : Event) : Steps Unit := modify fun m => { m with tape := m.tape.note event }

/-- How many turns a loop may take: as many as there are tokens. -/
def turns : Steps Nat := look fun tape => some tape.tokens.length

def peek : Run Token := ExceptT.lift (look TokenTape.peek?)

def take (kinds : List Kind) : Run (Option Token) := ExceptT.lift (move (TokenTape.take? kinds))

def expect (kind : Kind) (cause : SyntaxFault) : Run Token :=
  ExceptT.mk (move (TokenTape.expect? kind cause))

/-- Fails at the token in view. -/
def refuse (cause : SyntaxFault) : Run α := do
  throw ((← peek).diagnostic cause)

/-- A rule read one level deeper. However it ends, the depth is counted down again. -/
def nested (limit : Nat) (rule : Run α) : Run α := ExceptT.mk do
  if limit ≤ (← get).depth then
    (refuse (.nestedDeeperThan limit) : Run α).run
  else
    modify fun m => { m with depth := m.depth + 1 }
    let result ← rule.run
    modify fun m => { m with depth := m.depth - 1 }
    return result

/-- Extends `left` by operators and operands as long as there are operators. -/
def extend (operators : List Symbol) (operand : Run Expr) : (turns : Nat) → Expr → Run Expr
  | 0, _ => fun _ => none
  | turns + 1, left => do
    match ← take (operators.map .symbol) with
    | none => return left
    | some operator =>
      let right ← operand
      extend operators operand turns (.binary left operator right)

def chain (operand : Run Expr) (operators : List Symbol) : Run Expr := do
  let left ← operand
  extend operators operand (← ExceptT.lift turns) left

def binary (operand : Run Expr) : Run Expr := binaryTiers.foldl chain operand

/-- A literal, or `inner` in parentheses. The kinds are tried one after the other. -/
def primary (inner : Run Expr) : Run Expr := do
  if (← take [.word .falseWord]).isSome then
    return .literal (.boolean false)
  if (← take [.word .trueWord]).isSome then
    return .literal (.boolean true)
  if (← take [.word .nilWord]).isSome then
    return .literal .nil
  if let some t ← take [.number, .string] then
    return .literal ((t.literal.map Value.ofLiteral).getD .nil)
  if (← take [.symbol .leftParen]).isSome then
    let e ← inner
    let _ ← expect (.symbol .rightParen) .unclosedGrouping
    return .grouping e
  refuse (.unexpectedToken (← peek).lexeme)

/-- An operand of binary operators. There is no result when more than `room` of them are read
within one another. -/
def unary (limit : Nat) : (room : Nat) → Run Expr
  | 0 => fun _ => none
  | room + 1 => do
    match ← take (unaryOperators.map .symbol) with
    | some operator => return .unary operator (← nested limit (unary limit room))
    | none => primary (nested limit (binary (unary limit room)))

/-- At most as many operands as the limit are open around another one. -/
def expression (limit : Nat) : Run Expr := binary (unary limit (limit + 1))

def printStatement (value : Run Expr) : Run Statement := do
  let e ← value
  let _ ← expect (.symbol .semicolon) .unterminatedPrint
  return .print e

def bareStatement (terminator : Terminator) (value : Run Expr) : Run Statement := do
  let e ← value
  match terminator with
  | .optional => let _ ← take [.symbol .semicolon]
  | .required => let _ ← expect (.symbol .semicolon) .unterminatedExpression
  return .expression e

def statement (settings : Settings) : Run Statement := do
  if (← take [.word .printWord]).isSome then
    printStatement (expression settings.nestingLimit)
  else
    bareStatement settings.terminator (expression settings.nestingLimit)

def toBoundary : (turns : Nat) → Steps Unit
  | 0 => fun _ => none
  | turns + 1 => do
    if ← look TokenTape.atEnd? then
      return
    if (← look TokenTape.previous?).any (·.kind = .symbol .semicolon) then
      return
    if (statementWords.map Kind.word).contains (← look TokenTape.peek?).kind then
      return
    let _ ← move TokenTape.advance?
    toBoundary turns

/-- Goes on behind a statement that was begun at the index `begun` and has failed. -/
def recover (begun : Nat) : Steps Unit := do
  if (← get).tape.head = begun then
    let _ ← move TokenTape.advance?
  toBoundary (← turns)
  note (.resumed (← look TokenTape.peek?))

/-- Reads statements up to the end mark, behind the statements and the faults already found. -/
def program (settings : Settings) : (turns : Nat) → List Statement → Report SyntaxFault →
    Steps (Except (Report SyntaxFault) (List Statement))
  | 0, _, _ => fun _ => none
  | turns + 1, found, faults => do
    if ← look TokenTape.atEnd? then
      return if faults.isEmpty then .ok found else .error faults
    let begun := (← get).tape.head
    match ← (statement settings).run with
    | .ok statement =>
      note (.parsed statement)
      program settings turns (found ++ [statement]) faults
    | .error d =>
      note (.failed d)
      recover begun
      program settings turns found (faults.add d)

def wholeExpression (limit : Nat) : Run Expr := do
  let e ← expression limit
  if ← ExceptT.lift (look TokenTape.atEnd?) then
    return e
  else
    refuse .trailingToken

/-- What becomes of a tape that is read as a program. -/
def readProgram (settings : Settings) (tape : TokenTape) :
    Option (Except (Report SyntaxFault) (List Statement) × Machine) :=
  program settings tape.tokens.length [] [] ⟨tape, 0⟩

/-- What becomes of a tape that is read as one expression. -/
def readExpression (settings : Settings) (tape : TokenTape) :
    Option (Except (Diagnostic SyntaxFault) Expr × Machine) :=
  wholeExpression settings.nestingLimit ⟨tape, 0⟩

end Machine

end LoxSyntax
