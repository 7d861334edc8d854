import LoxSyntax.Proofs.Machines
import LoxSyntax.Proofs.StatementWords

/-!
What every rule of the grammar keeps to when the machine runs it, at whatever token and depth it is
begun. A rule comes to an end at or behind the token where it was begun, not behind the end mark,
and leaves the depth as it was. If it succeeds it has read something. If it fails, the fault lies at
the token in view, and what it has read up to there are tokens of expressions, maybe behind the word
of the statement.
-/

namespace LoxSyntax

open Grammar

variable {α β : Type} {s behind : TokenStream}

namespace Reading

/-- Whatever it comes to, the reading of `s` passes only tokens of the given kinds. -/
def Passes (kinds : List Kind) (s : TokenStream) (reading : Reading α) : Prop :=
  ∃ w, s.After w reading.rest ∧ ∀ t ∈ w, t.kind ∈ kinds

variable {kinds : List Kind} {reading : Reading α}

theorem passes_of_rest_eq (h : reading.rest = s) : reading.Passes kinds s := by
  refine ⟨[], h ▸ .refl s, ?_⟩
  intro t ht
  cases ht

theorem Passes.of_take {wanted : List Kind} {t : Token} (h : reading.Passes kinds behind)
    (htake : s.take? wanted = some (t, behind)) (hwanted : ∀ k ∈ wanted, k ∈ kinds) :
    reading.Passes kinds s := by
  obtain ⟨w, hw, hkinds⟩ := h
  obtain ⟨hbehind, hkind⟩ := TokenStream.take?_eq_some htake
  refine ⟨t :: w, hbehind.trans hw, ?_⟩
  intro u hu
  rcases List.mem_cons.1 hu with rfl | hu
  · exact hwanted u.kind hkind
  · exact hkinds u hu

theorem Passes.bind {next : α → TokenStream → Reading β} (h : reading.Passes kinds s)
    (hnext : ∀ value rest, (next value rest).Passes kinds rest) :
    (reading.bind next).Passes kinds s := by
  obtain ⟨w, hw, hkinds⟩ := h
  cases reading with
  | stuck cause rest => exact ⟨w, hw, hkinds⟩
  | done value rest =>
    obtain ⟨v, hv, hmore⟩ := hnext value rest
    refine ⟨w ++ v, TokenStream.After.trans hw hv, ?_⟩
    intro t ht
    rcases List.mem_append.1 ht with ht | ht
    · exact hkinds t ht
    · exact hmore t ht

theorem Passes.map (h : reading.Passes kinds s) (f : α → β) : (reading.map f).Passes kinds s := by
  cases reading with
  | done value rest => exact h
  | stuck cause rest => exact h

theorem passes_expect {kind : Kind} (hkind : kind ∈ kinds) (cause : SyntaxFault) :
    (s.expect kind cause).Passes kinds s := by
  unfold TokenStream.expect
  split
  · rename_i t rest htake
    exact (passes_of_rest_eq rfl).of_take htake (by simpa using hkind)
  · exact passes_of_rest_eq rfl

/-- A reading that goes on with a step that moves only if it is done is stuck where it would be
without that step, or behind all that it read before. -/
theorem Passes.of_bind_stuck {next : α → TokenStream → Reading β} {cause : SyntaxFault}
    {rest : TokenStream} (h : reading.Passes kinds s)
    (hnext : ∀ value behind, next value behind = .stuck cause rest → rest = behind)
    (hstuck : reading.bind next = .stuck cause rest) :
    ∃ w, s.After w rest ∧ ∀ t ∈ w, t.kind ∈ kinds := by
  obtain ⟨w, hw, hkinds⟩ := h
  cases reading with
  | done value behind =>
    obtain rfl := hnext value behind hstuck
    exact ⟨w, hw, hkinds⟩
  | stuck found behind =>
    cases hstuck
    exact ⟨w, hw, hkinds⟩

end Reading

theorem TokenStream.rest_of_expect_stuck {kind : Kind} {cause found : SyntaxFault}
    {rest : TokenStream} {f : Token → α} (h : (s.expect kind cause).map f = .stuck found rest) :
    rest = s := by
  unfold expect at h
  split at h
  · cases h
  · cases h
    rfl

namespace Rule

/-- Whatever becomes of it, the rule passes only tokens that an expression can hold. -/
def ReadsExpression (rule : Rule α) : Prop :=
  ∀ s : TokenStream, s.Proper → (rule.read s).Passes expressionKinds s

/-- Where the rule is stuck it has passed only tokens that an expression can hold, apart from its
own word, which may come first if it has one. -/
def StuckInExpression (own : Prop) (rule : Rule α) : Prop :=
  ∀ (s : TokenStream) (cause : SyntaxFault) (rest : TokenStream), s.Proper →
    rule.read s = .stuck cause rest →
      ∃ w, s.After w rest ∧ ∀ (i : Nat) (t : Token), w[i]? = some t →
        t.kind ∈ expressionKinds ∨ own ∧ i = 0 ∧ t.kind = .word .printWord

/-- A rule that is stuck behind tokens of expressions alone has not passed a word of its own. -/
theorem stuckInExpression_of_passed {rule : Rule α} (own : Prop)
    (h : ∀ (s : TokenStream) (cause : SyntaxFault) (rest : TokenStream), s.Proper →
      rule.read s = .stuck cause rest →
        ∃ w, s.After w rest ∧ ∀ t ∈ w, t.kind ∈ expressionKinds) :
    rule.StuckInExpression own := by
  intro s cause rest hs hread
  obtain ⟨w, hw, hkinds⟩ := h s cause rest hs hread
  exact ⟨w, hw, fun i t ht => .inl (hkinds t (List.mem_of_getElem? ht))⟩

theorem ReadsExpression.stuckInExpression {rule : Rule α} (h : rule.ReadsExpression)
    (own : Prop) : rule.StuckInExpression own := by
  refine stuckInExpression_of_passed own fun s cause rest hs hread => ?_
  have hpasses := h s hs
  rw [hread] at hpasses
  exact hpasses

theorem readsExpression_never (cause : SyntaxFault) : (never cause : Rule α).ReadsExpression :=
  fun _ _ => Reading.passes_of_rest_eq rfl

end Rule

namespace Grammar

variable {value inner : Rule Expr}

theorem readsExpression_level (limit room n : Nat) :
    (level (unary limit room) n).ReadsExpression := by
  intro s hs
  have hexplained := explained limit room n hs
  cases hread : (level (unary limit room) n).read s with
  | done e rest =>
    rw [hread] at hexplained
    obtain ⟨w, hw, he, -⟩ := hexplained
    exact ⟨w, hw, he.written.kind_mem he.canonical⟩
  | stuck cause rest =>
    rw [hread] at hexplained
    obtain ⟨w, hw, hbreaks⟩ := hexplained
    exact ⟨w, hw, hbreaks.kind_mem⟩

theorem readsExpression_primary (h : inner.ReadsExpression) :
    (primary inner).ReadsExpression := by
  intro s hs
  unfold primary
  dsimp only
  split
  · rename_i t behind htake
    exact (Reading.passes_of_rest_eq rfl).of_take htake (by decide)
  split
  · rename_i t behind htake
    have hinner := h behind ((TokenStream.after_of_take? htake).proper hs)
    refine Reading.Passes.of_take (hinner.bind fun e rest => ?_) htake (by decide)
    exact (Reading.passes_expect (by decide) _).map _
  · exact Reading.passes_of_rest_eq rfl

theorem stuckInExpression_printStatement (h : value.ReadsExpression) (own : Prop) :
    (printStatement value).StuckInExpression own := by
  refine Rule.stuckInExpression_of_passed own fun s cause rest hs hread => ?_
  exact (h s hs).of_bind_stuck (fun e behind hstuck => TokenStream.rest_of_expect_stuck hstuck)
    hread

theorem stuckInExpression_bareStatement (terminator : Terminator) (h : value.ReadsExpression)
    (own : Prop) : (bareStatement terminator value).StuckInExpression own := by
  refine Rule.stuckInExpression_of_passed own fun s cause rest hs hread => ?_
  refine (h s hs).of_bind_stuck (fun e behind hstuck => ?_) hread
  cases terminator with
  | required => exact TokenStream.rest_of_expect_stuck hstuck
  | optional =>
    simp only [terminated] at hstuck
    split at hstuck
    · cases hstuck
    · cases hstuck

theorem stuckInExpression_statement (terminator : Terminator) (h : value.ReadsExpression) :
    (statement terminator value).StuckInExpression True := by
  intro s cause rest hs hread
  unfold statement at hread
  dsimp only at hread
  split at hread
  · rename_i word behind htake
    obtain ⟨hbehind, hword⟩ := TokenStream.take?_eq_some htake
    obtain ⟨w, hw, hkinds⟩ := stuckInExpression_printStatement h False behind cause rest
      (hbehind.proper hs) hread
    refine ⟨word :: w, hbehind.trans hw, ?_⟩
    intro i t ht
    cases i with
    | zero =>
      cases ht
      exact .inr ⟨trivial, rfl, List.mem_singleton.1 hword⟩
    | succ i =>
      rcases hkinds i t ht with hkind | ⟨hfalse, -⟩
      · exact .inl hkind
      · exact hfalse.elim
  · exact stuckInExpression_bareStatement terminator h True s cause rest hs hread

end Grammar

namespace Machine

/-- Operands joined by binary operators of tiers up to `n`. -/
def level (operand : Run Expr) : Nat → Run Expr
  | 0 => operand
  | n + 1 => chain (level operand n) (Grammar.operators n)

variable {depth : Nat} {operand : Run Expr} {rule : Rule Expr}

theorem reads_level (h : Reads depth operand rule.read) (n : Nat) :
    Reads depth (level operand n) (Grammar.level rule n).read := by
  induction n with
  | zero => exact h
  | succ n ih => exact reads_chain ih (Grammar.operators n)

/-- The rules of the grammar, by name. -/
inductive RuleName
  | expression
  | equality
  | comparison
  | term
  | factor
  | unary
  | primary
  | printStatement
  | bareStatement
  | statement
  deriving DecidableEq

namespace RuleName

/-- What a rule reads. -/
def Value : RuleName → Type
  | printStatement => Statement
  | bareStatement => Statement
  | statement => Statement
  | _ => Expr

/-- How the machine runs a rule. The one for a statement that prints is begun behind its word. -/
def run (settings : Settings) : (name : RuleName) → Run name.Value :=
  let limit := settings.nestingLimit
  let operand := Machine.unary limit (limit + 1)
  fun
  | expression => Machine.expression limit
  | equality => level operand 4
  | comparison => level operand 3
  | term => level operand 2
  | factor => level operand 1
  | unary => operand
  | primary => Machine.primary (nested limit (Machine.expression limit))
  | printStatement => Machine.printStatement (Machine.expression limit)
  | bareStatement => Machine.bareStatement settings.terminator (Machine.expression limit)
  | statement => Machine.statement settings

/-- The room that the depth leaves for what is nested in a grouping; at the limit there is none. -/
theorem exists_nested (limit depth : Nat) :
    ∃ inner : Rule Expr,
      Reads depth (nested limit (Machine.expression limit)) inner.read ∧
        inner.ReadsExpression := by
  by_cases hlimit : limit ≤ depth
  · exact ⟨.never (.nestedDeeperThan limit), .nested_of_le hlimit _,
      Rule.readsExpression_never _⟩
  · have hroom : limit - (depth + 1) < limit + 1 := by omega
    exact ⟨Grammar.level (Grammar.unary limit (limit - (depth + 1))) 4,
      (reads_level (reads_unary hroom) 4).nested (by omega),
      Grammar.readsExpression_level limit _ 4⟩

/-- Begun at any depth, a rule of the machine reads what some rule of the grammar does. -/
theorem exists_reads (settings : Settings) (name : RuleName) (depth : Nat) :
    ∃ rule : Rule name.Value, Reads depth (name.run settings) rule.read ∧
      rule.StuckInExpression (name = .statement) := by
  have hroom : settings.nestingLimit - depth < settings.nestingLimit + 1 := by omega
  have hlevel (n : Nat) : Reads depth
      (level (Machine.unary settings.nestingLimit (settings.nestingLimit + 1)) n)
      (Grammar.level (Grammar.unary settings.nestingLimit (settings.nestingLimit - depth))
        n).read :=
    reads_level (reads_unary hroom) n
  have hreads (n : Nat) := Grammar.readsExpression_level settings.nestingLimit
    (settings.nestingLimit - depth) n
  obtain ⟨inner, hinner, hnested⟩ := exists_nested settings.nestingLimit depth
  cases name with
  | expression => exact ⟨_, hlevel 4, (hreads 4).stuckInExpression _⟩
  | equality => exact ⟨_, hlevel 4, (hreads 4).stuckInExpression _⟩
  | comparison => exact ⟨_, hlevel 3, (hreads 3).stuckInExpression _⟩
  | term => exact ⟨_, hlevel 2, (hreads 2).stuckInExpression _⟩
  | factor => exact ⟨_, hlevel 1, (hreads 1).stuckInExpression _⟩
  | unary => exact ⟨_, hlevel 0, (hreads 0).stuckInExpression _⟩
  | primary =>
    exact ⟨_, reads_primary hinner, (readsExpression_primary hnested).stuckInExpression _⟩
  | printStatement =>
    exact ⟨_, reads_printStatement (hlevel 4), stuckInExpression_printStatement (hreads 4) _⟩
  | bareStatement =>
    exact ⟨_, reads_bareStatement (hlevel 4) settings.terminator,
      stuckInExpression_bareStatement settings.terminator (hreads 4) _⟩
  | statement =>
    have hown : (RuleName.statement = RuleName.statement) = True := eq_self _
    rw [hown]
    refine ⟨_, ?_, stuckInExpression_statement settings.terminator (hreads 4)⟩
    exact .take (fun _ => reads_printStatement (hlevel 4))
      (reads_bareStatement (hlevel 4) settings.terminator)

end RuleName

/-- What is kept by a rule that was begun at `m` and has come to `result` at `m'`. -/
structure Keeps (name : RuleName) (m m' : Machine)
    (result : Except (Diagnostic SyntaxFault) name.Value) : Prop where
  tokens_eq : m'.tape.tokens = m.tape.tokens
  depth_eq : m'.depth = m.depth
  head_le : m.tape.head ≤ m'.tape.head
  head_le_firstMark : m'.tape.head ≤ m.tape.firstMark
  /-- A rule that succeeds has read at least one token. -/
  head_lt : ∀ value, result = .ok value → m.tape.head < m'.tape.head
  /-- A fault lies at the token in view. -/
  position_eq : ∀ d, result = .error d →
    ∃ t, m'.tape.peek? = some t ∧ d.position = t.position
  /-- No semicolon and no word that begins a statement has been passed on the way to a fault, apart
  from the word of the statement itself. -/
  passed : ∀ d, result = .error d → ∀ i t, m.tape.head ≤ i → i < m'.tape.head →
    m.tape.tokens[i]? = some t → t.kind ≠ .symbol .semicolon ∧
      (t.OpensStatement → name = .statement ∧ i = m.tape.head ∧ t.kind = .word .printWord)

variable {m : Machine} {s : TokenStream}

theorem keeps_of_reads {settings : Settings} {name : RuleName} {rule : Rule name.Value}
    (hm : m.tape.Shows s) (hmark : s.index + s.pending.length = m.tape.firstMark)
    (hreads : Reads m.depth (name.run settings) rule.read)
    (hstuck : rule.StuckInExpression (name = .statement)) :
    ∃ result m', (name.run settings).run.run m = some (result, m') ∧
      Keeps name m m' result := by
  have hhead := hm.head_eq
  have hforward := rule.forward s
  obtain ⟨-, hrun⟩ := hreads m s hm rfl
  refine ⟨_, _, hrun, ?_⟩
  cases hread : rule.read s with
  | done value rest =>
    rw [hread] at hforward
    obtain ⟨t, taken, hafter⟩ := hforward
    have hlt : m.tape.head < rest.index := by
      rw [hhead, hafter.index_eq, List.length_cons]
      omega
    exact
      { tokens_eq := rfl
        depth_eq := rfl
        head_le := Nat.le_of_lt hlt
        head_le_firstMark := hmark ▸ hafter.index_le
        head_lt := fun _ _ => hlt
        position_eq := fun _ herror => nomatch herror
        passed := fun _ herror => nomatch herror }
  | stuck cause rest =>
    obtain ⟨w, hw, hkinds⟩ := hstuck s cause rest hm.proper hread
    have hle : m.tape.head ≤ rest.index := by
      rw [hhead, hw.index_eq]
      exact Nat.le_add_right _ _
    refine ⟨rfl, rfl, hle, hmark ▸ hw.index_le, ?_, ?_, ?_⟩
    · exact fun _ hok => nomatch hok
    · rintro _ ⟨⟩
      exact ⟨rest.peek, (hm.moved hw).peek?_eq, rfl⟩
    · intro _ _ i t hfrom hto ht
      rw [hm.getElem?_passed hw (hhead ▸ hfrom) hto] at ht
      rcases hkinds _ t ht with hkind | ⟨hname, hfirst, hword⟩
      · exact ⟨ne_semicolon_of_mem hkind,
          fun hopens => absurd hopens (Token.not_opensStatement_of_mem hkind)⟩
      · refine ⟨?_, fun _ => ⟨hname, ?_, hword⟩⟩
        · rw [hword]
          exact Kind.noConfusion
        · omega

/-- Begun at any token up to the end mark and at any depth, each rule of the grammar comes to a
result, and it keeps to what all rules keep to. -/
theorem exists_keeps (settings : Settings) (name : RuleName) {m : Machine} {start : TokenTape}
    (htokens : TokenTape.ofTokens m.tape.tokens = .ok start)
    (hhead : m.tape.head ≤ m.tape.firstMark) :
    ∃ result m', (name.run settings).run.run m = some (result, m') ∧
      Keeps name m m' result := by
  obtain ⟨s, hm, hmark⟩ := TokenTape.exists_shows_of_le htokens hhead
  obtain ⟨rule, hreads, hstuck⟩ := name.exists_reads settings m.depth
  exact keeps_of_reads hm hmark hreads hstuck

/-- One level below the limit a grouping can still be opened. That it is not closed is found at a
word that begins a statement, and of the words in front only the statement's own has been passed. -/
theorem exists_keeps_open_grouping :
    let tokens := [Word.printWord.token, Symbol.leftParen.token, Word.nilWord.token,
      Word.classWord.token, Token.mark]
    ∃ m', (RuleName.statement.run {}).run.run ⟨⟨tokens, 0, []⟩, 127⟩ =
        some (.error (Word.classWord.token.diagnostic .unclosedGrouping), m') ∧
      m'.tape.head = 3 ∧ m'.depth = 127 ∧
      ∀ i t, i < 3 → tokens[i]? = some t → t.OpensStatement → i = 0 := by
  intro tokens
  obtain ⟨result, m', hrun, hkeeps⟩ :=
    exists_keeps {} .statement (m := ⟨⟨tokens, 0, []⟩, 127⟩) rfl (Nat.zero_le _)
  have hstuck : ∃ log, (RuleName.statement.run {}).run.run ⟨⟨tokens, 0, []⟩, 127⟩ =
      some (.error (Word.classWord.token.diagnostic .unclosedGrouping), ⟨⟨tokens, 3, log⟩, 127⟩) :=
    ⟨_, rfl⟩
  obtain ⟨log, hstuck⟩ := hstuck
  cases hrun.symm.trans hstuck
  refine ⟨_, hstuck, rfl, hkeeps.depth_eq, fun i t hi ht hopens => ?_⟩
  exact ((hkeeps.passed _ rfl i t (Nat.zero_le i) hi ht).2 hopens).2.1

end Machine

end LoxSyntax
